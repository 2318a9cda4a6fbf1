import IronClaw.Agent.ToolCalls

/-!
# Pauses are transparent

What a turn runs should be the same as if nobody had been asked to approve. But in a channel that
others read such calls are denied, and the resumption does not ask the hooks.
-/

namespace IronClaw.Agent

open Foundation (Json Text)
open Llm (ChatMessage ToolCall)
open Tools (ToolRegistry)
open List (append_nil map_append map_cons map_nil)

/-- How far the calls have come: what was run and rejected, the context, what is next. -/
structure Progress where
  ran : List Ran
  rejected : List ToolCall
  context : List ChatMessage
  outcome : LoopOutcome

def dispatchCalls (chat : Chat) (autoApproved : List Text) (messages : List ChatMessage)
    (calls : List ToolCall) : Progress :=
  let r := executeToolCalls chat autoApproved messages calls
  ⟨r.1.ran, r.1.rejected, messages ++ r.1.messages, r.2⟩

namespace Progress

def approve (chat : Chat) (p : Progress) (autoApproved : List Text) : Progress :=
  match p.outcome with
  | .needApproval pending =>
    let r := processApproval chat autoApproved pending
    ⟨p.ran ++ r.1.ran, p.rejected ++ r.1.rejected, pending.contextMessages ++ r.1.messages, r.2⟩
  | _ => p

def waiting (p : Progress) : List ToolCall :=
  match p.outcome with
  | .needApproval pending => pending.call :: pending.deferredToolCalls
  | _ => []

def Kept (p : Progress) : Prop :=
  ∀ pending, p.outcome = .needApproval pending → pending.contextMessages = p.context

end Progress

def singlePass (chat : Chat) (autoApproved : List Text) (messages : List ChatMessage)
    (calls : List ToolCall) : Progress :=
  dispatchCalls { chat with autoApproveTools := true } autoApproved messages calls

section Accounts

variable {chat : Chat} {autoApproved : List Text} {p : Progress}

def Chat.run (chat : Chat) (call : ToolCall) : Ran := ⟨call, chat.executeChatTool call⟩

def Chat.resumed (chat : Chat) (call : ToolCall) : ChatMessage :=
  chat.resumedResult call (chat.executeChatTool call).result

def Progress.allRan (chat : Chat) (p : Progress) : List Ran := p.ran ++ p.waiting.map chat.run

def Progress.allContext (chat : Chat) (p : Progress) : List ChatMessage :=
  p.context ++ p.waiting.map chat.resumed

def ApprovalNeeded.calls (needed : ApprovalNeeded) : List ToolCall :=
  needed.call :: needed.deferred

theorem waiting_loopOutcome {ran : List Ran} {rejected : List ToolCall}
    {context messages : List ChatMessage} {b : Batch} {approval : Option ApprovalNeeded} :
    (Progress.mk ran rejected context (loopOutcome messages b approval)).waiting =
      (approval.map ApprovalNeeded.calls).getD [] := by
  unfold Progress.waiting loopOutcome
  cases approval with
  | some needed => rfl
  | none =>
    cases b.authPrompt with
    | none => rfl
    | some prompt => by_cases h : prompt.awaitingToken = true <;> simp [h]

theorem kept_loopOutcome {ran : List Ran} {rejected : List ToolCall}
    {messages : List ChatMessage} {b : Batch} {approval : Option ApprovalNeeded} :
    (Progress.mk ran rejected (messages ++ b.messages) (loopOutcome messages b approval)).Kept := by
  intro pending hpending
  unfold loopOutcome at hpending
  cases approval with
  | some needed =>
    cases hpending
    rfl
  | none =>
    cases h : b.authPrompt with
    | none => simp [h] at hpending
    | some prompt => by_cases h' : prompt.awaitingToken = true <;> simp [h, h'] at hpending

theorem preflightDeferred_split (chat : Chat) (autoApproved : List Text) (calls : List ToolCall) :
    (preflightDeferred chat autoApproved calls).1 ++
      ((preflightDeferred chat autoApproved calls).2.map ApprovalNeeded.calls).getD [] = calls := by
  rcases preflightDeferred_cases chat autoApproved calls with
    ⟨-, hpre⟩ | ⟨front, call, back, allowAlways, rfl, -, -, hpre⟩
  · rw [hpre]
    simp
  · rw [hpre]
    rfl

theorem approve_accounts (hkept : p.Kept) (chat : Chat) (autoApproved : List Text) :
    (p.approve chat autoApproved).Kept ∧ (p.approve chat autoApproved).allRan chat = p.allRan chat ∧
      (p.approve chat autoApproved).rejected = p.rejected ∧
      (p.approve chat autoApproved).allContext chat = p.allContext chat := by
  unfold Progress.approve
  split
  case h_2 h => exact ⟨hkept, rfl, rfl, rfl⟩
  case h_1 pending hpending =>
    have hwaiting : p.waiting = pending.call :: pending.deferredToolCalls := by
      rw [Progress.waiting, hpending]
    have hcontext := hkept pending hpending
    have hsplit := preflightDeferred_split chat autoApproved pending.deferredToolCalls
    obtain ⟨hran, hrejected, hmessages⟩ := resume_append chat
      (Batch.start (chat.restoreSelectedAuthPrompt pending.selectedAuthPrompt))
      (pending.call :: (preflightDeferred chat autoApproved pending.deferredToolCalls).1)
    refine ⟨kept_loopOutcome, ?_, ?_, ?_⟩
    · simp only [Progress.allRan, processApproval, waiting_loopOutcome, hran, hwaiting,
        List.append_assoc]
      congr 1
      conv_rhs => rw [← hsplit]
      simp [Batch.start, Chat.run]
    · simp only [processApproval, hrejected]
      simp [Batch.start]
    · simp only [Progress.allContext, processApproval, waiting_loopOutcome, hmessages, hwaiting,
        List.append_assoc, hcontext]
      congr 1
      conv_rhs => rw [← hsplit]
      simp [Batch.start, Chat.resumed]

theorem waiting_approve (p : Progress) (chat : Chat) (autoApproved : List Text) :
    (p.approve chat autoApproved).waiting.length ≤ p.waiting.length - 1 := by
  unfold Progress.approve
  split
  case h_1 pending hpending =>
    have hwaiting : p.waiting = pending.call :: pending.deferredToolCalls := by
      rw [Progress.waiting, hpending]
    have hsplit := congrArg List.length (preflightDeferred_split chat autoApproved
      pending.deferredToolCalls)
    rw [List.length_append] at hsplit
    simp only [processApproval, waiting_loopOutcome, hwaiting, List.length_cons]
    omega
  case h_2 hgoes =>
    have hnone : p.waiting = [] := by
      unfold Progress.waiting
      split
      · rename_i pending hpending
        exact absurd hpending (hgoes pending)
      · rfl
    simp [hnone]

theorem approvals_accounts (hkept : p.Kept) (chat : Chat) (approvals : List (List Text)) :
    (approvals.foldl (Progress.approve chat) p).allRan chat = p.allRan chat ∧
      (approvals.foldl (Progress.approve chat) p).rejected = p.rejected ∧
      (approvals.foldl (Progress.approve chat) p).allContext chat = p.allContext chat := by
  induction approvals generalizing p with
  | nil => exact ⟨rfl, rfl, rfl⟩
  | cons autoApproved rest ih =>
    obtain ⟨hkept', hran, hrejected, hcontext⟩ :=
      approve_accounts hkept chat autoApproved
    obtain ⟨hran', hrejected', hcontext'⟩ := ih hkept'
    exact ⟨hran'.trans hran, hrejected'.trans hrejected, hcontext'.trans hcontext⟩

theorem waiting_approvals (p : Progress) (chat : Chat) (approvals : List (List Text)) :
    (approvals.foldl (Progress.approve chat) p).waiting.length ≤
      p.waiting.length - approvals.length := by
  induction approvals generalizing p with
  | nil => simp
  | cons autoApproved rest ih =>
    have hstep := waiting_approve p chat autoApproved
    have hrest := ih (p.approve chat autoApproved)
    simp only [List.foldl_cons, List.length_cons]
    omega

end Accounts

section Dispatch

variable {chat : Chat} {autoApproved : List Text} {messages : List ChatMessage}
  {calls : List ToolCall}

def Chat.entry (chat : Chat) (original : ToolCall) : ToolCall × PreflightOutcome :=
  match chat.beforeToolCall original with
  | .error message => (original, .rejected message)
  | .ok arguments => ({ original with arguments }, .runnable)

theorem check_unasked (original : ToolCall) :
    ({ chat with autoApproveTools := true } : Chat).check autoApproved original =
      .settled (chat.entry original) := by
  have hhooks : ({ chat with autoApproveTools := true } : Chat).beforeToolCall original =
      chat.beforeToolCall original := rfl
  unfold Chat.check Chat.entry Chat.decide
  rw [hhooks]
  cases chat.beforeToolCall original <;> rfl

theorem singlePass_eq (chat : Chat) (autoApproved : List Text) (messages : List ChatMessage)
    (calls : List ToolCall) : (singlePass chat autoApproved messages calls).ran =
      (calls.map chat.entry).flatMap chat.ranOf ∧
    (singlePass chat autoApproved messages calls).rejected =
      (calls.map chat.entry).flatMap rejectedOf ∧
    (singlePass chat autoApproved messages calls).context =
      messages ++ (calls.map chat.entry).map chat.resultOf := by
  have hsettled : (preflight { chat with autoApproveTools := true } autoApproved calls).settled =
      calls.map chat.entry := by
    rw [settled_preflight, List.takeWhile_eq_self_iff.mpr]
    · simp [check_unasked, Checked.entry]
    · simp [check_unasked, Checked.entry]
  obtain ⟨hran, hrejected, hmessages⟩ := postflight_append
    { chat with autoApproveTools := true } (.start none)
    (preflight { chat with autoApproveTools := true } autoApproved calls).settled
  refine ⟨hran.trans ?_, hrejected.trans ?_, congrArg (messages ++ ·) (hmessages.trans ?_)⟩ <;>
    rw [hsettled] <;> rfl

theorem kept_dispatch (chat : Chat) (autoApproved : List Text) (messages : List ChatMessage)
    (calls : List ToolCall) : (dispatchCalls chat autoApproved messages calls).Kept :=
  kept_loopOutcome

variable {entries : List (ToolCall × PreflightOutcome)}

theorem dispatch_accounts (messages : List ChatMessage) {approval : Option ApprovalNeeded}
    (hpre : preflight chat autoApproved calls = ⟨entries, approval⟩) :
    (dispatchCalls chat autoApproved messages calls).allRan chat = entries.flatMap chat.ranOf ++
        ((approval.map ApprovalNeeded.calls).getD []).map chat.run ∧
      (dispatchCalls chat autoApproved messages calls).rejected = entries.flatMap rejectedOf ∧
      (dispatchCalls chat autoApproved messages calls).allContext chat = messages ++
        (entries.map chat.resultOf ++
          ((approval.map ApprovalNeeded.calls).getD []).map chat.resumed) := by
  obtain ⟨hran, hrejected, hmessages⟩ := postflight_append chat (.start none) entries
  simp only [dispatchCalls, executeToolCalls, Progress.allRan, Progress.allContext,
    waiting_loopOutcome, hpre, hran, hrejected, hmessages]
  simp [Batch.start]

theorem waiting_dispatch {approval : Option ApprovalNeeded}
    (hpre : preflight chat autoApproved calls = ⟨entries, approval⟩) :
    (dispatchCalls chat autoApproved messages calls).waiting =
      (approval.map ApprovalNeeded.calls).getD [] := by
  simp only [dispatchCalls, executeToolCalls, waiting_loopOutcome, hpre]

theorem resultOf_resumed (call : ToolCall) : (chat.resumed call).resultOf = some call.id := rfl

theorem resultOf_entry (entry : ToolCall × PreflightOutcome) :
    (chat.resultOf entry).resultOf = some entry.1.id := by
  obtain ⟨call, error | -⟩ := entry
  · rfl
  · unfold Chat.resultOf Chat.dispatchedResult
    dsimp only
    split <;> rfl

theorem check_id {original : ToolCall} :
    (∀ entry, chat.check autoApproved original = .settled entry → entry.1.id = original.id) ∧
      ∀ call allowAlways, chat.check autoApproved original = .paused call allowAlways →
        call.id = original.id := by
  unfold Chat.check
  cases chat.beforeToolCall original with
  | error message => simp
  | ok arguments =>
    cases h : chat.decide autoApproved { original with arguments } <;> simp [h]

theorem ids_of_settled {front : List ToolCall}
    (h : front.map (chat.check autoApproved) = entries.map .settled) :
    (entries.map chat.resultOf).map ChatMessage.resultOf = front.map fun d => some d.id := by
  induction front generalizing entries with
  | nil =>
    cases entries with
    | nil => rfl
    | cons entry entries => simp at h
  | cons d front ih =>
    cases entries with
    | nil => simp at h
    | cons entry entries =>
      obtain ⟨hd, hfront⟩ := List.cons.inj h
      have hid := check_id.1 entry hd
      simp [resultOf_entry, hid, ih hfront]

theorem results_dispatch : ∃ results,
    (dispatchCalls chat autoApproved messages calls).allContext chat = messages ++ results ∧
      results.map ChatMessage.resultOf = calls.map fun d => some d.id := by
  rcases preflight_cases chat autoApproved calls with
    ⟨entries, hmap, hpre⟩ | ⟨front, original, back, entries, call, allowAlways, rfl, hmap, hpaused,
      hpre⟩
  · refine ⟨_, (dispatch_accounts messages hpre).2.2, ?_⟩
    simpa using ids_of_settled hmap
  · refine ⟨_, (dispatch_accounts messages hpre).2.2, ?_⟩
    have hid := check_id.2 call allowAlways hpaused
    have hfront := ids_of_settled hmap
    rw [map_append, hfront]
    simp [ApprovalNeeded.calls, resultOf_resumed, hid, Function.comp_def]

def Chat.NoImage (chat : Chat) (call : ToolCall) : Prop :=
  chat.imageResult call (chat.executeChatTool call).result = none

/-- No channel that others read, and behind a call to approve, no hook interferes and no result is
an image. -/
structure Chat.Quiet (chat : Chat) (autoApproved : List Text) (calls : List ToolCall) : Prop where
  relay : chat.isSharedRelay = false
  behind : ∀ front paused back arguments, calls = front ++ paused :: back →
    chat.beforeToolCall paused = .ok arguments →
    chat.NeedsApproval autoApproved { paused with arguments } →
    chat.NoImage { paused with arguments } ∧
      ∀ d ∈ back, chat.beforeToolCall d = .ok d.arguments ∧ chat.NoImage d

theorem check_entry (hrelay : chat.isSharedRelay = false) (autoApproved : List Text)
    (original : ToolCall) :
    chat.check autoApproved original = .settled (chat.entry original) ∨
      ∃ arguments allowAlways, chat.beforeToolCall original = .ok arguments ∧
        chat.NeedsApproval autoApproved { original with arguments } ∧
        chat.check autoApproved original = .paused { original with arguments } allowAlways := by
  unfold Chat.check Chat.entry
  cases chat.beforeToolCall original with
  | error message => exact .inl rfl
  | ok arguments =>
    unfold Chat.decide Chat.NeedsApproval
    by_cases hask : chat.autoApproveTools = true
    · simp [hask]
    cases htool : chat.host.tools.get original.name with
    | none => simp [hask, htool]
    | some tool =>
      by_cases hneeds : needsApproval autoApproved tool original.name arguments = true
      · exact .inr ⟨arguments, tool.requiresApproval arguments != .always, rfl,
          ⟨tool, htool, hneeds⟩, by simp [hask, htool, hneeds, hrelay]⟩
      · simp [hask, htool, hneeds]

theorem entries_of_settled {front : List ToolCall} (hrelay : chat.isSharedRelay = false)
    (h : front.map (chat.check autoApproved) = entries.map .settled) :
    entries = front.map chat.entry := by
  induction front generalizing entries with
  | nil => simpa using h.symm
  | cons d front ih =>
    cases entries with
    | nil => simp at h
    | cons entry entries =>
      obtain ⟨hd, hfront⟩ := List.cons.inj h
      rcases check_entry hrelay autoApproved d with
        hsettled | ⟨arguments, allowAlways, -, -, hpaused⟩
      · rw [hsettled] at hd
        cases hd
        rw [ih hfront]
        rfl
      · rw [hpaused] at hd
        cases hd

theorem resumed_eq {call : ToolCall} (h : chat.NoImage call) :
    chat.resultOf (call, .runnable) = chat.resumed call := by
  rw [Chat.NoImage] at h
  simp only [Chat.resultOf, Chat.dispatchedResult, h]
  rfl

theorem waiting_as_entries {waiting : List ToolCall} (h : ∀ d ∈ waiting, chat.NoImage d) :
    (waiting.map fun d => (d, PreflightOutcome.runnable)).flatMap chat.ranOf =
        waiting.map chat.run ∧
      (waiting.map fun d => (d, PreflightOutcome.runnable)).flatMap rejectedOf = [] ∧
      (waiting.map fun d => (d, PreflightOutcome.runnable)).map chat.resultOf =
        waiting.map chat.resumed := by
  induction waiting with
  | nil => exact ⟨rfl, rfl, rfl⟩
  | cons d rest ih =>
    obtain ⟨hran, hrejected, hresults⟩ := ih fun d hd => h d (.tail _ hd)
    have hd := resumed_eq (h d List.mem_cons_self)
    refine ⟨?_, ?_, ?_⟩
    · rw [map_cons, List.flatMap_cons, hran]
      rfl
    · rw [map_cons, List.flatMap_cons, hrejected]
      rfl
    · rw [map_cons, map_cons, hresults, hd]
      rfl

theorem accounts_eq_singlePass (hquiet : chat.Quiet autoApproved calls)
    (messages : List ChatMessage) : (dispatchCalls chat autoApproved messages calls).allRan chat =
        (singlePass chat autoApproved messages calls).ran ∧
      (dispatchCalls chat autoApproved messages calls).rejected =
        (singlePass chat autoApproved messages calls).rejected ∧
      (dispatchCalls chat autoApproved messages calls).allContext chat =
        (singlePass chat autoApproved messages calls).context := by
  obtain ⟨hran, hrejected, hcontext⟩ := singlePass_eq chat autoApproved messages
    calls
  rw [hran, hrejected, hcontext]
  rcases preflight_cases chat autoApproved calls with
    ⟨entries, hmap, hpre⟩ | ⟨front, original, back, entries, call, allowAlways, rfl, hmap, hpaused,
      hpre⟩
  · obtain ⟨hran', hrejected', hcontext'⟩ := dispatch_accounts messages hpre
    rw [hran', hrejected', hcontext', entries_of_settled hquiet.relay hmap]
    simp
  · obtain ⟨hran', hrejected', hcontext'⟩ := dispatch_accounts messages hpre
    -- the call is paused because it must be approved, with the arguments that the hooks left
    obtain hsettled | ⟨arguments, allowAlways', hhooks, hneeds, hcall⟩ :=
      check_entry hquiet.relay autoApproved original
    · rw [hpaused] at hsettled
      cases hsettled
    rw [hpaused] at hcall
    cases hcall
    obtain ⟨hnoImage, hback⟩ := hquiet.behind front original back arguments rfl hhooks hneeds
    have hentry : chat.entry original = ({ original with arguments }, .runnable) := by
      rw [Chat.entry, hhooks]
    have hentries : back.map chat.entry = back.map fun d => (d, PreflightOutcome.runnable) := by
      apply List.map_congr_left
      intro d hd
      rw [Chat.entry, (hback d hd).1]
    have hwaiting : ∀ d ∈ { original with arguments } :: back, chat.NoImage d := by
      intro d hd
      rcases List.mem_cons.mp hd with rfl | hd
      · exact hnoImage
      · exact (hback d hd).2
    obtain ⟨hran'', hrejected'', hresults''⟩ := waiting_as_entries hwaiting
    rw [hran', hrejected', hcontext', entries_of_settled hquiet.relay hmap, map_append,
      map_cons, hentry, hentries, List.flatMap_append, List.flatMap_append, map_append]
    simp only [map_cons] at hran'' hrejected'' hresults''
    rw [hran'', hrejected'', map_cons, ← map_cons, hresults'', append_nil]
    exact ⟨rfl, rfl, rfl⟩

end Dispatch

def Progress.Settled (p : Progress) : Prop := p.waiting = []

/-- **Pauses are transparent.** Approvals settle the calls, each with one result in order; quiet
chats do as in the single pass. -/
theorem pause_transparent {chat : Chat} {autoApproved : List Text} {messages : List ChatMessage}
    {calls : List ToolCall} {approvals : List (List Text)} {p : Progress}
    (hrun : approvals.foldl (Progress.approve chat)
      (dispatchCalls chat autoApproved messages calls) = p) :
    (calls.length ≤ approvals.length → p.Settled) ∧ (p.Settled →
        (∃ results, p.context = messages ++ results ∧
          results.map ChatMessage.resultOf = calls.map fun d => some d.id) ∧
        (chat.Quiet autoApproved calls → p.ran = (singlePass chat autoApproved messages calls).ran ∧
          p.rejected = (singlePass chat autoApproved messages calls).rejected ∧
          p.context = (singlePass chat autoApproved messages calls).context)) := by
  subst hrun
  constructor
  · intro henough
    have hwaiting := waiting_approvals (dispatchCalls chat autoApproved messages calls) chat
      approvals
    have hle : (dispatchCalls chat autoApproved messages calls).waiting.length ≤ calls.length := by
      rcases preflight_cases chat autoApproved calls with
        ⟨entries, -, hpre⟩ | ⟨front, original, back, entries, call, allowAlways, rfl, -, -, hpre⟩
      · rw [waiting_dispatch hpre]
        simp
      · rw [waiting_dispatch hpre]
        simp [ApprovalNeeded.calls]
    apply List.length_eq_zero_iff.mp
    omega
  · intro hsettled
    obtain ⟨hran, hrejected, hcontext⟩ := approvals_accounts
      (kept_dispatch chat autoApproved messages calls) chat approvals
    -- nothing waits, so the accounts are what was run and added
    rw [Progress.allRan, hsettled, map_nil, append_nil] at hran
    rw [Progress.allContext, hsettled, map_nil, append_nil] at hcontext
    constructor
    · rw [hcontext]
      exact results_dispatch
    · intro hquiet
      obtain ⟨hran', hrejected', hcontext'⟩ := accounts_eq_singlePass hquiet messages
      exact ⟨hran.trans hran', hrejected.trans hrejected', hcontext.trans hcontext'⟩

def imageRun (call : ToolCall) (_ : Json) : Tools.ToolRun :=
  if call.name = "image_generate".toList then .output "image".toList else .output []

def deployChat (channel : String) (hooks : Hooks.HookRegistry) : Chat where
  host := ⟨((∅ : ToolRegistry).insert "deploy".toList
      ⟨⟨"deploy".toList, [], fun params => params⟩, fun _ => .always, none, none⟩).insert
      "image_generate".toList
      ⟨⟨"image_generate".toList, [], fun params => params⟩, fun _ => .never, none, none⟩,
    fun _ => ⟨true, []⟩⟩
  codec := ⟨fun _ => some (.obj [("type".toList, .str "image_generated".toList)]), fun _ => []⟩
  hooks := hooks
  safety := ⟨fun _ text => text, fun _ text => text⟩
  showDuration := fun _ => []
  extensionName := fun _ => none
  sanitizeAuthUrl := fun url => url
  autoApproveTools := false
  userId := "user".toList
  channel := channel.toList
  metadata := .null
  ends := imageRun

def deployCall (id : String) : ToolCall := ⟨id.toList, "deploy".toList, .null, none⟩

def imageCall : ToolCall := ⟨"2".toList, "image_generate".toList, .null, none⟩

def imageHook : Hooks.HookEntry :=
  ⟨⟨"images".toList, [.beforeToolCall], .failClosed, [], fun event =>
    if event.toolName = "image_generate".toList then .outcome (.reject [])
    else .outcome .ok⟩, 0⟩

theorem two_approvals : ([[], []].foldl (Progress.approve (deployChat "web" []))
      (dispatchCalls (deployChat "web" []) [] [] [deployCall "1", deployCall "2"])).ran =
    (singlePass (deployChat "web" []) [] [] [deployCall "1", deployCall "2"]).ran := by
  have htransparent := @pause_transparent (deployChat "web" []) [] []
    [deployCall "1", deployCall "2"] [[], []] _ rfl
  refine ((htransparent.2 (htransparent.1 (Nat.le_refl 2))).2 ⟨rfl, ?_⟩).1
  intro front paused back arguments hcalls hhooks _
  have hmem : ∀ d ∈ paused :: back, d = deployCall "1" ∨ d = deployCall "2" := by
    intro d hd
    have hd' := List.mem_append_right front hd
    rw [← hcalls] at hd'
    simpa using hd'
  cases hhooks
  refine ⟨?_, fun d hd => ?_⟩
  · rcases hmem paused List.mem_cons_self with rfl | rfl <;> rfl
  · rcases hmem d (.tail _ hd) with rfl | rfl <;> exact ⟨rfl, rfl⟩

/-- Where others read, a call is denied; behind a pause, a rejected call is run and an image is
added. -/
theorem pause_differs : (dispatchCalls (deployChat "slack-relay" []) [] [] [deployCall "1"]).ran ≠
        (singlePass (deployChat "slack-relay" []) [] [] [deployCall "1"]).ran ∧
      ([[]].foldl (Progress.approve (deployChat "web" [imageHook]))
          (dispatchCalls (deployChat "web" [imageHook]) [] [] [deployCall "1", imageCall])).ran ≠
        (singlePass (deployChat "web" [imageHook]) [] [] [deployCall "1", imageCall]).ran ∧
      ([[]].foldl (Progress.approve (deployChat "web" []))
          (dispatchCalls (deployChat "web" []) [] [] [deployCall "1", imageCall])).context ≠
        (singlePass (deployChat "web" []) [] [] [deployCall "1", imageCall]).context := by
  refine ⟨fun h => ?_, fun h => ?_, fun h => ?_⟩
  · cases h
  · cases h
  · cases h

end IronClaw.Agent
