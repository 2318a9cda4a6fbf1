import IronClaw.Agent.Compaction
import IronClaw.Agent.ToolCalls
import IronClaw.Foundation.Run

/-!
# The agentic loop of a chat

The loop calls the model, and returns a text, or executes tool calls. It nudges a model that only
announces a call, and warns one that repeats calls or cuts them off. A context that is too long is
compacted once.
-/

namespace IronClaw.Agent

open Foundation (Text run Along Throughout)
open Llm (ChatMessage ToolCall)

structure DuplicateToolCallTracker where
  lastFingerprint : Option UInt64
  consecutiveCount : Nat

namespace DuplicateToolCallTracker

def new : DuplicateToolCallTracker := ⟨none, 0⟩

def recordWithFingerprint (tracker : DuplicateToolCallTracker) (fp : UInt64) (allFailed : Bool) :
    DuplicateToolCallTracker :=
  if allFailed && tracker.lastFingerprint == some fp then
    { tracker with consecutiveCount := tracker.consecutiveCount + 1 }
  else if allFailed then ⟨some fp, 1⟩
  else ⟨some fp, 0⟩

end DuplicateToolCallTracker

def duplicateWarningThreshold : Nat := 3

def duplicateForceTextThreshold : Nat := 5

def duplicateToolCallWarning : ChatMessage :=
  .user ("You have repeated the exact same failing tool call multiple times. " ++
    "The tool is returning the same error each time. " ++
    "Please try a DIFFERENT approach — use different parameters, a different tool, " ++
    "or explain to the user what went wrong and what alternatives exist.").toList

def toolIntentNudge : ChatMessage :=
  .user ("You said you would perform an action, but you did not include any tool calls.\n" ++
    "Do NOT describe what you intend to do — actually call the tool now.\n" ++
    "Use the tool_calls mechanism to invoke the appropriate tool.").toList

def truncatedToolCallNotice : ChatMessage :=
  .user ("Your previous response was truncated while generating tool call parameters. " ++
    "The tool calls were discarded. Please try a different approach — " ++
    "summarize or transform the data instead of echoing it verbatim in a tool call.").toList

def limitNudge : ChatMessage :=
  .system ("You are approaching the tool call limit. " ++
    "Provide your best final answer on the next response " ++
    "using the information you have gathered so far. " ++
    "Do not call any more tools.").toList

@[simp] theorem role_duplicateToolCallWarning : duplicateToolCallWarning.role = .user := rfl

@[simp] theorem role_toolIntentNudge : toolIntentNudge.role = .user := rfl

@[simp] theorem role_truncatedToolCallNotice : truncatedToolCallNotice.role = .user := rfl

@[simp] theorem role_limitNudge : limitNudge.role = .system := rfl

/-- The configuration of loop and chat, how an announced call is recognised, and fingerprints. -/
structure LoopHost where
  maxIterations : Nat
  enableToolIntentNudge : Bool
  maxToolIntentNudges : Nat
  nudgeAt : Nat
  forceTextAt : Nat
  signalsToolIntent : Text → Bool
  fingerprint : List ToolCall → UInt64

/-- What an iteration does next. A call is made at most twice. -/
inductive LoopPhase where
  | checking
  | preparing
  | calling
  | retrying
  | finished
deriving DecidableEq

structure LoopState where
  phase : LoopPhase
  iteration : Nat
  messages : List ChatMessage
  availableTools : List Text
  forceText : Bool
  consecutiveToolIntentNudges : Nat
  truncationCount : Nat
  dupTracker : DuplicateToolCallTracker
  turn : List ChatMessage

namespace LoopState

def push (s : LoopState) (added : List ChatMessage) : LoopState :=
  { s with messages := s.messages ++ added, turn := s.turn ++ added }

def finish (s : LoopState) : LoopState := { s with phase := .finished }

def next (host : LoopHost) (s : LoopState) : LoopState :=
  if s.iteration < host.maxIterations then
    { s with phase := .checking, iteration := s.iteration + 1 }
  else s.finish

end LoopState

inductive LoopSignal where
  | continue
  | stop
  | injectMessage (content : Text)

inductive FinishReason where
  | stop
  | length
  | toolUse
  | contentFilter
  | unknown
deriving DecidableEq

/-- What happens to a loop: a signal, what it reads, a failure, or a reply of the model. -/
inductive LoopEvent where
  | signal (signal : LoopSignal)
  | beforeLlmCall (toolDefs : Option (List Text))
  | contextLengthExceeded
  | failed
  | text (text : Text)
  | toolCalls (calls : List ToolCall) (content : Option Text) (finishReason : FinishReason)
      (chat : Chat) (autoApproved : List Text)

section Loop

variable (host : LoopHost)

/-- A user message of the delegate is added; a stop ends the loop. -/
def checkSignals (s : LoopState) : LoopSignal → LoopState
  | .continue => { s with phase := .preparing }
  | .stop => s.finish
  | .injectMessage content => { s.push [.user content] with phase := .preparing }

/-- The chat warns the model near the limit, and refreshes the tools. -/
def beforeLlmCall (s : LoopState) (toolDefs : Option (List Text)) : LoopState :=
  let s := if s.iteration = host.nudgeAt then s.push [limitNudge] else s
  match toolDefs with
  | none => { s with phase := .calling }
  | some tools =>
    { s with
      phase := .calling
      availableTools := tools
      forceText := decide (host.forceTextAt ≤ s.iteration) || s.forceText }

def retryCall (s : LoopState) : LoopState :=
  { s with
    phase := .retrying
    messages := compactMessagesForRetry s.messages
    availableTools := if s.forceText then [] else s.availableTools }

/-- A text that announces a tool call is not accepted. -/
def nudges (s : LoopState) (text : Text) : Bool :=
  host.enableToolIntentNudge && !s.availableTools.isEmpty && !s.forceText &&
    decide (s.consecutiveToolIntentNudges < host.maxToolIntentNudges) && host.signalsToolIntent text

def onText (s : LoopState) (text : Text) : LoopState :=
  if nudges host s text then
    LoopState.next host { s.push [.assistant text, toolIntentNudge] with
      consecutiveToolIntentNudges := s.consecutiveToolIntentNudges + 1 }
  else
    { s with
      phase := .finished
      -- an announcement that is let pass leaves the count as it is
      consecutiveToolIntentNudges :=
        if host.signalsToolIntent text then s.consecutiveToolIntentNudges else 0
      dupTracker := .new }

def onTruncated (s : LoopState) (content : Option Text) : LoopState :=
  let count := s.truncationCount + 1
  LoopState.next host { s.push (content.toList.map .assistant ++ [truncatedToolCallNotice]) with
    truncationCount := count
    forceText := s.forceText || decide (3 ≤ count) }

def allFailed (b : Batch) : Bool :=
  !b.messages.isEmpty && b.ran.all fun r => !r.invocation.result.isOk

/-- The warning about repeated failing calls, and whether the model must answer with a text. -/
def warn (s : LoopState) (count : Nat) : LoopState :=
  if duplicateForceTextThreshold ≤ count then
    { s.push [duplicateToolCallWarning] with forceText := true }
  else if duplicateWarningThreshold ≤ count then s.push [duplicateToolCallWarning]
  else s

def execute (s : LoopState) (calls : List ToolCall) (content : Option Text) (chat : Chat)
    (autoApproved : List Text) : Batch × LoopOutcome :=
  executeToolCalls chat autoApproved (s.messages ++ [.assistantWithToolCalls content calls]) calls

def tracked (s : LoopState) (calls : List ToolCall) (b : Batch) : DuplicateToolCallTracker :=
  s.dupTracker.recordWithFingerprint (host.fingerprint calls) (allFailed b)

def onToolCalls (s : LoopState) (calls : List ToolCall) (content : Option Text) (chat : Chat)
    (autoApproved : List Text) : LoopState :=
  let executed := execute s calls content chat autoApproved
  let s' := { s.push (.assistantWithToolCalls content calls :: executed.1.messages) with
    consecutiveToolIntentNudges := 0
    truncationCount := 0 }
  match executed.2 with
  | .goOn =>
    let tracker := tracked host s calls executed.1
    LoopState.next host (warn { s' with dupTracker := tracker } tracker.consecutiveCount)
  -- the turn waits for an approval or a login, and nothing is recorded about its calls
  | _ => s'.finish

def LoopState.called (s : LoopState) : Bool := s.phase = .calling || s.phase = .retrying

def loopStep (s : LoopState) : LoopEvent → Option LoopState
  | .signal signal => if s.phase = .checking then some (checkSignals s signal) else none
  | .beforeLlmCall toolDefs =>
    if s.phase = .preparing then some (beforeLlmCall host s toolDefs) else none
  | .contextLengthExceeded => if s.phase = .calling then some (retryCall s) else none
  | .failed => if s.called then some s.finish else none
  | .text text => if s.called then some (onText host s text) else none
  | .toolCalls calls content finishReason chat autoApproved =>
    if s.called then
      if finishReason = .length then some (onTruncated host s content)
      else some (onToolCalls host s calls content chat autoApproved)
    else none

def startLoop (history turn : List ChatMessage) (availableTools : List Text) : LoopState :=
  { phase := if 0 < host.maxIterations then .checking else .finished
    iteration := 1
    messages := history ++ turn
    availableTools
    forceText := false
    consecutiveToolIntentNudges := 0
    truncationCount := 0
    dupTracker := .new
    turn }

/-- The step adds no message of the user: it injects none, and does not nudge or warn the model. -/
def Unnoticed (s : LoopState) : LoopEvent → Prop
  | .signal (.injectMessage _) => False
  | .text text => nudges host s text = false
  | .toolCalls calls content finishReason chat autoApproved =>
    finishReason ≠ .length ∧
      ∀ b, execute s calls content chat autoApproved = (b, .goOn) →
        (tracked host s calls b).consecutiveCount < duplicateWarningThreshold
  | _ => True

end Loop

/-- Every result follows its call, and the turn starts with a message of the user, cut off or not.
-/
structure LoopState.Sound (s : LoopState) : Prop where
  paired : Paired s.messages
  user : ∃ m ∈ s.messages, m.role = .user
  turn : ∃ m rest, s.turn = m :: rest ∧ m.role = .user

def LoopState.Keeps (s : LoopState) : Prop := KeepsExchange s.messages s.turn

def LoopState.Intact (s : LoopState) : Prop := Agent.Intact s.messages s.turn

section Exchange

variable {host : LoopHost} {s s' : LoopState} {e : LoopEvent}

theorem LoopState.Sound.keeps_iff (h : s.Sound) : s.Keeps ↔ s.Intact :=
  keepsExchange_iff h.paired h.user h.turn

variable {chat : Chat} {autoApproved : List Text}

theorem resultOf_check {call : ToolCall} {entry : ToolCall × PreflightOutcome}
    (h : (chat.check autoApproved call).entry = some entry) :
    (chat.resultOf entry).resultOf = some call.id := by
  -- a hook may change the arguments of the call, but not its id
  have hid : entry.1.id = call.id := by
    unfold Chat.check at h
    split at h
    · cases h
      rfl
    · dsimp only at h
      split at h <;> cases h <;> rfl
  rw [← hid]
  obtain ⟨settled, error | -⟩ := entry
  · rfl
  · dsimp only [Chat.resultOf, Chat.dispatchedResult]
    split <;> rfl

theorem resultOf_executed {messages : List ChatMessage} {calls : List ToolCall} {r : ChatMessage}
    (hr : r ∈ (executeToolCalls chat autoApproved messages calls).1.messages) :
    ∃ id ∈ calls.map ToolCall.id, r.resultOf = some id := by
  change r ∈ (postflight chat (.start none) (preflight chat autoApproved calls).settled).messages
    at hr
  rw [(postflight_append chat _ _).2.2] at hr
  obtain ⟨entry, hentry, rfl⟩ := List.mem_map.mp hr
  obtain ⟨front, call, back, rfl, -, hchecked⟩ := mem_settled_preflight.mp hentry
  exact ⟨call.id, by simp, resultOf_check hchecked⟩

/-- A step adds messages to the context, and results only behind their calls. -/
structure Adds (s s' : LoopState) (added : List ChatMessage) : Prop where
  messages : s'.messages = s.messages ++ added
  turn : s'.turn = s.turn ++ added
  paired : Paired s.messages → Paired (s.messages ++ added)

theorem Adds.of_others {added : List ChatMessage} (hmessages : s'.messages = s.messages ++ added)
    (hturn : s'.turn = s.turn ++ added) (hadded : ∀ m ∈ added, m.role ≠ .tool) : Adds s s' added :=
  ⟨hmessages, hturn, fun h => h.append hadded⟩

theorem Adds.none (hmessages : s'.messages = s.messages) (hturn : s'.turn = s.turn) :
    Adds s s' [] :=
  .of_others (by simp [hmessages]) (by simp [hturn]) nofun

@[simp] theorem messages_next : (s.next host).messages = s.messages := by
  rw [LoopState.next]
  split <;> rfl

@[simp] theorem turn_next : (s.next host).turn = s.turn := by
  rw [LoopState.next]
  split <;> rfl

def warningFor (count : Nat) : List ChatMessage :=
  if duplicateWarningThreshold ≤ count then [duplicateToolCallWarning] else []

theorem messages_warn {count : Nat} : (warn s count).messages = s.messages ++ warningFor count ∧
      (warn s count).turn = s.turn ++ warningFor count := by
  unfold warn warningFor
  -- where a text is forced, the warning is due as well
  have hle : duplicateForceTextThreshold ≤ count → duplicateWarningThreshold ≤ count :=
    Nat.le_trans (by decide)
  split_ifs with hforce hwarn hwarn
  · exact ⟨rfl, rfl⟩
  · exact absurd (hle hforce) hwarn
  · exact ⟨rfl, rfl⟩
  · simp

theorem adds_beforeLlmCall (s : LoopState) (toolDefs : Option (List Text)) :
    Adds s (beforeLlmCall host s toolDefs)
      (if s.iteration = host.nudgeAt then [limitNudge] else []) := by
  unfold beforeLlmCall
  split_ifs
  · cases toolDefs <;> exact .of_others rfl rfl (by simp)
  · cases toolDefs <;> exact .none rfl rfl

theorem adds_onText (s : LoopState) (text : Text) : Adds s (onText host s text)
      (if nudges host s text then [.assistant text, toolIntentNudge] else []) := by
  unfold onText
  by_cases hnudges : nudges host s text = true
  · rw [if_pos hnudges, if_pos hnudges]
    refine .of_others (by simp [LoopState.push]) (by simp [LoopState.push]) ?_
    simp
  · rw [if_neg hnudges, if_neg hnudges]
    exact .none rfl rfl

theorem adds_onTruncated (s : LoopState) (content : Option Text) :
    Adds s (onTruncated host s content)
      (content.toList.map .assistant ++ [truncatedToolCallNotice]) := by
  unfold onTruncated
  refine .of_others (by simp [LoopState.push]) (by simp [LoopState.push]) ?_
  cases content <;> simp

def addedByCalls (host : LoopHost) (s : LoopState) (calls : List ToolCall) (content : Option Text)
    (chat : Chat) (autoApproved : List Text) : List ChatMessage :=
  let executed := execute s calls content chat autoApproved
  .assistantWithToolCalls content calls :: executed.1.messages ++
    match executed.2 with
    | .goOn => warningFor (tracked host s calls executed.1).consecutiveCount
    | _ => []

theorem adds_onToolCalls (s : LoopState) (calls : List ToolCall) (content : Option Text)
    (chat : Chat) (autoApproved : List Text) :
    Adds s (onToolCalls host s calls content chat autoApproved)
      (addedByCalls host s calls content chat autoApproved) := by
  -- the results come right behind the reply that has their calls
  have hpaired : ∀ warning : List ChatMessage, (∀ m ∈ warning, m.role ≠ .tool) →
      Paired s.messages → Paired (s.messages ++ (.assistantWithToolCalls content calls ::
        (execute s calls content chat autoApproved).1.messages ++ warning)) := by
    intro warning hwarning h
    rw [← List.append_assoc]
    exact (h.append_batch fun r hr => resultOf_executed hr).append hwarning
  have hwarning : ∀ count, ∀ m ∈ warningFor count, m.role ≠ .tool := by
    intro count m hm
    unfold warningFor at hm
    split at hm
    · rw [List.mem_singleton.mp hm]
      exact nofun
    · cases hm
  unfold onToolCalls addedByCalls
  dsimp only
  split
  · refine ⟨?_, ?_, hpaired _ (hwarning _)⟩
    · rw [messages_next, messages_warn.1]
      simp [LoopState.push]
    · rw [turn_next, messages_warn.2]
      simp [LoopState.push]
  · refine ⟨?_, ?_, hpaired [] nofun⟩ <;> simp [LoopState.push, LoopState.finish]

theorem addedByCalls_no_user {calls : List ToolCall} {content : Option Text} :
    (∀ m ∈ addedByCalls host s calls content chat autoApproved, m.role ≠ .user) ↔
      ∀ b, execute s calls content chat autoApproved = (b, .goOn) →
        (tracked host s calls b).consecutiveCount < duplicateWarningThreshold := by
  have hresults : ∀ r ∈ (execute s calls content chat autoApproved).1.messages,
      r.role ≠ .user := by
    intro r hr
    obtain ⟨id, -, hid⟩ := resultOf_executed hr
    simp [role_of_resultOf hid]
  have hwarning : ∀ count, (∀ m ∈ warningFor count, m.role ≠ .user) ↔
      count < duplicateWarningThreshold := by
    intro count
    unfold warningFor
    split_ifs with hle
    · simp [hle]
    · simpa using hle
  have hcall : (ChatMessage.assistantWithToolCalls content calls).role ≠ .user := nofun
  -- a turn that goes on may be warned; one that pauses gets the calls and their results only
  unfold addedByCalls
  dsimp only
  rcases hexecuted : execute s calls content chat autoApproved with ⟨b, outcome⟩
  rw [hexecuted] at hresults
  rw [List.forall_mem_append, List.forall_mem_cons]
  cases outcome with
  | goOn =>
    rw [hwarning]
    refine ⟨fun h b' hb' => ?_, fun h => ⟨⟨hcall, hresults⟩, h b rfl⟩⟩
    cases hb'
    exact h.2
  | needApproval pending =>
    exact ⟨fun _ b' hb' => (by cases hb'), fun _ => ⟨⟨hcall, hresults⟩, nofun⟩⟩
  | authPending =>
    exact ⟨fun _ b' hb' => (by cases hb'), fun _ => ⟨⟨hcall, hresults⟩, nofun⟩⟩

/-- **What a step does to the context**: it compacts it, or adds messages, one of the user unless
unnoticed. -/
theorem loopStep_cases (h : loopStep host s e = some s') :
    (Unnoticed host s e ∧ s'.messages = compactMessagesForRetry s.messages ∧ s'.turn = s.turn) ∨
      ∃ added, Adds s s' added ∧ ((∀ m ∈ added, m.role ≠ .user) ↔ Unnoticed host s e) := by
  cases e with
  | signal signal =>
    rw [loopStep, Option.ite_none_right_eq_some] at h
    obtain ⟨-, h⟩ := h
    cases h
    cases signal with
    | «continue» => exact .inr ⟨[], .none rfl rfl, by simp [Unnoticed]⟩
    | stop => exact .inr ⟨[], .none rfl rfl, by simp [Unnoticed]⟩
    | injectMessage content =>
      exact .inr ⟨[.user content], .of_others rfl rfl (by simp),
        by simp [Unnoticed]⟩
  | beforeLlmCall toolDefs =>
    rw [loopStep, Option.ite_none_right_eq_some] at h
    obtain ⟨-, h⟩ := h
    cases h
    refine .inr ⟨_, adds_beforeLlmCall s toolDefs, ?_⟩
    split_ifs <;> simp [Unnoticed]
  | contextLengthExceeded =>
    rw [loopStep, Option.ite_none_right_eq_some] at h
    obtain ⟨-, h⟩ := h
    cases h
    -- the one step that takes messages away
    exact .inl ⟨trivial, rfl, rfl⟩
  | failed =>
    rw [loopStep, Option.ite_none_right_eq_some] at h
    obtain ⟨-, h⟩ := h
    cases h
    exact .inr ⟨[], .none rfl rfl, by simp [Unnoticed]⟩
  | text text =>
    rw [loopStep, Option.ite_none_right_eq_some] at h
    obtain ⟨-, h⟩ := h
    cases h
    refine .inr ⟨_, adds_onText s text, ?_⟩
    split_ifs with hnudges <;> simp [Unnoticed, hnudges]
  | toolCalls calls content finishReason chat autoApproved =>
    rw [loopStep, Option.ite_none_right_eq_some] at h
    obtain ⟨-, h⟩ := h
    split_ifs at h with hlength
    · cases h
      refine .inr ⟨_, adds_onTruncated s content, ?_⟩
      simp [Unnoticed, hlength]
    · cases h
      refine .inr ⟨_, adds_onToolCalls s calls content chat autoApproved, ?_⟩
      rw [addedByCalls_no_user]
      exact ⟨fun h => ⟨hlength, h⟩, And.right⟩

theorem sound_loopStep (hs : s.Sound) (h : loopStep host s e = some s') : s'.Sound := by
  obtain ⟨m, rest, hturn, hm⟩ := hs.turn
  rcases loopStep_cases h with ⟨-, hmessages, hturn'⟩ | ⟨added, hadds, -⟩
  · refine ⟨?_, ?_, ⟨m, rest, hturn'.trans hturn, hm⟩⟩
    · rw [hmessages]
      exact hs.paired.compact hs.user
    · -- one message of the user is kept
      have hpos : 0 < (compactMessagesForRetry s.messages).countP isUser := by
        rw [countP_compact hs.user]
        exact Nat.one_pos
      rw [hmessages]
      simpa [isUser] using List.countP_pos_iff.mp hpos
  · -- messages are only added, behind those that there are
    refine ⟨?_, ?_, m, rest ++ added, ?_, hm⟩
    · rw [hadds.messages]
      exact hadds.paired hs.paired
    · obtain ⟨u, hu, huser⟩ := hs.user
      exact ⟨u, by simp [hadds.messages, hu], huser⟩
    · rw [hadds.turn, hturn, List.cons_append]

theorem intact_loopStep_iff (hs : s.Sound) (hi : s.Intact) (h : loopStep host s e = some s') :
    s'.Intact ↔ Unnoticed host s e := by
  obtain ⟨m, rest, hturn, hm⟩ := hs.turn
  rcases loopStep_cases h with ⟨hquiet, hmessages, hturn'⟩ | ⟨added, hadds, hiff⟩
  · have hcompact : s'.Intact := by
      rw [LoopState.Intact, hmessages, hturn']
      exact Intact.compact hi hs.turn
    exact iff_of_true hcompact hquiet
  · obtain ⟨⟨older, hmessages⟩, hrest⟩ := hi
    rw [← hiff, LoopState.Intact, Intact, hadds.messages, hadds.turn, hmessages, hturn]
    rw [hturn] at hrest
    change ∀ m' ∈ rest, m'.role ≠ .user at hrest
    -- the turn grows at its end, so that only the new messages can be in the way
    constructor
    · rintro ⟨-, htail⟩ m' hm'
      exact htail m' (by simp [hm'])
    · intro hadded
      refine ⟨⟨older, by simp⟩, fun m' hm' => ?_⟩
      rcases List.mem_append.mp (show m' ∈ rest ++ added from hm') with hm' | hm'
      · exact hrest m' hm'
      · exact hadded m' hm'

end Exchange

/-- **The current exchange on retry.** In any run, compactions would keep it if and only if no step
adds another message of the user. -/
theorem keepsExchange_throughout_iff (host : LoopHost) (history since : List ChatMessage)
    (request : Text) (availableTools : List Text)
    (hpaired : Paired (history ++ .user request :: since))
    (hsince : ∀ m ∈ since, m.role ≠ .user) (events : List LoopEvent) (s : LoopState)
    (hr : run (loopStep host) (startLoop host history (.user request :: since) availableTools)
      events = some s) : Throughout (loopStep host) LoopState.Keeps
        (startLoop host history (.user request :: since) availableTools) events ↔
      Along (loopStep host) (Unnoticed host)
        (startLoop host history (.user request :: since) availableTools) events := by
  have hsound : (startLoop host history (.user request :: since) availableTools).Sound :=
    ⟨hpaired, ⟨.user request, by simp [startLoop], rfl⟩, ⟨.user request, since, rfl, rfl⟩⟩
  have hintact : (startLoop host history (.user request :: since) availableTools).Intact :=
    ⟨⟨history, rfl⟩, hsince⟩
  -- in sound states, to be kept is to be intact, which a step preserves just when it is unnoticed
  refine Foundation.throughout_iff_along (J := LoopState.Sound)
    (fun s e s' hs h => sound_loopStep hs h) (fun s e s' hs hk h => ?_) hsound
    (hsound.keeps_iff.mpr hintact) hr
  rw [(sound_loopStep hs h).keeps_iff]
  exact intact_loopStep_iff hs (hs.keeps_iff.mp hk) h

def plainHost : LoopHost where
  maxIterations := 11
  enableToolIntentNudge := true
  maxToolIntentNudges := 2
  nudgeAt := 9
  forceTextAt := 10
  signalsToolIntent := fun _ => false
  fingerprint := fun _ => 0

def plainChat : Chat where
  host := ⟨∅, fun _ => ⟨true, []⟩⟩
  codec := ⟨fun _ => none, fun _ => []⟩
  hooks := []
  safety := ⟨fun _ text => text, fun _ text => text⟩
  showDuration := fun _ => []
  extensionName := fun _ => none
  sanitizeAuthUrl := fun url => url
  autoApproveTools := true
  userId := "user".toList
  channel := "web".toList
  metadata := .null
  ends := fun _ _ => .output []

def plainStart : LoopState := startLoop plainHost [] [.user "Copy the report.".toList] []

theorem keeps_firstCall : Throughout (loopStep plainHost) LoopState.Keeps plainStart
      [.signal .continue, .beforeLlmCall (some []), .contextLengthExceeded] := by
  have hpaired : Paired ([] ++ [.user "Copy the report.".toList]) := paired_nil.append (by simp)
  refine (keepsExchange_throughout_iff plainHost [] [] "Copy the report.".toList [] hpaired nofun _
    _ rfl).mpr ?_
  exact ⟨trivial, fun s _ => ⟨trivial, fun s _ => ⟨trivial, fun s _ => trivial⟩⟩⟩

def copyCall : ToolCall := ⟨"call_1".toList, "write_file".toList, .null, none⟩

/-- The first reply is a truncated call. After the notice, a compaction would drop the request. -/
theorem not_keeps_truncated : ¬ Throughout (loopStep plainHost) LoopState.Keeps plainStart
      [.signal .continue, .beforeLlmCall (some []),
        .toolCalls [copyCall] none .length plainChat []] := by
  intro h
  have hkeeps := h _ List.prefix_rfl _ rfl
  change KeepsExchange [.user "Copy the report.".toList, truncatedToolCallNotice]
    [.user "Copy the report.".toList, truncatedToolCallNotice] at hkeeps
  obtain ⟨⟨older, -, hsub⟩, -⟩ := hkeeps
  -- a compacted context has one message of the user, and this turn has two
  have hcount := ((List.sublist_append_right _ _).trans hsub).countP_le (p := isUser)
  rw [countP_compact ⟨_, List.mem_cons_self, rfl⟩] at hcount
  exact absurd hcount (by decide)

section Bounds

/-- The event is what comes of a call of the model. -/
def LoopEvent.isCall : LoopEvent → Bool
  | .signal _ | .beforeLlmCall _ => false
  | _ => true

namespace LoopState

variable (host : LoopHost)

/-- The steps that a loop has left at most. An iteration takes four, with a call that is repeated. -/
def stepsLeft (s : LoopState) : Nat :=
  let later := 4 * (host.maxIterations - s.iteration)
  match s.phase with
  | .checking => later + 4
  | .preparing => later + 3
  | .calling => later + 2
  | .retrying => later + 1
  | .finished => 0

/-- The calls of the model that a loop has left at most. -/
def callsLeft (s : LoopState) : Nat :=
  let later := 2 * (host.maxIterations - s.iteration)
  match s.phase with
  | .checking | .preparing | .calling => later + 2
  | .retrying => later + 1
  | .finished => 0

/-- Nudges are limited, and what is repeated too often has forced a text. -/
structure Escalates (s : LoopState) : Prop where
  nudges : s.consecutiveToolIntentNudges ≤ host.maxToolIntentNudges
  truncated : 3 ≤ s.truncationCount → s.forceText = true
  repeated : duplicateForceTextThreshold ≤ s.dupTracker.consecutiveCount → s.forceText = true

/-- A step that takes `calls` calls of the model. A text that was forced stays forced. -/
structure Advances (s s' : LoopState) (calls : Nat) : Prop where
  steps : s'.stepsLeft host + 1 ≤ s.stepsLeft host
  calls : s'.callsLeft host + calls ≤ s.callsLeft host
  forced : s.forceText = true → s'.forceText = true
  escalates : s.Escalates host → s'.Escalates host

end LoopState

variable {host : LoopHost} {s s' t : LoopState} {e : LoopEvent}

theorem LoopState.Escalates.of_le (h : s.Escalates host)
    (hnudges : t.consecutiveToolIntentNudges ≤ s.consecutiveToolIntentNudges)
    (htruncated : t.truncationCount ≤ s.truncationCount)
    (hrepeated : t.dupTracker.consecutiveCount ≤ s.dupTracker.consecutiveCount)
    (hforced : s.forceText = true → t.forceText = true) : t.Escalates host where
  nudges := hnudges.trans h.nudges
  truncated hle := hforced (h.truncated (hle.trans htruncated))
  repeated hle := hforced (h.repeated (hle.trans hrepeated))

theorem LoopState.Advances.finish (hcalled : s.called = true)
    (hforced : s.forceText = true → t.forceText = true)
    (hescalates : s.Escalates host → t.Escalates host) : s.Advances host t.finish 1 := by
  have hphase : s.phase = .calling ∨ s.phase = .retrying := by
    simpa [LoopState.called] using hcalled
  refine ⟨?_, ?_, hforced, fun h => (hescalates h).of_le le_rfl le_rfl le_rfl id⟩ <;>
    rcases hphase with hphase | hphase <;> simp [stepsLeft, callsLeft, LoopState.finish, hphase]

theorem LoopState.Advances.next (hcalled : s.called = true) (hiteration : t.iteration = s.iteration)
    (hforced : s.forceText = true → t.forceText = true)
    (hescalates : s.Escalates host → t.Escalates host) : s.Advances host (t.next host) 1 := by
  have hphase : s.phase = .calling ∨ s.phase = .retrying := by
    simpa [LoopState.called] using hcalled
  rw [LoopState.next]
  split_ifs with hmore
  · -- the iterations that are left pay for the next one
    rw [hiteration] at hmore ⊢
    refine ⟨?_, ?_, hforced, fun h => (hescalates h).of_le le_rfl le_rfl le_rfl id⟩ <;>
      rcases hphase with hphase | hphase <;> simp only [stepsLeft, callsLeft, hphase] <;> omega
  · exact .finish hcalled hforced hescalates

theorem advances_onText (h : s.called = true) (text : Text) :
    s.Advances host (onText host s text) 1 := by
  unfold onText
  split_ifs with hnudges hsignals
  · -- another nudge is allowed only below the limit
    have hlt : s.consecutiveToolIntentNudges < host.maxToolIntentNudges := by
      simp only [nudges, Bool.and_eq_true, decide_eq_true_eq] at hnudges
      exact hnudges.1.2
    exact .next h rfl id fun hs => ⟨hlt, hs.truncated, hs.repeated⟩
  · exact .finish (t := { s with dupTracker := .new }) h id
      fun hs => hs.of_le le_rfl le_rfl (Nat.zero_le _) id
  · exact .finish (t := { s with consecutiveToolIntentNudges := 0, dupTracker := .new }) h id
      fun hs => hs.of_le (Nat.zero_le _) le_rfl (Nat.zero_le _) id

theorem advances_onTruncated (h : s.called = true) (content : Option Text) :
    s.Advances host (onTruncated host s content) 1 := by
  have hforced (hs : s.forceText = true) :
      (s.forceText || decide (3 ≤ s.truncationCount + 1)) = true := by
    simp [hs]
  refine .next h rfl hforced fun hs => ⟨hs.nudges, fun hle => ?_, fun hle => ?_⟩
  · exact Bool.or_eq_true_iff.mpr (.inr (decide_eq_true hle))
  · exact hforced (hs.repeated hle)

theorem advances_onToolCalls (h : s.called = true) (calls : List ToolCall) (content : Option Text)
    (chat : Chat) (autoApproved : List Text) :
    s.Advances host (onToolCalls host s calls content chat autoApproved) 1 := by
  unfold onToolCalls
  dsimp only
  split
  · rw [warn]
    split_ifs with hforce
    · exact .next h rfl (fun _ => rfl) fun _ => ⟨Nat.zero_le _, fun _ => rfl, fun _ => rfl⟩
    · exact .next h rfl id fun _ => ⟨Nat.zero_le _, nofun, fun hle => absurd hle hforce⟩
    · exact .next h rfl id fun _ => ⟨Nat.zero_le _, nofun, fun hle => absurd hle hforce⟩
  · exact .finish h id fun hs => hs.of_le (Nat.zero_le _) (Nat.zero_le _) le_rfl id

theorem advances_loopStep (h : loopStep host s e = some s') :
    s.Advances host s' (if e.isCall then 1 else 0) := by
  cases e with
  | signal signal =>
    rw [loopStep, Option.ite_none_right_eq_some] at h
    obtain ⟨hphase, h⟩ := h
    cases h
    change s.Advances host (checkSignals s signal) 0
    cases signal <;> refine ⟨?_, ?_, id, fun hs => hs.of_le le_rfl le_rfl le_rfl id⟩ <;>
      simp [LoopState.stepsLeft, LoopState.callsLeft, checkSignals, LoopState.push,
        LoopState.finish, hphase]
  | beforeLlmCall toolDefs =>
    rw [loopStep, Option.ite_none_right_eq_some] at h
    obtain ⟨hphase, h⟩ := h
    cases h
    change s.Advances host (beforeLlmCall host s toolDefs) 0
    unfold beforeLlmCall
    cases toolDefs <;> dsimp only <;> split_ifs <;>
      refine ⟨?_, ?_, ?_, fun hs => hs.of_le le_rfl le_rfl le_rfl ?_⟩ <;>
        simp +contextual [LoopState.stepsLeft, LoopState.callsLeft, LoopState.push, hphase]
  | contextLengthExceeded =>
    rw [loopStep, Option.ite_none_right_eq_some] at h
    obtain ⟨hphase, h⟩ := h
    cases h
    change s.Advances host (retryCall s) 1
    refine ⟨?_, ?_, id, fun hs => hs.of_le le_rfl le_rfl le_rfl id⟩ <;>
      simp [LoopState.stepsLeft, LoopState.callsLeft, retryCall, hphase]
  | failed =>
    rw [loopStep, Option.ite_none_right_eq_some] at h
    obtain ⟨hcalled, h⟩ := h
    cases h
    exact .finish hcalled id id
  | text text =>
    rw [loopStep, Option.ite_none_right_eq_some] at h
    obtain ⟨hcalled, h⟩ := h
    cases h
    exact advances_onText hcalled text
  | toolCalls calls content finishReason chat autoApproved =>
    rw [loopStep, Option.ite_none_right_eq_some] at h
    obtain ⟨hcalled, h⟩ := h
    split_ifs at h
    · cases h
      exact advances_onTruncated hcalled content
    · cases h
      exact advances_onToolCalls hcalled calls content chat autoApproved

/-- **The loop ends**: four steps for each iteration at most, and two calls of the model. What is
repeated too often forces a text, for the rest of the run. -/
theorem loop_bounded (host : LoopHost) (history turn : List ChatMessage)
    (availableTools : List Text) (events : List LoopEvent) (s : LoopState)
    (hr : run (loopStep host) (startLoop host history turn availableTools) events = some s) :
    events.length ≤ 4 * host.maxIterations ∧
      events.countP LoopEvent.isCall ≤ 2 * host.maxIterations ∧ s.Escalates host ∧
      ∀ front t, front <+: events →
        run (loopStep host) (startLoop host history turn availableTools) front = some t →
        t.forceText = true → s.forceText = true := by
  have hleft : (startLoop host history turn availableTools).stepsLeft host ≤
        4 * host.maxIterations ∧
      (startLoop host history turn availableTools).callsLeft host ≤ 2 * host.maxIterations := by
    unfold startLoop
    split_ifs with hpos <;> simp only [LoopState.stepsLeft, LoopState.callsLeft] <;> omega
  have hsteps := Foundation.countP_add_le_of_run (p := fun _ => true)
    (fun _ _ _ h => (advances_loopStep h).steps) hr
  have hcalls := Foundation.countP_add_le_of_run (p := LoopEvent.isCall)
    (fun _ _ _ h => (advances_loopStep h).calls) hr
  rw [List.countP_true] at hsteps
  refine ⟨by omega, by omega, ?_, ?_⟩
  · refine Foundation.run_invariant (C := fun _ _ => True)
      (fun _ _ _ hs _ h => (advances_loopStep h).escalates hs) ?_ (.of_forall_mem (by simp) _) hr
    exact ⟨Nat.zero_le _, nofun, nofun⟩
  · rintro front t ⟨back, rfl⟩ ht hforced
    rw [Foundation.run_append, ht] at hr
    exact Foundation.run_invariant (I := fun s => s.forceText = true) (C := fun _ _ => True)
      (fun _ _ _ hs _ h => (advances_loopStep h).forced hs) hforced (.of_forall_mem (by simp) _) hr

theorem loop_bounded_plain : ∃ s, run (loopStep plainHost) plainStart
      [.signal .continue, .beforeLlmCall none, .text []] = some s ∧ s.Escalates plainHost :=
  ⟨_, rfl, (loop_bounded plainHost [] _ [] [.signal .continue, .beforeLlmCall none, .text []] _
    rfl).2.2.1⟩

end Bounds

end IronClaw.Agent
