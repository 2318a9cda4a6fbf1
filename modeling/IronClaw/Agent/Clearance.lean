import IronClaw.Agent.ToolCalls

/-!
# Clearance of executions

On each of four paths the approval of a call is decided. What is executed was brought in line with
the tool's schema, and may have been rewritten by hooks.
-/

namespace IronClaw.Agent

open Foundation (Json Text)
open Llm (ChatMessage ToolCall)
open Tools (ApprovalContext JobView MonotonicTime RegisteredTool ToolHost
  ToolRegistry ToolRun WorkerDeps blocksCall executeToolInner executeToolTask
  executed_executeToolInner executed_executeToolTask executed_executeToolWithSafety hookedParams
  rateLimit)

/-- The ways on which tools are executed: by a message, a resumption, a job, or a subtask. -/
inductive Path where
  | dispatch (chat : Chat) (autoApproved : List Text) (messages : List ChatMessage)
      (calls : List ToolCall)
  | approval (chat : Chat) (autoApproved : List Text) (pending : PendingApproval)
  | job (deps : WorkerDeps) (jobId : Text) (view : Option JobView) (now : MonotonicTime)
      (run : Json → ToolRun) (name : Text) (params : Json)
  | subtask (host : ToolHost) (context : Option ApprovalContext) (jobId : Text)
      (view : Option JobView) (run : Json → ToolRun) (name : Text) (params : Json)

/-- A tool is executed. The user may have approved the call it is executed for. -/
structure Execution where
  name : Text
  params : Json
  approvedByUser : Bool

def Ran.executions (r : Ran) (approvedByUser : Bool) : List Execution :=
  r.invocation.executed.toList.map fun params => ⟨r.call.name, params, approvedByUser⟩

namespace Path

/-- What is executed on a path. A resumption begins with the approved call. -/
def executions : Path → List Execution
  | dispatch chat autoApproved messages calls =>
    (executeToolCalls chat autoApproved messages calls).1.ran.flatMap (·.executions false)
  | approval chat autoApproved pending =>
    match (processApproval chat autoApproved pending).1.ran with
    | [] => []
    | approved :: deferred => approved.executions true ++ deferred.flatMap (·.executions false)
  | job deps jobId view now run name params =>
    (executeToolInner deps jobId view now run name params).executed.toList.map (⟨name, ·, false⟩)
  | subtask host context jobId view run name params =>
    (executeToolTask host context jobId view run name params).executed.toList.map
      (⟨name, ·, false⟩)

def tools : Path → ToolRegistry
  | dispatch chat _ _ _ | approval chat _ _ => chat.host.tools
  | job deps _ _ _ _ _ _ => deps.host.tools
  | subtask host _ _ _ _ _ _ => host.tools

/-- Whether the path lets an invocation pass without asking the user. -/
def permits (tool : RegisteredTool) (name : Text) (params : Json) : Path → Bool
  | dispatch _ autoApproved _ _ | approval _ autoApproved _ =>
    !needsApproval autoApproved tool name params
  | job deps _ view _ _ _ _ =>
    view.any fun view =>
      let blocked := blocksCall deps view name (tool.requiresApproval params)
      !(blocked.1 || blocked.2)
  | subtask _ context _ _ _ _ _ =>
    !ApprovalContext.isBlockedOrDefault context name (tool.requiresApproval params)

def AsksUser : Path → Prop
  | dispatch chat _ _ _ | approval chat _ _ => chat.autoApproveTools = false
  | job _ _ _ _ _ _ _ | subtask _ _ _ _ _ _ _ => True

/-- What is executed on a path may pass, or the user has approved the call. -/
def Cleared (path : Path) : Prop :=
  ∀ e ∈ path.executions, e.approvedByUser = true ∨
    ∃ tool, path.tools.get e.name = some tool ∧ path.permits tool e.name e.params = true

end Path

/-- Arguments that may pass may still pass when they are prepared and valid. -/
def Chat.Keeps (chat : Chat) (autoApproved : List Text) (call : ToolCall) : Prop :=
  ∀ tool, chat.host.tools.get call.name = some tool → call.name ≠ [] →
    needsApproval autoApproved tool call.name call.arguments = false →
    (chat.host.validate (tool.spec.prepare call.arguments)).isValid = true →
    needsApproval autoApproved tool call.name (tool.spec.prepare call.arguments) = false

/-- Nothing after the decision turns it: the preparation of arguments, or the hooks of a job. -/
def Path.Stable : Path → Prop
  | dispatch chat autoApproved _ calls =>
    ∀ front call back, calls = front ++ call :: back →
      (∀ d ∈ front, ∀ arguments, chat.beforeToolCall d = .ok arguments →
        chat.NeedsApproval autoApproved { d with arguments } → chat.isSharedRelay = true) →
      ∀ arguments, chat.beforeToolCall call = .ok arguments →
        chat.Keeps autoApproved { call with arguments }
  | approval chat autoApproved pending =>
    ∀ front call back, pending.deferredToolCalls = front ++ call :: back →
      (∀ d ∈ front, ¬ chat.NeedsApproval autoApproved d) → chat.Keeps autoApproved call
  | job deps jobId found now _ name params =>
    ∀ tool view, deps.host.tools.get name = some tool → found = some view →
      blocksCall deps view name (tool.requiresApproval (tool.spec.prepare params)) =
        (false, false) →
      rateLimit deps view now name tool = none → view.cancelled = false →
      ∀ hooked, hookedParams deps jobId view name tool (tool.spec.prepare params) = .ok hooked →
        (deps.host.validate hooked).isValid = true →
        blocksCall deps view name (tool.requiresApproval hooked) = (false, false)
  | subtask _ _ _ _ _ _ _ => True

section Chat

variable {chat : Chat} {autoApproved : List Text} {call : ToolCall}

theorem mem_executions_ran {e : Execution} {approvedByUser : Bool} :
    e ∈ (Ran.mk call (chat.executeChatTool call)).executions approvedByUser ↔
      ∃ tool, chat.host.tools.get call.name = some tool ∧ call.name ≠ [] ∧
        (chat.host.validate (tool.spec.prepare call.arguments)).isValid = true ∧
        e = ⟨call.name, tool.spec.prepare call.arguments, approvedByUser⟩ := by
  simp only [Ran.executions, List.mem_map, Option.mem_toList, Chat.executeChatTool,
    executed_executeToolWithSafety]
  constructor
  · rintro ⟨p, ⟨hname, tool, htool, hvalid, rfl⟩, rfl⟩
    exact ⟨tool, htool, hname, hvalid, rfl⟩
  · rintro ⟨tool, htool, hname, hvalid, rfl⟩
    exact ⟨_, ⟨hname, tool, htool, hvalid, rfl⟩, rfl⟩

theorem cleared_ran_iff (hpass : ¬ chat.NeedsApproval autoApproved call) :
    (∀ e ∈ (Ran.mk call (chat.executeChatTool call)).executions false, e.approvedByUser = true ∨
      ∃ tool, chat.host.tools.get e.name = some tool ∧
        (!needsApproval autoApproved tool e.name e.params) = true) ↔
      chat.Keeps autoApproved call := by
  constructor
  · intro hcleared tool htool hname _ hvalid
    obtain h | ⟨tool', htool', hpermits⟩ :=
      hcleared _ (mem_executions_ran.mpr ⟨tool, htool, hname, hvalid, rfl⟩)
    · cases h
    · rw [htool] at htool'
      cases htool'
      simpa using hpermits
  · intro hkeeps e he
    obtain ⟨tool, htool, hname, hvalid, rfl⟩ := mem_executions_ran.mp he
    have hraw : needsApproval autoApproved tool call.name call.arguments = false := by
      apply Bool.eq_false_iff.mpr
      exact fun h => hpass ⟨tool, htool, h⟩
    exact .inr ⟨tool, htool, by simp [hkeeps tool htool hname hraw hvalid]⟩

theorem keeps_of_needsApproval (h : chat.NeedsApproval autoApproved call) :
    chat.Keeps autoApproved call := by
  obtain ⟨tool, htool, hneeds⟩ := h
  intro tool' htool' _ hraw
  rw [htool] at htool'
  cases htool'
  rw [hneeds] at hraw
  cases hraw

theorem checkDeferred_eq_none (hask : chat.autoApproveTools = false) :
    chat.checkDeferred autoApproved call = none ↔ ¬ chat.NeedsApproval autoApproved call := by
  unfold Chat.checkDeferred Chat.NeedsApproval
  cases chat.host.tools.get call.name with
  | none => simp
  | some tool => simp [hask]

theorem decide_eq_run (autoApproved : List Text) (call : ToolCall)
    (hask : chat.autoApproveTools = false) :
    chat.decide autoApproved call = .run ↔ ¬ chat.NeedsApproval autoApproved call := by
  unfold Chat.decide Chat.NeedsApproval
  cases chat.host.tools.get call.name with
  | none => simp [hask]
  | some tool =>
    by_cases hneeds : needsApproval autoApproved tool call.name call.arguments = true
    · by_cases hrelay : chat.isSharedRelay = true <;> simp [hask, hneeds, hrelay]
    · simp [hask, hneeds]

theorem check_runnable {original : ToolCall} (hask : chat.autoApproveTools = false) :
    (chat.check autoApproved original).entry = some (call, .runnable) ↔
      ∃ arguments, chat.beforeToolCall original = .ok arguments ∧
        call = { original with arguments } ∧ ¬ chat.NeedsApproval autoApproved call := by
  unfold Chat.check
  cases chat.beforeToolCall original with
  | error message => simp [Checked.entry]
  | ok arguments =>
    have hdecide := decide_eq_run autoApproved { original with arguments } hask
    cases h : chat.decide autoApproved { original with arguments } with
    | run =>
      simp only [h, Checked.entry, Option.some.injEq, Prod.mk.injEq, and_true, Except.ok.injEq,
        exists_eq_left']
      constructor
      · rintro rfl
        exact ⟨rfl, hdecide.mp h⟩
      · exact fun hcall => hcall.1.symm
    | deny message =>
      simp only [h, Checked.entry, Option.some.injEq, Prod.mk.injEq, reduceCtorEq, and_false,
        Except.ok.injEq, exists_eq_left', false_iff]
      rintro ⟨rfl, hneeds⟩
      rw [hdecide.mpr hneeds] at h
      cases h
    | ask allowAlways =>
      simp only [h, Checked.entry, reduceCtorEq, Except.ok.injEq, exists_eq_left', false_iff]
      rintro ⟨rfl, hneeds⟩
      rw [hdecide.mpr hneeds] at h
      cases h

theorem check_isSome {d : ToolCall} (hask : chat.autoApproveTools = false) :
    (chat.check autoApproved d).entry.isSome = true ↔
      ∀ arguments, chat.beforeToolCall d = .ok arguments →
        chat.NeedsApproval autoApproved { d with arguments } → chat.isSharedRelay = true := by
  unfold Chat.check
  cases chat.beforeToolCall d with
  | error message => simp [Checked.entry]
  | ok arguments =>
    simp only [Except.ok.injEq, forall_eq']
    unfold Chat.decide Chat.NeedsApproval
    cases chat.host.tools.get d.name with
    | none => simp [hask, Checked.entry]
    | some tool =>
      by_cases hneeds : needsApproval autoApproved tool d.name arguments = true
      · by_cases hrelay : chat.isSharedRelay = true <;>
          simp [hask, hneeds, hrelay, Checked.entry]
      · simp [hask, hneeds, Checked.entry]

end Chat

section Paths

open Path

variable {chat : Chat} {autoApproved : List Text}

theorem dispatch_cleared_iff {messages : List ChatMessage} {calls : List ToolCall}
    (hask : chat.autoApproveTools = false) : (dispatch chat autoApproved messages calls).Cleared ↔
      (dispatch chat autoApproved messages calls).Stable := by
  have hran : (executeToolCalls chat autoApproved messages calls).1.ran =
      (preflight chat autoApproved calls).settled.flatMap chat.ranOf := (postflight_append _ _ _).1
  simp only [Cleared, executions, tools, permits, hran, List.mem_flatMap]
  constructor
  · intro hcleared front call back hcalls hfront arguments hhooks
    by_cases hneeds : chat.NeedsApproval autoApproved { call with arguments }
    · exact keeps_of_needsApproval hneeds
    -- the call is reached and let through, so it is among those that are run
    have hsettled : ({ call with arguments }, .runnable) ∈
        (preflight chat autoApproved calls).settled :=
      mem_settled_preflight.mpr ⟨front, call, back, hcalls,
        fun d hd => (check_isSome hask).mpr (hfront d hd),
        (check_runnable hask).mpr ⟨arguments, hhooks, rfl, hneeds⟩⟩
    apply (cleared_ran_iff hneeds).mp
    intro e he
    exact hcleared e ⟨_, ⟨_, hsettled, List.mem_singleton_self _⟩, he⟩
  · rintro hstable e ⟨r, ⟨⟨call, error | -⟩, hsettled, hr⟩, he⟩
    · cases hr
    · cases List.mem_singleton.mp hr
      obtain ⟨front, original, back, hcalls, hfront, hentry⟩ := mem_settled_preflight.mp hsettled
      obtain ⟨arguments, hhooks, rfl, hpass⟩ := (check_runnable hask).mp hentry
      have hkeeps := hstable front original back hcalls
        (fun d hd => (check_isSome hask).mp (hfront d hd)) arguments hhooks
      exact (cleared_ran_iff hpass).mpr hkeeps e he

theorem approval_cleared_iff {pending : PendingApproval} (hask : chat.autoApproveTools = false) :
    (approval chat autoApproved pending).Cleared ↔ (approval chat autoApproved pending).Stable := by
  have hran : (processApproval chat autoApproved pending).1.ran =
      ⟨pending.call, chat.executeChatTool pending.call⟩ ::
        (preflightDeferred chat autoApproved pending.deferredToolCalls).1.map
          fun call => ⟨call, chat.executeChatTool call⟩ := (resume_append _ _ _).1
  simp only [Cleared, executions, tools, permits, hran, List.mem_append, List.mem_flatMap,
    List.mem_map]
  constructor
  · intro hcleared front call back hcalls hfront
    by_cases hneeds : chat.NeedsApproval autoApproved call
    · exact keeps_of_needsApproval hneeds
    have hmem : call ∈ (preflightDeferred chat autoApproved pending.deferredToolCalls).1 :=
      mem_preflightDeferred.mpr ⟨front, back, hcalls,
        fun d hd => (checkDeferred_eq_none hask).mpr (hfront d hd),
        (checkDeferred_eq_none hask).mpr hneeds⟩
    apply (cleared_ran_iff hneeds).mp
    intro e he
    exact hcleared e (.inr ⟨_, ⟨call, hmem, rfl⟩, he⟩)
  · rintro hstable e (he | ⟨r, ⟨call, hmem, rfl⟩, he⟩)
    · -- the call that the user has approved
      obtain ⟨tool, -, -, -, rfl⟩ := mem_executions_ran.mp he
      exact .inl rfl
    · obtain ⟨front, back, hcalls, hfront, hcall⟩ := mem_preflightDeferred.mp hmem
      have hkeeps := hstable front call back hcalls
        fun d hd => (checkDeferred_eq_none hask).mp (hfront d hd)
      exact (cleared_ran_iff ((checkDeferred_eq_none hask).mp hcall)).mpr hkeeps e he

theorem job_cleared_iff {deps : WorkerDeps} {jobId name : Text} {found : Option JobView}
    {now : MonotonicTime} {run : Json → ToolRun} {params : Json} :
    (job deps jobId found now run name params).Cleared ↔
      (job deps jobId found now run name params).Stable := by
  simp only [Cleared, executions, tools, permits, List.mem_map, Option.mem_toList,
    executed_executeToolInner]
  constructor
  · intro hcleared tool view htool hfound hblocked hrate hcancelled hooked hhooks hvalid
    obtain h | ⟨tool', htool', hpermits⟩ := hcleared ⟨name, hooked, false⟩
      ⟨hooked, ⟨tool, view, htool, hfound, by rw [hblocked], by rw [hblocked], hrate, hhooks,
        hcancelled, hvalid⟩, rfl⟩
    · cases h
    · rw [htool] at htool'
      cases htool'
      simpa [hfound, Prod.ext_iff] using hpermits
  · rintro hstable e ⟨hooked, ⟨tool, view, htool, rfl, hjob, hworker, hrate, hhooks, hcancelled,
      hvalid⟩, rfl⟩
    have hkept := hstable tool view htool rfl (Prod.ext hjob hworker) hrate hcancelled hooked
      hhooks hvalid
    exact .inr ⟨tool, htool, by simp [hkept]⟩

theorem subtask_cleared {host : ToolHost} {context : Option ApprovalContext}
    {jobId name : Text} {view : Option JobView} {run : Json → ToolRun} {params : Json} :
    (subtask host context jobId view run name params).Cleared := by
  simp only [Cleared, executions, tools, permits, List.mem_map, Option.mem_toList]
  rintro e ⟨p, hp, rfl⟩
  obtain ⟨tool, htool, -, hblocked⟩ := executed_executeToolTask hp
  exact .inr ⟨tool, htool, by rw [hblocked]; rfl⟩

/-- **What was checked is what runs** exactly if nothing turns a decision, on each path. -/
theorem cleared_iff_stable {path : Path} (hask : path.AsksUser) : path.Cleared ↔ path.Stable := by
  cases path with
  | dispatch chat autoApproved messages calls => exact dispatch_cleared_iff hask
  | approval chat autoApproved pending => exact approval_cleared_iff hask
  | job deps jobId found now run name params => exact job_cleared_iff
  | subtask host context jobId view run name params =>
    exact iff_of_true subtask_cleared trivial

end Paths

def httpApproval (params : Json) : Tools.ApprovalRequirement :=
  match params.get "headers".toList with
  | some (.arr headers) =>
    if headers.any fun h =>
        (h.get "name".toList).bind Json.asStr == some "Authorization".toList then
      .unlessAutoApproved
    else .never
  | _ => .never

def httpArguments (headers : Json) : Json :=
  .obj [("url".toList, .str "example.org".toList), ("headers".toList, headers)]

def authorization : Json :=
  .arr [.obj [("name".toList, .str "Authorization".toList), ("value".toList, .str "t".toList)]]

/-- The schema has an array of headers, so a text in their place is read as one. -/
def httpPrepare (params : Json) : Json :=
  match params.get "headers".toList with
  | some (.str _) => httpArguments authorization
  | _ => params

def httpTool : RegisteredTool :=
  ⟨⟨"http".toList, [], httpPrepare⟩, httpApproval, none, none⟩

def httpChat : Chat where
  host := ⟨(∅ : ToolRegistry).insert "http".toList httpTool, fun _ => ⟨true, []⟩⟩
  codec := ⟨fun _ => none, fun _ => []⟩
  hooks := []
  safety := ⟨fun _ text => text, fun _ text => text⟩
  showDuration := fun _ => []
  extensionName := fun _ => none
  sanitizeAuthUrl := fun url => url
  autoApproveTools := false
  userId := "user".toList
  channel := "web".toList
  metadata := .null
  ends := fun _ _ => .output []

def httpCall (headers : Json) : ToolCall :=
  ⟨"call".toList, "http".toList, httpArguments headers, none⟩

theorem http_cleared : (Path.dispatch httpChat [] [] [httpCall (.arr [])]).Cleared := by
  refine (@cleared_iff_stable (.dispatch httpChat [] [] [httpCall (.arr [])]) rfl).mpr ?_
  intro front call back hcalls _ arguments hhooks tool htool _ _ _
  cases front with
  | nil =>
    cases hcalls
    cases hhooks
    cases htool
    rfl
  | cons d front => simp at hcalls

/-- With its headers as a text, a request with credentials is sent without an approval. -/
theorem credentials_uncleared :
    ¬ (Path.dispatch httpChat [] [] [httpCall (.str "[..]".toList)]).Cleared ∧
      ¬ (Path.approval httpChat []
        ⟨httpCall authorization, true, [], [httpCall (.str "[..]".toList)], none⟩).Cleared := by
  constructor
  · intro h
    obtain h | ⟨tool, htool, hpermits⟩ := h ⟨"http".toList, httpArguments authorization, false⟩
      (by exact List.mem_singleton_self _)
    · cases h
    · cases htool
      cases hpermits
  · intro h
    obtain h | ⟨tool, htool, hpermits⟩ := h ⟨"http".toList, httpArguments authorization, false⟩
      (by exact List.mem_cons_of_mem _ (List.mem_singleton_self _))
    · cases h
    · cases htool
      cases hpermits

end IronClaw.Agent
