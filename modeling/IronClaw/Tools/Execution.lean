import IronClaw.Llm.Message
import IronClaw.Tools.Approval
import IronClaw.Tools.Registry

/-!
# Execution of tools

A tool is executed with parameters brought in line with its schema and validated, in one pipeline
for the chat and subtasks, for the worker of a job in its own.
-/

namespace IronClaw.Tools

open Foundation (Json Text)
open Hooks (HookRegistry JsonCodec)

inductive CallError where
  | notFound (name : Text)
  | executionFailed (name reason : Text)
  | timeout (name : Text) (duration : Nat)
  | invalidParameters (name reason : Text)
  | autonomousUnavailable (name reason : Text)
  | rateLimited (name : Text) (retryAfter : Nat)
  | jobNotFound (jobId : Text)
deriving DecidableEq

def CallError.text (showDuration : Nat → Text) : CallError → Text
  | notFound name => "Tool error: Tool ".toList ++ name ++ " not found".toList
  | executionFailed name reason =>
    "Tool error: Tool ".toList ++ name ++ " execution failed: ".toList ++ reason
  | timeout name duration =>
    "Tool error: Tool ".toList ++ name ++ " timed out after ".toList ++ showDuration duration
  | invalidParameters name reason =>
    "Tool error: Invalid parameters for tool ".toList ++ name ++ ": ".toList ++ reason
  | autonomousUnavailable name reason =>
    "Tool error: Tool ".toList ++ name ++ " is not available for autonomous execution: ".toList ++
      reason
  | rateLimited name retryAfter =>
    "Tool error: Tool ".toList ++ name ++ " is rate limited, retry after Some(".toList ++
      showDuration retryAfter ++ ")".toList
  | jobNotFound jobId => "Job error: Job ".toList ++ jobId ++ " not found".toList

inductive ToolRun where
  | output (text : Text)
  | failed (reason : Text)
  | timedOut (timeout : Nat)

def ToolRun.result (name : Text) : ToolRun → Except CallError Text
  | output text => .ok text
  | failed reason => .error (.executionFailed name reason)
  | timedOut timeout => .error (.timeout name timeout)

structure ValidationResult where
  isValid : Bool
  errors : List (Text × Text)

def ValidationResult.details (v : ValidationResult) : Text :=
  Text.joinWith "; ".toList (v.errors.map fun e => e.1 ++ ": ".toList ++ e.2)

structure Invocation where
  executed : Option Json
  result : Except CallError Text

def Invocation.fail (e : CallError) : Invocation := ⟨none, .error e⟩

structure ToolHost where
  tools : ToolRegistry
  validate : Json → ValidationResult

def ToolHost.invoke (host : ToolHost) (run : Json → ToolRun) (name : Text) (params : Json) :
    Invocation :=
  let validation := host.validate params
  if validation.isValid then ⟨some params, (run params).result name⟩
  else .fail (.invalidParameters name ("Invalid tool parameters: ".toList ++ validation.details))

def executeToolWithSafety (host : ToolHost) (run : Json → ToolRun) (name : Text) (params : Json) :
    Invocation :=
  if name.isEmpty then .fail (.notFound name)
  else
    match host.tools.get name with
    | none => .fail (.notFound name)
    | some tool => host.invoke run name (tool.spec.prepare params)

structure JobView where
  userId : Text
  cancelled : Bool
  approvalContext : Option ApprovalContext

structure WorkerDeps where
  host : ToolHost
  codec : JsonCodec
  hooks : HookRegistry
  approvalContext : Option ApprovalContext
  rateLimiter : RateLimiter

/-- Both the approval context of the job and that of the worker must let a call pass. -/
def blocksCall (deps : WorkerDeps) (job : JobView) (name : Text)
    (requirement : ApprovalRequirement) : Bool × Bool :=
  ((job.approvalContext.map fun ctx => ctx.isBlocked name requirement).getD false,
    ApprovalContext.isBlockedOrDefault deps.approvalContext name requirement)

def blockedReason (name : Text) (jobLevel workerLevel : Bool) : Text :=
  if jobLevel && workerLevel then
    "Tool '".toList ++ name ++
      "' is blocked by both job-level and worker-level approval context".toList
  else if jobLevel then
    "Tool '".toList ++ name ++ "' is not in the job-level allowed tools list".toList
  else "Tool '".toList ++ name ++ "' is not available for autonomous execution".toList

def rateLimit (deps : WorkerDeps) (job : JobView) (now : MonotonicTime) (name : Text)
    (tool : RegisteredTool) : Option Nat :=
  tool.rateLimitConfig.bind fun config =>
    (deps.rateLimiter.checkAndRecord now job.userId name config).1

def hookedParams (deps : WorkerDeps) (jobId : Text) (job : JobView) (name : Text)
    (tool : RegisteredTool) (params : Json) : Except Text Json :=
  match deps.hooks.run deps.codec ⟨name, Hooks.redactParams params tool.spec.sensitiveParams,
      job.userId, "job:".toList ++ jobId⟩ with
  | .error (.rejected reason) => .error ("Blocked by hook: ".toList ++ reason)
  | .error e => .error ("Blocked by hook failure mode: ".toList ++ e.text)
  | .ok (.continue (some newParams)) =>
    match deps.codec.parse newParams with
    | some parsed => .ok (tool.spec.prepare parsed)
    | none => .ok params
  | .ok _ => .ok params

/-- Execute a tool call of a job. The approval is decided before the hooks run. -/
def executeToolInner (deps : WorkerDeps) (jobId : Text) (job : Option JobView)
    (now : MonotonicTime) (run : Json → ToolRun) (name : Text) (params : Json) : Invocation :=
  match deps.host.tools.get name with
  | none => .fail (.notFound name)
  | some tool =>
    let normalized := tool.spec.prepare params
    match job with
    | none => .fail (.jobNotFound jobId)
    | some job =>
      let blocked := blocksCall deps job name (tool.requiresApproval normalized)
      if blocked.1 || blocked.2 then
        .fail (.autonomousUnavailable name (blockedReason name blocked.1 blocked.2))
      else
        match rateLimit deps job now name tool with
        | some retryAfter => .fail (.rateLimited name retryAfter)
        | none =>
          match hookedParams deps jobId job name tool normalized with
          | .error reason => .fail (.executionFailed name reason)
          | .ok effective =>
            if job.cancelled then .fail (.executionFailed name "Job is cancelled".toList)
            else deps.host.invoke run name effective

def autonomousToolDenylist : List Text :=
  ["routine_create", "routine_update", "routine_delete", "routine_fire", "event_emit",
    "create_job", "job_prompt", "restart", "tool_install", "tool_auth", "tool_activate",
    "tool_remove", "tool_upgrade", "skill_install", "skill_remove", "secret_list",
    "secret_delete"].map String.toList

def autonomousUnavailableMessage (name ownerId : Text) : Text :=
  if autonomousToolDenylist.contains name then
    "Tool '".toList ++ name ++ "' is not available in autonomous jobs or routines".toList
  else "Tool '".toList ++ name ++ "' is not currently available for owner '".toList ++ ownerId ++
    "'".toList

def executeToolTask (host : ToolHost) (approvalContext : Option ApprovalContext) (jobId : Text)
    (job : Option JobView) (run : Json → ToolRun) (name : Text) (params : Json) : Invocation :=
  match host.tools.get name with
  | none => .fail (.notFound name)
  | some tool =>
    match job with
    | none => .fail (.jobNotFound jobId)
    | some job =>
      if job.cancelled then .fail (.executionFailed name "Job is cancelled".toList)
      else if ApprovalContext.isBlockedOrDefault approvalContext name
          (tool.requiresApproval (tool.spec.prepare params)) then
        .fail (.autonomousUnavailable name (autonomousUnavailableMessage name job.userId))
      else executeToolWithSafety host run name params

section Executed

variable {host : ToolHost} {deps : WorkerDeps} {jobId name : Text} {job : Option JobView}
  {now : MonotonicTime} {run : Json → ToolRun} {params p : Json}

theorem executed_invoke : (host.invoke run name params).executed = some p ↔
    (host.validate params).isValid = true ∧ params = p := by
  rw [ToolHost.invoke]
  by_cases h : (host.validate params).isValid
  · simp [h]
  · simp [h, Invocation.fail]

theorem executed_executeToolWithSafety :
    (executeToolWithSafety host run name params).executed = some p ↔
      name ≠ [] ∧ ∃ tool, host.tools.get name = some tool ∧
        (host.validate (tool.spec.prepare params)).isValid = true ∧
        tool.spec.prepare params = p := by
  rw [executeToolWithSafety]
  by_cases hname : name = []
  · simp [hname, Invocation.fail]
  rw [if_neg (by simpa using hname)]
  cases host.tools.get name with
  | none => simp [Invocation.fail]
  | some tool => simp [hname, executed_invoke]

theorem executed_executeToolInner :
    (executeToolInner deps jobId job now run name params).executed = some p ↔
      ∃ tool view, deps.host.tools.get name = some tool ∧ job = some view ∧
        (blocksCall deps view name (tool.requiresApproval (tool.spec.prepare params))).1 = false ∧
        (blocksCall deps view name (tool.requiresApproval (tool.spec.prepare params))).2 = false ∧
        rateLimit deps view now name tool = none ∧
        hookedParams deps jobId view name tool (tool.spec.prepare params) = .ok p ∧
        view.cancelled = false ∧ (deps.host.validate p).isValid = true := by
  rw [executeToolInner]
  cases htool : deps.host.tools.get name with
  | none => simp [Invocation.fail]
  | some tool =>
    cases job with
    | none => simp [Invocation.fail]
    | some view =>
      simp only [Option.some.injEq, exists_and_left, exists_eq_left']
      rcases blocksCall deps view name (tool.requiresApproval (tool.spec.prepare params)) with
        ⟨jobLevel, workerLevel⟩
      -- each check in turn lets the call pass, or nothing is executed
      cases jobLevel <;> cases workerLevel <;> try simp [Invocation.fail]
      cases rateLimit deps view now name tool with
      | some retryAfter => simp
      | none =>
        cases hookedParams deps jobId view name tool (tool.spec.prepare params) with
        | error reason => simp
        | ok effective =>
          cases hcancelled : view.cancelled with
          | true => simp
          | false =>
            simp only [Bool.false_eq_true, if_false, executed_invoke, Except.ok.injEq, true_and]
            constructor
            · rintro ⟨hvalid, rfl⟩
              exact ⟨rfl, hvalid⟩
            · rintro ⟨rfl, hvalid⟩
              exact ⟨hvalid, rfl⟩

theorem executed_executeToolTask {context : Option ApprovalContext}
    (h : (executeToolTask host context jobId job run name params).executed = some p) :
    ∃ tool, host.tools.get name = some tool ∧ tool.spec.prepare params = p ∧
      ApprovalContext.isBlockedOrDefault context name (tool.requiresApproval p) = false := by
  unfold executeToolTask at h
  split at h
  · cases h
  rename_i tool htool
  cases job with
  | none => cases h
  | some view =>
    dsimp only at h
    split_ifs at h with hcancelled hblocked
    · cases h
    · cases h
    · obtain ⟨-, tool', htool', -, hprepare⟩ := executed_executeToolWithSafety.mp h
      rw [htool] at htool'
      cases htool'
      rw [hprepare] at hblocked
      exact ⟨tool, htool, hprepare, by simpa using hblocked⟩

end Executed

end IronClaw.Tools
