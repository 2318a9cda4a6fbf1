import IronClaw.Hooks.Registry

/-!
# Hooks before tool calls

The chat's dispatcher and the worker of a job block a call on every error of the hooks, and take
over modifications. The adapter blocks it on a rejection only, and drops modifications.
-/

namespace IronClaw.Hooks

open Foundation (Text Json)

/-- Which parameters of a tool are sensitive, and how they are brought in line with its schema. -/
structure ToolSpec where
  name : Text
  sensitiveParams : List Text
  prepare : Json → Json

def redactParams (params : Json) (sensitive : List Text) : Json :=
  sensitive.foldl (fun redacted key =>
    if (redacted.get key).isSome then redacted.set key (.str "[REDACTED]".toList)
    else redacted) params

def restoreSensitive (original : Json) (sensitive : List Text) (params : Json) : Json :=
  sensitive.foldl (fun restored key =>
    match original.get key with
    | some value => restored.set key value
    | none => restored) params

structure ToolCall where
  userId : Text
  jobId : Text
  threadId : Text
  params : Json

section Executors

variable (codec : JsonCodec) (registry : HookRegistry) (tool : ToolSpec) (call : ToolCall)

def chatEvent : ToolCallEvent :=
  ⟨tool.name, redactParams call.params tool.sensitiveParams, call.userId, "chat".toList⟩

def jobEvent : ToolCallEvent :=
  ⟨tool.name, redactParams (tool.prepare call.params) tool.sensitiveParams, call.userId,
    "job:".toList ++ call.jobId⟩

def engineEvent : ToolCallEvent :=
  ⟨tool.name, redactParams call.params tool.sensitiveParams, call.userId,
    "engine_v2:".toList ++ call.threadId⟩

/-- The dispatcher of a chat. A modification gets the sensitive parameters back that the hooks did
not see. -/
def chatDispatcher : Option Json :=
  match registry.run codec (chatEvent tool call) with
  | .error _ => none
  | .ok (.continue (some newParams)) =>
    match codec.parse newParams with
    | some parsed =>
      some (tool.prepare (restoreSensitive call.params tool.sensitiveParams parsed))
    | none => some (tool.prepare call.params)
  | .ok _ => some (tool.prepare call.params)

def jobWorker : Option Json :=
  match registry.run codec (jobEvent tool call) with
  | .error _ => none
  | .ok (.continue (some newParams)) =>
    match codec.parse newParams with
    | some parsed => some (tool.prepare parsed)
    | none => some (tool.prepare call.params)
  | .ok _ => some (tool.prepare call.params)

/-- The adapter of the second engine. Other errors than a rejection are let pass. -/
def effectAdapter : Option Json :=
  match registry.run codec (engineEvent tool call) with
  | .ok (.reject _) => none
  | .error (.rejected _) => none
  | .error _ => some (tool.prepare call.params)
  | .ok (.continue _) => some (tool.prepare call.params)

def Agree : Prop :=
  chatDispatcher codec registry tool call = effectAdapter codec registry tool call ∧
    jobWorker codec registry tool call = effectAdapter codec registry tool call

def isBlocked (event : ToolCallEvent) : Bool :=
  match registry.run codec event with
  | .error _ => true
  | .ok _ => false

def isRejected (event : ToolCallEvent) : Bool :=
  match registry.run codec event with
  | .error e => e.isRejected
  | .ok _ => false

/-- The parameters that a chain puts in the place of those of the event, if it does. -/
def modification (event : ToolCallEvent) : Option Json :=
  match registry.run codec event with
  | .ok (.continue (some newParams)) => codec.parse newParams
  | _ => none

def Blocked : Prop :=
  isBlocked codec registry (chatEvent tool call) = true ∧
    isBlocked codec registry (jobEvent tool call) = true ∧
    isRejected codec registry (engineEvent tool call) = true

/-- No chain blocks the call later, and no modification matters after preparing. -/
def Undisturbed : Prop :=
  isBlocked codec registry (chatEvent tool call) = false ∧
    isBlocked codec registry (jobEvent tool call) = false ∧
    isRejected codec registry (engineEvent tool call) = false ∧
    (∀ parsed, modification codec registry (chatEvent tool call) = some parsed →
      tool.prepare (restoreSensitive call.params tool.sensitiveParams parsed) =
        tool.prepare call.params) ∧
    ∀ parsed, modification codec registry (jobEvent tool call) = some parsed →
      tool.prepare parsed = tool.prepare call.params

end Executors

section Agreement

variable {codec : JsonCodec} {registry : HookRegistry} {tool : ToolSpec} {call : ToolCall}

theorem handed_eq {event : ToolCallEvent} {use : Json → Json} {unmodified : Json} :
    (match registry.run codec event with
      | .error _ => none
      | .ok (.continue (some newParams)) =>
        match codec.parse newParams with
        | some parsed => some (use parsed)
        | none => some unmodified
      | .ok _ => some unmodified) =
    if isBlocked codec registry event then none
    else some (((modification codec registry event).map use).getD unmodified) := by
  rw [isBlocked, modification]
  cases registry.run codec event with
  | error e => rfl
  | ok outcome =>
    cases outcome with
    | reject reason => rfl
    | «continue» modified =>
      cases modified with
      | none => rfl
      | some newParams =>
        dsimp only
        cases codec.parse newParams <;> rfl

theorem effectAdapter_eq : effectAdapter codec registry tool call =
      if isRejected codec registry (engineEvent tool call) then none
      else some (tool.prepare call.params) := by
  rw [effectAdapter, isRejected]
  have hreject : ∀ reason, registry.run codec (engineEvent tool call) ≠ .ok (.reject reason) :=
    run_ne_reject registry (engineEvent tool call)
  revert hreject
  cases registry.run codec (engineEvent tool call) with
  | error e => cases e <;> exact fun _ => rfl
  | ok outcome =>
    cases outcome with
    | reject reason => exact fun hreject => absurd rfl (hreject reason)
    | «continue» modified => exact fun _ => rfl

theorem getD_map_eq_iff {o : Option Json} {use : Json → Json} {unmodified : Json} :
    (o.map use).getD unmodified = unmodified ↔
      ∀ parsed, o = some parsed → use parsed = unmodified := by
  cases o with
  | none => simp
  | some parsed => simp

/-- **Agreement.** All executors hand on the same exactly if all block the call, or none does and
modifications do not matter. -/
theorem agree_iff (codec : JsonCodec) (registry : HookRegistry) (tool : ToolSpec)
    (call : ToolCall) : Agree codec registry tool call ↔
      Blocked codec registry tool call ∨ Undisturbed codec registry tool call := by
  rw [Agree, Blocked, Undisturbed, chatDispatcher, jobWorker, handed_eq, handed_eq,
    effectAdapter_eq]
  cases isRejected codec registry (engineEvent tool call) <;>
    cases isBlocked codec registry (chatEvent tool call) <;>
    cases isBlocked codec registry (jobEvent tool call) <;>
    simp [-Option.getD_map, getD_map_eq_iff]

end Agreement

/-- Two texts can be read, and everything is written as the first of them. -/
def sampleCodec : JsonCodec where
  parse s :=
    if s == "{}".toList then some (.obj [])
    else if s == "1".toList then some (.int 1)
    else none
  render j := if j.isObject then "{}".toList else "1".toList

def sampleTool : ToolSpec := ⟨"echo".toList, [], id⟩

def sampleToolCall : ToolCall := ⟨"user1".toList, "j".toList, "t".toList, .obj []⟩

/-- One hook before tool calls that fails closed. -/
def sampleRegistry (execution : HookExecution) : HookRegistry :=
  HookRegistry.registerWithPriority []
    ⟨"guard".toList, [.beforeToolCall], .failClosed, "5s".toList, fun _ => execution⟩ 100

/-- The adapter executes a call a hook could not check, and with replaced parameters. -/
theorem executors_disagree :
    ¬ Agree sampleCodec (sampleRegistry .timedOut) sampleTool sampleToolCall ∧
      ¬ Agree sampleCodec (sampleRegistry (.outcome (.continue (some "1".toList)))) sampleTool
          sampleToolCall := by
  constructor
  · rintro ⟨h, -⟩
    cases h
  · rintro ⟨h, -⟩
    cases h

end IronClaw.Hooks
