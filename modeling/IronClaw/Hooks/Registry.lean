import IronClaw.Foundation.Json

/-!
# Hooks

A hook may change the content of an event or reject it. Its failure mode says what it means when it
fails or takes too long. The hooks at a point form a chain.
-/

namespace IronClaw.Hooks

open Foundation (Text Json)

inductive HookPoint where
  | beforeInbound
  | beforeToolCall
  | beforeOutbound
  | onSessionStart
  | onSessionEnd
  | transformResponse
deriving DecidableEq

structure ToolCallEvent where
  toolName : Text
  parameters : Json
  userId : Text
  context : Text

inductive HookOutcome where
  | continue (modified : Option Text)
  | reject (reason : Text)

def HookOutcome.ok : HookOutcome := .continue none

/-- What a failure or a timeout means: go on, or reject the event. -/
inductive HookFailureMode where
  | failOpen
  | failClosed
deriving DecidableEq

inductive HookError where
  | executionFailed (reason : Text)
  | timeout (duration : Text)
  | rejected (reason : Text)
deriving DecidableEq

def HookError.text : HookError → Text
  | executionFailed reason => "Hook execution failed: ".toList ++ reason
  | timeout duration => "Hook timed out after ".toList ++ duration
  | rejected reason => "Hook rejected: ".toList ++ reason

def HookError.isRejected : HookError → Bool
  | rejected _ => true
  | _ => false

inductive HookExecution where
  | outcome (o : HookOutcome)
  | failed (e : HookError)
  | timedOut

structure Hook where
  name : Text
  hookPoints : List HookPoint
  failureMode : HookFailureMode
  timeout : Text
  execute : ToolCallEvent → HookExecution

structure HookEntry where
  hook : Hook
  priority : Nat

abbrev HookRegistry := List HookEntry

structure JsonCodec where
  parse : Text → Option Json
  render : Json → Text

def insertEntry (entry : HookEntry) : HookRegistry → HookRegistry
  | [] => [entry]
  | e :: registry =>
    if e.priority ≤ entry.priority then e :: insertEntry entry registry else entry :: e :: registry

def HookRegistry.registerWithPriority (registry : HookRegistry) (hook : Hook) (priority : Nat) :
    HookRegistry :=
  let entries :=
    if registry.any fun e => e.hook.name == hook.name then
      registry.map fun e => if e.hook.name == hook.name then ⟨hook, priority⟩ else e
    else registry ++ [⟨hook, priority⟩]
  entries.foldl (fun sorted e => insertEntry e sorted) []

def HookRegistry.matching (registry : HookRegistry) (point : HookPoint) : List Hook :=
  (registry.filter fun e => e.hook.hookPoints.contains point).map HookEntry.hook

/-- Replace the parameters by those in a text. Any other text is ignored. -/
def ToolCallEvent.applyModification (codec : JsonCodec) (event : ToolCallEvent) (modified : Text) :
    ToolCallEvent :=
  match codec.parse modified with
  | some parsed => { event with parameters := parsed }
  | none => event

def runChain (codec : JsonCodec) : List Hook → ToolCallEvent → Except HookError ToolCallEvent
  | [], event => .ok event
  | hook :: hooks, event =>
    match hook.execute event with
    | .outcome (.reject reason) => .error (.rejected reason)
    | .outcome (.continue (some modified)) =>
      runChain codec hooks (event.applyModification codec modified)
    | .outcome (.continue none) => runChain codec hooks event
    | .failed e =>
      match hook.failureMode with
      | .failOpen => runChain codec hooks event
      | .failClosed => .error (.executionFailed
          ("Hook '".toList ++ hook.name ++ "' failed: ".toList ++ e.text))
    | .timedOut =>
      match hook.failureMode with
      | .failOpen => runChain codec hooks event
      | .failClosed => .error (.timeout hook.timeout)

/-- The parameters are given back if they differ as texts. -/
def HookRegistry.run (codec : JsonCodec) (registry : HookRegistry) (event : ToolCallEvent) :
    Except HookError HookOutcome :=
  match runChain codec (registry.matching .beforeToolCall) event with
  | .error e => .error e
  | .ok current =>
    let modified := codec.render current.parameters
    if modified == codec.render event.parameters then .ok .ok else .ok (.continue (some modified))

section Chains

variable {codec : JsonCodec}

theorem run_ne_reject (registry : HookRegistry) (event : ToolCallEvent) (reason : Text) :
    registry.run codec event ≠ .ok (.reject reason) := by
  rw [HookRegistry.run]
  cases runChain codec (registry.matching .beforeToolCall) event with
  | error e => intro h; cases h
  | ok current =>
    dsimp only
    split_ifs <;> intro h <;> cases h

end Chains

end IronClaw.Hooks
