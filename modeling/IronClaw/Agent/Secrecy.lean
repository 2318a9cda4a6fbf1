import IronClaw.Agent.ToolCalls
import IronClaw.Foundation.Substitution

/-!
# Secrets and hooks

Hooks are shown the parameters with the sensitive ones redacted. The dispatcher of a chat puts the
secrets back into what they return, the worker of a job does not.
-/

namespace IronClaw.Agent

open Foundation (Json Text)
open Foundation.Json (substitute get_substitute substitute_substitute)
open Hooks (HookRegistry JsonCodec ToolCallEvent ToolSpec chatDispatcher chatEvent isBlocked
  jobEvent jobWorker modification redactParams restoreSensitive)

def workerEvent (tool : ToolSpec) (call : Hooks.ToolCall) (params : Json) : ToolCallEvent :=
  ⟨tool.name, redactParams params tool.sensitiveParams, call.userId, "job:".toList ++ call.jobId⟩

def withSecrets (tool : ToolSpec) (call : Hooks.ToolCall) (values : Text → Json) : Hooks.ToolCall :=
  { call with params := substitute values call.params tool.sensitiveParams }

section Executors

variable (codec : JsonCodec) (registry : HookRegistry) (tool : ToolSpec) (call : Hooks.ToolCall)

def chatArguments : Option Json :=
  match registry.run codec (chatEvent tool call) with
  | .error _ => none
  | .ok (.continue (some newParams)) =>
    match codec.parse newParams with
    | some parsed => some (restoreSensitive call.params tool.sensitiveParams parsed)
    | none => some call.params
  | .ok _ => some call.params

def jobArguments (params : Json) : Option Json :=
  match registry.run codec (workerEvent tool call params) with
  | .error _ => none
  | .ok (.continue (some newParams)) =>
    match codec.parse newParams with
    | some parsed => some parsed
    | none => some params
  | .ok _ => some params

def produced (event : ToolCallEvent) : Json :=
  (modification codec registry event).getD event.parameters

end Executors

/-- Arguments have the secrets of the original, and are what the hooks produced besides. -/
structure Keeps (sensitive : List Text) (original produced arguments : Json) : Prop where
  secrets : ∀ key ∈ sensitive, ∀ value, original.get key = some value →
    arguments.get key = some value
  others : ∀ key, (key ∈ sensitive → original.get key = none) →
    arguments.get key = produced.get key

/-- What any hooks return for a call is the same with other secrets, and executors keep the secrets.
-/
structure Secretive (codec : JsonCodec) (registry : HookRegistry) (tool : ToolSpec)
    (call : Hooks.ToolCall) : Prop where
  blind : ∀ (chain : HookRegistry) (values : Text → Json),
    chain.run codec (chatEvent tool (withSecrets tool call values)) =
        chain.run codec (chatEvent tool call) ∧
      chain.run codec (jobEvent tool (withSecrets tool call values)) =
        chain.run codec (jobEvent tool call)
  chat : ∀ (values : Text → Json) (arguments : Json),
    chatArguments codec registry tool (withSecrets tool call values) = some arguments →
      Keeps tool.sensitiveParams (withSecrets tool call values).params
        (produced codec registry (chatEvent tool (withSecrets tool call values))) arguments
  job : ∀ (values : Text → Json) (params arguments : Json),
    params = substitute values (tool.prepare call.params) tool.sensitiveParams →
      jobArguments codec registry tool call params = some arguments →
        Keeps tool.sensitiveParams params
          (produced codec registry (workerEvent tool call params)) arguments

def LacksSecrets (tool : ToolSpec) (params : Json) : Prop :=
  ∀ key ∈ tool.sensitiveParams, params.get key = none

/-- Preparing hides secrets, the hooks of a chat give objects for them, those of a job nothing. -/
structure Spared (codec : JsonCodec) (registry : HookRegistry) (tool : ToolSpec)
    (call : Hooks.ToolCall) : Prop where
  prepared : ∀ values : Text → Json,
    redactParams (tool.prepare (withSecrets tool call values).params) tool.sensitiveParams =
      redactParams (tool.prepare call.params) tool.sensitiveParams
  chat : LacksSecrets tool call.params ∨
    ∀ parsed ∈ modification codec registry (chatEvent tool call), parsed.isObject = true
  job : LacksSecrets tool (tool.prepare call.params) ∨
    modification codec registry (jobEvent tool call) = none

section Redaction

variable {tool : ToolSpec} {call : Hooks.ToolCall}

theorem redactParams_eq (params : Json) (sensitive : List Text) : redactParams params sensitive =
      substitute (fun _ => .str "[REDACTED]".toList) params sensitive :=
  rfl

variable (values : Text → Json)

theorem redactParams_substitute (params : Json) (sensitive : List Text) :
    redactParams (substitute values params sensitive) sensitive =
      redactParams params sensitive := by
  rw [redactParams_eq, redactParams_eq, substitute_substitute]

variable {key : Text}

theorem get_redactParams {params : Json} {sensitive : List Text}
    (h : key ∈ sensitive → params.get key = none) :
    (redactParams params sensitive).get key = params.get key := by
  rw [redactParams_eq, get_substitute]
  split_ifs with hkey
  · rw [h hkey]
    rfl
  · rfl

theorem chatEvent_withSecrets :
    chatEvent tool (withSecrets tool call values) = chatEvent tool call := by
  rw [chatEvent, withSecrets, redactParams_substitute]
  rfl

theorem workerEvent_substitute (params : Json) (values : Text → Json) :
    workerEvent tool call (substitute values params tool.sensitiveParams) =
      workerEvent tool call params := by
  rw [workerEvent, workerEvent, redactParams_substitute]

theorem get_substitute_of_some {params value : Json} {sensitive : List Text}
    (hkey : key ∈ sensitive) (h : params.get key = some value) (values : Text → Json) :
    (substitute values params sensitive).get key = some (values key) := by
  rw [get_substitute, if_pos hkey, h]
  rfl

theorem get_substitute_eq_none {params : Json} {sensitive : List Text} :
    (substitute values params sensitive).get key = none ↔ params.get key = none := by
  rw [get_substitute]
  split_ifs <;> simp

end Redaction

section Restoring

variable {sensitive : List Text} {original : Json}

theorem restoreSensitive_of_not_object {j : Json} (h : j.isObject = false) :
    restoreSensitive original sensitive j = j := by
  rw [restoreSensitive]
  induction sensitive with
  | nil => rfl
  | cons key sensitive ih =>
    rw [List.foldl_cons]
    -- nothing is put into a value that is no object
    have hset : ∀ value, j.set key value = j := by
      intro value
      cases j with
      | obj members => cases h
      | null | bool b | int n | float repr | str s | arr elements => rfl
    cases original.get key with
    | none => exact ih
    | some value =>
      simp only [hset]
      exact ih

theorem get_restoreSensitive (members : List (Text × Json)) (key : Text) :
    (restoreSensitive original sensitive (.obj members)).get key =
      if key ∈ sensitive then (original.get key).or ((Json.obj members).get key)
      else (Json.obj members).get key := by
  rw [restoreSensitive]
  -- key by key; a key that comes twice gets the same value again
  induction sensitive generalizing members with
  | nil => rfl
  | cons key' sensitive ih =>
    rw [List.foldl_cons]
    cases hvalue : original.get key' with
    | none =>
      simp only
      rw [ih]
      by_cases heq : key = key'
      · subst heq
        simp [hvalue]
      · simp [heq]
    | some value =>
      simp only
      rw [Json.set, ih, Foundation.Json.get_obj_setMember]
      by_cases heq : key' = key
      · subst heq
        simp [hvalue]
      · simp [heq, Ne.symm heq]

end Restoring

section Phases

variable {codec : JsonCodec} {registry : HookRegistry} {tool : ToolSpec} {call : Hooks.ToolCall}

theorem chatArguments_eq : chatArguments codec registry tool call =
    if isBlocked codec registry (chatEvent tool call) then none
    else some (((modification codec registry (chatEvent tool call)).map
      (restoreSensitive call.params tool.sensitiveParams)).getD call.params) :=
  Hooks.handed_eq

theorem jobArguments_eq (params : Json) : jobArguments codec registry tool call params =
    if isBlocked codec registry (workerEvent tool call params) then none
    else some (((modification codec registry (workerEvent tool call params)).map id).getD params) :=
  Hooks.handed_eq

theorem isBlocked_of_modification {event : ToolCallEvent} {parsed : Json}
    (h : modification codec registry event = some parsed) :
    isBlocked codec registry event = false := by
  rw [modification] at h
  rw [isBlocked]
  cases hrun : registry.run codec event with
  | error e =>
    rw [hrun] at h
    cases h
  | ok outcome => rfl

theorem chatDispatcher_eq : chatDispatcher codec registry tool call =
    (chatArguments codec registry tool call).map tool.prepare := by
  rw [chatDispatcher, Hooks.handed_eq, chatArguments_eq]
  split_ifs
  · rfl
  · cases modification codec registry (chatEvent tool call) <;> rfl

theorem jobWorker_eq : jobWorker codec registry tool call =
    (jobArguments codec registry tool call (tool.prepare call.params)).map fun arguments =>
      if (modification codec registry (jobEvent tool call)).isSome then tool.prepare arguments
      else arguments := by
  have hevent : workerEvent tool call (tool.prepare call.params) = jobEvent tool call := rfl
  rw [jobWorker, Hooks.handed_eq, jobArguments_eq, hevent]
  cases isBlocked codec registry (jobEvent tool call) with
  | true => rfl
  | false => cases modification codec registry (jobEvent tool call) <;> rfl

theorem beforeToolCall_toOption {chat : Chat} {toolCall : Llm.ToolCall}
    {registered : Tools.RegisteredTool}
    (htool : chat.host.tools.get toolCall.name = some registered) (jobId threadId : Text) :
    (chat.beforeToolCall toolCall).toOption =
      chatArguments chat.codec chat.hooks { registered.spec with name := toolCall.name }
        ⟨chat.userId, jobId, threadId, toolCall.arguments⟩ := by
  simp only [Chat.beforeToolCall, htool, Option.map_some, Option.getD_some, chatArguments,
    chatEvent]
  cases chat.hooks.run chat.codec _ with
  | error e => cases e <;> rfl
  | ok outcome =>
    cases outcome with
    | reject reason => rfl
    | «continue» modified =>
      cases modified with
      | none => rfl
      | some newParams =>
        dsimp only
        cases chat.codec.parse newParams <;> rfl

theorem hookedParams_toOption {deps : Tools.WorkerDeps} {jobId name threadId : Text}
    {view : Tools.JobView} {registered : Tools.RegisteredTool} {params : Json} :
    (Tools.hookedParams deps jobId view name registered (registered.spec.prepare params)).toOption =
      jobWorker deps.codec deps.hooks { registered.spec with name := name }
        ⟨view.userId, jobId, threadId, params⟩ := by
  simp only [Tools.hookedParams, jobWorker, jobEvent]
  cases deps.hooks.run deps.codec _ with
  | error e => cases e <;> rfl
  | ok outcome =>
    cases outcome with
    | reject reason => rfl
    | «continue» modified =>
      cases modified with
      | none => rfl
      | some newParams =>
        dsimp only
        cases deps.codec.parse newParams <;> rfl

end Phases

section Secrecy

variable {codec : JsonCodec} {registry : HookRegistry} {tool : ToolSpec} {call : Hooks.ToolCall}

noncomputable def stopper (params : Json) : Hooks.Hook where
  name := []
  hookPoints := [.beforeToolCall]
  failureMode := .failOpen
  timeout := []
  execute event :=
    open Classical in if event.parameters = params then .outcome (.reject []) else .outcome .ok

theorem run_stopper (params : Json) (event : ToolCallEvent) :
    HookRegistry.run codec [⟨stopper params, 0⟩] event = .error (.rejected []) ↔
      event.parameters = params := by
  have hmatching : HookRegistry.matching [⟨stopper params, 0⟩] .beforeToolCall =
      [stopper params] := rfl
  rw [HookRegistry.run, hmatching, Hooks.runChain]
  by_cases heq : event.parameters = params
  · have hexecute : (stopper params).execute event = .outcome (.reject []) := if_pos heq
    rw [hexecute]
    exact iff_of_true rfl heq
  · have hexecute : (stopper params).execute event = .outcome (.continue none) := if_neg heq
    rw [hexecute]
    refine iff_of_false ?_ heq
    simp [Hooks.runChain]

theorem parameters_eq_of_blind {event event' : ToolCallEvent}
    (h : ∀ chain : HookRegistry, chain.run codec event' = chain.run codec event) :
    event'.parameters = event.parameters := by
  have hstopped := h [⟨stopper event.parameters, 0⟩]
  rw [(run_stopper event.parameters event).mpr rfl] at hstopped
  exact (run_stopper event.parameters event').mp hstopped

theorem keeps_unmodified (sensitive : List Text) (params : Json) :
    Keeps sensitive params (redactParams params sensitive) params :=
  ⟨fun _ _ _ hvalue => hvalue, fun _ hkey => (get_redactParams hkey).symm⟩

theorem keeps_restoreSensitive {params parsed : Json}
    (h : LacksSecrets tool params ∨ parsed.isObject = true) :
    Keeps tool.sensitiveParams params parsed
      (restoreSensitive params tool.sensitiveParams parsed) := by
  cases hobject : parsed.isObject with
  | false =>
    -- nothing is restored, and nothing had to be
    rw [restoreSensitive_of_not_object hobject]
    refine ⟨fun key hkey value hvalue => ?_, fun _ _ => rfl⟩
    rcases h with hlacks | hobject'
    · rw [hlacks key hkey] at hvalue
      cases hvalue
    · rw [hobject] at hobject'
      cases hobject'
  | true =>
    cases parsed with
    | obj members =>
      refine ⟨fun key hkey value hvalue => ?_, fun key hkey => ?_⟩
      · rw [get_restoreSensitive, if_pos hkey, hvalue]
        rfl
      · rw [get_restoreSensitive]
        split_ifs with hmem
        · rw [hkey hmem]
          rfl
        · rfl
    | null | bool b | int n | float repr | str s | arr elements => cases hobject

theorem lacksSecrets_substitute {params : Json} (h : LacksSecrets tool params)
    (values : Text → Json) : LacksSecrets tool (substitute values params tool.sensitiveParams) :=
  fun key hkey => (get_substitute_eq_none values).mpr (h key hkey)

theorem keeps_chatArguments {arguments : Json} (h : LacksSecrets tool call.params ∨
      ∀ parsed ∈ modification codec registry (chatEvent tool call), parsed.isObject = true)
    (harguments : chatArguments codec registry tool call = some arguments) :
    Keeps tool.sensitiveParams call.params (produced codec registry (chatEvent tool call))
      arguments := by
  rw [chatArguments_eq] at harguments
  split_ifs at harguments
  obtain rfl := Option.some.inj harguments
  rw [produced]
  cases hmodified : modification codec registry (chatEvent tool call) with
  | none => exact keeps_unmodified tool.sensitiveParams call.params
  | some parsed => exact keeps_restoreSensitive (h.imp_right fun hall => hall parsed hmodified)

theorem keeps_jobArguments {params arguments : Json} (h : LacksSecrets tool params ∨
      modification codec registry (workerEvent tool call params) = none)
    (harguments : jobArguments codec registry tool call params = some arguments) :
    Keeps tool.sensitiveParams params (produced codec registry (workerEvent tool call params))
      arguments := by
  rw [jobArguments_eq] at harguments
  split_ifs at harguments
  obtain rfl := Option.some.inj harguments
  rw [produced]
  cases hmodified : modification codec registry (workerEvent tool call params) with
  | none => exact keeps_unmodified tool.sensitiveParams params
  | some parsed =>
    -- what was parsed replaces the parameters as it is
    refine ⟨fun key hkey value hvalue => ?_, fun _ _ => rfl⟩
    rcases h with hlacks | hnone
    · rw [hlacks key hkey] at hvalue
      cases hvalue
    · rw [hnone] at hmodified
      cases hmodified

theorem secretive_of_spared (h : Spared codec registry tool call) :
    Secretive codec registry tool call where
  blind chain values := by
    rw [chatEvent_withSecrets]
    refine ⟨rfl, congrArg (chain.run codec) ?_⟩
    rw [jobEvent, jobEvent, h.prepared values]
    rfl
  chat values arguments harguments := by
    refine keeps_chatArguments ?_ harguments
    rw [chatEvent_withSecrets]
    exact h.chat.imp_left fun hlacks => lacksSecrets_substitute hlacks values
  job values params arguments hparams harguments := by
    subst hparams
    refine keeps_jobArguments ?_ harguments
    rw [workerEvent_substitute]
    exact h.job.imp_left fun hlacks => lacksSecrets_substitute hlacks values

theorem spared_of_secretive (h : Secretive codec registry tool call) :
    Spared codec registry tool call where
  prepared values :=
    parameters_eq_of_blind fun chain => (h.blind chain values).2
  chat := by
    by_contra hnot
    obtain ⟨hsecrets, hmodified⟩ := not_or.mp hnot
    obtain ⟨key, hkey, hvalue⟩ : ∃ key ∈ tool.sensitiveParams, call.params.get key ≠ none := by
      simpa [LacksSecrets] using hsecrets
    obtain ⟨parsed, hparsed, hobject⟩ : ∃ parsed,
        modification codec registry (chatEvent tool call) = some parsed ∧
          parsed.isObject = false := by
      simpa using hmodified
    obtain ⟨value, hvalue⟩ := Option.ne_none_iff_exists'.mp hvalue
    -- what is no object has no member, also where a secret was
    have harguments : chatArguments codec registry tool
        (withSecrets tool call fun _ => .null) = some parsed := by
      rw [chatArguments_eq, chatEvent_withSecrets, isBlocked_of_modification hparsed, hparsed,
        Option.map_some, restoreSensitive_of_not_object hobject]
      rfl
    have hkept := (h.chat (fun _ => .null) parsed harguments).secrets key hkey .null
      (get_substitute_of_some hkey hvalue _)
    rw [Foundation.Json.get_of_not_object hobject] at hkept
    cases hkept
  job := by
    by_contra hnot
    obtain ⟨hsecrets, hmodified⟩ := not_or.mp hnot
    obtain ⟨key, hkey, hvalue⟩ : ∃ key ∈ tool.sensitiveParams,
        (tool.prepare call.params).get key ≠ none := by
      simpa [LacksSecrets] using hsecrets
    obtain ⟨parsed, hparsed⟩ := Option.ne_none_iff_exists'.mp hmodified
    obtain ⟨value, hvalue⟩ := Option.ne_none_iff_exists'.mp hvalue
    have hevent : workerEvent tool call (tool.prepare call.params) = jobEvent tool call := rfl
    -- the hooks cannot have put back one secret and the other
    have hkept : ∀ b : Bool, parsed.get key = some (.bool b) := by
      intro b
      have harguments : jobArguments codec registry tool call (substitute (fun _ => .bool b)
          (tool.prepare call.params) tool.sensitiveParams) = some parsed := by
        rw [jobArguments_eq, workerEvent_substitute, hevent, isBlocked_of_modification hparsed,
          hparsed]
        rfl
      exact (h.job _ _ parsed rfl harguments).secrets key hkey _
        (get_substitute_of_some hkey hvalue _)
    have heq := (hkept true).symm.trans (hkept false)
    cases heq

end Secrecy

/-- **Hooks neither see nor destroy secrets** if and only if preparing hides them, and for
parameters with secrets a chat's hooks give only objects, a job's nothing. -/
theorem secretive_iff (codec : JsonCodec) (registry : HookRegistry) (tool : ToolSpec)
    (call : Hooks.ToolCall) :
    Secretive codec registry tool call ↔ Spared codec registry tool call :=
  ⟨spared_of_secretive, secretive_of_spared⟩

def pageParams (token : Text) (page : Int) : Json :=
  .obj [("token".toList, .str token), ("page".toList, .int page)]

def pageCodec : JsonCodec where
  parse s := if s == "second".toList then some (pageParams "[REDACTED]".toList 2) else none
  render j :=
    match j.get "page".toList with
    | some (.int 2) => "second".toList
    | _ => "first".toList

def pageTool : ToolSpec := ⟨"fetch".toList, ["token".toList], id⟩

def pageCall : Hooks.ToolCall :=
  ⟨"user1".toList, "j".toList, "t".toList, pageParams "s3cret".toList 1⟩

def pageRegistry : HookRegistry :=
  [⟨⟨"pager".toList, [.beforeToolCall], .failOpen, "5s".toList,
    fun _ => .outcome (.continue (some "second".toList))⟩, 100⟩]

/-- The chat executes the call with the token, the job with the marker. -/
theorem not_secretive_page : ¬ Secretive pageCodec pageRegistry pageTool pageCall ∧
      chatDispatcher pageCodec pageRegistry pageTool pageCall =
        some (pageParams "s3cret".toList 2) ∧ jobWorker pageCodec pageRegistry pageTool pageCall =
        some (pageParams "[REDACTED]".toList 2) := by
  refine ⟨fun h => ?_, rfl, rfl⟩
  have hkept := (h.job (fun _ => .null) _ (pageParams "[REDACTED]".toList 2) rfl rfl).secrets
    "token".toList List.mem_cons_self .null rfl
  cases hkept

end IronClaw.Agent
