import Mathlib.Data.Finset.Basic
import IronClaw.Bridge.Output

/-!
# The effect bridge adapter

The adapter executes the actions of a thread: at the mission manager, on the thread's snapshot, or
as tools. For these, permission, rate limit, credentials, approval and hooks come first.
-/

namespace IronClaw.Bridge

open Foundation (Text Json Effect)
open Engine (ActionDef CapabilityLease)
open Hooks (HookRegistry JsonCodec ToolCallEvent)
open Missions (ActionResult CallEnv ManagerConfig MissionSystem ThreadExecutionContext)
open Tools (ApprovalRequirement MonotonicTime RateLimiter RegisteredTool ToolPermissionResolution
  ToolPermissionSnapshot ToolRegistry)

structure AdapterState where
  autoApproved : Finset Text
  callCount : Nat
  rateLimiter : RateLimiter
  missions : MissionSystem
  activated : List Text
  executed : List ExecutedCall

abbrev AdapterOp := Effect AdapterState BridgeError

structure AdapterConfig where
  libs : BridgeLibraries
  manager : ManagerConfig
  hasMissions : Bool
  hooks : HookRegistry
  hookCodec : JsonCodec
  autoApproveTools : Bool
  credentialRegistry : Bool

/-- What a call knows about its thread, with snapshots of the offered actions, if any. -/
structure BridgeContext extends ThreadExecutionContext where
  threadId : Text
  availableActions : Option (List ActionDef)
  toolInfo : Option (Json → Except Text (Option Json))

/-- How an action ends that no tool is registered for and that an extension provides. -/
inductive LatentActionExecution where
  | retryRegisteredAction (resolvedAction : Text)
  | providerReady (providerExtension : Text) (availableActions : List Text)
  | needsAuth (credentialName instructions : Text) (authUrl : Option Text)
  | needsSetup (message : Text)

/-- The end of a latent action, the extension activated for it, and the tools after that. -/
structure LatentOutcome where
  execution : Except Text LatentActionExecution
  activated : Option Text
  tools : ToolRegistry

structure MissingCredential where
  credentialName : Text
  setupInstructions : Option Text
  authUrl : Option Text

/-- What a call takes from outside. Without a list of extensions, listing them failed. -/
structure AdapterEnv where
  execution : ExecutionEnv
  missions : CallEnv
  now : MonotonicTime
  tools : ToolRegistry
  permissions : ToolPermissionSnapshot
  latent : Option LatentOutcome
  missingCredential : Text → Option MissingCredential
  providerReadiness : Text → ToolReadiness
  extensions : Option (List (Text × Bool))

structure ActionCall where
  actionName : Text
  parameters : Json
  lease : CapabilityLease
  ctx : BridgeContext
  approvalAlreadyGranted : Bool
  env : AdapterEnv

namespace ActionCall

variable (call : ActionCall)

def canonicalName : Text :=
  match call.ctx.availableActions.bind fun actions =>
    actions.find? fun action => action.matchesName call.actionName with
  | some action => action.name
  | none => call.actionName

def resolvedName : Option Text := call.env.tools.resolveName call.canonicalName

def lookupName : Text := call.resolvedName.getD call.canonicalName

def latent : Option LatentOutcome :=
  if call.resolvedName.isNone && call.env.execution.authManager then call.env.latent else none

end ActionCall

def isV1OnlyTool (name : Text) : Bool :=
  (["create_job", "create-job", "cancel_job", "cancel-job", "build_software",
    "build-software"].map String.toList).contains name

def isV1AuthTool (name : Text) : Bool :=
  name == "tool_auth".toList || name == "tool-auth".toList

def toolInfoName : Text := "tool_info".toList

def extensionNameMatches (extensionName requestedName : Text) : Bool :=
  (extensionNameCandidates extensionName).any fun candidate =>
    (extensionNameCandidates requestedName).contains candidate

def requiresInstall (requestedName : Text) (extensions : List (Text × Bool)) : Bool :=
  let known := extensions.filter fun e => extensionNameMatches e.1 requestedName
  !known.isEmpty && known.all fun e => !e.2

def toolActivateRequiresInstallApproval (env : AdapterEnv) (lookupName : Text)
    (parameters : Json) : Bool :=
  (lookupName == "tool_activate".toList || lookupName == "tool-activate".toList) &&
    match ((strMember parameters "name").map Text.trim).filter fun name => !name.isEmpty with
    | none => false
    | some requested =>
      if !env.execution.authManager then true
      else
        match env.extensions with
        | some extensions => requiresInstall requested extensions
        | none => true

/-- A user who wants to be asked is asked always. The restart asks always by default. -/
def applyUserPermissionOverride (lookupName : Text) (base : ApprovalRequirement)
    (permission : ToolPermissionResolution) : ApprovalRequirement :=
  if permission.explicit = some .askEachTime then .always
  else if base = .never ∧ permission.configured = some .askEachTime ∧
      Tools.canonicalToolName lookupName = "restart".toList then .always
  else base

def effectiveRequirement (env : AdapterEnv) (lookupName : Text) (tool : RegisteredTool)
    (parameters : Json) (includeInstallApproval : Bool) : ApprovalRequirement :=
  let base :=
    if includeInstallApproval && toolActivateRequiresInstallApproval env lookupName parameters then
      .unlessAutoApproved
    else tool.requiresApproval parameters
  applyUserPermissionOverride lookupName base (env.permissions.resolvePermission lookupName)

section Adapter

variable (config : AdapterConfig) (call : ActionCall)

/-- Whether a call is paused for a requirement, and whether an approval may be for good. -/
def approvalGate (autoApproved : Finset Text) (lookupName : Text) :
    ApprovalRequirement → Option Bool
  | .never => none
  | .always => if call.approvalAlreadyGranted then none else some false
  | .unlessAutoApproved =>
    if config.autoApproveTools || decide (lookupName ∈ autoApproved) ||
        (call.env.permissions.resolvePermission lookupName).effective == .alwaysAllow ||
        call.approvalAlreadyGranted then none
    else some true

def enforceToolApproval (autoApproved : Finset Text) (lookupName : Text)
    (tool : Option RegisteredTool) (includeInstallApproval : Bool) : Except BridgeError Unit :=
  match tool with
  | none => .ok ()
  | some tool =>
    match approvalGate config call autoApproved lookupName
      (effectiveRequirement call.env lookupName tool call.parameters includeInstallApproval) with
    | none => .ok ()
    | some allowAlways =>
      .error (gatePaused "approval" call.actionName call.ctx.currentCallId call.parameters
        (.approval allowAlways) none (some call.lease))

def maxCallsPerStep : Nat := 50

def callLimitReached : BridgeError :=
  .engine (.effect ("Tool call limit reached (50 per code step). " ++
    "Break your task into multiple steps.").toList)

def countCall : AdapterOp Unit := do
  let s ← get
  modify fun s => { s with callCount := (s.callCount + 1) % 2 ^ 32 }
  Effect.require (s.callCount < maxCallsPerStep) callLimitReached

def ensureToolNotDisabled (lookupName : Text) : Except BridgeError Unit :=
  if call.env.permissions.isDisabled lookupName then
    .error (.leaseDenied ("Tool '".toList ++ call.actionName ++
      "' is disabled for this user.".toList))
  else .ok ()

def roundSeconds (nanos : Nat) : Nat :=
  let secs := nanos / 10 ^ 9
  let rest := nanos % 10 ^ 9
  if rest * 2 < 10 ^ 9 ∨ (rest * 2 = 10 ^ 9 ∧ secs % 2 = 0) then secs else secs + 1

def rateLimited (retryAfter : Nat) : BridgeError :=
  .engine (.effect ("Tool '".toList ++ call.actionName ++
    "' is rate limited. Try again in ".toList ++
    Safety.decimal (roundSeconds retryAfter) ++ "s.".toList))

def checkRateLimit (lookupName : Text) (tool : Option RegisteredTool) : AdapterOp Unit :=
  match tool.bind RegisteredTool.rateLimitConfig with
  | none => pure ()
  | some limits => do
    let s ← get
    let checked := RateLimiter.checkAndRecord s.rateLimiter call.env.now call.ctx.userId lookupName
      limits
    modify fun s => { s with rateLimiter := checked.2 }
    match checked.1 with
    | none => pure ()
    | some retryAfter => throw (rateLimited call retryAfter)

def authenticationGate (credentialName instructions : Text) (authUrl : Option Text) : BridgeError :=
  gatePaused "authentication" call.actionName call.ctx.currentCallId call.parameters
    (.authentication credentialName instructions (config.libs.sanitizeAuthUrl authUrl)) none
    (some call.lease)

def checkActionAuth (lookupName : Text) : Except BridgeError Unit :=
  if call.env.execution.authManager && config.credentialRegistry then
    match call.env.missingCredential lookupName with
    | some cred => .error (authenticationGate config call cred.credentialName
        (cred.setupInstructions.getD ("Provide your ".toList ++ cred.credentialName ++
          " token".toList)) cred.authUrl)
    | none => .ok ()
  else .ok ()

def checkProvider (tool : Option RegisteredTool) : Except BridgeError Unit :=
  match tool.bind RegisteredTool.providerExtension with
  | none => .ok ()
  | some provider =>
    if call.env.execution.authManager then
      match call.env.providerReadiness provider with
      | .ready => .ok ()
      | .needsAuth credentialName instructions authUrl =>
        .error (authenticationGate config call credentialName
          (instructions.getD ("Authenticate '".toList ++ provider ++ "' to continue.".toList))
          authUrl)
      | .needsSetup message =>
        .error (.engine (.effect ("Extension '".toList ++ provider ++ "' is not ready: ".toList ++
          message)))
    else .ok ()

def hookEvent (lookupName : Text) (tool : Option RegisteredTool) : ToolCallEvent :=
  ⟨lookupName, (tool.map fun t => Hooks.redactParams call.parameters t.spec.sensitiveParams).getD
    call.parameters, call.ctx.userId, "engine_v2:".toList ++ call.ctx.threadId⟩

def blockedByHook (reason : Text) : BridgeError :=
  .leaseDenied ("Tool '".toList ++ call.actionName ++ "' blocked by hook: ".toList ++ reason)

/-- No hook rejects the call. Other failures of hooks are let pass. -/
def checkHooks (lookupName : Text) (tool : Option RegisteredTool) : Except BridgeError Unit :=
  match config.hooks.run config.hookCodec (hookEvent call lookupName tool) with
  | .ok (.reject reason) => .error (blockedByHook call reason)
  | .error (.rejected reason) => .error (blockedByHook call reason)
  | _ => .ok ()

def lift {ε α : Type} (wrap : ε → BridgeError) (x : Effect MissionSystem ε α) : AdapterOp α :=
  fun s =>
    let r := Effect.exec x s.missions
    (r.1.mapError wrap, { s with missions := r.2 })

theorem exec_lift {ε α : Type} (wrap : ε → BridgeError) (x : Effect MissionSystem ε α)
    (s : AdapterState) :
    Effect.exec (lift wrap x) s = ((Effect.exec x s.missions).1.mapError wrap,
      { s with missions := (Effect.exec x s.missions).2 }) := rfl

def missionRoute : Option (AdapterOp ActionResult) :=
  if config.hasMissions then
    (Missions.handleMissionCall config.manager call.env.missions call.ctx.toThreadExecutionContext
      call.canonicalName call.parameters).map (lift .engine)
  else none

def resultOf (actionName : Text) (output : Json) (isError : Bool) : ActionResult :=
  ⟨callId config.manager.libs call.env.execution.newCallId call.ctx.currentCallId actionName,
    actionName, output, isError⟩

def toolInfoAnswer : Json × Bool :=
  let sanitized (msg : Text) : Json := Missions.errorOutput
    (Safety.sanitizeToolOutput config.libs.regexes config.libs.safety toolInfoName msg).content
  match call.ctx.toolInfo with
  | none => (sanitized
      "tool_info: action inventory unavailable in this execution context".toList, true)
  | some info =>
    match info call.parameters with
    | .ok (some output) => (output, false)
    | .ok none => (sanitized ("tool_info: no callable or discoverable action named '".toList ++
        (strMember call.parameters "name").getD "<missing>".toList ++
        "' in this execution context".toList), true)
    | .error e => (sanitized ("Tool tool_info failed: ".toList ++ e), true)

def toolInfoRoute : AdapterOp ActionResult := do
  let s ← get
  Effect.ofExcept (ensureToolNotDisabled call call.lookupName)
  Effect.ofExcept (enforceToolApproval config call s.autoApproved call.lookupName
    (call.env.tools.get call.lookupName) false)
  let answer := toolInfoAnswer config call
  -- the result goes under the name of the tool, not under the one the action was called by
  pure (resultOf config call call.canonicalName answer.1 answer.2)

def notInEngineV2 (advice : String) : BridgeError :=
  .engine (.effect ("Tool '".toList ++ call.actionName ++
    "' is not available in engine v2. ".toList ++
    advice.toList))

def rejectV1Tools : Except BridgeError Unit :=
  if isV1OnlyTool call.lookupName then
    .error (notInEngineV2 call
      "Tell the user to use the slash command instead (e.g. /routine, /job).")
  else if isV1AuthTool call.lookupName then
    .error (notInEngineV2 call "Authentication is handled automatically by the kernel.")
  else .ok ()

/-- How an action goes on: with the tools and the name to look one up under, or it is finished. -/
inductive Routed where
  | lookup (tools : ToolRegistry) (name : Text)
  | finished (result : ActionResult)

def providerReadyOutput (provider : Text) (actions : List Text) : Json :=
  .obj [("provider_extension".toList, .str provider),
    ("available_actions".toList, .arr (actions.map .str)),
    ("message".toList,
      .str "Provider is ready. Use one of the available provider actions next.".toList)]

def latentResult (outcome : LatentOutcome) : Except BridgeError Routed :=
  match outcome.execution with
  | .ok (.retryRegisteredAction resolvedAction) => .ok (.lookup outcome.tools resolvedAction)
  | .ok (.providerReady provider actions) =>
    .ok (.finished (resultOf config call call.actionName
      (providerReadyOutput provider actions) false))
  | .ok (.needsAuth credentialName instructions authUrl) =>
    .error (authenticationGate config call credentialName instructions authUrl)
  | .ok (.needsSetup message) => .error (.engine (.effect message))
  | .error e => .error (.engine (.effect e))

def routeLatent : AdapterOp Routed :=
  match call.latent with
  | none => pure (.lookup call.env.tools call.lookupName)
  | some outcome => do
    modify fun s => { s with activated := s.activated ++ outcome.activated.toList }
    Effect.ofExcept (latentResult config call outcome)

def admitCall (tool : Option RegisteredTool) (lookupName : Text) : AdapterOp Unit := do
  Effect.ofExcept (ensureToolNotDisabled call lookupName)
  checkRateLimit call lookupName tool
  Effect.ofExcept (checkActionAuth config call lookupName)
  Effect.ofExcept (checkProvider config call tool)
  let s ← get
  Effect.ofExcept (enforceToolApproval config call s.autoApproved lookupName tool true)
  Effect.ofExcept (checkHooks config call lookupName tool)

def executedCall (lookupName : Text) : ExecutedCall :=
  ⟨call.actionName, lookupName, call.parameters, call.ctx.userId, call.ctx.projectId,
    call.ctx.currentCallId, call.lease⟩

/-- The tool is executed, or the sandbox takes the call: the parameters are valid. -/
def isExecuted (tool : Option RegisteredTool) (lookupName : Text) : Bool :=
  (config.libs.validate ((tool.map fun t => t.spec.prepare call.parameters).getD
      call.parameters)).isNone &&
    (call.env.execution.sandboxed && call.env.execution.intercept.isSome ||
      tool.isSome && !lookupName.isEmpty)

def executeTool (tool : Option RegisteredTool) (lookupName : Text) : AdapterOp ActionResult := do
  let executed := executedCall call lookupName
  modify fun s =>
    { s with executed :=
        if isExecuted config call tool lookupName then s.executed ++ [executed] else s.executed }
  lift id (respond config.libs config.manager.libs call.env.execution executed config.hasMissions
    (runTool config.libs call.env.execution tool executed))

def toolRoute : AdapterOp ActionResult := do
  Effect.ofExcept (rejectV1Tools call)
  match ← routeLatent config call with
  | .finished result => pure result
  | .lookup tools name => do
    admitCall config call (tools.get name) name
    executeTool config call (tools.get name) name

def route : AdapterOp ActionResult :=
  match missionRoute config call with
  | some handled => handled
  | none =>
    if call.canonicalName = toolInfoName then toolInfoRoute config call else toolRoute config call

def executeActionInternal : AdapterOp ActionResult := do
  countCall
  route config call

end Adapter

def sampleBridgeLibraries : BridgeLibraries where
  codec := Hooks.sampleCodec
  regexes := ⟨fun _ _ => []⟩
  safety := ⟨100000, false⟩
  validate _ := none
  sanitizeAuthUrl url := url

def sampleMissionLibraries : Missions.Libraries where
  parseUuid _ := .error []
  uuidText _ := []
  toLowercase := Text.toAsciiLowercase
  isTimezone _ := false
  checkRegex _ := .ok ()
  cronUpcoming _ _ _ := .ok none
  dateIn _ now := now
  rfc3339 _ := []
  debugCadence _ := []
  jsonText _ := []

def sampleAdapter : AdapterConfig where
  libs := sampleBridgeLibraries
  manager := ⟨sampleMissionLibraries, 10, 60000000000, none⟩
  hasMissions := false
  hooks := []
  hookCodec := Hooks.sampleCodec
  autoApproveTools := false
  credentialRegistry := false

def sampleExecution : ExecutionEnv where
  sandboxed := false
  intercept := none
  toolResult _ := .ok (.obj [])
  authManager := false
  installReadiness _ := .ready
  setupInstructions _ := []
  syncSkill _ := .ok ()
  isKnownCredential _ := false
  newProjectId := 1
  newCallId := 1

end IronClaw.Bridge
