import IronClaw.Missions.Calls
import IronClaw.Safety.Layer
import IronClaw.Tools.Registry

/-!
# From the result of a tool to the result of an action

The adapter reads the written value of a tool back, and only where that fails it takes what the
safety layer makes of it. Some tools get their output extended, or turned into a gate.
-/

namespace IronClaw.Bridge

open Foundation (Text Json HashMap Effect)
open Engine (CapabilityLease)
open Hooks (JsonCodec)
open Missions (EngineError ActionResult MissionSystem Project ProjectId)
open Tools (RegisteredTool)

inductive ResumeKind where
  | approval (allowAlways : Bool)
  | authentication (credentialName instructions : Text) (authUrl : Option Text)
deriving DecidableEq

structure GatePaused where
  gateName : Text
  actionName : Text
  callId : Text
  parameters : Json
  resumeKind : ResumeKind
  resumeOutput : Option Json
  pausedLease : Option CapabilityLease

inductive BridgeError where
  | engine (e : EngineError)
  | leaseDenied (reason : Text)
  | skill (reason : Text)
  | gatePaused (gate : GatePaused)

def BridgeError.pausedForApproval : BridgeError → Bool
  | gatePaused gate => gate.gateName == "approval".toList
  | _ => false

def isNameChar (c : Char) : Bool := ('a' ≤ c && c ≤ 'z') || Missions.isAsciiDigit c || c == '_'

def canonicalizeName (raw : Text) : Option Text :=
  let canonical := Engine.underscored raw.trim
  if canonical.isEmpty || decide (64 < Text.byteLength canonical) || !canonical.all isNameChar ||
      canonical.head? == some '_' || canonical.getLast? == some '_' ||
      Text.hasInfix ['_', '_'] canonical then none
  else some canonical

def extensionNameCandidates (name : Text) : List Text :=
  let canonical := (canonicalizeName name).getD name
  if Engine.hyphenated canonical = canonical then [canonical]
  else [canonical, Engine.hyphenated canonical]

/-- What is used of other crates. `validate` gives the objections to parameters. -/
structure BridgeLibraries where
  codec : JsonCodec
  regexes : Safety.Regexes
  safety : Safety.SafetyConfig
  validate : Json → Option Text
  sanitizeAuthUrl : Option Text → Option Text

inductive ToolReadiness where
  | ready
  | needsAuth (credentialName : Text) (instructions authUrl : Option Text)
  | needsSetup (message : Text)

structure ExecutedCall where
  actionName : Text
  lookupName : Text
  parameters : Json
  userId : Text
  projectId : ProjectId
  currentCallId : Option Text
  lease : CapabilityLease

/-- Why a mount refuses a call. Failures of other kinds are given as they are printed. -/
inductive MountError where
  | notFound (path : Text)
  | permissionDenied (path : Text)
  | invalidPath (path reason : Text)
  | other (text : Text)
deriving DecidableEq

/-- Why a tool gives no result. A timeout is given as it is printed. -/
inductive ToolRunError where
  | failed (reason : Text)
  | timedOut (timeout : Text)
deriving DecidableEq

inductive SkillSyncError where
  | store (reason : Text)
  | notInRegistry (skillName : Text)
deriving DecidableEq

def SkillSyncError.error : SkillSyncError → BridgeError
  | store reason => .engine (.store reason)
  | notInRegistry skillName => .skill ("skill_install reported '".toList ++ skillName ++
      "', but the installed skill was not found in the registry".toList)

/-- What happens around an execution, in the sandbox, in tools, at extensions and projects. -/
structure ExecutionEnv where
  sandboxed : Bool
  intercept : Option (Except MountError Json)
  toolResult : Json → Except ToolRunError Json
  authManager : Bool
  installReadiness : Text → ToolReadiness
  setupInstructions : Text → Text
  syncSkill : Text → Except SkillSyncError Unit
  isKnownCredential : Text → Bool
  newProjectId : ProjectId
  newCallId : Nat

inductive ToolFailure where
  | notFound (name : Text)
  | executionFailed (name reason : Text)
  | timeout (name duration : Text)
  | invalidParameters (name reason : Text)
deriving DecidableEq

def ToolFailure.text : ToolFailure → Text
  | notFound name => "Tool error: Tool ".toList ++ name ++ " not found".toList
  | executionFailed name reason =>
    "Tool error: Tool ".toList ++ name ++ " execution failed: ".toList ++ reason
  | timeout name duration =>
    "Tool error: Tool ".toList ++ name ++ " timed out after ".toList ++ duration
  | invalidParameters name reason =>
    "Tool error: Invalid parameters for tool ".toList ++ name ++ ": ".toList ++ reason

section Running

variable (libs : BridgeLibraries) (env : ExecutionEnv)

def invalid (lookupName objections : Text) : ToolFailure :=
  .invalidParameters lookupName ("Invalid tool parameters: ".toList ++ objections)

def executeToolWithSafety (tool : Option RegisteredTool) (lookupName : Text) (parameters : Json) :
    Except ToolFailure Text :=
  match tool.filter fun _ => !lookupName.isEmpty with
  | none => .error (.notFound lookupName)
  | some tool =>
    let normalized := tool.spec.prepare parameters
    match libs.validate normalized with
    | some objections => .error (invalid lookupName objections)
    | none =>
      match env.toolResult normalized with
      | .ok value => .ok (libs.codec.render value)
      | .error (.failed reason) => .error (.executionFailed lookupName reason)
      | .error (.timedOut timeout) => .error (.timeout lookupName timeout)

def mountFailure (lookupName : Text) : MountError → ToolFailure
  | .notFound path => .executionFailed lookupName ("sandbox: not found: ".toList ++ path)
  | .permissionDenied path =>
    .executionFailed lookupName ("sandbox: permission denied: ".toList ++ path)
  | .invalidPath path reason =>
    .invalidParameters lookupName ("sandbox: invalid path '".toList ++ path ++
      "': ".toList ++ reason)
  | .other text => .executionFailed lookupName ("sandbox: ".toList ++ text)

def sandboxResult (tool : Option RegisteredTool) (lookupName : Text) (parameters : Json) :
    Option (Except ToolFailure Text) :=
  if env.sandboxed then
    let normalized := (tool.map fun t => t.spec.prepare parameters).getD parameters
    match libs.validate normalized with
    | some objections => some (.error (invalid lookupName objections))
    | none =>
      env.intercept.map fun
        | .ok value => .ok (libs.codec.render value)
        | .error e => .error (mountFailure lookupName e)
  else none

def runTool (tool : Option RegisteredTool) (call : ExecutedCall) : Except ToolFailure Text :=
  (sandboxResult libs env tool call.lookupName call.parameters).getD
    (executeToolWithSafety libs env tool call.lookupName call.parameters)

end Running

def gatePaused (gateName : String) (actionName : Text) (callId : Option Text) (parameters : Json)
    (resumeKind : ResumeKind) (resumeOutput : Option Json) (lease : Option CapabilityLease) :
    BridgeError :=
  .gatePaused ⟨gateName.toList, actionName, callId.getD [], parameters, resumeKind, resumeOutput,
    lease⟩

def strMember (j : Json) (key : String) : Option Text := (j.get key.toList).bind Json.asStr

section Responding

variable (libs : BridgeLibraries) (missionLibs : Missions.Libraries) (env : ExecutionEnv)
  (call : ExecutedCall)

def authGateFromExtensionResult (output : Json) : Option BridgeError :=
  match strMember output "status", strMember output "name" with
  | some status, some name =>
    if status == "awaiting_authorization".toList || status == "awaiting_token".toList then
      some (gatePaused "authentication" call.actionName call.currentCallId call.parameters
        (.authentication
          ((((strMember output "credential_name").bind canonicalizeName).or
            (canonicalizeName name)).getD name)
          ((strMember output "instructions").getD "Complete authentication to continue.".toList)
          (libs.sanitizeAuthUrl (strMember output "auth_url")))
        none (some call.lease))
    else none
  | _, _ => none

def isInstall (lookupName : Text) : Bool :=
  lookupName == "tool_install".toList || lookupName == "tool-install".toList

def managesExtensions (lookupName : Text) : Bool :=
  lookupName == "tool_activate".toList || lookupName == "tool_auth".toList || isInstall lookupName

inductive ExtensionOutcome where
  | unchanged
  | enriched (output : Json)
  | paused (e : BridgeError)

def withSetup (message : Text) (output : Json) : Json :=
  (output.set "auth_status".toList (.str "needs_setup".toList)).set "setup_message".toList
    (.str message)

def installOutcome (output : Json) : ExtensionOutcome :=
  match strMember output "name" with
  | none => .unchanged
  | some extName =>
    match env.installReadiness extName with
    | .ready => .unchanged
    | .needsSetup message => .enriched (withSetup message output)
    | .needsAuth credentialName instructions authUrl =>
      .paused (gatePaused "authentication" call.actionName call.currentCallId call.parameters
        (.authentication credentialName
          (instructions.getD (env.setupInstructions credentialName)) (libs.sanitizeAuthUrl authUrl))
        (some output) none)

def extensionOutcome (output : Json) : ExtensionOutcome :=
  match (if managesExtensions call.lookupName then authGateFromExtensionResult libs call output
    else none) with
  | some e => .paused e
  | none =>
    if isInstall call.lookupName && env.authManager then installOutcome libs env call output
    else .unchanged

def syncSkillInstallResult (output : Json) : Except BridgeError Unit :=
  if call.lookupName == "skill_install".toList then
    match strMember output "name" with
    | some skillName => (env.syncSkill skillName).mapError SkillSyncError.error
    | none => .ok ()
  else .ok ()

def extractProjectSlug (target : Text) : Option Text :=
  match Text.find? ['/'] (target.drop 9) with
  | some (slug, remainder) =>
    if "projects/".toList.isPrefixOf target && !slug.isEmpty && slug.head? != some '.' &&
        !remainder.isEmpty then some slug
    else none
  | none => none

def findProject (projects : HashMap ProjectId Project) (slug : Text) : Option Project :=
  (projects.values.filter fun p => p.userId == call.userId).find? fun p =>
    Missions.slugifySimple missionLibs p.name == Text.toAsciiLowercase slug ||
      Text.toAsciiLowercase p.name == Text.toAsciiLowercase slug

def ensureProject (slug : Text) : Effect MissionSystem BridgeError ProjectId := do
  let s ← get
  match findProject missionLibs call s.projects slug with
  | some p => pure p.id
  | none => do
    let project : Project := ⟨env.newProjectId, call.userId, slug⟩
    modify fun s => { s with projects := s.projects.insert project.id project }
    pure project.id

def isMemoryWrite (lookupName : Text) : Bool :=
  lookupName == "memory_write".toList || lookupName == "memory-write".toList

def writtenProject (hasMissions : Bool) : Option Text :=
  if isMemoryWrite call.lookupName && hasMissions then
    (strMember call.parameters "target").bind extractProjectSlug
  else none

def spliceProject (hasMissions : Bool) (output : Json) : Effect MissionSystem BridgeError Json :=
  match writtenProject call hasMissions with
  | some slug => do
    let projectId ← ensureProject missionLibs env call slug
    pure (output.set "project_id".toList (.str (missionLibs.uuidText projectId)))
  | none => pure output

def callId (newCallId : Nat) (currentCallId : Option Text) (actionName : Text) : Text :=
  currentCallId.getD ("synthetic-".toList ++ actionName ++ ['-'] ++ missionLibs.uuidText newCallId)

def result (output : Json) (isError : Bool) : ActionResult :=
  ⟨callId missionLibs env.newCallId call.currentCallId call.actionName, call.actionName,
    output, isError⟩

def wrappedOutput (raw : Text) : Text :=
  Safety.wrapForLlm call.lookupName
    (Safety.sanitizeToolOutput libs.regexes libs.safety call.lookupName raw).content

/-- The value that is passed on: the sanitized text only where the output cannot be read back. -/
def outputValue (raw : Text) : Json :=
  (libs.codec.parse raw).getD (.str (wrappedOutput libs call raw))

def respondOk (hasMissions : Bool) (raw : Text) : Effect MissionSystem BridgeError ActionResult :=
  let output := outputValue libs call raw
  match extensionOutcome libs env call output with
  | .paused e => throw e
  | .enriched enriched => pure (result missionLibs env call enriched false)
  | .unchanged => do
    Effect.ofExcept (syncSkillInstallResult env call output)
    let spliced ← spliceProject missionLibs env call hasMissions output
    pure (result missionLibs env call spliced false)

def extractCredentialName (errorMsg : Text) : Option Text :=
  if errorMsg.contains '\x7b' then
    (libs.codec.parse (errorMsg.dropWhile fun c => c != '\x7b')).bind fun parsed =>
      strMember parsed "credential_name"
  else none

def requiredCredential (errorMsg : Text) : Option Text :=
  if Text.hasInfix "authentication_required".toList errorMsg then
    (extractCredentialName libs errorMsg).filter env.isKnownCredential
  else none

def failureMessage (failure : ToolFailure) : Text :=
  "Tool '".toList ++ call.lookupName ++ "' failed: ".toList ++ failure.text

def respondError (failure : ToolFailure) : Except BridgeError ActionResult :=
  let errorMsg := failureMessage call failure
  match requiredCredential libs env errorMsg with
  | some credName =>
    .error (gatePaused "authentication" call.actionName call.currentCallId call.parameters
      (.authentication credName ("Provide your ".toList ++ credName ++ " token".toList) none)
      none (some call.lease))
  | none =>
    .ok (result missionLibs env call (Missions.errorOutput
      (Safety.sanitizeToolOutput libs.regexes libs.safety call.lookupName errorMsg).content) true)

def respond (hasMissions : Bool) :
    Except ToolFailure Text → Effect MissionSystem BridgeError ActionResult
  | .ok raw => respondOk libs missionLibs env call hasMissions raw
  | .error failure => Effect.ofExcept (respondError libs missionLibs env call failure)

end Responding

end IronClaw.Bridge
