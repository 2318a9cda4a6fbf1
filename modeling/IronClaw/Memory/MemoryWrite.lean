import IronClaw.Memory.Changes
import IronClaw.Tools.Tool

/-!
# The `memory_write` tool

The tool writes, appends to or patches a document. Targets that lead to the orchestrator's code or
to prompt overlays are blocked or need approval. These checks have a normal form of their own, which
keeps white space.
-/

namespace IronClaw.Memory

open Foundation (Text Json Effect)
open Tools (ApprovalRequirement ToolError)

/-- The segments of a path without empty and dot ones, if none is a parent segment. -/
def normalizeWorkspacePath (path : Text) : Option Text :=
  let segs := Text.splitOn '/' path
  if segs.contains "..".toList then none
  else some (joinSegments (segs.filter fun seg => !(seg.isEmpty || seg == ".".toList)))

/-- The directories of the orchestrator's code, current and legacy. -/
def protectedPrefixes : List Text :=
  [".system/engine/orchestrator".toList, "engine/orchestrator".toList]

def isUnderPrefix (path : Text) : Bool :=
  protectedPrefixes.any fun dir => path == dir || (dir ++ ['/']).isPrefixOf path

def isEngineAlias (path : Text) : Bool :=
  "orchestrator:".toList.isPrefixOf path || "prompt:".toList.isPrefixOf path

/-- Traversal is protected. -/
def isProtectedOrchestratorPath (path : Text) : Bool :=
  isEngineAlias path ||
    match normalizeWorkspacePath path with
    | none => true
    | some canonical => isUnderPrefix canonical

/-- The normal form is a `.py` file inside an orchestrator directory. -/
def isProtectedPyPath (path : Text) : Bool :=
  match normalizeWorkspacePath path with
  | none => false
  | some canonical =>
    ".py".toList.isSuffixOf canonical &&
      (".system/engine/orchestrator/".toList.isPrefixOf canonical ||
        "engine/orchestrator/".toList.isPrefixOf canonical)

def looksLikeFilesystemPath : Text → Bool
  | [] => false
  | '/' :: _ => true
  | '~' :: '/' :: _ => true
  | c :: ':' :: sep :: _ => c.isAlpha && (sep == '\\' || sep == '/')
  | _ => false

def mapWriteErr : WorkspaceError → ToolError
  | .injectionRejected path reason =>
    .notAuthorized ("content rejected for '" ++ String.ofList path ++
      "': prompt injection detected (" ++ reason ++ ")")
  | other => .executionFailed ("Write failed: " ++ other.toString)

/-- What a call finds around it: the self-modification flag, the syntax check, and dates and time.
-/
structure MemoryWriteEnv where
  selfModifyEnabled : Bool
  validatePythonSyntax : Text → Except String Unit
  resolvedDate : Text
  logDate : Text
  logTime : Text

namespace MemoryWriteTool

abbrev ToolOp (α : Type) := Effect Documents ToolError α

def onWorkspace {α : Type} (x : Op α) : ToolOp α := fun docs =>
  let r := x.exec docs
  (r.1.mapError mapWriteErr, r.2)

section

variable (env : MemoryWriteEnv) (ws : Workspace) (params : Json)

def strParam (params : Json) (name : String) : Option Text :=
  (params.get name.toList).bind Json.asStr

def boolParam (params : Json) (name : String) (default : Bool) : Bool :=
  ((params.get name.toList).bind Json.asBool).getD default

def targetOf (params : Json) : Text := (strParam params "target").getD "daily_log".toList

def contentOf (params : Json) : Text := (strParam params "content").getD []

def requiresApproval : ApprovalRequirement :=
  let target := (strParam params "target").getD []
  if !env.selfModifyEnabled then .never
  -- traversal attempts are rejected by the execution
  else if !isEngineAlias target && (normalizeWorkspacePath target).isNone then .never
  else if isProtectedOrchestratorPath target then .always
  else .never

def resolvedPath (target : Text) : Text :=
  if target = "memory".toList then Paths.memory
  else if target = "daily_log".toList then Paths.dailyLog env.resolvedDate
  else if target = "heartbeat".toList then Paths.heartbeat
  else target

def checkCall : ToolOp Unit := do
  let target := targetOf params
  Effect.require ((strParam params "old_string").isSome ||
      !(Text.trim (contentOf params)).isEmpty || target == "bootstrap".toList)
    (.invalidParameters ("Either 'content' (for write/append) or 'old_string'+'new_string' " ++
      "(for patch) is required"))
  Effect.require (!looksLikeFilesystemPath target)
    (.invalidParameters ("'" ++ String.ofList target ++ "' looks like a local filesystem path. " ++
      "memory_write only works with workspace-memory paths. Use write_file for filesystem " ++
      "writes. For opening files in an editor, use shell with: open \"<absolute_path>\"."))
  Effect.require (isEngineAlias target || (normalizeWorkspacePath target).isSome)
    (.invalidParameters ("'" ++ String.ofList target ++ "' contains a parent-directory ('..') " ++
      "segment, which is not allowed in workspace paths."))
  Effect.require (!(isProtectedOrchestratorPath target && !env.selfModifyEnabled))
    (.notAuthorized ("Writing to '" ++ String.ofList target ++ "' is blocked — orchestrator " ++
      "self-modification is disabled. Set ORCHESTRATOR_SELF_MODIFY=true to enable runtime " ++
      "patching."))

def clearBootstrap : ToolOp Json := do
  onWorkspace (ws.write Paths.bootstrap [])
  pure (.obj [("status".toList, .str "cleared".toList), ("path".toList, .str Paths.bootstrap),
    ("message".toList, .str "BOOTSTRAP.md cleared. First-run ritual will not repeat.".toList)])

def metadataParam : Option Json :=
  if (strParam params "layer").isSome then none
  else (params.get "metadata".toList).filter Json.isObject

/-- Merge the metadata of a call into the document's. A patch does not create the document. -/
def applyMetadata (path : Text) : ToolOp Unit :=
  match metadataParam params with
  | none => pure ()
  | some metadata => do
    let update := fun doc : MemoryDocument =>
      onWorkspace (updateDocumentMetadata (ws.key (normalizePath path))
        (DocumentMetadata.merge doc.metadata metadata))
    if (strParam params "old_string").isSome then
      match ← Effect.attempt (onWorkspace (ws.readPrimary path)) with
      | .ok doc => update doc
      | .error _ => pure ()
    else
      let doc ← onWorkspace (ws.getOrCreate path)
      update doc

def existingText (path : Text) : ToolOp Text := do
  match ← Effect.attempt (onWorkspace (ws.read path)) with
  | .ok doc => pure doc.content
  | .error _ => pure []

def textBefore (path : Text) : ToolOp Text :=
  if boolParam params "append" true then existingText ws path else pure []

def checkSyntax (path final : Text) : ToolOp Unit :=
  if isProtectedPyPath path then
    match env.validatePythonSyntax final with
    | .ok () => pure ()
    | .error reason =>
      throw (.invalidParameters ("orchestrator patch has invalid Python syntax: " ++ reason))
  else pure ()

def patchMode (path oldString : Text) : ToolOp Json := do
  Effect.require (!oldString.isEmpty) (.invalidParameters "old_string cannot be empty")
  Effect.require (strParam params "layer").isNone
    (.invalidParameters "patch mode (old_string/new_string) cannot be combined with layer")
  let newString ← Effect.ofExcept <| match strParam params "new_string" with
    | some newString => .ok newString
    | none => .error (.invalidParameters "new_string is required when old_string is provided")
  let replaceAll := boolParam params "replace_all" false
  let existing ← existingText ws path
  checkSyntax env path (Workspace.patched existing oldString newString replaceAll)
  let (content, replacements) ← onWorkspace (ws.patch path oldString newString replaceAll)
  pure (.obj [("status".toList, .str "patched".toList), ("path".toList, .str path),
    ("replacements".toList, .int replacements),
    ("content_length".toList, .int (Text.byteLength content))])

/-- Store the content of a call. Returns the layer it went to, if one was given. -/
def store (path : Text) : Op (Option (Text × Bool)) :=
  let target := targetOf params
  let content := contentOf params
  let append := boolParam params "append" true
  match strParam params "layer" with
  | some layerName => do
    let force := boolParam params "force" false
    let result ←
      if append then ws.appendToLayer layerName path content force
      else ws.writeToLayer layerName path content force
    pure (some result)
  | none => do
    if target = "memory".toList then
      if append then ws.appendMemory content else ws.write Paths.memory content
    else if target = "daily_log".toList then
      ws.appendDailyLog env.logDate env.logTime content
    else if append then ws.append path content
    else ws.write path content
    pure none

def syncDerived (path : Text) : ToolOp Bool :=
  if normalizePath path = Paths.profile then do
    match ← Effect.attempt (onWorkspace ws.syncProfileDocuments) with
    | .ok synced => pure synced
    | .error _ => pure false
  else pure false

def writeMode (path : Text) : ToolOp Json := do
  let existing ← textBefore ws params path
  checkSyntax env path (existing ++ contentOf params)
  let layerResult ← onWorkspace (store env ws params path)
  let synced ← syncDerived ws path
  let layerMembers := match layerResult with
    | some (actualLayer, redirected) =>
      [("layer".toList, .str actualLayer), ("redirected".toList, .bool redirected)]
    | none => []
  let syncedMembers :=
    if synced then [("synced".toList, .arr [.str Paths.user, .str Paths.assistantDirectives])]
    else []
  pure (.obj ([("status".toList, .str "written".toList), ("path".toList, .str path),
    ("append".toList, .bool (boolParam params "append" true)),
    ("content_length".toList, .int (Text.byteLength (contentOf params)))] ++ layerMembers ++
      syncedMembers))

def execute : ToolOp Json := do
  checkCall env params
  if targetOf params = "bootstrap".toList then clearBootstrap ws
  else
    let path := resolvedPath env (targetOf params)
    applyMetadata ws params path
    match strParam params "old_string" with
    | some oldString => patchMode env ws params path oldString
    | none => writeMode env ws params path

end

end MemoryWriteTool

end IronClaw.Memory
