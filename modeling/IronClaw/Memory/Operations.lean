import IronClaw.Memory.Documents
import IronClaw.Safety.Sanitizer

/-!
# Workspace operations

The operations of a workspace that read and change documents. Writes to files of the system prompt
are searched for injections. A document is created before its text is validated.
-/

namespace IronClaw.Memory

open Foundation (Text Json Effect)

def dominantWarnings (content : Text) : List Safety.InjectionWarning :=
  (Safety.Sanitizer.detect content).filter fun w => Safety.Severity.high ≤ w.severity

def rejectIfInjected (path content : Text) : Op Unit :=
  Effect.require (dominantWarnings content).isEmpty <| .injectionRejected path <|
    "; ".intercalate ((dominantWarnings content).map fun w => w.description)

def scanForPrompt (path content : Text) : Op Unit :=
  if isSystemPromptFile path && !content.isEmpty then rejectIfInjected path content else pure ()

namespace Workspace

variable (ws : Workspace)

def validateSchema (path content : Text) (metadata : Json) : Op Unit :=
  match DocumentMetadata.schema metadata with
  | none => pure ()
  | some schema =>
    Effect.require (schema.isNull || (ws.schemaErrors schema content).isEmpty)
      (.schemaValidation path (ws.schemaErrors schema content))

def resolveMetadata (docs : Documents) (path : Text) : Json :=
  resolveMetadataInScope docs ws.userId ws.agentId path

def getDocumentByPathMulti (path : Text) : Op MemoryDocument := do
  let docs ← get
  match ws.readUserIds.findSome? fun scope => docs.lookup (ws.keyIn scope path) with
  | some doc => pure doc
  | none => throw (.documentNotFound path ("[" ++ ", ".intercalate ws.readUserIds ++ "]"))

def read (path : Text) : Op MemoryDocument :=
  let path := normalizePath path
  if ws.isMultiScope && isIdentityPath path then getDocumentByPath (ws.key path)
  else if ws.isMultiScope then ws.getDocumentByPathMulti path
  else getDocumentByPath (ws.key path)

def readPrimary (path : Text) : Op MemoryDocument := getDocumentByPath (ws.key (normalizePath path))

def getOrCreate (path : Text) : Op MemoryDocument :=
  getOrCreateDocumentByPath (ws.key (normalizePath path))

def validateAndUpdate (scope : Scope) (path content : Text) : Op Unit := do
  ws.validateSchema path content (resolveMetadataInScope (← get) scope ws.agentId path)
  updateDocument (ws.keyIn scope path) content

def patched (existing oldString newString : Text) (replaceAll : Bool) : Text :=
  if replaceAll then Text.replaceAll oldString newString existing
  else Text.replaceFirst oldString newString existing

def patch (path oldString newString : Text) (replaceAll : Bool) : Op (Text × Nat) := do
  Effect.require (!oldString.isEmpty) (.patchFailed path "old_string cannot be empty")
  let path := normalizePath path
  let doc ← getDocumentByPath (ws.key path)
  Effect.require (Text.hasInfix oldString doc.content)
    (.patchFailed path "old_string not found in document")
  let newContent := patched doc.content oldString newString replaceAll
  scanForPrompt path newContent
  ws.validateAndUpdate ws.userId path newContent
  pure (newContent, if replaceAll then Text.countMatches oldString doc.content else 1)

/-- Write a file. Engine state is not validated, and unchanged content not stored again. -/
def write (path content : Text) : Op Unit := do
  let path := normalizePath path
  scanForPrompt path content
  let doc ← getOrCreateDocumentByPath (ws.key path)
  if doc.content = content then pure ()
  else if isEngineRuntimePath path then updateDocument (ws.key path) content
  else ws.validateAndUpdate ws.userId path content

/-- New content behind a separator and what is already there. -/
def appended (existing separator content : Text) : Text :=
  if existing.isEmpty then content else existing ++ separator ++ content

/-- The new content and the combined one are both scanned. -/
def append (path content : Text) : Op Unit := do
  let path := normalizePath path
  scanForPrompt path content
  let doc ← getOrCreateDocumentByPath (ws.key path)
  let newContent := appended doc.content ['\n'] content
  scanForPrompt path newContent
  ws.validateAndUpdate ws.userId path newContent

/-- The layer a write goes to. Sensitive content goes from a shared to the private one, unless
forced. -/
def resolveLayerTarget (layerName content : Text) (force : Bool) :
    Except WorkspaceError (Scope × Text × Bool) :=
  match MemoryLayer.findLayer ws.memoryLayers layerName with
  | none => .error (.layerNotFound layerName)
  | some layer =>
    if !layer.writable then .error (.layerReadOnly layerName)
    else if !force && layer.sensitivity == .shared &&
        (ws.privacyClassifier.any fun isSensitive => isSensitive content) then
      match MemoryLayer.privateLayer ws.memoryLayers with
      | none => .error .privacyRedirectFailed
      | some target =>
        if !target.writable then .error .privacyRedirectFailed
        else .ok (target.scope, target.name, true)
    else .ok (layer.scope, layerName, false)

def writeToLayer (layerName path content : Text) (force : Bool) : Op (Text × Bool) := do
  let (scope, actualLayer, redirected) ←
    Effect.ofExcept (ws.resolveLayerTarget layerName content force)
  let path := normalizePath path
  let _ ← getOrCreateDocumentByPath (ws.keyIn scope path)
  ws.validateAndUpdate scope path content
  pure (actualLayer, redirected)

def appendToLayer (layerName path content : Text) (force : Bool) : Op (Text × Bool) := do
  let (scope, actualLayer, redirected) ←
    Effect.ofExcept (ws.resolveLayerTarget layerName content force)
  let path := normalizePath path
  let doc ← getOrCreateDocumentByPath (ws.keyIn scope path)
  ws.validateAndUpdate scope path (appended doc.content ['\n', '\n'] content)
  pure (actualLayer, redirected)

def appendMemory (entry : Text) : Op Unit := do
  let doc ← getOrCreateDocumentByPath (ws.key Paths.memory)
  updateDocument (ws.key Paths.memory) (appended doc.content ['\n', '\n'] entry)

def appendDailyLog (date timestamp entry : Text) : Op Unit :=
  ws.append (Paths.dailyLog date) (['['] ++ timestamp ++ "] ".toList ++ entry)

end Workspace

def profileSectionBegin : Text := "<!-- BEGIN:profile-sync -->".toList

def profileSectionEnd : Text := "<!-- END:profile-sync -->".toList

def wrapProfileSection (content : Text) : Text :=
  profileSectionBegin ++ ['\n'] ++ content ++ ['\n'] ++ profileSectionEnd

def isSeedTemplate (content : Text) : Bool :=
  let trimmed := Text.trim content
  "# User Context".toList.isPrefixOf trimmed && Text.hasInfix "- **Name:**".toList trimmed

/-- The block of a text, as what precedes and what follows it. The end is sought behind the start.
-/
def profileSection? (existing : Text) : Option (Text × Text) :=
  match Text.find? profileSectionBegin existing with
  | none => none
  | some (before, rest) =>
    (Text.find? profileSectionEnd (profileSectionBegin ++ rest)).map fun r => (before, r.2)

def mergeProfileSection (existing newContent : Text) : Text :=
  let delimited := wrapProfileSection newContent
  match profileSection? existing with
  | some (before, after) => before ++ delimited ++ after
  | none =>
    if "<!-- Auto-generated from context/profile.json".toList.isPrefixOf existing then delimited
    else if isSeedTemplate existing then delimited
    else
      let trimmed := Text.trimEndMatches Text.isWhitespace existing
      if trimmed.isEmpty then delimited else trimmed ++ ['\n', '\n'] ++ delimited

namespace Workspace

variable (ws : Workspace)

def mergedUserMd (profile : ProfileDocuments) : Op Text := do
  match ← Effect.attempt (ws.read Paths.user) with
  | .ok existing => pure (mergeProfileSection existing.content profile.userMd)
  | .error _ => pure (wrapProfileSection profile.userMd)

/-- Write the documents derived from a profile. A heartbeat that exists is left to the
user. -/
def writeProfileDocuments (profile : ProfileDocuments) : Op Unit := do
  let merged ← ws.mergedUserMd profile
  ws.write Paths.user merged
  ws.write Paths.assistantDirectives profile.assistantDirectives
  match ← Effect.attempt (ws.read Paths.heartbeat) with
  | .ok _ => pure ()
  | .error _ => ws.write Paths.heartbeat profile.heartbeatMd

/-- Sync derived identity documents from the profile. Tells whether they were written. -/
def syncProfileDocuments : Op Bool := do
  match ← Effect.attempt (ws.read Paths.profile) with
  | .error _ => pure false
  | .ok doc =>
    match if doc.content.isEmpty then none else ws.parseProfile doc.content with
    | none => pure false
    | some profile =>
      ws.writeProfileDocuments profile
      pure true

end Workspace

end IronClaw.Memory
