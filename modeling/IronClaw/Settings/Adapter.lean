import IronClaw.Memory.Reading
import IronClaw.Settings.Schemas
import IronClaw.Foundation.Run

/-!
# The settings adapter

Settings live in a table, for the owner of a workspace also in documents, read first and written
second. A call of the workspace may fail, and may have stored the text.
-/

namespace IronClaw.Settings

open Foundation (Text Json HashMap Effect)
open Memory (Documents DocKey Op Scope Workspace WorkspaceError normalizePath)

inductive DatabaseError where
  | query (message : String)
  | serialization (message : String)
deriving DecidableEq

structure Codec where
  pretty : Json → Text
  compact : Json → Text
  parse : Text → Except String Json

/-- The table, the documents, and whether the adapter has seen to the folder configuration. -/
structure SettingsState where
  legacy : HashMap (Scope × Text) Json
  docs : Documents
  seeded : Bool

abbrev Call (α : Type) := Effect SettingsState DatabaseError α

/-- Where a write fails: at first, once the document is there, or once its text is stored. -/
inductive WriteFault where
  | begun (message : String)
  | created (message : String)
  | stored (message : String)

structure SeedFaults where
  check : Option String
  read : Option String
  metadata : Option String
  write : Option WriteFault

structure SettingFaults where
  seed : SeedFaults
  write : Option WriteFault
  metadata : Option String

def onWorkspace {α : Type} (context : String) (x : Op α) : Call α := fun s =>
  let r := x.exec s.docs
  (r.1.mapError fun e => .query (context ++ e.toString), { s with docs := r.2 })

theorem exec_onWorkspace {α : Type} (context : String) (x : Op α) (s : SettingsState) :
    (onWorkspace context x).exec s =
      ((x.exec s.docs).1.mapError fun e => .query (context ++ e.toString),
        { s with docs := (x.exec s.docs).2 }) := rfl

def storageCall {α : Type} (context : String) (fault : Option String) (x : Op α) : Call α :=
  match fault with
  | some message => throw (.query (context ++ message))
  | none => onWorkspace context x

structure Adapter where
  workspace : Workspace
  codec : Codec

namespace Adapter

variable (a : Adapter)

def workspaceWrite (context : String) (fault : Option WriteFault) (path content : Text) :
    Call Unit :=
  match fault with
  | none => onWorkspace context (a.workspace.write path content)
  | some (.begun message) => throw (.query (context ++ message))
  | some (.created message) => do
    onWorkspace context (Memory.scanForPrompt (normalizePath path) content)
    let _ ← onWorkspace context (a.workspace.getOrCreate path)
    throw (.query (context ++ message))
  | some (.stored message) => do
    onWorkspace context (a.workspace.write path content)
    throw (.query (context ++ message))

def key (path : Text) : DocKey := a.workspace.key (normalizePath path)

def gateUserId : Scope := a.workspace.userId

def workspaceAllowedFor (userId : Scope) : Bool := userId == a.gateUserId

def systemConfigMetadataMatches (actual : Json) : Bool :=
  let flag := fun (value : Option Json) => value.bind Json.asBool
  let skipIndexingOk := (flag (actual.get "skip_indexing".toList)).getD false
  let versioningOk := flag (actual.get "skip_versioning".toList) != some true
  let hygieneOk :=
    flag ((actual.get "hygiene".toList).bind fun h => h.get "enabled".toList) != some true
  skipIndexingOk && versioningOk && hygieneOk

def configPath : Text := ".system/.config".toList

def expectedConfig : Json :=
  object [("skip_indexing", .bool true), ("skip_versioning", .bool false),
    ("hygiene", object [("enabled", .bool false)])]

/-- Ensure that the folder configuration exists, with the expected metadata, in whatever scope it is
read. -/
def ensureSystemConfig (faults : SeedFaults) : Call Unit := do
  let there ← storageCall "workspace exists check failed: " faults.check
    (a.workspace.fileExists configPath)
  if there then
    let doc ← storageCall "workspace read failed: " faults.read (a.workspace.read configPath)
    if systemConfigMetadataMatches doc.metadata then pure ()
    else
      let docs := (← get).docs
      let id := ((a.workspace.locate docs (normalizePath configPath)).map Prod.fst).getD
        (a.key configPath)
      storageCall "workspace metadata repair failed: " faults.metadata
        (Memory.updateDocumentMetadata id expectedConfig)
      a.workspaceWrite "workspace content repair failed: " faults.write configPath
        (a.codec.compact expectedConfig)
  else
    a.workspaceWrite "workspace write failed: " faults.write configPath
      (a.codec.compact expectedConfig)
    storageCall "workspace metadata update failed: " faults.metadata
      (Memory.updateDocumentMetadata (a.key configPath) expectedConfig)

def ensureSystemConfigLazy (faults : SeedFaults) : Call Unit := do
  if (← get).seeded then pure ()
  else
    a.ensureSystemConfig faults
    modify fun s => { s with seeded := true }

def invalidKey (key : Text) (e : InvalidPath) : DatabaseError :=
  .query ("invalid settings key '" ++ String.ofList key ++ "': " ++ e.reason)

def acceptedBySchema (content : Text) (schema : Json) : Bool :=
  schema.isNull || (a.workspace.schemaErrors schema content).isEmpty

def writeToWorkspace (key : Text) (value : Json) (faults : SettingFaults) : Call Unit := do
  a.ensureSystemConfigLazy faults.seed
  Effect.ofExcept ((validateSettingsKey key).mapError (invalidKey key))
  let path := settingsPath key
  let content := a.codec.pretty value
  match schemaForKey key with
  | none => a.workspaceWrite "workspace write failed: " faults.write path content
  | some schema =>
    Effect.require (a.acceptedBySchema content schema) <| .query <|
      "schema validation failed: " ++
        (WorkspaceError.schemaValidation path (a.workspace.schemaErrors schema content)).toString
    a.workspaceWrite "workspace write failed: " faults.write path content
    storageCall ("failed to persist schema metadata for '" ++ String.ofList key ++ "': ")
      faults.metadata (Memory.updateDocumentMetadata (a.key path)
        (object [("schema", schema), ("skip_indexing", .bool true)]))

def readFromWorkspace (key : Text) (fault : Option String) : Call (Option Json) := do
  match validateSettingsKey key with
  | .error _ => pure none
  | .ok () =>
    match ← Effect.attempt (storageCall "" fault (a.workspace.read (settingsPath key))) with
    | .error _ => pure none
    | .ok doc =>
      if doc.content.isEmpty then pure none
      else
        match a.codec.parse doc.content with
        | .error e => throw (.serialization e)
        | .ok value => pure (some value)

def getSetting (userId : Scope) (key : Text) (fault : Option String) : Call (Option Json) := do
  let found ← if a.workspaceAllowedFor userId then a.readFromWorkspace key fault else pure none
  match found with
  | some value => pure (some value)
  | none => pure ((← get).legacy.lookup (userId, key))

def setSetting (userId : Scope) (key : Text) (value : Json) (faults : SettingFaults) :
    Call Unit := do
  modify fun s => { s with legacy := s.legacy.insert (userId, key) value }
  if a.workspaceAllowedFor userId then a.writeToWorkspace key value faults else pure ()

/-- Delete a setting from both places. -/
def deleteSetting (userId : Scope) (key : Text) (fault : Option String) : Call Bool := do
  if a.workspaceAllowedFor userId && decide (ValidKey key) then
    let _ ← Effect.attempt (storageCall "" fault (a.workspace.delete (settingsPath key)))
  let removed := ((← get).legacy.lookup (userId, key)).isSome
  modify fun s => { s with legacy := s.legacy.erase (userId, key) }
  pure removed

def listSettings (userId : Scope) : Call (List (Text × Json)) := do
  pure (((← get).legacy.entries.filter fun e => e.1.1 == userId).map fun e => (e.1.2, e.2))

/-- The first failure is told. -/
def writeEach (faults : Text → SettingFaults) : List (Text × Json) → Call (Option DatabaseError)
  | [] => pure none
  | (key, value) :: settings => do
    let result ← Effect.attempt (a.writeToWorkspace key value (faults key))
    let later ← writeEach faults settings
    match result with
    | .error e => pure (some e)
    | .ok () => pure later

def entriesOf (settings : HashMap Text Json) : List (Text × Json) :=
  settings.entries.map fun e => (e.1, e.2)

def upserted (userId : Scope) (settings : List (Text × Json)) (s : SettingsState) :
    SettingsState :=
  { s with legacy := settings.foldl (fun m e => m.insert (userId, e.1) e.2) s.legacy }

def setAllSettings (userId : Scope) (settings : HashMap Text Json)
    (faults : Text → SettingFaults) : Call Unit := do
  modify (upserted userId (entriesOf settings))
  if a.workspaceAllowedFor userId then
    match ← a.writeEach faults (entriesOf settings) with
    | some e => throw e
    | none => pure ()
  else pure ()

end Adapter

inductive SettingsCall where
  | set (userId : Scope) (key : Text) (value : Json) (faults : SettingFaults)
  | setAll (userId : Scope) (settings : HashMap Text Json) (faults : Text → SettingFaults)
  | delete (userId : Scope) (key : Text) (fault : Option String)

def Adapter.after (a : Adapter) (s : SettingsState) : SettingsCall → SettingsState
  | .set userId key value faults => ((a.setSetting userId key value faults).exec s).2
  | .setAll userId settings faults => ((a.setAllSettings userId settings faults).exec s).2
  | .delete userId key fault => ((a.deleteSetting userId key fault).exec s).2

def Adapter.step (a : Adapter) (s : SettingsState) (call : SettingsCall) : Option SettingsState :=
  some (a.after s call)

end IronClaw.Settings
