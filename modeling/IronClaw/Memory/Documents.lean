import IronClaw.Foundation.Effect
import IronClaw.Foundation.HashMap
import IronClaw.Foundation.Json
import IronClaw.Memory.Path

/-!
# Documents and their metadata

There is one document for each scope, agent and path. Its own metadata is laid over that of the
nearest `.config` above it. The storage never fails. Versions, chunks and indexes are left out.
-/

namespace IronClaw.Memory

open Foundation (Text Json HashMap Effect)

abbrev Scope := String

def adminScope : Scope := "__admin__"

abbrev AgentId := Nat

structure DocKey where
  scope : Scope
  agentId : Option AgentId
  path : Text
deriving DecidableEq

structure MemoryDocument where
  content : Text
  metadata : Json

abbrev Documents := HashMap DocKey MemoryDocument

inductive WorkspaceError where
  | documentNotFound (docType : Text) (userId : String)
  | layerNotFound (name : Text)
  | layerReadOnly (name : Text)
  | privacyRedirectFailed
  | injectionRejected (path : Text) (reason : String)
  | patchFailed (path : Text) (reason : String)
  | schemaValidation (path : Text) (errors : List String)
deriving DecidableEq

def WorkspaceError.toString : WorkspaceError → String
  | documentNotFound docType userId =>
    "Document not found: " ++ String.ofList docType ++ " for user " ++ userId
  | layerNotFound name => "Layer not found: " ++ String.ofList name
  | layerReadOnly name => "Layer '" ++ String.ofList name ++ "' is read-only"
  | privacyRedirectFailed =>
    "Cannot write sensitive content: no private layer available for redirect"
  | injectionRejected path reason =>
    "Write rejected for '" ++ String.ofList path ++ "': prompt injection detected (" ++
      reason ++ ")"
  | patchFailed path reason => "Patch failed for '" ++ String.ofList path ++ "': " ++ reason
  | schemaValidation path errors =>
    "Schema validation failed for '" ++ String.ofList path ++ "': " ++ "; ".intercalate errors

abbrev Op (α : Type) := Effect Documents WorkspaceError α

def Documents.text (docs : Documents) (key : DocKey) : Text :=
  match docs.lookup key with
  | some doc => doc.content
  | none => []

def getDocumentByPath (key : DocKey) : Op MemoryDocument := do
  match (← get).lookup key with
  | some doc => pure doc
  | none => throw (.documentNotFound key.path key.scope)

def getOrCreateDocumentByPath (key : DocKey) : Op MemoryDocument := do
  match (← get).lookup key with
  | some doc => pure doc
  | none =>
    let doc : MemoryDocument := ⟨[], .obj []⟩
    modify fun docs => docs.insert key doc
    pure doc

def updateDocument (key : DocKey) (content : Text) : Op Unit :=
  modify fun docs => HashMap.adjust docs key fun doc => { doc with content := content }

def updateDocumentMetadata (key : DocKey) (metadata : Json) : Op Unit :=
  modify fun docs => HashMap.adjust docs key fun doc => { doc with metadata := metadata }

namespace DocumentMetadata

/-- Overlay keys win over base keys. -/
def merge (base overlay : Json) : Json :=
  let base := base.asObject.getD []
  let overlay := overlay.asObject.getD []
  .obj (overlay.foldl (fun merged m => Json.setMember m.1 m.2 merged) base)

def readsAsFlag : Option Json → Bool
  | none | some .null | some (.bool _) => true
  | _ => false

def readsAsDays : Json → Bool
  | .int n => 0 ≤ n && n < 2 ^ 32
  | _ => false

/-- What the optional hygiene settings can be read from: an object, or its fields in order. -/
def readsAsHygiene : Option Json → Bool
  | none | some .null => true
  | some (.obj members) =>
    (match (Json.obj members).get "enabled".toList with
      | some (.bool _) => true
      | _ => false) &&
    (match (Json.obj members).get "retention_days".toList with
      | some days => readsAsDays days
      | none => true)
  | some (.arr [.bool _]) => true
  | some (.arr [.bool _, days]) => readsAsDays days
  | _ => false

def schema (metadata : Json) : Option Json :=
  if readsAsFlag (metadata.get "skip_indexing".toList) &&
      readsAsFlag (metadata.get "skip_versioning".toList) &&
      readsAsHygiene (metadata.get "hygiene".toList) then
    metadata.get "schema".toList
  else none

end DocumentMetadata

def configFileName : Text := ".config".toList

/-- The directories above a path, innermost first. -/
def parents (path : Text) : List Text :=
  (path.inits.filter fun dir => (dir ++ ['/']).isPrefixOf path).reverse

def findNearestConfig (docs : Documents) (scope : Scope) (agentId : Option AgentId) (path : Text) :
    Option Json :=
  let configAt := fun config : Text => (docs.lookup ⟨scope, agentId, config⟩).map (·.metadata)
  match (parents path).findSome? fun dir => configAt (dir ++ '/' :: configFileName) with
  | some metadata => some metadata
  | none => configAt configFileName

/-- The effective metadata of a path in a scope. The path is normalised once more. -/
def resolveMetadataInScope (docs : Documents) (scope : Scope) (agentId : Option AgentId)
    (path : Text) : Json :=
  let path := normalizePath path
  let overlay := ((docs.lookup ⟨scope, agentId, path⟩).map (·.metadata)).getD (.obj [])
  let base := (findNearestConfig docs scope agentId path).getD (.obj [])
  DocumentMetadata.merge base overlay

inductive LayerSensitivity where
  | «private»
  | shared
deriving DecidableEq

structure MemoryLayer where
  name : Text
  scope : Scope
  writable : Bool
  sensitivity : LayerSensitivity
deriving DecidableEq

namespace MemoryLayer

def defaultForUser (userId : Scope) : List MemoryLayer :=
  [⟨"private".toList, userId, true, .«private»⟩]

def findLayer (layers : List MemoryLayer) (name : Text) : Option MemoryLayer :=
  layers.find? fun layer => layer.name == name

def privateLayer (layers : List MemoryLayer) : Option MemoryLayer :=
  layers.find? fun layer => layer.sensitivity == .«private»

end MemoryLayer

structure ProfileDocuments where
  userMd : Text
  assistantDirectives : Text
  heartbeatMd : Text

/-- A user's view of the documents. `parseProfile` are those that a profile yields. -/
structure Workspace where
  userId : Scope
  additionalReadScopes : List Scope
  agentId : Option AgentId
  memoryLayers : List MemoryLayer
  privacyClassifier : Option (Text → Bool)
  adminPromptEnabled : Bool
  schemaErrors : Json → Text → List String
  parseProfile : Text → Option ProfileDocuments

namespace Workspace

variable (ws : Workspace)

def readUserIds : List Scope := ws.userId :: ws.additionalReadScopes

def isMultiScope : Bool := 1 < ws.readUserIds.length

def keyIn (scope : Scope) (path : Text) : DocKey := ⟨scope, ws.agentId, path⟩

def key (path : Text) : DocKey := ws.keyIn ws.userId path

end Workspace

section Storage

variable {docs : Documents} {key key' : DocKey}

theorem exec_getDocumentByPath (key : DocKey) (docs : Documents) :
    (getDocumentByPath key).exec docs =
      match docs.lookup key with
      | some doc => (.ok doc, docs)
      | none => (.error (.documentNotFound key.path key.scope), docs) := by
  rw [getDocumentByPath, Effect.exec_bind, Effect.exec_get]
  cases h : docs.lookup key <;> simp [h]

def Documents.created (docs : Documents) (key : DocKey) : Documents :=
  match docs.lookup key with
  | some _ => docs
  | none => docs.insert key ⟨[], .obj []⟩

theorem lookup_created_of_ne (h : key' ≠ key) :
    (docs.created key).lookup key' = docs.lookup key' := by
  rw [Documents.created]
  split
  · rfl
  · rw [HashMap.lookup_insert, if_neg h]

@[simp] theorem text_created : (docs.created key).text key' = docs.text key' := by
  by_cases h : key' = key
  · subst h
    rw [Documents.created]
    split
    · rfl
    · next hnone =>
      rw [Documents.text, Documents.text, HashMap.lookup_insert, if_pos rfl, hnone]
  · rw [Documents.text, Documents.text, lookup_created_of_ne h]

theorem exec_getOrCreate (key : DocKey) (docs : Documents) :
    ∃ doc, (getOrCreateDocumentByPath key).exec docs = (.ok doc, docs.created key) ∧
      (docs.created key).lookup key = some doc ∧ doc.content = docs.text key := by
  rw [getOrCreateDocumentByPath, Effect.exec_bind, Effect.exec_get]
  cases h : docs.lookup key with
  | some doc =>
    refine ⟨doc, ?_, ?_, ?_⟩
    · simp [h, Documents.created]
    · simp [h, Documents.created]
    · simp [h, Documents.text]
  | none =>
    refine ⟨⟨[], .obj []⟩, ?_, ?_, ?_⟩
    · simp only [h, Documents.created]
      rfl
    · rw [Documents.created, h]
      exact AList.lookup_insert _
    · simp [h, Documents.text]

def Documents.store (docs : Documents) (key : DocKey) (content : Text) : Documents :=
  HashMap.adjust docs key fun doc => { doc with content := content }

theorem lookup_store_of_ne {content : Text} (h : key' ≠ key) :
    (docs.store key content).lookup key' = docs.lookup key' := by
  rw [Documents.store, HashMap.lookup_adjust, if_neg h]

theorem text_store {content : Text} {doc : MemoryDocument} (h : docs.lookup key = some doc) :
    (docs.store key content).text key = content := by
  rw [Documents.text, Documents.store, HashMap.lookup_adjust, if_pos rfl, h]
  rfl

theorem store_eq_self {content : Text} {doc : MemoryDocument} (h : docs.lookup key = some doc)
    (hsame : doc.content = content) : docs.store key content = docs := by
  refine AList.ext ?_
  show docs.entries.map _ = docs.entries
  conv_rhs => rw [← List.map_id docs.entries]
  refine List.map_congr_left fun e he => ?_
  dsimp only [id]
  split_ifs with hkey
  · have hdoc : docs.lookup e.1 = some e.2 := AList.mem_lookup_iff.mpr he
    rw [hkey, h] at hdoc
    cases hdoc
    rw [← hsame]
  · rfl

end Storage

end IronClaw.Memory
