import IronClaw.Foundation.Program
import IronClaw.Memory.Chunker
import IronClaw.Memory.Operations

/-!
# The storage and its calls

The storage also holds versions and chunks. It is changed by atomic calls, of which an operation is
a program. It does not fail. A document is known by its key.
-/

namespace IronClaw.Memory

open Foundation (Text HashMap Program)

structure DocumentVersion where
  version : Nat
  content : Text
  contentHash : String
  changedBy : Option Scope
deriving DecidableEq

/-- The documents, the versions of each in the order of their saves, and its chunks. -/
structure Storage where
  docs : Documents
  versions : DocKey → List DocumentVersion
  chunks : DocKey → List Text

namespace Storage

def setVersions (s : Storage) (key : DocKey) (versions : List DocumentVersion) : Storage :=
  { s with versions := fun k => if k = key then versions else s.versions k }

def setChunks (s : Storage) (key : DocKey) (chunks : List Text) : Storage :=
  { s with chunks := fun k => if k = key then chunks else s.chunks k }

end Storage

def configDocuments (docs : Documents) (scope : Scope) (agentId : Option AgentId) : Documents :=
  HashMap.retain docs fun key _ => decide (key.scope = scope) && decide (key.agentId = agentId) &&
    (('/' :: configFileName).isSuffixOf key.path || decide (key.path = configFileName))

/-- A call of the storage. The embedding of a chunk is computed elsewhere, and takes its time. -/
inductive StorageCall where
  | getDocument (key : DocKey)
  | getOrCreateDocument (key : DocKey)
  | findConfigDocuments (scope : Scope) (agentId : Option AgentId)
  | latestVersion (key : DocKey)
  | saveVersion (key : DocKey) (content : Text) (contentHash : String) (changedBy : Option Scope)
  | updateDocument (key : DocKey) (content : Text)
  | deleteChunks (key : DocKey)
  | replaceChunks (key : DocKey) (chunks : List Text)
  | embed (chunk : Text)

def StorageCall.Answer : StorageCall → Type
  | getDocument _ => Option MemoryDocument
  | getOrCreateDocument _ => MemoryDocument
  | findConfigDocuments .. => Documents
  | latestVersion _ => Option DocumentVersion
  | saveVersion .. => Nat
  | updateDocument .. => Unit
  | deleteChunks _ => Unit
  | replaceChunks .. => Unit
  | embed _ => Unit

/-- What a call does, with its answer. The next version has the next number. -/
def serve : (c : StorageCall) → Storage → c.Answer × Storage
  | .getDocument key, s => (s.docs.lookup key, s)
  | .getOrCreateDocument key, s =>
    ((s.docs.lookup key).getD ⟨[], .obj []⟩, { s with docs := s.docs.created key })
  | .findConfigDocuments scope agentId, s => (configDocuments s.docs scope agentId, s)
  | .latestVersion key, s => ((s.versions key).getLast?, s)
  | .saveVersion key content contentHash changedBy, s =>
    let version := (s.versions key).length + 1
    (version, s.setVersions key (s.versions key ++ [⟨version, content, contentHash, changedBy⟩]))
  | .updateDocument key content, s => ((), { s with docs := s.docs.store key content })
  | .deleteChunks key, s => ((), s.setChunks key [])
  | .replaceChunks key chunks, s => ((), s.setChunks key chunks)
  | .embed _, s => ((), s)

abbrev Prog (α : Type) := Program StorageCall StorageCall.Answer WorkspaceError α

namespace Ask

abbrev getDocument (key : DocKey) : Prog (Option MemoryDocument) :=
  Program.ask (StorageCall.getDocument key)

abbrev getOrCreateDocument (key : DocKey) : Prog MemoryDocument :=
  Program.ask (StorageCall.getOrCreateDocument key)

abbrev findConfigDocuments (scope : Scope) (agentId : Option AgentId) : Prog Documents :=
  Program.ask (StorageCall.findConfigDocuments scope agentId)

abbrev latestVersion (key : DocKey) : Prog (Option DocumentVersion) :=
  Program.ask (StorageCall.latestVersion key)

abbrev saveVersion (key : DocKey) (content : Text) (contentHash : String)
    (changedBy : Option Scope) : Prog Nat :=
  Program.ask (StorageCall.saveVersion key content contentHash changedBy)

abbrev updateDocument (key : DocKey) (content : Text) : Prog Unit :=
  Program.ask (StorageCall.updateDocument key content)

abbrev deleteChunks (key : DocKey) : Prog Unit := Program.ask (StorageCall.deleteChunks key)

abbrev replaceChunks (key : DocKey) (chunks : List Text) : Prog Unit :=
  Program.ask (StorageCall.replaceChunks key chunks)

abbrev embed (chunk : Text) : Prog Unit := Program.ask (StorageCall.embed chunk)

end Ask

def ofCheck {α : Type} (x : Op α) : Prog α := .done (x.exec ∅).1

section Exec

variable {α : Type} (key : DocKey) (s : Storage)

theorem exec_getDocument (f : Option MemoryDocument → Prog α) :
    Program.exec serve (Ask.getDocument key >>= f) s =
      Program.exec serve (f (s.docs.lookup key)) s := rfl

theorem exec_getOrCreateDocument (f : MemoryDocument → Prog α) :
    Program.exec serve (Ask.getOrCreateDocument key >>= f) s =
      Program.exec serve (f ((s.docs.lookup key).getD ⟨[], .obj []⟩))
        { s with docs := s.docs.created key } := rfl

theorem exec_latestVersion (f : Option DocumentVersion → Prog α) :
    Program.exec serve (Ask.latestVersion key >>= f) s =
      Program.exec serve (f (s.versions key).getLast?) s := rfl

theorem exec_updateDocument_bind (content : Text) (f : Unit → Prog α) :
    Program.exec serve (Ask.updateDocument key content >>= f) s =
      Program.exec serve (f ()) { s with docs := s.docs.store key content } := rfl

theorem exec_deleteChunks (f : Unit → Prog α) : Program.exec serve (Ask.deleteChunks key >>= f) s =
      Program.exec serve (f ()) (s.setChunks key []) := rfl

end Exec

theorem configDocuments_lookup {docs : Documents} {scope : Scope} {agentId : Option AgentId}
    {path : Text} (h : ('/' :: configFileName).isSuffixOf path = true ∨ path = configFileName) :
    (configDocuments docs scope agentId).lookup ⟨scope, agentId, path⟩ =
      docs.lookup ⟨scope, agentId, path⟩ := by
  have hkeep : (('/' :: configFileName).isSuffixOf path || decide (path = configFileName)) =
      true := by
    rw [Bool.or_eq_true, decide_eq_true_eq]
    exact h
  rw [configDocuments, HashMap.lookup_retain, hkeep]
  simp only [decide_true, Bool.and_true]
  cases docs.lookup ⟨scope, agentId, path⟩ <;> rfl

theorem findNearestConfig_configDocuments (docs : Documents) (scope : Scope)
    (agentId : Option AgentId) (path : Text) :
    findNearestConfig (configDocuments docs scope agentId) scope agentId path =
      findNearestConfig docs scope agentId path := by
  have habove : ∀ dir : Text, (configDocuments docs scope agentId).lookup
      ⟨scope, agentId, dir ++ '/' :: configFileName⟩ =
        docs.lookup ⟨scope, agentId, dir ++ '/' :: configFileName⟩ := fun dir =>
    configDocuments_lookup (.inl (List.isSuffixOf_iff_suffix.mpr (List.suffix_append _ _)))
  have hroot : (configDocuments docs scope agentId).lookup ⟨scope, agentId, configFileName⟩ =
      docs.lookup ⟨scope, agentId, configFileName⟩ := configDocuments_lookup (.inr rfl)
  simp only [findNearestConfig, habove, hroot]

end IronClaw.Memory
