import IronClaw.Memory.Changes

/-!
# Where a path is read from

A workspace reads a path in its scopes, the primary one first, and the first document wins.
Identity documents are looked up in the primary scope alone.
-/

namespace IronClaw.Memory

open Foundation (Text Effect)

def deleteDocumentByPath (key : DocKey) : Op Unit := do
  let _ ← getDocumentByPath key
  modify fun docs => docs.erase key

theorem exec_deleteDocumentByPath (key : DocKey) (docs : Documents) :
    ((deleteDocumentByPath key).exec docs).2 = docs.erase key := by
  rw [deleteDocumentByPath, Effect.exec_bind, exec_getDocumentByPath]
  cases h : docs.lookup key with
  | some doc => rfl
  | none =>
    show docs = docs.erase key
    have hmem : key ∉ docs := AList.lookup_eq_none.mp h
    exact AList.ext (List.kerase_of_notMem_keys hmem).symm

namespace Workspace

variable (ws : Workspace)

def fileExists (path : Text) : Op Bool := do
  match ← Effect.attempt (ws.read path) with
  | .ok _ => pure true
  | .error (.documentNotFound ..) => pure false
  | .error e => throw e

def delete (path : Text) : Op Unit := deleteDocumentByPath (ws.key (normalizePath path))

def scopesOf (path : Text) : List Scope :=
  if ws.isMultiScope && isIdentityPath path then [ws.userId] else ws.readUserIds

def locate (docs : Documents) (path : Text) : Option (DocKey × MemoryDocument) :=
  (ws.scopesOf path).findSome? fun scope =>
    (docs.lookup (ws.keyIn scope path)).map fun doc => (ws.keyIn scope path, doc)

/-- The text that is read at a path. A document that is not found counts as empty. -/
def locatedText (docs : Documents) (path : Text) : Text :=
  match ws.locate docs path with
  | some found => found.2.content
  | none => []

variable {ws} {docs docs' : Documents} {path : Text}

theorem scopesOf_eq_cons (path : Text) : ∃ others, ws.scopesOf path = ws.userId :: others := by
  rw [scopesOf]
  split
  · exact ⟨[], rfl⟩
  · exact ⟨ws.additionalReadScopes, rfl⟩

theorem locate_of_primary {doc : MemoryDocument} (h : docs.lookup (ws.key path) = some doc) :
    ws.locate docs path = some (ws.key path, doc) := by
  obtain ⟨others, hscopes⟩ := ws.scopesOf_eq_cons path
  have hkey : docs.lookup (ws.keyIn ws.userId path) = some doc := h
  rw [locate, hscopes, List.findSome?_cons, hkey]
  rfl

theorem locatedText_of_primary {doc : MemoryDocument} (h : docs.lookup (ws.key path) = some doc) :
    ws.locatedText docs path = doc.content := by
  rw [locatedText, locate_of_primary h]

theorem locatedText_eq (docs : Documents) (path : Text) :
    ws.locatedText docs path = ((ws.scopesOf path).findSome? fun scope =>
      (docs.lookup (ws.keyIn scope path)).map (·.content)).getD [] := by
  have hcontent : ((ws.scopesOf path).findSome? fun scope =>
      (docs.lookup (ws.keyIn scope path)).map (·.content)) =
        (ws.locate docs path).map (·.2.content) := by
    rw [locate, List.map_findSome?]
    refine congrArg (fun f => (ws.scopesOf path).findSome? f) (funext fun scope => ?_)
    show _ = ((docs.lookup (ws.keyIn scope path)).map _).map _
    rw [Option.map_map]
    rfl
  rw [hcontent, locatedText]
  cases ws.locate docs path <;> rfl

theorem locatedText_congr (h : ∀ scope, (docs'.lookup (ws.keyIn scope path)).map (·.content) =
    (docs.lookup (ws.keyIn scope path)).map (·.content)) :
    ws.locatedText docs' path = ws.locatedText docs path := by
  simp only [locatedText_eq, h]

theorem lookup_of_locate {found : DocKey × MemoryDocument} (h : ws.locate docs path = some found) :
    docs.lookup found.1 = some found.2 ∧ found.1.path = path := by
  obtain ⟨scope, -, hscope⟩ := List.exists_of_findSome?_eq_some h
  obtain ⟨doc, hdoc, rfl⟩ := Option.map_eq_some_iff.mp hscope
  exact ⟨hdoc, rfl⟩

def ReadsLocated (docs : Documents) (found : Option (DocKey × MemoryDocument))
    (x : Op MemoryDocument) : Prop :=
  match found with
  | some found => x.exec docs = (.ok found.2, docs)
  | none => ∃ docType userId, x.exec docs = (.error (.documentNotFound docType userId), docs)

theorem readsLocated_one {scopes : List Scope} (hscopes : ws.scopesOf path = scopes)
    (hone : scopes = [ws.userId]) :
    ReadsLocated docs (ws.locate docs path) (getDocumentByPath (ws.key path)) := by
  have hlocate : ws.locate docs path =
      (docs.lookup (ws.key path)).map fun doc => (ws.key path, doc) := by
    rw [locate, hscopes, hone, List.findSome?_singleton]
    rfl
  unfold ReadsLocated
  rw [hlocate, exec_getDocumentByPath]
  cases docs.lookup (ws.key path) with
  | some doc => rfl
  | none => exact ⟨_, _, rfl⟩

theorem readsLocated_multi (hscopes : ws.scopesOf path = ws.readUserIds) :
    ReadsLocated docs (ws.locate docs path) (ws.getDocumentByPathMulti path) := by
  have hfound : (ws.readUserIds.findSome? fun scope => docs.lookup (ws.keyIn scope path)) =
      (ws.locate docs path).map Prod.snd := by
    rw [locate, hscopes, List.map_findSome?]
    refine congrArg (fun f => ws.readUserIds.findSome? f) (funext fun scope => ?_)
    show _ = ((docs.lookup (ws.keyIn scope path)).map _).map Prod.snd
    rw [Option.map_map]
    exact Option.map_id'.symm
  unfold ReadsLocated
  rw [getDocumentByPathMulti, Effect.exec_bind, Effect.exec_get]
  dsimp only
  rw [hfound]
  cases ws.locate docs path with
  | some found => rfl
  | none => exact ⟨_, _, rfl⟩

theorem readsLocated_read (path : Text) (docs : Documents) :
    ReadsLocated docs (ws.locate docs (normalizePath path)) (ws.read path) := by
  rw [read]
  split_ifs with hidentity hmulti
  · exact readsLocated_one (if_pos hidentity) rfl
  · exact readsLocated_multi (if_neg hidentity)
  · refine readsLocated_one (if_neg hidentity) ?_
    -- a workspace that is not multi-scope reads one scope
    rw [isMultiScope, readUserIds, List.length_cons, decide_eq_true_eq] at hmulti
    rw [readUserIds, List.eq_nil_of_length_eq_zero (l := ws.additionalReadScopes) (by omega)]

theorem exec_fileExists (path : Text) (docs : Documents) :
    (ws.fileExists path).exec docs = (.ok (ws.locate docs (normalizePath path)).isSome, docs) := by
  have hread : ReadsLocated docs (ws.locate docs (normalizePath path)) (ws.read path) :=
    readsLocated_read path docs
  unfold ReadsLocated at hread
  rw [fileExists, Effect.exec_bind, Effect.exec_attempt]
  cases h : ws.locate docs (normalizePath path) with
  | some found =>
    rw [h] at hread
    rw [hread]
    rfl
  | none =>
    rw [h] at hread
    obtain ⟨docType, userId, heq⟩ := hread
    rw [heq]
    rfl

end Workspace

end IronClaw.Memory
