import IronClaw.Memory.Changes
import IronClaw.Memory.Writes

/-!
# Rejected writes

An operation fetches its document, or creates it, before it validates the new content. If a schema
rejects that, a new document stays behind, empty. Other errors have changed nothing.
-/

namespace IronClaw.Memory

open Foundation (Text Effect Program)

/-- Each document, or its absence, its versions and its chunks are as before. -/
def Storage.Same (s s' : Storage) : Prop :=
  ∀ key, s'.docs.lookup key = s.docs.lookup key ∧ s'.versions key = s.versions key ∧
    s'.chunks key = s.chunks key

def scanRejects (path content : Text) : Prop :=
  isSystemPromptFile path = true ∧ dominantWarnings content ≠ []

/-- A call refused before it creates a document. -/
def WriteCall.RefusedEarly : WriteCall → Prop
  | write _ path content | append _ path content => scanRejects (normalizePath path) content
  | patch .. => True
  | writeToLayer ws layerName _ content force | appendToLayer ws layerName _ content force =>
    ∃ e, ws.resolveLayerTarget layerName content force = .error e
  | appendMemory .. => False

def WriteCall.Exists (c : WriteCall) (s : Storage) : Prop :=
  ∃ key doc, c.target = some key ∧ s.docs.lookup key = some doc

def FailsClean {α : Type} (p : Prog α) (s : Storage) : Prop :=
  ∀ e s', Program.exec serve p s = (.error e, s') → s' = s

section FailsClean

variable {α β γ : Type} {s : Storage}

theorem failsClean_of_ok {p : Prog α} {a : α} {s' : Storage}
    (h : Program.exec serve p s = (.ok a, s')) : FailsClean p s := by
  intro e s'' herror
  rw [h] at herror
  cases herror

theorem FailsClean.check {x : Op γ} {f : γ → Prog α}
    (h : ∀ a, FailsClean (f a) s) : FailsClean (ofCheck x >>= f) s := by
  intro e s' herror
  rw [exec_ofCheck_bind] at herror
  cases hx : (x.exec ∅).1 with
  | ok a =>
    rw [hx] at herror
    exact h a e s' herror
  | error e' =>
    rw [hx] at herror
    cases herror
    rfl

theorem failsClean_validateAndStore (env : StorageEnv) (ws : Workspace) (scope : Scope)
    (path : Text) {key : DocKey} (h : (s.docs.lookup key).isSome) (oldContent newContent : Text)
    (changedBy : Scope) {f : Unit → Prog α}
    (hf : ∀ s' : Storage, (s'.docs.lookup key).isSome →
      ∃ b s'', Program.exec serve (f ()) s' = (.ok b, s'')) :
    FailsClean (do
      let metadata ← resolveMetadataIn scope ws.agentId path
      ofCheck (ws.validateSchema path newContent metadata)
      storeContent env key oldContent newContent metadata changedBy >>= f) s := by
  intro e s' herror
  rw [Program.exec_bind_ok serve (exec_resolveMetadataIn _ _ _ _)] at herror
  refine FailsClean.check (fun _ => ?_) e s' herror
  obtain ⟨versions, chunks, hstore⟩ := exec_storeContent env h oldContent newContent
    (resolveMetadataInScope s.docs scope ws.agentId path) changedBy
  obtain ⟨b, s'', hb⟩ := hf (({ s.setVersions key versions with
    docs := s.docs.store key newContent }).setChunks key chunks) (isSome_lookup_store h newContent)
  exact failsClean_of_ok ((Program.exec_bind_ok serve hstore).trans hb)

theorem exists_exec_getDocumentById {key : DocKey} (h : (s.docs.lookup key).isSome)
    (f : MemoryDocument → β) : ∃ b s'', Program.exec serve (do
      let doc ← getDocumentById key
      pure (f doc)) s = (.ok b, s'') := by
  obtain ⟨b, hb⟩ := exec_getDocumentById_bind h f
  exact ⟨b, s, hb⟩

theorem exec_unit_eq_error {p : Prog α} {e : WorkspaceError} {s' : Storage}
    (h : Program.exec serve (do let _ ← p) s = (.error e, s')) :
    Program.exec serve p s = (.error e, s') := by
  rw [Program.exec_bind] at h
  rcases hexec : Program.exec serve p s with ⟨r, t⟩
  rw [hexec] at h
  cases r <;> cases h
  rfl

theorem error_of_check_create {x : Op γ} {key : γ → DocKey} {f : γ → MemoryDocument → Prog α}
    {e : WorkspaceError} {s' : Storage}
    (hf : ∀ a doc (t : Storage), t.docs.lookup (key a) = some doc → FailsClean (f a doc) t)
    (h : Program.exec serve (ofCheck x >>= fun a => Ask.getOrCreateDocument (key a) >>= f a) s =
      (.error e, s')) :
    ((x.exec ∅).1 = .error e ∧ s' = s) ∨
      ∃ a, (x.exec ∅).1 = .ok a ∧ s' = { s with docs := s.docs.created (key a) } := by
  rw [exec_ofCheck_bind] at h
  cases hx : (x.exec ∅).1 with
  | error e' =>
    rw [hx] at h
    cases h
    exact .inl ⟨rfl, rfl⟩
  | ok a =>
    rw [hx] at h
    obtain ⟨doc, -, hlookup, -⟩ := exec_getOrCreate (key a) s.docs
    dsimp only at h
    rw [exec_getOrCreateDocument, getD_lookup_of_created hlookup] at h
    exact .inr ⟨a, rfl, hf a doc { s with docs := s.docs.created (key a) } hlookup e s' h⟩

theorem same_created_iff {key : DocKey} :
    s.Same { s with docs := s.docs.created key } ↔ ∃ doc, s.docs.lookup key = some doc := by
  constructor
  · intro h
    obtain ⟨doc, -, hlookup, -⟩ := exec_getOrCreate key s.docs
    exact ⟨doc, (h key).1.symm.trans hlookup⟩
  · rintro ⟨doc, hdoc⟩ k
    refine ⟨?_, rfl, rfl⟩
    show (s.docs.created key).lookup k = _
    rw [Documents.created, hdoc]

end FailsClean

section Operations

variable (env : StorageEnv) {ws : Workspace} {s s' : Storage} {e : WorkspaceError}
  {path content : Text}

theorem Storage.Same.refl (s : Storage) : s.Same s := fun _ => ⟨rfl, rfl, rfl⟩

theorem exec_scanForPrompt_error_iff :
    (∃ e, ((scanForPrompt path content).exec ∅).1 = .error e) ↔ scanRejects path content := by
  have hscan : (scanForPrompt path content).exec ∅ =
      if isSystemPromptFile path && !content.isEmpty then
        (rejectIfInjected path content).exec ∅ else (.ok (), ∅) := by
    rw [scanForPrompt]
    split_ifs <;> rfl
  rw [hscan, scanRejects]
  by_cases hfile : (isSystemPromptFile path && !content.isEmpty) = true
  · rw [if_pos hfile, rejectIfInjected, Effect.require]
    have hpath := (Bool.and_eq_true_iff.mp hfile).1
    split_ifs with hclean
    · refine iff_of_false ?_ fun h => h.2 (List.isEmpty_iff.mp hclean)
      rintro ⟨e, he⟩
      cases he
    · exact iff_of_true ⟨_, rfl⟩ ⟨hpath, fun h => hclean (List.isEmpty_iff.mpr h)⟩
  · rw [if_neg hfile]
    refine iff_of_false ?_ ?_
    · rintro ⟨e, he⟩
      cases he
    · -- nothing is found in an empty content
      rintro ⟨hpath, hfound⟩
      rw [hpath, Bool.true_and, Bool.not_eq_true, Bool.not_eq_false', List.isEmpty_iff] at hfile
      exact hfound (by rw [hfile, dominantWarnings_nil])

theorem not_scanRejects_of_ok {u : Unit} (h : ((scanForPrompt path content).exec ∅).1 = .ok u) :
    ¬ scanRejects path content := by
  intro hrejects
  obtain ⟨e, he⟩ := exec_scanForPrompt_error_iff.mpr hrejects
  rw [h] at he
  cases he

theorem failsClean_write_rest {doc : MemoryDocument} (path content : Text)
    (hdoc : s.docs.lookup (ws.key path) = some doc) :
    FailsClean (if isEngineRuntimePath path then do
        Ask.deleteChunks (ws.key path)
        if doc.content = content then pure doc
        else
          Ask.updateDocument (ws.key path) content
          getDocumentById (ws.key path)
      else if doc.content = content then do
        let metadata ← resolveMetadataIn ws.userId ws.agentId path
        let _ ← (reindex env (ws.key path) metadata).attempt
        pure doc
      else do
        let metadata ← resolveMetadataIn ws.userId ws.agentId path
        ofCheck (ws.validateSchema path content metadata)
        storeContent env (ws.key path) doc.content content metadata ws.userId
        getDocumentById (ws.key path)) s := by
  have hthere := isSome_of_lookup hdoc
  have hfound : ∀ u : Storage, (u.docs.lookup (ws.key path)).isSome →
      ∃ doc s'', Program.exec serve (getDocumentById (ws.key path)) u = (.ok doc, s'') := by
    intro u hu
    obtain ⟨doc, hdoc⟩ := Option.isSome_iff_exists.mp hu
    exact ⟨doc, u, exec_getDocumentById hdoc⟩
  split_ifs with hengine hsame hsame
  · exact failsClean_of_ok rfl
  · obtain ⟨doc', s'', hend⟩ := hfound { s.setChunks (ws.key path) [] with
      docs := s.docs.store (ws.key path) content } (isSome_lookup_store hthere content)
    exact failsClean_of_ok hend
  · obtain ⟨chunks, hindex⟩ := exec_reindex env hthere
      (resolveMetadataInScope s.docs ws.userId ws.agentId path)
    exact failsClean_of_ok ((Program.exec_bind_ok serve (exec_resolveMetadataIn _ _ _ _)).trans
      (Program.exec_attempt_bind serve hindex))
  · exact failsClean_validateAndStore env ws _ _ hthere _ _ _ hfound

theorem failsClean_append_rest {doc : MemoryDocument} (path : Text) (newContent : Text)
    (hdoc : s.docs.lookup (ws.key path) = some doc) :
    FailsClean (do
      ofCheck (scanForPrompt path newContent)
      let metadata ← resolveMetadataIn ws.userId ws.agentId path
      ofCheck (ws.validateSchema path newContent metadata)
      storeContent env (ws.key path) doc.content newContent metadata ws.userId) s := by
  refine .check fun _ => ?_
  have htail := failsClean_validateAndStore env ws ws.userId path
    (isSome_of_lookup hdoc) doc.content newContent ws.userId (f := pure) fun s' _ => ⟨(), s', rfl⟩
  simp only [Program.bind_pure] at htail
  exact htail

theorem failsClean_patch (oldString newString : Text) (replaceAll : Bool) :
    FailsClean (Calls.patch env ws path oldString newString replaceAll) s := by
  rw [Calls.patch]
  refine .check fun _ => ?_
  intro e s' herror
  dsimp only at herror
  rw [exec_getDocument] at herror
  cases hdoc : s.docs.lookup (ws.key (normalizePath path)) with
  | none =>
    rw [hdoc] at herror
    cases herror
    rfl
  | some doc =>
    rw [hdoc] at herror
    refine FailsClean.check (fun _ => ?_) e s' herror
    refine .check fun _ => ?_
    exact failsClean_validateAndStore env ws _ _ (isSome_of_lookup hdoc) _ _ _
      fun s' hs' => exists_exec_getDocumentById hs' _

theorem exec_appendMemory_ne_error (entry : Text) :
    Program.exec serve (Calls.appendMemory env ws entry) s ≠ (.error e, s') := by
  intro herror
  obtain ⟨doc, -, hlookup, -⟩ := exec_getOrCreate (ws.key Paths.memory) s.docs
  obtain ⟨versions, chunks, hstore⟩ := exec_storeContent env
    (s := { s with docs := s.docs.created (ws.key Paths.memory) }) (isSome_of_lookup hlookup)
    doc.content (Workspace.appended doc.content ['\n', '\n'] entry)
    (resolveMetadataInScope (s.docs.created (ws.key Paths.memory)) ws.userId ws.agentId
      Paths.memory) ws.userId
  rw [Calls.appendMemory] at herror
  dsimp only at herror
  rw [exec_getOrCreateDocument, getD_lookup_of_created hlookup,
    Program.exec_bind_ok serve (exec_resolveMetadataIn _ _ _ _), hstore] at herror
  cases herror

theorem exists_iff_of_target {c : WriteCall} {key : DocKey} (h : c.target = some key) :
    c.Exists s ↔ ∃ doc, s.docs.lookup key = some doc := by
  constructor
  · rintro ⟨key', doc, htarget, hdoc⟩
    rw [h] at htarget
    cases htarget
    exact ⟨doc, hdoc⟩
  · rintro ⟨doc, hdoc⟩
    exact ⟨key, doc, h, hdoc⟩

theorem same_iff_of_created {c : WriteCall} {key : DocKey} (hearly : ¬c.RefusedEarly)
    (htarget : c.target = some key) :
    s.Same { s with docs := s.docs.created key } ↔ c.RefusedEarly ∨ c.Exists s := by
  rw [same_created_iff, exists_iff_of_target htarget, or_iff_right hearly]

theorem same_of_storeInLayer_error {c : WriteCall} {layerName : Text} {force : Bool}
    {newContent : Text → Text}
    (hearly : c.RefusedEarly ↔ ∃ e, ws.resolveLayerTarget layerName content force = .error e)
    (htarget : c.target = layerKey ws layerName path content force)
    (h : Program.exec serve (Calls.storeInLayer env ws layerName path content force newContent) s =
      (.error e, s')) : s.Same s' ↔ c.RefusedEarly ∨ c.Exists s := by
  have hresolve : ((Effect.ofExcept (ws.resolveLayerTarget layerName content force) :
      Op (Scope × Text × Bool)).exec ∅).1 = ws.resolveLayerTarget layerName content force := by
    rw [Effect.exec_ofExcept]
  rw [Calls.storeInLayer] at h
  rcases error_of_check_create (fun target doc t hdoc =>
    failsClean_validateAndStore env ws _ _ (isSome_of_lookup hdoc) _ _ _
      fun s' hs' => exists_exec_getDocumentById hs' _) h with ⟨hlayer, rfl⟩ | ⟨target, hlayer, rfl⟩
  · rw [hresolve] at hlayer
    exact iff_of_true (Storage.Same.refl _) (.inl (hearly.mpr ⟨e, hlayer⟩))
  · rw [hresolve] at hlayer
    refine same_iff_of_created (fun hrefused => ?_) ?_
    · obtain ⟨e', he'⟩ := hearly.mp hrefused
      rw [hlayer] at he'
      cases he'
    · rw [htarget, layerKey, hlayer]

/-- **A call that returns an error** has changed nothing exactly if it was refused early, or the
document was there. -/
theorem same_of_error_iff (c : WriteCall)
    (h : Program.exec serve (c.program env) s = (.error e, s')) :
    s.Same s' ↔ c.RefusedEarly ∨ c.Exists s := by
  cases c with
  | write ws path content =>
    have hwrite := exec_unit_eq_error h
    rw [Calls.write] at hwrite
    rcases error_of_check_create (fun _ doc t hdoc =>
      failsClean_write_rest env (normalizePath path) content hdoc) hwrite with
      ⟨hscan, rfl⟩ | ⟨u, hscan, rfl⟩
    · exact iff_of_true (Storage.Same.refl _) (.inl (exec_scanForPrompt_error_iff.mp ⟨e, hscan⟩))
    · exact same_iff_of_created (not_scanRejects_of_ok hscan) rfl
  | append ws path content =>
    have happend : Program.exec serve (Calls.append env ws path content) s = (.error e, s') := h
    rw [Calls.append] at happend
    rcases error_of_check_create (fun _ doc t hdoc =>
      failsClean_append_rest env (normalizePath path) _ hdoc) happend with
      ⟨hscan, rfl⟩ | ⟨u, hscan, rfl⟩
    · exact iff_of_true (Storage.Same.refl _) (.inl (exec_scanForPrompt_error_iff.mp ⟨e, hscan⟩))
    · exact same_iff_of_created (not_scanRejects_of_ok hscan) rfl
  | patch ws path oldString newString replaceAll =>
    -- a patch creates nothing
    have hsame := failsClean_patch env oldString newString replaceAll e s' (exec_unit_eq_error h)
    rw [hsame]
    exact iff_of_true (Storage.Same.refl s) (.inl trivial)
  | writeToLayer ws layerName path content force =>
    exact same_of_storeInLayer_error env Iff.rfl rfl (exec_unit_eq_error h)
  | appendToLayer ws layerName path content force =>
    exact same_of_storeInLayer_error env Iff.rfl rfl (exec_unit_eq_error h)
  | appendMemory ws entry => exact absurd h (exec_appendMemory_ne_error env entry)

end Operations

def typedWorkspace : Workspace where
  userId := "alice"
  additionalReadScopes := []
  agentId := none
  memoryLayers := MemoryLayer.defaultForUser "alice"
  privacyClassifier := none
  adminPromptEnabled := false
  schemaErrors := fun _ content =>
    if content = "\x7b\x7d".toList then [] else ["content is not valid JSON"]
  parseProfile := fun _ => none

def plainEnv : StorageEnv := ⟨String.ofList, false⟩

def typedStorage : Storage where
  docs := ((∅ : Documents).insert (typedWorkspace.key configFileName)
      ⟨[], .obj [("schema".toList, .obj [])]⟩).insert (typedWorkspace.key "a.json".toList)
        ⟨"\x7b\x7d".toList, .obj []⟩
  versions := fun _ => []
  chunks := fun _ => []

def badWrite (path : String) : WriteCall := .write typedWorkspace path.toList "x".toList

theorem same_of_badWrite : ∃ e s',
    Program.exec serve ((badWrite "a.json").program plainEnv) typedStorage = (.error e, s') ∧
      typedStorage.Same s' := by
  obtain ⟨e, s', h⟩ : ∃ e s', Program.exec serve ((badWrite "a.json").program plainEnv)
      typedStorage = (.error e, s') := ⟨_, _, rfl⟩
  refine ⟨e, s', h, (same_of_error_iff plainEnv (badWrite "a.json") h).mpr (.inr ?_)⟩
  exact ⟨_, _, rfl, rfl⟩

/-- The rejected write of a document that is not there leaves an empty one. -/
theorem rejected_write_creates : ∃ e s' doc,
    Program.exec serve ((badWrite "b.json").program plainEnv) typedStorage = (.error e, s') ∧
      typedStorage.docs.lookup (typedWorkspace.key "b.json".toList) = none ∧
      s'.docs.lookup (typedWorkspace.key "b.json".toList) = some doc ∧ ¬typedStorage.Same s' := by
  refine ⟨_, _, ⟨[], .obj []⟩, rfl, rfl, rfl, fun h => ?_⟩
  cases (h (typedWorkspace.key "b.json".toList)).1

end IronClaw.Memory
