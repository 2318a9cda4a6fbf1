import IronClaw.Memory.Storage

/-!
# Writes as programs of storage calls

The operations save the old content of a document, store the new one, and index it, each by calls of
its own. Run at once, these are the operations on documents alone.
-/

namespace IronClaw.Memory

open Foundation (Text Json HashMap Effect Program)

/-- The hash of a content, and whether there is a provider of embeddings. -/
structure StorageEnv where
  contentSha256 : Text → String
  embeds : Bool

namespace DocumentMetadata

/-- A flag of some metadata, which is not set if the metadata cannot be read as a whole. -/
def flag (name : String) (metadata : Json) : Bool :=
  readsAsFlag (metadata.get "skip_indexing".toList) &&
    readsAsFlag (metadata.get "skip_versioning".toList) &&
    readsAsHygiene (metadata.get "hygiene".toList) &&
    decide ((metadata.get name.toList).bind Json.asBool = some true)

def skipIndexing (metadata : Json) : Bool := flag "skip_indexing" metadata

def skipVersioning (metadata : Json) : Bool := flag "skip_versioning" metadata

end DocumentMetadata

def resolveMetadataIn (scope : Scope) (agentId : Option AgentId) (path : Text) : Prog Json := do
  let path := normalizePath path
  let doc ← Ask.getDocument ⟨scope, agentId, path⟩
  let configs ← Ask.findConfigDocuments scope agentId
  let base := (findNearestConfig configs scope agentId path).getD (.obj [])
  let overlay := (doc.map (·.metadata)).getD (.obj [])
  pure (DocumentMetadata.merge base overlay)

section Parts

variable (env : StorageEnv)

def maybeSaveVersion (key : DocKey) (currentContent : Text) (metadata : Json)
    (changedBy : Option Scope) : Prog (Option Nat) := do
  if currentContent.isEmpty then pure none
  else if DocumentMetadata.skipVersioning metadata then pure none
  else
    let hash := env.contentSha256 currentContent
    let latest ← Ask.latestVersion key
    if latest.map (·.contentHash) = some hash then pure none
    else
      let version ← Ask.saveVersion key currentContent hash changedBy
      pure (some version)

def embedEach : List Text → Prog Unit
  | [] => pure ()
  | chunk :: chunks => do
    Ask.embed chunk
    embedEach chunks

def embedChunks (chunks : List Text) : Prog Unit :=
  if env.embeds then embedEach chunks else pure ()

/-- The content is read again before its chunks are replaced. -/
def reindex (key : DocKey) (metadata : Json) : Prog Unit := do
  match ← Ask.getDocument key with
  | none => .done (.error (.documentNotFound "unknown".toList "unknown"))
  | some doc =>
    if DocumentMetadata.skipIndexing metadata then Ask.deleteChunks key
    else
      let contentHashAtRead := env.contentSha256 doc.content
      let chunks := chunkDocument doc.content
      embedChunks env chunks
      match ← Ask.getDocument key with
      | none => pure ()
      | some current =>
        if env.contentSha256 current.content ≠ contentHashAtRead then pure ()
        else Ask.replaceChunks key chunks

def storeContent (key : DocKey) (oldContent newContent : Text) (metadata : Json)
    (changedBy : Scope) : Prog Unit := do
  let _ ← (maybeSaveVersion env key oldContent metadata (some changedBy)).attempt
  Ask.updateDocument key newContent
  reindex env key metadata

def getDocumentById (key : DocKey) : Prog MemoryDocument := do
  match ← Ask.getDocument key with
  | some doc => pure doc
  | none => .done (.error (.documentNotFound "unknown".toList "unknown"))

end Parts

namespace Calls

variable (env : StorageEnv) (ws : Workspace)

def patch (path oldString newString : Text) (replaceAll : Bool) : Prog (MemoryDocument × Nat) := do
  ofCheck (Effect.require (!oldString.isEmpty) (.patchFailed path "old_string cannot be empty"))
  let path := normalizePath path
  let key := ws.key path
  match ← Ask.getDocument key with
  | none => .done (.error (.documentNotFound path ws.userId))
  | some doc =>
    ofCheck (Effect.require (Text.hasInfix oldString doc.content)
      (.patchFailed path "old_string not found in document"))
    let newContent := Workspace.patched doc.content oldString newString replaceAll
    ofCheck (scanForPrompt path newContent)
    let metadata ← resolveMetadataIn ws.userId ws.agentId path
    ofCheck (ws.validateSchema path newContent metadata)
    storeContent env key doc.content newContent metadata ws.userId
    let updated ← getDocumentById key
    pure (updated, if replaceAll then Text.countMatches oldString doc.content else 1)

/-- Write a file. Engine runtime state is neither validated nor versioned nor indexed. -/
def write (path content : Text) : Prog MemoryDocument := do
  let path := normalizePath path
  let key := ws.key path
  ofCheck (scanForPrompt path content)
  let doc ← Ask.getOrCreateDocument key
  if isEngineRuntimePath path then
    Ask.deleteChunks key
    if doc.content = content then pure doc
    else
      Ask.updateDocument key content
      getDocumentById key
  else if doc.content = content then
    let metadata ← resolveMetadataIn ws.userId ws.agentId path
    let _ ← (reindex env key metadata).attempt
    pure doc
  else
    let metadata ← resolveMetadataIn ws.userId ws.agentId path
    ofCheck (ws.validateSchema path content metadata)
    storeContent env key doc.content content metadata ws.userId
    getDocumentById key

def append (path content : Text) : Prog Unit := do
  let path := normalizePath path
  let key := ws.key path
  ofCheck (scanForPrompt path content)
  let doc ← Ask.getOrCreateDocument key
  let newContent := Workspace.appended doc.content ['\n'] content
  ofCheck (scanForPrompt path newContent)
  let metadata ← resolveMetadataIn ws.userId ws.agentId path
  ofCheck (ws.validateSchema path newContent metadata)
  storeContent env key doc.content newContent metadata ws.userId

def storeInLayer (layerName path content : Text) (force : Bool) (newContent : Text → Text) :
    Prog (MemoryDocument × Bool × Text) := do
  let (scope, actualLayer, redirected) ←
    ofCheck (Effect.ofExcept (ws.resolveLayerTarget layerName content force))
  let path := normalizePath path
  let key := ws.keyIn scope path
  let doc ← Ask.getOrCreateDocument key
  let metadata ← resolveMetadataIn scope ws.agentId path
  ofCheck (ws.validateSchema path (newContent doc.content) metadata)
  storeContent env key doc.content (newContent doc.content)
    metadata ws.userId
  let document ← getDocumentById key
  pure (document, redirected, actualLayer)

def writeToLayer (layerName path content : Text) (force : Bool) :
    Prog (MemoryDocument × Bool × Text) :=
  storeInLayer env ws layerName path content force fun _ => content

def appendToLayer (layerName path content : Text) (force : Bool) :
    Prog (MemoryDocument × Bool × Text) :=
  storeInLayer env ws layerName path content force fun old =>
    Workspace.appended old ['\n', '\n'] content

def appendMemory (entry : Text) : Prog Unit := do
  let key := ws.key Paths.memory
  let doc ← Ask.getOrCreateDocument key
  let newContent := Workspace.appended doc.content ['\n', '\n'] entry
  let metadata ← resolveMetadataIn ws.userId ws.agentId Paths.memory
  storeContent env key doc.content newContent metadata ws.userId

end Calls

inductive WriteCall where
  | write (ws : Workspace) (path content : Text)
  | append (ws : Workspace) (path content : Text)
  | patch (ws : Workspace) (path oldString newString : Text) (replaceAll : Bool)
  | writeToLayer (ws : Workspace) (layerName path content : Text) (force : Bool)
  | appendToLayer (ws : Workspace) (layerName path content : Text) (force : Bool)
  | appendMemory (ws : Workspace) (entry : Text)

def WriteCall.program (env : StorageEnv) : WriteCall → Prog Unit
  | write ws path content => do
    let _ ← Calls.write env ws path content
  | append ws path content => Calls.append env ws path content
  | patch ws path oldString newString replaceAll => do
    let _ ← Calls.patch env ws path oldString newString replaceAll
  | writeToLayer ws layerName path content force => do
    let _ ← Calls.writeToLayer env ws layerName path content force
  | appendToLayer ws layerName path content force => do
    let _ ← Calls.appendToLayer env ws layerName path content force
  | appendMemory ws entry => Calls.appendMemory env ws entry

def layerKey (ws : Workspace) (layerName path content : Text) (force : Bool) : Option DocKey :=
  match ws.resolveLayerTarget layerName content force with
  | .ok (scope, _, _) => some (ws.keyIn scope (normalizePath path))
  | .error _ => none

def WriteCall.target : WriteCall → Option DocKey
  | write ws path _ => some (ws.key (normalizePath path))
  | append ws path _ => some (ws.key (normalizePath path))
  | patch ws path .. => some (ws.key (normalizePath path))
  | writeToLayer ws layerName path content force => layerKey ws layerName path content force
  | appendToLayer ws layerName path content force => layerKey ws layerName path content force
  | appendMemory ws _ => some (ws.key Paths.memory)

section Parts

variable (env : StorageEnv) {s : Storage} {key : DocKey}

theorem exec_ofCheck_bind {α β : Type} (x : Op α) (f : α → Prog β) (s : Storage) :
    Program.exec serve (ofCheck x >>= f) s =
      match (x.exec ∅).1 with
      | .ok a => Program.exec serve (f a) s
      | .error e => (.error e, s) := by
  rw [ofCheck]
  cases (x.exec ∅).1 <;> rfl

theorem exec_resolveMetadataIn (scope : Scope) (agentId : Option AgentId) (path : Text)
    (s : Storage) : Program.exec serve (resolveMetadataIn scope agentId path) s =
      (.ok (resolveMetadataInScope s.docs scope agentId path), s) := by
  show (Except.ok (DocumentMetadata.merge ((findNearestConfig (configDocuments s.docs scope agentId)
    scope agentId (normalizePath path)).getD (.obj [])) _), s) = _
  rw [findNearestConfig_configDocuments]
  rfl

theorem exec_maybeSaveVersion (key : DocKey) (content : Text) (metadata : Json)
    (changedBy : Option Scope) (s : Storage) :
    ∃ r versions, Program.exec serve (maybeSaveVersion env key content metadata changedBy) s =
      (.ok r, s.setVersions key versions) := by
  have hsame : s = s.setVersions key (s.versions key) := by
    obtain ⟨docs, versions, chunks⟩ := s
    simp only [Storage.setVersions, Storage.mk.injEq, true_and, and_true]
    funext k
    split_ifs with h
    · rw [h]
    · rfl
  rw [maybeSaveVersion]
  split_ifs
  · exact ⟨none, s.versions key, congrArg _ hsame⟩
  · exact ⟨none, s.versions key, congrArg _ hsame⟩
  · dsimp only
    rw [exec_latestVersion]
    split_ifs
    · exact ⟨none, s.versions key, congrArg _ hsame⟩
    · exact ⟨_, _, rfl⟩

theorem exec_embedEach (chunks : List Text) (s : Storage) :
    Program.exec serve (embedEach chunks) s = (.ok (), s) := by
  induction chunks with
  | nil => rfl
  | cons chunk chunks ih => exact ih

theorem exec_embedChunks (chunks : List Text) (s : Storage) :
    Program.exec serve (embedChunks env chunks) s = (.ok (), s) := by
  rw [embedChunks]
  split_ifs
  · exact exec_embedEach chunks s
  · rfl

theorem exec_reindex (h : (s.docs.lookup key).isSome) (metadata : Json) :
    ∃ chunks, Program.exec serve (reindex env key metadata) s =
      (.ok (), s.setChunks key chunks) := by
  obtain ⟨doc, hdoc⟩ := Option.isSome_iff_exists.mp h
  rw [reindex, exec_getDocument, hdoc]
  dsimp only
  split_ifs with hskip
  · exact ⟨[], rfl⟩
  · -- nothing has changed when the document is read again
    refine ⟨chunkDocument doc.content, ?_⟩
    rw [Program.exec_bind_ok serve (exec_embedChunks env _ s), exec_getDocument, hdoc]
    dsimp only
    rw [if_neg (not_not.mpr rfl)]
    rfl

theorem isSome_lookup_store {docs : Documents} (h : (docs.lookup key).isSome) (content : Text) :
    ((docs.store key content).lookup key).isSome := by
  obtain ⟨doc, hdoc⟩ := Option.isSome_iff_exists.mp h
  rw [Documents.store, HashMap.lookup_adjust, if_pos rfl, hdoc]
  rfl

theorem exec_storeContent (h : (s.docs.lookup key).isSome) (oldContent newContent : Text)
    (metadata : Json) (changedBy : Scope) :
    ∃ versions chunks, Program.exec serve (storeContent env key oldContent newContent metadata
      changedBy) s = (.ok (), ({ s.setVersions key versions with
        docs := s.docs.store key newContent }).setChunks key chunks) := by
  obtain ⟨r, versions, hsave⟩ := exec_maybeSaveVersion env key oldContent metadata
    (some changedBy) s
  have hthere := isSome_lookup_store h newContent
  obtain ⟨chunks, hindex⟩ := exec_reindex env (s := { s.setVersions key versions with
    docs := s.docs.store key newContent }) hthere metadata
  refine ⟨versions, chunks, ?_⟩
  rw [storeContent, Program.exec_attempt_bind serve hsave, exec_updateDocument_bind]
  exact hindex

theorem exec_getDocumentById {doc : MemoryDocument} (h : s.docs.lookup key = some doc) :
    Program.exec serve (getDocumentById key) s = (.ok doc, s) := by
  rw [getDocumentById, exec_getDocument, h]
  rfl

end Parts

theorem getD_lookup_of_created {docs : Documents} {key : DocKey} {doc : MemoryDocument}
    (h : (docs.created key).lookup key = some doc) :
    (docs.lookup key).getD ⟨[], .obj []⟩ = doc := by
  rw [Documents.created] at h
  cases hold : docs.lookup key with
  | some old =>
    rw [hold, hold] at h
    exact Option.some.inj h
  | none =>
    rw [hold, HashMap.lookup_insert, if_pos rfl] at h
    exact Option.some.inj h

/-- Run at once, a program changes documents as an operation, and fails as that does. -/
def Mirrors {α β : Type} (s : Storage) (p : Prog α) (x : Op β) : Prop :=
  (Program.exec serve p s).2.docs = (x.exec s.docs).2 ∧
    (Program.exec serve p s).1.map (fun _ => ()) = (x.exec s.docs).1.map fun _ => ()

section Mirrors

variable {α β γ δ : Type} {s : Storage} {key : DocKey}

def Stateless (x : Op γ) : Prop := ∀ docs, x.exec docs = ((x.exec ∅).1, docs)

theorem stateless_require (c : Bool) (e : WorkspaceError) :
    Stateless (Effect.require c e : Op Unit) := by
  intro docs
  cases c <;> rfl

theorem stateless_scanForPrompt (path content : Text) : Stateless (scanForPrompt path content) := by
  rw [scanForPrompt]
  split_ifs
  · exact stateless_require _ _
  · exact fun _ => rfl

theorem stateless_validateSchema (ws : Workspace) (path content : Text) (metadata : Json) :
    Stateless (ws.validateSchema path content metadata) := by
  rw [Workspace.validateSchema]
  split
  · exact fun _ => rfl
  · exact stateless_require _ _

theorem stateless_ofExcept (r : Except WorkspaceError γ) :
    Stateless (Effect.ofExcept r : Op γ) := by
  intro docs
  rw [Effect.exec_ofExcept, Effect.exec_ofExcept]

theorem Mirrors.check {x : Op γ} (hx : Stateless x) {f : γ → Prog α} {g : γ → Op β}
    (h : ∀ a, Mirrors s (f a) (g a)) : Mirrors s (ofCheck x >>= f) (x >>= g) := by
  rw [Mirrors, exec_ofCheck_bind, Effect.exec_bind, hx s.docs]
  cases (x.exec ∅).1 with
  | ok a => exact h a
  | error e => exact ⟨rfl, rfl⟩

theorem Mirrors.getOrCreate {f : MemoryDocument → Prog α} {g : MemoryDocument → Op β}
    (h : ∀ doc (t : Storage), t.docs.lookup key = some doc → Mirrors t (f doc) (g doc)) :
    Mirrors s (Ask.getOrCreateDocument key >>= f) (getOrCreateDocumentByPath key >>= g) := by
  obtain ⟨doc, hexec, hlookup, -⟩ := exec_getOrCreate key s.docs
  have hdoc := getD_lookup_of_created hlookup
  rw [Mirrors, exec_getOrCreateDocument, Effect.exec_bind_ok hexec, hdoc]
  exact h doc { s with docs := s.docs.created key } hlookup

theorem Mirrors.then {p : Prog γ} {x : Op β} {f : γ → Prog α} (h : Mirrors s p x)
    (hf : ∀ a s', Program.exec serve p s = (.ok a, s') →
      ∃ b, Program.exec serve (f a) s' = (.ok b, s')) : Mirrors s (p >>= f) x := by
  rw [Mirrors, Program.exec_bind]
  obtain ⟨hdocs, hresult⟩ := h
  rcases hexec : Program.exec serve p s with ⟨r, s'⟩
  rw [hexec] at hdocs hresult
  cases r with
  | error e => exact ⟨hdocs, hresult⟩
  | ok a =>
    obtain ⟨b, hb⟩ := hf a s' hexec
    dsimp only
    rw [hb]
    exact ⟨hdocs, hresult⟩

theorem Mirrors.ignore {p : Prog α} {x : Op β} (h : Mirrors s p x) (b : δ) :
    Mirrors s p (x >>= fun _ => pure b) := by
  obtain ⟨hdocs, hresult⟩ := h
  rw [Mirrors, Effect.exec_bind]
  rcases hexec : x.exec s.docs with ⟨r, docs⟩
  rw [hexec] at hdocs hresult
  cases r <;> exact ⟨hdocs, hresult⟩

theorem mirrors_validateAndUpdate (env : StorageEnv) (ws : Workspace) (scope : Scope) (path : Text)
    (h : (s.docs.lookup (ws.keyIn scope path)).isSome) (oldContent newContent : Text)
    (changedBy : Scope) {f : Unit → Prog α}
    (hf : ∀ s' : Storage, (s'.docs.lookup (ws.keyIn scope path)).isSome →
      ∃ b, Program.exec serve (f ()) s' = (.ok b, s')) :
    Mirrors s (do
      let metadata ← resolveMetadataIn scope ws.agentId path
      ofCheck (ws.validateSchema path newContent metadata)
      storeContent env (ws.keyIn scope path) oldContent newContent metadata changedBy >>= f)
      (ws.validateAndUpdate scope path newContent) := by
  rw [Mirrors, Program.exec_bind_ok serve (exec_resolveMetadataIn _ _ _ _), exec_ofCheck_bind,
    Workspace.validateAndUpdate, Effect.exec_bind_ok (Effect.exec_get _), Effect.exec_bind,
    stateless_validateSchema _ _ _ _ s.docs]
  cases ((ws.validateSchema path newContent (resolveMetadataInScope s.docs scope ws.agentId
      path)).exec ∅).1 with
  | error e => exact ⟨rfl, rfl⟩
  | ok u =>
    obtain ⟨versions, chunks, hstore⟩ := exec_storeContent env h oldContent newContent
      (resolveMetadataInScope s.docs scope ws.agentId path) changedBy
    obtain ⟨b, hb⟩ := hf (({ s.setVersions (ws.keyIn scope path) versions with
      docs := s.docs.store (ws.keyIn scope path) newContent }).setChunks
        (ws.keyIn scope path) chunks)
        (isSome_lookup_store h newContent)
    dsimp only
    rw [Program.exec_bind_ok serve hstore, hb]
    exact ⟨rfl, rfl⟩

theorem exec_getDocumentById_bind (h : (s.docs.lookup key).isSome) (f : MemoryDocument → β) :
    ∃ b, Program.exec serve (do
      let doc ← getDocumentById key
      pure (f doc)) s = (.ok b, s) := by
  obtain ⟨doc, hdoc⟩ := Option.isSome_iff_exists.mp h
  exact ⟨f doc, Program.exec_bind_ok serve (exec_getDocumentById hdoc)⟩

theorem Mirrors.unit {p : Prog γ} {x : Op β} (h : Mirrors s p x) : Mirrors s (do let _ ← p) x :=
  h.then fun _ _ _ => ⟨(), rfl⟩

variable (env : StorageEnv) (ws : Workspace) (s)

theorem isSome_of_lookup {docs : Documents} {doc : MemoryDocument}
    (h : docs.lookup key = some doc) : (docs.lookup key).isSome := by
  rw [h]
  rfl

theorem mirrors_append (path content : Text) :
    Mirrors s (Calls.append env ws path content) (ws.append path content) := by
  rw [Calls.append, Workspace.append]
  refine .check (stateless_scanForPrompt _ _) fun _ => ?_
  refine .getOrCreate fun doc t hdoc => ?_
  refine .check (stateless_scanForPrompt _ _) fun _ => ?_
  have htail := mirrors_validateAndUpdate env ws ws.userId (normalizePath path)
    (isSome_of_lookup hdoc) doc.content (Workspace.appended doc.content ['\n'] content) ws.userId
    (f := pure) fun _ _ => ⟨(), rfl⟩
  simp only [Program.bind_pure] at htail
  exact htail

theorem mirrors_patch (path oldString newString : Text) (replaceAll : Bool) :
    Mirrors s (Calls.patch env ws path oldString newString replaceAll)
      (ws.patch path oldString newString replaceAll) := by
  rw [Calls.patch, Workspace.patch]
  refine .check (stateless_require _ _) fun _ => ?_
  rw [Mirrors, exec_getDocument, Effect.exec_bind, exec_getDocumentByPath]
  cases hdoc : s.docs.lookup (ws.key (normalizePath path)) with
  | none => exact ⟨rfl, rfl⟩
  | some doc =>
    dsimp only
    refine Mirrors.check (stateless_require _ _) fun _ => ?_
    refine .check (stateless_scanForPrompt _ _) fun _ => ?_
    exact (mirrors_validateAndUpdate env ws _ _ (isSome_of_lookup hdoc) _ _ _
      fun s' hs' => exec_getDocumentById_bind hs' _).ignore _

theorem mirrors_write (path content : Text) :
    Mirrors s (Calls.write env ws path content) (ws.write path content) := by
  rw [Calls.write, Workspace.write]
  refine .check (stateless_scanForPrompt _ _) fun _ => ?_
  refine .getOrCreate fun doc t hdoc => ?_
  have hthere := isSome_of_lookup hdoc
  have hfound : ∀ u : Storage, (u.docs.lookup (ws.key (normalizePath path))).isSome →
      ∃ doc,
        Program.exec serve (getDocumentById (ws.key (normalizePath path))) u = (.ok doc, u) := by
    intro u hu
    obtain ⟨doc, hdoc⟩ := Option.isSome_iff_exists.mp hu
    exact ⟨doc, exec_getDocumentById hdoc⟩
  by_cases hengine : isEngineRuntimePath (normalizePath path) = true
  · -- engine runtime state loses its chunks
    rw [if_pos hengine, Mirrors, exec_deleteChunks]
    by_cases hsame : doc.content = content
    · rw [if_pos hsame, if_pos hsame]
      exact ⟨rfl, rfl⟩
    · rw [if_neg hsame, if_neg hsame, if_pos hengine, exec_updateDocument_bind]
      obtain ⟨doc', hdoc'⟩ := hfound { t.setChunks (ws.key (normalizePath path)) [] with
        docs := t.docs.store (ws.key (normalizePath path)) content }
        (isSome_lookup_store hthere content)
      have hend : Program.exec serve (getDocumentById (ws.key (normalizePath path))) _ = _ := hdoc'
      exact ⟨congrArg (fun r => r.2.docs) hend, congrArg (fun r => r.1.map fun _ => ()) hend⟩
  · rw [if_neg hengine]
    by_cases hsame : doc.content = content
    · -- unchanged content is only indexed
      rw [if_pos hsame, if_pos hsame, Mirrors,
        Program.exec_bind_ok serve (exec_resolveMetadataIn _ _ _ _)]
      obtain ⟨chunks, hindex⟩ := exec_reindex env hthere
        (resolveMetadataInScope t.docs ws.userId ws.agentId (normalizePath path))
      rw [Program.exec_attempt_bind serve hindex]
      exact ⟨rfl, rfl⟩
    · rw [if_neg hsame, if_neg hsame, if_neg hengine]
      exact mirrors_validateAndUpdate env ws ws.userId _ hthere _ _ _ hfound

theorem mirrors_writeToLayer (layerName path content : Text) (force : Bool) :
    Mirrors s (Calls.writeToLayer env ws layerName path content force)
      (ws.writeToLayer layerName path content force) := by
  rw [Calls.writeToLayer, Calls.storeInLayer, Workspace.writeToLayer]
  refine .check (stateless_ofExcept _) fun target => ?_
  refine .getOrCreate fun doc t hdoc => ?_
  exact (mirrors_validateAndUpdate env ws _ _ (isSome_of_lookup hdoc) _ _ _
    fun s' hs' => exec_getDocumentById_bind hs' _).ignore _

theorem mirrors_appendToLayer (layerName path content : Text) (force : Bool) :
    Mirrors s (Calls.appendToLayer env ws layerName path content force)
      (ws.appendToLayer layerName path content force) := by
  rw [Calls.appendToLayer, Calls.storeInLayer, Workspace.appendToLayer]
  refine .check (stateless_ofExcept _) fun target => ?_
  refine .getOrCreate fun doc t hdoc => ?_
  exact (mirrors_validateAndUpdate env ws _ _ (isSome_of_lookup hdoc) _ _ _
    fun s' hs' => exec_getDocumentById_bind hs' _).ignore _

theorem mirrors_appendMemory (entry : Text) :
    Mirrors s (Calls.appendMemory env ws entry) (ws.appendMemory entry) := by
  rw [Calls.appendMemory, Workspace.appendMemory]
  refine .getOrCreate fun doc t hdoc => ?_
  rw [Mirrors, Program.exec_bind_ok serve (exec_resolveMetadataIn _ _ _ _)]
  obtain ⟨versions, chunks, hstore⟩ := exec_storeContent env (isSome_of_lookup hdoc) doc.content
    (Workspace.appended doc.content ['\n', '\n'] entry)
    (resolveMetadataInScope t.docs ws.userId ws.agentId Paths.memory) ws.userId
  rw [hstore]
  exact ⟨rfl, rfl⟩

def WriteCall.operation : WriteCall → Op Unit
  | .write ws path content => ws.write path content
  | .append ws path content => ws.append path content
  | .patch ws path oldString newString replaceAll => do
    let _ ← ws.patch path oldString newString replaceAll
  | .writeToLayer ws layerName path content force => do
    let _ ← ws.writeToLayer layerName path content force
  | .appendToLayer ws layerName path content force => do
    let _ ← ws.appendToLayer layerName path content force
  | .appendMemory ws entry => ws.appendMemory entry

/-- **Run at once**, a call changes the documents as its operation does. -/
theorem mirrors_program (c : WriteCall) : Mirrors s (c.program env) c.operation := by
  cases c with
  | write ws path content => exact (mirrors_write s env ws path content).unit
  | append ws path content => exact mirrors_append s env ws path content
  | patch ws path oldString newString replaceAll =>
    exact (mirrors_patch s env ws path oldString newString replaceAll).unit.ignore ()
  | writeToLayer ws layerName path content force =>
    exact (mirrors_writeToLayer s env ws layerName path content force).unit.ignore ()
  | appendToLayer ws layerName path content force =>
    exact (mirrors_appendToLayer s env ws layerName path content force).unit.ignore ()
  | appendMemory ws entry => exact mirrors_appendMemory s env ws entry

end Mirrors

end IronClaw.Memory
