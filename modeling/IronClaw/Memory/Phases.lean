import IronClaw.Memory.Writes

/-!
# Calls that take turns

Others may take turns between two storage calls of a call. Its phase says which content it has read,
whether that is among the versions, and how far it is with the index.
-/

namespace IronClaw.Memory

open Foundation (Text Json Effect Program Protocol Running Pool)

inductive Phase where
  | idle
  | opened (old : Text)
  /-- It has read the metadata of the document, but not the folder configurations. -/
  | resolving (old : Text)
  | resolved (old : Text)
  /-- The latest version has another hash than the old content. -/
  | unsaved (old : Text)
  /-- The latest version has the same hash, or the old content was saved. -/
  | secured (old : Text)
  | stored
  | held (text : Text)
  /-- It has read the content again, and the hash was the same. -/
  | confirmed (text : Text)
  /-- It has dropped the chunks of a document that is not indexed. -/
  | cleared
  | finished
deriving DecidableEq

namespace Phase

variable (env : StorageEnv) (key : DocKey)

def allows : Phase → StorageCall → Prop
  | idle, .getDocument k | idle, .getOrCreateDocument k => k = key
  | opened _, .getDocument _ => True
  | opened _, .deleteChunks k => k = key
  | resolving _, .findConfigDocuments .. => True
  | resolved _, .latestVersion k | resolved _, .getDocument k => k = key
  | resolved _, .updateDocument k _ | secured _, .updateDocument k _ => k = key
  | unsaved old, .saveVersion k content _ _ => k = key ∧ content = old
  | stored, .getDocument k => k = key
  | held _, .embed _ => True
  | held _, .getDocument k | held _, .deleteChunks k => k = key
  | confirmed text, .replaceChunks k chunks => k = key ∧ chunks = chunkDocument text
  | cleared, .updateDocument k _ => k = key
  | finished, .getDocument k => k = key
  | _, _ => False

def read : Option MemoryDocument → Phase
  | some doc => held doc.content
  | none => finished

def reread (text : Text) : Option MemoryDocument → Phase
  | some doc => if env.contentSha256 doc.content = env.contentSha256 text then confirmed text
    else finished
  | none => finished

def after : Phase → (c : StorageCall) → c.Answer → Phase
  | idle, .getDocument _, r => r.elim idle fun doc => opened doc.content
  | idle, .getOrCreateDocument _, doc => opened doc.content
  | opened old, .getDocument _, _ => resolving old
  | opened _, .deleteChunks _, _ => cleared
  | resolving old, .findConfigDocuments .., _ => resolved old
  | resolved old, .latestVersion _, latest =>
    if latest.map DocumentVersion.contentHash = some (env.contentSha256 old) then secured old
    else unsaved old
  | unsaved old, .saveVersion .., _ => secured old
  | resolved _, .updateDocument .., _ | secured _, .updateDocument .., _ => stored
  | resolved _, .getDocument _, r | stored, .getDocument _, r => read r
  | held text, .getDocument _, r => reread env text r
  | held _, .deleteChunks _, _ => finished
  | confirmed _, .replaceChunks .., _ => finished
  | cleared, .updateDocument .., _ => finished
  | g, _, _ => g

def Over : Phase → Prop
  | cleared | finished => True
  | _ => False

end Phase

abbrev protocol (env : StorageEnv) (key : DocKey) : Protocol StorageCall StorageCall.Answer where
  Phase := Phase
  allowed := Phase.allows key
  next := Phase.after env

section Follows

variable {env : StorageEnv} {key : DocKey} {α β : Type}

/-- A call returns `Ok` only when it has nothing to do any more. -/
def Ended (g : Phase) (r : Except WorkspaceError α) : Prop := ∀ a, r = .ok a → g.Over

theorem ended_error (g : Phase) (e : WorkspaceError) : Ended g (.error e : Except _ α) := by
  intro a h
  cases h

theorem ended_cleared (r : Except WorkspaceError α) : Ended .cleared r := fun _ _ => trivial

theorem ended_finished (r : Except WorkspaceError α) : Ended .finished r := fun _ _ => trivial

abbrev FollowsFrom (env : StorageEnv) (key : DocKey) (Q : Phase → Except WorkspaceError α → Prop)
    (g : Phase) (p : Prog α) : Prop :=
  p.Follows (protocol env key) Q g

variable {g : Phase}

theorem follows_check {Q : Phase → Except WorkspaceError α → Prop} {x : Op β} {f : β → Prog α}
    (hok : ∀ b, FollowsFrom env key Q g (f b)) (herror : ∀ e, Q g (.error e)) :
    FollowsFrom env key Q g (ofCheck x >>= f) := by
  rw [ofCheck]
  cases (x.exec ∅).1 with
  | ok b => exact hok b
  | error e => exact herror e

theorem follows_embedChunks (text : Text) (chunks : List Text) :
    FollowsFrom env key (fun g r => g = .held text ∧ r = .ok ()) (.held text)
      (embedChunks env chunks) := by
  rw [embedChunks]
  split_ifs
  · induction chunks with
    | nil => exact ⟨rfl, rfl⟩
    | cons chunk chunks ih => exact ⟨trivial, fun _ => ih⟩
  · exact ⟨rfl, rfl⟩

theorem follows_reindex (h : g = .stored ∨ ∃ old, g = .resolved old) (metadata : Json) :
    FollowsFrom env key (fun g _ => g = .finished) g (reindex env key metadata) := by
  have hallowed : g.allows key (.getDocument key) := by
    rcases h with rfl | ⟨old, rfl⟩ <;> exact rfl
  have hread : ∀ r : Option MemoryDocument, g.after env (.getDocument key) r = Phase.read r := by
    intro r
    rcases h with rfl | ⟨old, rfl⟩ <;> rfl
  rw [reindex]
  refine .ask hallowed fun (r : Option MemoryDocument) => ?_
  show FollowsFrom env key _ (g.after env (.getDocument key) r) _
  rw [hread]
  cases r with
  | none => exact rfl
  | some doc =>
    dsimp only
    split_ifs
    · exact ⟨rfl, fun _ => rfl⟩
    · refine (follows_embedChunks doc.content _).bind ?_ ?_
      · rintro g u ⟨rfl, -⟩
        refine .ask rfl fun (r : Option MemoryDocument) => ?_
        show FollowsFrom env key _ (Phase.reread env doc.content r) _
        cases r with
        | none => exact rfl
        | some current =>
          -- the hashes decide between the replacement and the end
          dsimp only [Phase.reread]
          by_cases hhash : env.contentSha256 current.content = env.contentSha256 doc.content
          · rw [if_pos hhash, if_neg (not_not.mpr hhash)]
            exact ⟨⟨rfl, rfl⟩, fun _ => rfl⟩
          · rw [if_neg hhash, if_pos hhash]
            exact rfl
      · rintro g e ⟨-, h⟩
        cases h

theorem follows_maybeSaveVersion (old : Text) (metadata : Json) (changedBy : Option Scope) :
    FollowsFrom env key (fun g _ => g = .resolved old ∨ g = .secured old) (.resolved old)
      (maybeSaveVersion env key old metadata changedBy) := by
  rw [maybeSaveVersion]
  split_ifs
  · exact .inl rfl
  · exact .inl rfl
  · refine .ask rfl fun latest => ?_
    show FollowsFrom env key _ (Phase.after env (.resolved old) (.latestVersion key) latest) _
    dsimp only [Phase.after]
    split_ifs
    · exact .inr rfl
    · exact ⟨⟨rfl, rfl⟩, fun _ => .inr rfl⟩

theorem follows_storeContent (old new : Text) (metadata : Json) (changedBy : Scope) :
    FollowsFrom env key (fun g _ => g = .finished) (.resolved old)
      (storeContent env key old new metadata changedBy) := by
  rw [storeContent]
  refine (follows_maybeSaveVersion old metadata (some changedBy)).attempt.bind ?_ ?_
  · rintro g r ⟨-, -, hg⟩
    rcases hg with rfl | rfl
    · exact ⟨rfl, fun _ => follows_reindex (.inl rfl) metadata⟩
    · exact ⟨rfl, fun _ => follows_reindex (.inl rfl) metadata⟩
  · rintro g e ⟨r, h, -⟩
    cases h

theorem follows_resolve {Q : Phase → Except WorkspaceError α → Prop} (old : Text) (scope : Scope)
    (agentId : Option AgentId) (path : Text) {f : Json → Prog α}
    (h : ∀ metadata, FollowsFrom env key Q (.resolved old) (f metadata)) :
    FollowsFrom env key Q (.opened old) (resolveMetadataIn scope agentId path >>= f) :=
  ⟨trivial, fun _ => ⟨trivial, fun _ => h _⟩⟩

theorem follows_map {p : Prog α} (h : FollowsFrom env key Ended g p) (f : α → β) :
    FollowsFrom env key Ended g (p >>= fun a => pure (f a)) :=
  h.bind (fun _ a ha _ _ => ha a rfl) fun g e _ => ended_error g e

theorem follows_getDocumentById : FollowsFrom env key Ended .finished (getDocumentById key) := by
  refine ⟨rfl, fun (r : Option MemoryDocument) => ?_⟩
  cases r with
  | none => exact ended_error _ _
  | some doc => exact ended_finished _

theorem follows_validateAndStore (old new : Text) (ws : Workspace) (path : Text) (metadata : Json)
    (changedBy : Scope) {f : Unit → Prog α} (hf : FollowsFrom env key Ended .finished (f ())) :
    FollowsFrom env key Ended (.resolved old) (do
      ofCheck (ws.validateSchema path new metadata)
      storeContent env key old new metadata changedBy >>= f) := by
  refine follows_check (fun _ => ?_) (ended_error _)
  refine (follows_storeContent old new metadata changedBy).bind ?_ fun g e _ => ended_error g e
  rintro g u rfl
  exact hf

end Follows

section Calls

variable {env : StorageEnv} {key : DocKey} {α : Type}

variable (ws : Workspace)

theorem follows_write (path content : Text) :
    FollowsFrom env (ws.key (normalizePath path)) Ended .idle
      (Calls.write env ws path content) := by
  rw [Calls.write]
  refine follows_check (fun _ => ?_) (ended_error _)
  refine .ask rfl fun doc => ?_
  show FollowsFrom env _ Ended (.opened doc.content) _
  split_ifs
  · exact ⟨rfl, fun _ => ended_cleared _⟩
  · exact ⟨rfl, fun _ => ⟨rfl, fun _ => follows_getDocumentById⟩⟩
  · refine follows_resolve _ _ _ _ fun metadata => ?_
    refine (follows_reindex (.inr ⟨_, rfl⟩) metadata).attempt.bind ?_ ?_
    · rintro g r ⟨-, -, rfl⟩
      exact ended_finished _
    · exact fun g e _ => ended_error g e
  · refine follows_resolve _ _ _ _ fun metadata => ?_
    exact follows_validateAndStore _ _ _ _ _ _ follows_getDocumentById

theorem follows_append (path content : Text) :
    FollowsFrom env (ws.key (normalizePath path)) Ended .idle
      (Calls.append env ws path content) := by
  rw [Calls.append]
  refine follows_check (fun _ => ?_) (ended_error _)
  refine .ask rfl fun doc => ?_
  show FollowsFrom env _ Ended (.opened doc.content) _
  refine follows_check (fun _ => ?_) (ended_error _)
  refine follows_resolve _ _ _ _ fun metadata => ?_
  have hend : FollowsFrom env (ws.key (normalizePath path)) Ended .finished (pure () : Prog Unit) :=
    ended_finished _
  have htail := follows_validateAndStore doc.content
    (Workspace.appended doc.content ['\n'] content) ws (normalizePath path) metadata ws.userId
    (f := pure) hend
  simp only [Program.bind_pure] at htail
  exact htail

theorem follows_patch (path oldString newString : Text) (replaceAll : Bool) :
    FollowsFrom env (ws.key (normalizePath path)) Ended .idle
      (Calls.patch env ws path oldString newString replaceAll) := by
  rw [Calls.patch]
  refine follows_check (fun _ => ?_) (ended_error _)
  refine .ask rfl fun (r : Option MemoryDocument) => ?_
  cases r with
  | none => exact ended_error _ _
  | some doc =>
    show FollowsFrom env _ Ended (.opened doc.content) _
    refine follows_check (fun _ => ?_) (ended_error _)
    refine follows_check (fun _ => ?_) (ended_error _)
    refine follows_resolve _ _ _ _ fun metadata => ?_
    exact follows_validateAndStore _ _ _ _ _ _ (follows_map follows_getDocumentById _)

theorem follows_storeInLayer (layerName path content : Text) (force : Bool)
    (newContent : Text → Text) (htarget : layerKey ws layerName path content force = some key ∨
      layerKey ws layerName path content force = none) : FollowsFrom env key Ended .idle
      (Calls.storeInLayer env ws layerName path content force newContent) := by
  rw [Calls.storeInLayer, ofCheck, Effect.exec_ofExcept]
  cases hlayer : ws.resolveLayerTarget layerName content force with
  | error e => exact ended_error _ e
  | ok target =>
    have hkey : ws.keyIn target.1 (normalizePath path) = key := by
      rw [layerKey, hlayer] at htarget
      exact Option.some.inj (htarget.resolve_right (Option.some_ne_none _))
    subst hkey
    refine .ask rfl fun doc => ?_
    show FollowsFrom env _ Ended (.opened doc.content) _
    refine follows_resolve _ _ _ _ fun metadata => ?_
    exact follows_validateAndStore _ _ _ _ _ _ (follows_map follows_getDocumentById _)

theorem follows_appendMemory (entry : Text) :
    FollowsFrom env (ws.key Paths.memory) Ended .idle (Calls.appendMemory env ws entry) := by
  rw [Calls.appendMemory]
  refine .ask rfl fun doc => ?_
  show FollowsFrom env _ Ended (.opened doc.content) _
  refine follows_resolve _ _ _ _ fun metadata => ?_
  refine (follows_storeContent _ _ _ _).mono ?_
  rintro g r rfl
  exact ended_finished r

end Calls

def WriteCall.About (c : WriteCall) (key : DocKey) : Prop := c.target = some key ∨ c.target = none

instance (c : WriteCall) (key : DocKey) : Decidable (c.About key) :=
  inferInstanceAs (Decidable (_ ∨ _))

theorem follows_program (env : StorageEnv) {key : DocKey} {c : WriteCall} (h : c.About key) :
    FollowsFrom env key Ended .idle (c.program env) := by
  have hkey : ∀ k, c.target = some k → k = key := by
    intro k hk
    rcases h with h | h
    · exact Option.some.inj (hk.symm.trans h)
    · cases hk.symm.trans h
  cases c with
  | write ws path content =>
    rw [← hkey _ rfl]
    exact follows_map (follows_write ws path content) _
  | append ws path content =>
    rw [← hkey _ rfl]
    exact follows_append ws path content
  | patch ws path oldString newString replaceAll =>
    rw [← hkey _ rfl]
    exact follows_map (follows_patch ws path oldString newString replaceAll) _
  | writeToLayer ws layerName path content force =>
    exact follows_map (follows_storeInLayer ws layerName path content force _ h) _
  | appendToLayer ws layerName path content force =>
    exact follows_map (follows_storeInLayer ws layerName path content force _ h) _
  | appendMemory ws entry =>
    rw [← hkey _ rfl]
    exact follows_appendMemory ws entry

structure WriteHost where
  storage : Storage
  results : List (Except WorkspaceError Unit)

abbrev WriteTask (env : StorageEnv) (key : DocKey) := Running (protocol env key) WorkspaceError Unit

namespace WriteHost

def serve (c : StorageCall) (host : WriteHost) : c.Answer × WriteHost :=
  ((Memory.serve c host.storage).1, { host with storage := (Memory.serve c host.storage).2 })

def ended (r : Except WorkspaceError Unit) (host : WriteHost) : WriteHost :=
  { host with results := host.results ++ [r] }

end WriteHost

inductive WriteAction where
  | call (c : WriteCall)
  | step (i : Nat)

abbrev WritePool (env : StorageEnv) (key : DocKey) := Pool WriteHost (WriteTask env key)

def writeStep (env : StorageEnv) (key : DocKey) (p : WritePool env key) :
    WriteAction → Option (WritePool env key)
  | .call c => if c.About key then some (p.start ⟨Phase.idle, c.program env⟩) else none
  | .step i => p.advance (fun (_ : Unit) => Running.next WriteHost.serve WriteHost.ended) i ()

namespace Storage

/-- The content of a document, which is empty as long as there is no document. -/
def text (s : Storage) (key : DocKey) : Text := s.docs.text key

def saved (s : Storage) (key : DocKey) : List Text := (s.versions key).map (·.content)

end Storage

/-- How a storage call of a call on the document takes it from one phase to the next. -/
inductive Phase.Moves (env : StorageEnv) (key : DocKey) (s : Storage) :
    Phase → StorageCall → Phase → Prop where
  | missing (h : s.docs.lookup key = none) : Moves env key s idle (.getDocument key) idle
  | open (doc : MemoryDocument) (h : s.docs.lookup key = some doc) :
    Moves env key s idle (.getDocument key) (opened doc.content)
  | create (old : Text) : Moves env key s idle (.getOrCreateDocument key) (opened old)
  | drop (old : Text) : Moves env key s (opened old) (.deleteChunks key) cleared
  | lookAt (old : Text) (k : DocKey) :
    Moves env key s (opened old) (.getDocument k) (resolving old)
  | resolve (old : Text) (scope : Scope) (agentId : Option AgentId) :
    Moves env key s (resolving old) (.findConfigDocuments scope agentId) (resolved old)
  | same (old : Text) (version : DocumentVersion)
    (hlatest : (s.versions key).getLast? = some version)
    (hhash : version.contentHash = env.contentSha256 old) :
    Moves env key s (resolved old) (.latestVersion key) (secured old)
  | differs (old : Text) : Moves env key s (resolved old) (.latestVersion key) (unsaved old)
  | save (old : Text) (hash : String) (changedBy : Option Scope) :
    Moves env key s (unsaved old) (.saveVersion key old hash changedBy) (secured old)
  | storeUnsaved (old new : Text) : Moves env key s (resolved old) (.updateDocument key new) stored
  | storeSaved (old new : Text) : Moves env key s (secured old) (.updateDocument key new) stored
  | storeCleared (new : Text) : Moves env key s cleared (.updateDocument key new) finished
  | readUnchanged (old : Text) (doc : MemoryDocument) (h : s.docs.lookup key = some doc) :
    Moves env key s (resolved old) (.getDocument key) (held doc.content)
  | readStored (doc : MemoryDocument) (h : s.docs.lookup key = some doc) :
    Moves env key s stored (.getDocument key) (held doc.content)
  | embed (text chunk : Text) : Moves env key s (held text) (.embed chunk) (held text)
  | unindex (text : Text) : Moves env key s (held text) (.deleteChunks key) finished
  | confirm (text : Text) (doc : MemoryDocument) (h : s.docs.lookup key = some doc)
    (hhash : env.contentSha256 doc.content = env.contentSha256 text) :
    Moves env key s (held text) (.getDocument key) (confirmed text)
  | discard (text : Text) (doc : MemoryDocument) (h : s.docs.lookup key = some doc)
    (hhash : env.contentSha256 doc.content ≠ env.contentSha256 text) :
    Moves env key s (held text) (.getDocument key) finished
  | index (text : Text) :
    Moves env key s (confirmed text) (.replaceChunks key (chunkDocument text)) finished
  | gone (phase : Phase) (h : s.docs.lookup key = none) (hidle : phase ≠ idle) :
    Moves env key s phase (.getDocument key) finished
  | fetch : Moves env key s finished (.getDocument key) finished

namespace Phase

variable {env : StorageEnv} {key : DocKey} {s : Storage}

theorem moves_read {phase : Phase} (hidle : phase ≠ idle) (h : ∀ doc, s.docs.lookup key = some doc →
      Moves env key s phase (.getDocument key) (held doc.content)) :
    Moves env key s phase (.getDocument key) (read (s.docs.lookup key)) := by
  cases hdoc : s.docs.lookup key with
  | none => exact .gone phase hdoc hidle
  | some doc => exact h doc hdoc

theorem moves_reread (text : Text) :
    Moves env key s (held text) (.getDocument key) (reread env text (s.docs.lookup key)) := by
  cases hdoc : s.docs.lookup key with
  | none => exact .gone _ hdoc nofun
  | some doc =>
    dsimp only [reread]
    split_ifs with hhash
    · exact .confirm text doc hdoc hhash
    · exact .discard text doc hdoc hhash

theorem moves_of_allows {phase : Phase} {c : StorageCall} (h : phase.allows key c) :
    Moves env key s phase c (phase.after env c (serve c s).1) := by
  cases phase <;> cases c <;> try exact absurd h id
  case idle.getDocument k =>
    obtain rfl : k = key := h
    show Moves env k s idle _ ((s.docs.lookup k).elim idle fun doc => opened doc.content)
    cases hdoc : s.docs.lookup k with
    | none => exact .missing hdoc
    | some doc => exact .open doc hdoc
  case idle.getOrCreateDocument k =>
    obtain rfl : k = key := h
    exact .create _
  case opened.getDocument old k => exact .lookAt old k
  case opened.deleteChunks old k =>
    obtain rfl : k = key := h
    exact .drop old
  case resolving.findConfigDocuments old scope agentId => exact .resolve old scope agentId
  case resolved.getDocument old k =>
    obtain rfl : k = key := h
    exact moves_read nofun fun doc hdoc => .readUnchanged old doc hdoc
  case resolved.latestVersion old k =>
    obtain rfl : k = key := h
    show Moves env k s (resolved old) _
      (if (s.versions k).getLast?.map (·.contentHash) = some (env.contentSha256 old) then
        secured old else unsaved old)
    split_ifs with hlatest
    · obtain ⟨version, hversion, hhash⟩ := Option.map_eq_some_iff.mp hlatest
      exact .same old version hversion hhash
    · exact .differs old
  case resolved.updateDocument old k new =>
    obtain rfl : k = key := h
    exact .storeUnsaved old new
  case unsaved.saveVersion old k content hash changedBy =>
    obtain ⟨rfl, rfl⟩ := h
    exact .save content hash changedBy
  case secured.updateDocument old k new =>
    obtain rfl : k = key := h
    exact .storeSaved old new
  case stored.getDocument k =>
    obtain rfl : k = key := h
    exact moves_read nofun fun doc hdoc => .readStored doc hdoc
  case held.getDocument text k =>
    obtain rfl : k = key := h
    exact moves_reread text
  case held.deleteChunks text k =>
    obtain rfl : k = key := h
    exact .unindex text
  case held.embed text chunk => exact .embed text chunk
  case confirmed.replaceChunks text k chunks =>
    obtain ⟨rfl, rfl⟩ := h
    exact .index text
  case cleared.updateDocument k new =>
    obtain rfl : k = key := h
    exact .storeCleared new
  case finished.getDocument k =>
    obtain rfl : k = key := h
    exact .fetch

end Phase

section Steps

variable {env : StorageEnv} {key : DocKey} {p p' : WritePool env key} {action : WriteAction}

/-- Every call under way follows the protocol from its phase on. -/
def Following (p : WritePool env key) : Prop := ∀ t ∈ p.tasks, t.Follows Ended

/-- The call at a place is over, or makes a storage call that its phase allows. -/
inductive Stepped (p p' : WritePool env key) (front : List (WriteTask env key))
    (t : WriteTask env key) (back : List (WriteTask env key)) : Prop where
  | ended (r : Except WorkspaceError Unit) (hprogram : t.program = .done r)
      (hended : Ended t.phase r) (hpool : p' = ⟨p.shared.ended r, front ++ back⟩)
  | served (c : StorageCall) (rest : c.Answer → Prog Unit) (t' : WriteTask env key)
      (hprogram : t.program = .call c rest)
      (hmoves : Phase.Moves env key p.shared.storage t.phase c t'.phase)
      (hfollows : t'.Follows Ended)
      (hpool : p' = ⟨(p.shared.serve c).2, front ++ t' :: back⟩)

theorem writeStep_cases (hp : Following p) (h : writeStep env key p action = some p') :
    (∃ c, action = .call c ∧ c.About key ∧ p' = p.start ⟨Phase.idle, c.program env⟩) ∨
      ∃ i front t back, action = .step i ∧ p.tasks[i]? = some t ∧
        p.tasks = front ++ t :: back ∧ front.length = i ∧ Stepped p p' front t back := by
  cases action with
  | call c =>
    rw [writeStep] at h
    split_ifs at h with habout
    cases h
    exact .inl ⟨c, rfl, habout, rfl⟩
  | step i =>
    obtain ⟨front, t, back, host, ts, htasks, hlength, hnext, rfl⟩ :=
      Pool.advance_eq_some_iff.mp h
    have ht : t ∈ p.tasks := htasks ▸ Pool.mem_split_iff.mpr (.inl rfl)
    have hget : p.tasks[i]? = some t := by
      rw [htasks, ← hlength]
      simp
    refine .inr ⟨i, front, t, back, rfl, hget, htasks, hlength, ?_⟩
    rcases Running.next_cases hnext (hp t ht) with
      ⟨r, hprogram, hended, rfl, rfl⟩ | ⟨c, rest, hprogram, hallowed, rfl, rfl, hfollows⟩
    · exact .ended r hprogram hended (by rw [List.append_nil])
    · refine .served c rest ⟨_, _⟩ hprogram (Phase.moves_of_allows hallowed) hfollows ?_
      rw [List.append_assoc, List.singleton_append]
      rfl

theorem following_step (hp : Following p) (h : writeStep env key p action = some p') :
    Following p' := by
  rcases writeStep_cases hp h with
    ⟨c, rfl, habout, rfl⟩ | ⟨i, front, t, back, rfl, -, htasks, -, hstep⟩
  · intro t ht
    rcases List.mem_append.mp ht with ht | ht
    · exact hp t ht
    · rw [List.mem_singleton.mp ht]
      exact follows_program env habout
  · have hkept : ∀ u ∈ front ++ back, u.Follows Ended :=
      fun u hu => hp u (Pool.mem_of_split htasks hu)
    cases hstep with
    | ended r hprogram hended hpool =>
      rw [hpool]
      exact hkept
    | served c rest t' hprogram hmoves hfollows hpool =>
      rw [hpool]
      intro u hu
      rcases Pool.mem_split_iff.mp hu with rfl | hu
      · exact hfollows
      · exact hkept u hu

end Steps

section Serve

variable {key : DocKey} {c : StorageCall} {s : Storage}

theorem lookup_of_text_ne_nil (h : s.text key ≠ []) : ∃ doc, s.docs.lookup key = some doc := by
  rw [Storage.text, Documents.text] at h
  cases hdoc : s.docs.lookup key with
  | some doc => exact ⟨doc, rfl⟩
  | none =>
    rw [hdoc] at h
    exact absurd rfl h

theorem text_eq_content {doc : MemoryDocument} (h : s.docs.lookup key = some doc) :
    s.text key = doc.content := by
  rw [Storage.text, Documents.text, h]

theorem text_serve (h : ∀ new, c ≠ .updateDocument key new) :
    (serve c s).2.text key = s.text key := by
  cases c with
  | getOrCreateDocument k => exact text_created
  | updateDocument k new =>
    have hne : key ≠ k := fun hkey => h new (congrArg (StorageCall.updateDocument · new) hkey.symm)
    show (s.docs.store k new).text key = s.docs.text key
    rw [Documents.text, Documents.text, lookup_store_of_ne hne]
  | _ => rfl

theorem text_serve_update {doc : MemoryDocument} (h : s.docs.lookup key = some doc) (new : Text) :
    (serve (.updateDocument key new) s).2.text key = new :=
  text_store h

theorem saved_serve : s.saved key ⊆ (serve c s).2.saved key := by
  cases c with
  | saveVersion k content hash changedBy =>
    show _ ⊆ List.map _ (if key = k then s.versions k ++ [_] else s.versions key)
    split_ifs with hkey
    · rw [← hkey, List.map_append]
      exact List.subset_append_left _ _
    · exact List.Subset.refl _
  | _ => exact List.Subset.refl _

theorem mem_saved_serve (content : Text) (hash : String) (changedBy : Option Scope) :
    content ∈ (serve (.saveVersion key content hash changedBy) s).2.saved key := by
  show content ∈ List.map _ (if key = key then s.versions key ++ [_] else s.versions key)
  rw [if_pos rfl, List.map_append]
  exact List.mem_append_right _ (List.mem_singleton.mpr rfl)

end Serve

end IronClaw.Memory
