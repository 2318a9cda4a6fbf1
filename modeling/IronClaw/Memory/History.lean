import IronClaw.Memory.Phases
import IronClaw.Memory.Rejection

/-!
# The history of a document

A call saves the content that it has read before it overwrites the document. What it overwrites may
be another call's, which is in no version. Nothing is lost as long as each update replaces what its
call has read, and no two contents have the same hash.
-/

namespace IronClaw.Memory

open Foundation (Along Pool Program Text run run_append run_invariant)

section History

variable {env : StorageEnv} {key : DocKey}

/-- The content that the document had in `s` is empty, or is its content or in a version in `s'`. -/
def Kept (key : DocKey) (s s' : Storage) : Prop :=
  s.text key = [] ∨ s.text key = s'.text key ∨ s.text key ∈ s'.saved key

instance (key : DocKey) (s s' : Storage) : Decidable (Kept key s s') :=
  inferInstanceAs (Decidable (_ ∨ _ ∨ _))

theorem Kept.refl (s : Storage) : Kept key s s := .inr (.inl rfl)

/-- The content that a call has read, until it stores another one. -/
def Phase.old : Phase → Option Text
  | opened old | resolving old | resolved old | unsaved old | secured old => some old
  | _ => none

/-- The latest version has the hash only of what the call has read. An update replaces what was read
and secured, or needs no version. -/
def StorageCall.Preserves (env : StorageEnv) (key : DocKey) (s : Storage) (phase : Phase) :
    StorageCall → Prop
  | latestVersion _ => ∀ old ∈ phase.old, ∀ version ∈ (s.versions key).getLast?,
      version.contentHash = env.contentSha256 old → version.content = old
  | updateDocument _ new => phase = .secured (s.text key) ∨ s.text key = [] ∨ s.text key = new ∨
      s.text key ∈ s.saved key
  | _ => True

instance (s : Storage) (phase : Phase) (c : StorageCall) :
    Decidable (c.Preserves env key s phase) :=
  match c with
  | .latestVersion _ => inferInstanceAs (Decidable (∀ old ∈ phase.old, ∀ version ∈ _, _))
  | .updateDocument .. => inferInstanceAs (Decidable (_ ∨ _ ∨ _ ∨ _))
  | .getDocument _ | .getOrCreateDocument _ | .findConfigDocuments .. | .saveVersion ..
  | .deleteChunks _ | .replaceChunks .. | .embed _ => .isTrue trivial

def Preserving (p : WritePool env key) : WriteAction → Prop
  | .step i => ∀ t ∈ p.tasks[i]?, ∀ c ∈ t.program.next, c.Preserves env key p.shared.storage t.phase
  | .call _ => True

instance (p : WritePool env key) (action : WriteAction) : Decidable (Preserving p action) :=
  match action with
  | .step i => inferInstanceAs (Decidable (∀ t ∈ p.tasks[i]?, ∀ c ∈ t.program.next,
      c.Preserves env key p.shared.storage t.phase))
  | .call _ => .isTrue trivial

structure Secured (p : WritePool env key) : Prop where
  following : Following p
  saved : ∀ t ∈ p.tasks, ∀ old, t.phase = Phase.secured old → old ∈ p.shared.storage.saved key

variable {s : Storage} {c : StorageCall} {phase : Phase}

theorem mem_saved_of_latest {version : DocumentVersion}
    (h : (s.versions key).getLast? = some version) : version.content ∈ s.saved key :=
  List.mem_map.mpr ⟨version, List.mem_of_getLast? h, rfl⟩

theorem saved_of_secured {phase' : Phase} {old : Text} (hmoves : phase.Moves env key s c phase')
    (hpreserves : c.Preserves env key s phase) (hsecured : phase' = .secured old) :
    old ∈ (serve c s).2.saved key := by
  cases hmoves with
  | same old' version hlatest hhash =>
    cases hsecured
    -- the version with the same hash has the same content
    rw [← hpreserves old rfl version hlatest hhash]
    exact mem_saved_of_latest hlatest
  | save old' hash changedBy =>
    cases hsecured
    exact mem_saved_serve old hash changedBy
  | _ => cases hsecured

theorem Kept.serve {s₀ : Storage} (h : Kept key s₀ s) (hpreserves : c.Preserves env key s phase)
    (hsecured : ∀ old, phase = .secured old → old ∈ s.saved key) :
    Kept key s₀ (Memory.serve c s).2 := by
  have hsaved : s.saved key ⊆ (Memory.serve c s).2.saved key := saved_serve
  by_cases hupdate : ∃ new, c = .updateDocument key new
  · obtain ⟨new, rfl⟩ := hupdate
    rcases h with h | h | h
    · exact .inl h
    · by_cases hempty : s.text key = []
      · exact .inl (h.trans hempty)
      · -- the content that is replaced
        obtain ⟨doc, hdoc⟩ := lookup_of_text_ne_nil hempty
        rcases hpreserves with hphase | hnil | hsame | hmem
        · exact .inr (.inr (h ▸ hsaved (hsecured _ hphase)))
        · exact absurd hnil hempty
        · exact .inr (.inl (h.trans (hsame.trans (text_serve_update hdoc new).symm)))
        · exact .inr (.inr (h ▸ hsaved hmem))
    · exact .inr (.inr (hsaved h))
  · have htext : (Memory.serve c s).2.text key = s.text key :=
      text_serve fun new hc => hupdate ⟨new, hc⟩
    rcases h with h | h | h
    · exact .inl h
    · exact .inr (.inl (h.trans htext.symm))
    · exact .inr (.inr (hsaved h))

variable {p p' : WritePool env key} {action : WriteAction}

theorem secured_step (hp : Secured p) (hc : Preserving p action)
    (h : writeStep env key p action = some p') : Secured p' := by
  refine ⟨following_step hp.following h, ?_⟩
  rcases writeStep_cases hp.following h with
    ⟨c, rfl, habout, rfl⟩ | ⟨i, front, t, back, rfl, hget, htasks, -, hstep⟩
  · intro t ht old hphase
    rcases List.mem_append.mp ht with ht | ht
    · exact hp.saved t ht old hphase
    · rw [List.mem_singleton.mp ht] at hphase
      cases hphase
  · have hother : ∀ u ∈ front ++ back, ∀ old, u.phase = Phase.secured old →
        old ∈ p.shared.storage.saved key :=
      fun u hu => hp.saved u (Pool.mem_of_split htasks hu)
    cases hstep with
    | ended r hprogram hended hpool =>
      rw [hpool]
      exact hother
    | served c rest t' hprogram hmoves hfollows hpool =>
      rw [hpool]
      intro u hu old hold
      rcases Pool.mem_split_iff.mp hu with rfl | hu
      · exact saved_of_secured hmoves (hc t hget c (Program.next_eq_some hprogram)) hold
      · exact saved_serve (hother u hu old hold)

theorem kept_step {s₀ : Storage} (hp : Secured p) (h₀ : Kept key s₀ p.shared.storage)
    (hc : Preserving p action) (h : writeStep env key p action = some p') :
    Kept key s₀ p'.shared.storage := by
  rcases writeStep_cases hp.following h with
    ⟨c, rfl, habout, rfl⟩ | ⟨i, front, t, back, rfl, hget, htasks, -, hstep⟩
  · exact h₀
  · cases hstep with
    | ended r hprogram hended hpool =>
      rw [hpool]
      exact h₀
    | served c rest t' hprogram hmoves hfollows hpool =>
      rw [hpool]
      exact h₀.serve (hc t hget c (Program.next_eq_some hprogram))
        (hp.saved t (htasks ▸ Pool.mem_split_iff.mpr (.inl rfl)))

/-- **In a run whose steps preserve** what they overwrite, each content is kept, in a version unless
it is empty. -/
theorem kept_of_preserving {q : WritePool env key} {as front : List WriteAction}
    (hidle : p.tasks = []) (h : run (writeStep env key) p as = some q)
    (hc : Along (writeStep env key) Preserving p as) (hfront : front <+: as)
    (h' : run (writeStep env key) p front = some p') :
    Kept key p'.shared.storage q.shared.storage := by
  obtain ⟨later, rfl⟩ := hfront
  rw [run_append, h', Option.bind_some] at h
  obtain ⟨hbefore, hafter⟩ := Along.append_iff.mp hc
  have hstart : Secured p :=
    ⟨fun t ht => by simp [hidle] at ht, fun t ht => by simp [hidle] at ht⟩
  have hmiddle : Secured p' :=
    run_invariant (fun _ _ _ hp hc h => secured_step hp hc h) hstart hbefore h'
  -- from there on, the content of the moment is kept
  have hend : Secured q ∧ Kept key p'.shared.storage q.shared.storage :=
    run_invariant (I := fun q => Secured q ∧ Kept key p'.shared.storage q.shared.storage)
      (fun _ _ _ hp hc h => ⟨secured_step hp.1 hc h, kept_step hp.1 hp.2 hc h⟩)
      ⟨hmiddle, Kept.refl _⟩ (hafter p' h') h
  exact hend.2

end History

def notesKey : DocKey := typedWorkspace.key "notes.md".toList

def notesStorage : Storage where
  docs := (∅ : Documents).insert notesKey ⟨"x".toList, .obj []⟩
  versions := fun _ => []
  chunks := fun _ => []

def notesPool : WritePool plainEnv notesKey := ⟨⟨notesStorage, []⟩, []⟩

def writeNotes (content : String) : WriteAction :=
  .call (.write typedWorkspace "notes.md".toList content.toList)

def writesInTurn : List WriteAction :=
  (writeNotes "a" :: List.replicate 11 (.step 0)) ++ writeNotes "b" :: List.replicate 11 (.step 0)

/-- Two writes that have both read the document before the first one stores its content. -/
def racingWrites : List WriteAction :=
  [writeNotes "a", writeNotes "b", .step 0, .step 1] ++ List.replicate 10 (.step 0) ++
    List.replicate 9 (.step 0)

theorem kept_in_turn : ∃ p q, run (writeStep plainEnv notesKey) notesPool
      (writeNotes "a" :: List.replicate 11 (.step 0)) = some p ∧
    run (writeStep plainEnv notesKey) notesPool writesInTurn = some q ∧
    p.shared.storage.text notesKey = "a".toList ∧ q.shared.storage.text notesKey = "b".toList ∧
    Kept notesKey p.shared.storage q.shared.storage := by
  obtain ⟨p, hp, hpText⟩ : ∃ p, run (writeStep plainEnv notesKey) notesPool
      (writeNotes "a" :: List.replicate 11 (.step 0)) = some p ∧
      p.shared.storage.text notesKey = "a".toList := ⟨_, rfl, rfl⟩
  obtain ⟨q, hq, hqText⟩ : ∃ q, run (writeStep plainEnv notesKey) notesPool writesInTurn = some q ∧
      q.shared.storage.text notesKey = "b".toList := ⟨_, rfl, rfl⟩
  refine ⟨p, q, hp, hq, hpText, hqText, kept_of_preserving rfl hq ?_ (List.prefix_append _ _) hp⟩
  decide +kernel

/-- Of two racing writes, the second overwrites the first one's content. Both are `Ok`. -/
theorem content_lost : ∃ p q, run (writeStep plainEnv notesKey) notesPool
      (racingWrites.take 14) = some p ∧
    run (writeStep plainEnv notesKey) notesPool racingWrites = some q ∧ q.tasks = [] ∧
    q.shared.results = [.ok (), .ok ()] ∧ p.shared.storage.text notesKey = "a".toList ∧
    q.shared.storage.text notesKey = "b".toList ∧ q.shared.storage.saved notesKey = ["x".toList] ∧
    ¬Kept notesKey p.shared.storage q.shared.storage := by
  refine ⟨_, _, rfl, rfl, rfl, rfl, rfl, rfl, rfl, ?_⟩
  decide +kernel

end IronClaw.Memory
