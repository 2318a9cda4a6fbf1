import IronClaw.Memory.History

/-!
# The search index of a document

A call reads its document again before it replaces the chunks. In between another call can store and
index a content, and the chunks of the earlier one then stay.
-/

namespace IronClaw.Memory

open Foundation (Along Pool Program run run_cons_eq_some run_invariant)

section SearchIndex

variable {env : StorageEnv} {key : DocKey}

/-- A call in this phase puts the content's chunks, unless it fails or that changes. -/
def Phase.Pending (key : DocKey) (s : Storage) : Phase → Prop
  | held text | confirmed text => text = s.text key
  | cleared | finished => False
  | idle | opened _ | resolving _ | resolved _ | unsaved _ | secured _ | stored => True

instance (s : Storage) (phase : Phase) : Decidable (phase.Pending key s) :=
  match phase with
  | .held _ | .confirmed _ => inferInstanceAs (Decidable (_ = _))
  | .cleared | .finished => .isFalse id
  | .idle | .opened _ | .resolving _ | .resolved _ | .unsaved _ | .secured _ | .stored =>
    .isTrue trivial

def SomePending (s : Storage) (ts : List (WriteTask env key)) : Prop :=
  ∃ t ∈ ts, Phase.Pending key s t.phase

instance (s : Storage) (ts : List (WriteTask env key)) : Decidable (SomePending s ts) :=
  inferInstanceAs (Decidable (∃ t ∈ ts, Phase.Pending key s t.phase))

/-- The document is indexed, and if its chunks are replaced by others, another call is pending. -/
def StorageCall.Indexes (s : Storage) (others : List (WriteTask env key)) : StorageCall → Prop
  | deleteChunks _ => False
  | replaceChunks _ chunks => chunks = chunkDocument (s.text key) ∨ SomePending s others
  | _ => True

instance (s : Storage) (others : List (WriteTask env key)) (c : StorageCall) :
    Decidable (c.Indexes s others) :=
  match c with
  | .deleteChunks _ => .isFalse id
  | .replaceChunks .. => inferInstanceAs (Decidable (_ ∨ _))
  | .getDocument _ | .getOrCreateDocument _ | .findConfigDocuments .. | .latestVersion _
  | .saveVersion .. | .updateDocument .. | .embed _ => .isTrue trivial

def Indexing (p : WritePool env key) : WriteAction → Prop
  | .step i => ∀ t ∈ p.tasks[i]?, ∀ c ∈ t.program.next, c.Indexes p.shared.storage (p.others i)
  | .call _ => True

instance (p : WritePool env key) (action : WriteAction) : Decidable (Indexing p action) :=
  match action with
  | .step i => inferInstanceAs (Decidable (∀ t ∈ p.tasks[i]?, ∀ c ∈ t.program.next,
      c.Indexes p.shared.storage (p.others i)))
  | .call _ => .isTrue trivial

def Storage.Indexed (key : DocKey) (s : Storage) : Prop :=
  s.chunks key = chunkDocument (s.text key)

variable {s s' : Storage} {c : StorageCall} {phase : Phase}

theorem Phase.Pending.of_text (h : phase.Pending key s) (htext : s'.text key = s.text key) :
    phase.Pending key s' := by
  cases phase with
  | held text => exact Eq.trans h htext.symm
  | confirmed text => exact Eq.trans h htext.symm
  | _ => exact h

theorem SomePending.of_text {ts : List (WriteTask env key)} (h : SomePending s ts)
    (htext : s'.text key = s.text key) : SomePending s' ts := by
  obtain ⟨t, ht, hpending⟩ := h
  exact ⟨t, ht, hpending.of_text htext⟩

theorem chunks_serve (hdelete : c ≠ .deleteChunks key)
    (hreplace : ∀ chunks, c ≠ .replaceChunks key chunks) :
    (serve c s).2.chunks key = s.chunks key := by
  cases c with
  | deleteChunks k => exact if_neg fun h => hdelete (congrArg _ h.symm)
  | replaceChunks k chunks =>
    exact if_neg fun h => hreplace chunks (congrArg (StorageCall.replaceChunks · chunks) h.symm)
  | _ => rfl

theorem isSome_serve (h : (s.docs.lookup key).isSome) : ((serve c s).2.docs.lookup key).isSome := by
  cases c with
  | getOrCreateDocument k =>
    show ((s.docs.created k).lookup key).isSome
    by_cases hkey : key = k
    · obtain ⟨doc, -, hlookup, -⟩ := exec_getOrCreate k s.docs
      rw [hkey, hlookup]
      rfl
    · rw [lookup_created_of_ne hkey]
      exact h
  | updateDocument k new =>
    show ((s.docs.store k new).lookup key).isSome
    by_cases hkey : key = k
    · rw [← hkey]
      exact isSome_lookup_store h new
    · rw [lookup_store_of_ne hkey]
      exact h
  | _ => exact h

theorem isSome_of_moves {phase' : Phase} (hmoves : phase.Moves env key s c phase')
    (hbefore : phase = .idle ∨ (s.docs.lookup key).isSome) :
    phase' = .idle ∨ ((serve c s).2.docs.lookup key).isSome := by
  rcases hbefore with rfl | hbefore
  · cases hmoves with
    | missing h => exact .inl rfl
    | «open» doc h => exact .inr (Option.isSome_iff_exists.mpr ⟨doc, h⟩)
    | create old =>
      obtain ⟨doc, -, hlookup, -⟩ := exec_getOrCreate key s.docs
      exact .inr (Option.isSome_iff_exists.mpr ⟨doc, hlookup⟩)
    | gone _ h hidle => exact absurd rfl hidle
  · exact .inr (isSome_serve hbefore)

theorem pending_of_moves {phase' : Phase} (hmoves : phase.Moves env key s c phase')
    (hpending : phase.Pending key s) (hthere : phase = .idle ∨ (s.docs.lookup key).isSome)
    (hdelete : c ≠ .deleteChunks key) (hreplace : ∀ chunks, c ≠ .replaceChunks key chunks)
    (hupdate : ∀ new, c ≠ .updateDocument key new) : phase'.Pending key s := by
  cases hmoves with
  | drop | unindex => exact absurd rfl hdelete
  | index text => exact absurd rfl (hreplace _)
  | storeUnsaved _ new | storeSaved _ new | storeCleared new => exact absurd rfl (hupdate new)
  | readUnchanged old doc h => exact (text_eq_content h).symm
  | readStored doc h => exact (text_eq_content h).symm
  | embed text chunk => exact hpending
  | confirm text doc h hhash => exact hpending
  | discard text doc h hhash =>
    -- what the call has read is what is there
    have htext : text = doc.content := Eq.trans hpending (text_eq_content h)
    exact absurd (by rw [htext]) hhash
  | gone _ h hidle =>
    have hsome := hthere.resolve_left hidle
    rw [h] at hsome
    cases hsome
  | fetch => exact hpending
  | _ => trivial

/-- No call under way has dropped the chunks; each found or created the document. -/
structure Standing (p : WritePool env key) : Prop where
  following : Following p
  there : ∀ t ∈ p.tasks, t.phase = Phase.idle ∨ (p.shared.storage.docs.lookup key).isSome
  uncleared : ∀ t ∈ p.tasks, t.phase ≠ Phase.cleared

/-- A call has failed, or the chunks are those of the content, or a call is pending. -/
structure Followed (p : WritePool env key) : Prop extends Standing p where
  index : (∃ e, .error e ∈ p.shared.results) ∨ p.shared.storage.Indexed key ∨
    SomePending p.shared.storage p.tasks

variable {p p' : WritePool env key} {action : WriteAction} {front back : List (WriteTask env key)}
  {t t' : WriteTask env key}

theorem SomePending.mono {ts us : List (WriteTask env key)} (h : SomePending s ts)
    (hsub : ts ⊆ us) : SomePending s us := by
  obtain ⟨t, ht, hpending⟩ := h
  exact ⟨t, hsub ht, hpending⟩

theorem followed_call {c : WriteCall} (hp : Standing p) (habout : c.About key) :
    Followed (p.start ⟨Phase.idle, c.program env⟩) := by
  have hmem : ∀ t ∈ (p.start (⟨Phase.idle, c.program env⟩ : WriteTask env key)).tasks,
      t ∈ p.tasks ∨ t = ⟨Phase.idle, c.program env⟩ := fun t ht =>
    (List.mem_append.mp ht).imp_right List.mem_singleton.mp
  refine ⟨⟨?_, ?_, ?_⟩, .inr (.inr ⟨_, List.mem_concat_self, trivial⟩)⟩
  · intro t ht
    rcases hmem t ht with ht | rfl
    · exact hp.following t ht
    · exact follows_program env habout
  · intro t ht
    rcases hmem t ht with ht | rfl
    · exact hp.there t ht
    · exact .inl rfl
  · intro t ht
    rcases hmem t ht with ht | rfl
    · exact hp.uncleared t ht
    · exact Phase.noConfusion

theorem followed_over (hp : Followed p) (htasks : p.tasks = front ++ t :: back)
    {r : Except WorkspaceError Unit} (hended : Ended t.phase r) :
    Followed ⟨p.shared.ended r, front ++ back⟩ := by
  have hkept : ∀ u ∈ front ++ back, u ∈ p.tasks := fun u hu => Pool.mem_of_split htasks hu
  refine ⟨⟨fun u hu => hp.following u (hkept u hu), fun u hu => hp.there u (hkept u hu),
    fun u hu => hp.uncleared u (hkept u hu)⟩, ?_⟩
  have hresults : p.shared.results ⊆ (p.shared.ended r).results := List.subset_append_left _ _
  cases r with
  | error e => exact .inl ⟨e, List.mem_append_right _ (List.mem_singleton.mpr rfl)⟩
  | ok u =>
    rcases hp.index with ⟨e, he⟩ | hindexed | ⟨v, hv, hpending⟩
    · exact .inl ⟨e, hresults he⟩
    · exact .inr (.inl hindexed)
    · rw [htasks] at hv
      rcases Pool.mem_split_iff.mp hv with rfl | hv
      · -- a pending call is not over
        have hover : Phase.Over v.phase := hended u rfl
        generalize v.phase = phase at hpending hover
        cases phase <;> first | exact hpending.elim | exact hover.elim
      · exact .inr (.inr ⟨v, hv, hpending⟩)

theorem index_served (hp : Followed p) (htasks : p.tasks = front ++ t :: back)
    (hmoves : Phase.Moves env key p.shared.storage t.phase c t'.phase)
    (hc : c.Indexes p.shared.storage (front ++ back)) :
    (∃ e, .error e ∈ p.shared.results) ∨ (serve c p.shared.storage).2.Indexed key ∨
      SomePending (serve c p.shared.storage).2 (front ++ t' :: back) := by
  have ht : t ∈ p.tasks := htasks ▸ Pool.mem_split_iff.mpr (.inl rfl)
  by_cases hupdate : ∃ new, c = .updateDocument key new
  · obtain ⟨new, rfl⟩ := hupdate
    -- who stores a content will index it
    refine .inr (.inr ⟨t', Pool.mem_split_iff.mpr (.inl rfl), ?_⟩)
    have huncleared := hp.uncleared t ht
    generalize t.phase = phase, t'.phase = phase' at hmoves huncleared
    cases hmoves with
    | storeUnsaved | storeSaved => trivial
    | storeCleared => exact absurd rfl huncleared
  have htext : (serve c p.shared.storage).2.text key = p.shared.storage.text key :=
    text_serve fun new hnew => hupdate ⟨new, hnew⟩
  have hothers : SomePending p.shared.storage (front ++ back) →
      SomePending (serve c p.shared.storage).2 (front ++ t' :: back) := fun hpending =>
    (hpending.of_text htext).mono fun u hu => Pool.mem_split_iff.mpr (.inr hu)
  by_cases hreplace : ∃ chunks, c = .replaceChunks key chunks
  · obtain ⟨chunks, rfl⟩ := hreplace
    rcases hc with hchunks | hpending
    · refine .inr (.inl ?_)
      rw [Storage.Indexed, htext, ← hchunks]
      exact if_pos rfl
    · exact .inr (.inr (hothers hpending))
  have hdelete : c ≠ .deleteChunks key := by
    rintro rfl
    exact hc
  have hnoReplace : ∀ chunks, c ≠ .replaceChunks key chunks := fun chunks h =>
    hreplace ⟨chunks, h⟩
  rcases hp.index with hfailed | hindexed | ⟨u, hu, hpending⟩
  · exact .inl hfailed
  · refine .inr (.inl ?_)
    rw [Storage.Indexed, htext, chunks_serve hdelete hnoReplace]
    exact hindexed
  · rw [htasks] at hu
    rcases Pool.mem_split_iff.mp hu with rfl | hu
    · refine .inr (.inr ⟨t', Pool.mem_split_iff.mpr (.inl rfl), ?_⟩)
      exact (pending_of_moves hmoves hpending (hp.there u ht) hdelete hnoReplace
        fun new hnew => hupdate ⟨new, hnew⟩).of_text htext
    · exact .inr (.inr (hothers ⟨u, hu, hpending⟩))

theorem ne_cleared_of_moves {phase' : Phase} (hmoves : phase.Moves env key s c phase')
    (hdelete : c ≠ .deleteChunks key) : phase' ≠ .cleared := by
  cases hmoves with
  | drop => exact absurd rfl hdelete
  | _ => exact Phase.noConfusion

theorem followed_step (hp : Followed p) (hc : Indexing p action)
    (h : writeStep env key p action = some p') : Followed p' := by
  have hfollowing := following_step hp.following h
  rcases writeStep_cases hp.following h with
    ⟨c, rfl, habout, rfl⟩ | ⟨i, front, t, back, rfl, hget, htasks, hlength, hstep⟩
  · exact followed_call hp.toStanding habout
  · have ht : t ∈ p.tasks := htasks ▸ Pool.mem_split_iff.mpr (.inl rfl)
    cases hstep with
    | ended r hprogram hended hpool =>
      rw [hpool]
      exact followed_over hp htasks hended
    | served c rest t' hprogram hmoves hfollows hpool =>
      have hindexes : c.Indexes p.shared.storage (front ++ back) :=
        Pool.others_eq htasks hlength ▸ hc t hget c (Program.next_eq_some hprogram)
      have hdelete : c ≠ .deleteChunks key := by
        rintro rfl
        exact hindexes
      rw [hpool] at hfollowing ⊢
      refine ⟨⟨hfollowing, ?_, ?_⟩, index_served hp htasks hmoves hindexes⟩
      · intro u hu
        rcases Pool.mem_split_iff.mp hu with rfl | hu
        · exact isSome_of_moves hmoves (hp.there t ht)
        · exact (hp.there u (Pool.mem_of_split htasks hu)).imp_right isSome_serve
      · intro u hu
        rcases Pool.mem_split_iff.mp hu with rfl | hu
        · exact ne_cleared_of_moves hmoves hdelete
        · exact hp.uncleared u (Pool.mem_of_split htasks hu)

/-- **After a run whose steps leave no stale chunks** the index follows the content once all calls
ended well. -/
theorem chunks_of_indexing {q : WritePool env key} {as : List WriteAction} (hidle : p.tasks = [])
    (hstart : p.shared.storage.Indexed key ∨ as ≠ [])
    (h : run (writeStep env key) p as = some q) (hc : Along (writeStep env key) Indexing p as)
    (hdone : q.tasks = []) (hok : ∀ r ∈ q.shared.results, r = .ok ()) :
    q.shared.storage.chunks key = chunkDocument (q.shared.storage.text key) := by
  have hstanding : Standing p := by
    constructor <;> intro t ht <;> rw [hidle] at ht <;> cases ht
  have hend : q.shared.storage.Indexed key ∨ Followed q := by
    cases as with
    | nil =>
      cases h
      exact .inl (hstart.resolve_right (not_not.mpr rfl))
    | cons action as =>
      obtain ⟨p₁, hfirst, hrest⟩ := run_cons_eq_some.mp h
      -- the first action is a call, which is pending
      have hfollowed : Followed p₁ := by
        rcases writeStep_cases hstanding.following hfirst with
          ⟨c, rfl, habout, rfl⟩ | ⟨i, front, t, back, rfl, hget, -⟩
        · exact followed_call hstanding habout
        · rw [hidle] at hget
          cases hget
      exact .inr (run_invariant (fun _ _ _ => followed_step) hfollowed (hc.2 p₁ hfirst) hrest)
  rcases hend with hindexed | hq
  · exact hindexed
  · rcases hq.index with ⟨e, he⟩ | hindexed | ⟨t, ht, -⟩
    · cases hok _ he
    · exact hindexed
    · rw [hdone] at ht
      cases ht

end SearchIndex

/-- The second write stores and indexes between the check and the replacement of the first one. -/
def overtakenWrites : List WriteAction :=
  writeNotes "a" :: List.replicate 8 (.step 0) ++ writeNotes "b" :: List.replicate 11 (.step 1) ++
    List.replicate 3 (.step 0)

theorem chunks_in_turn : ∃ q, run (writeStep plainEnv notesKey) notesPool writesInTurn = some q ∧
    q.shared.storage.chunks notesKey = chunkDocument (q.shared.storage.text notesKey) := by
  obtain ⟨q, hq, htasks, hresults⟩ : ∃ q, run (writeStep plainEnv notesKey) notesPool writesInTurn =
      some q ∧ q.tasks = [] ∧ q.shared.results = [.ok (), .ok ()] := ⟨_, rfl, rfl, rfl⟩
  refine ⟨q, hq, chunks_of_indexing rfl (.inr (List.cons_ne_nil _ _)) hq ?_ htasks ?_⟩
  · decide +kernel
  · rw [hresults]
    simp

/-- Both writes return `Ok`, and the chunks are those of a content no longer there. -/
theorem stale_chunks : ∃ q, run (writeStep plainEnv notesKey) notesPool overtakenWrites = some q ∧
    q.tasks = [] ∧ q.shared.results = [.ok (), .ok ()] ∧
    q.shared.storage.text notesKey = "b".toList ∧ q.shared.storage.chunks notesKey = ["a".toList] ∧
    q.shared.storage.chunks notesKey ≠ chunkDocument (q.shared.storage.text notesKey) := by
  refine ⟨_, rfl, rfl, rfl, rfl, rfl, ?_⟩
  decide +kernel

end IronClaw.Memory
