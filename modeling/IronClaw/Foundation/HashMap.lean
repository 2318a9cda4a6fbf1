import Mathlib.Data.List.AList

/-!
# Finite maps

A hash map is an association list without duplicate keys; its order stands for the order the map
happens to iterate in.
-/

namespace IronClaw.Foundation

abbrev HashMap (K V : Type*) := AList fun _ : K => V

namespace HashMap

variable {K V : Type*} [DecidableEq K]

variable (m : HashMap K V)

theorem lookup_insert (k k' : K) (v : V) :
    (m.insert k v).lookup k' = if k' = k then some v else m.lookup k' := by
  split_ifs with h
  · rw [h, AList.lookup_insert]
  · rw [AList.lookup_insert_ne h]

theorem lookup_erase (k k' : K) : (m.erase k).lookup k' = if k' = k then none else m.lookup k' := by
  split_ifs with h
  · rw [h, AList.lookup_erase]
  · rw [AList.lookup_erase_ne h]

theorem mem_iff_exists_lookup {m : HashMap K V} {k : K} : k ∈ m ↔ ∃ v, m.lookup k = some v := by
  rw [← AList.lookup_isSome, Option.isSome_iff_exists]

/-- The keys whose entry passes a test, in iteration order. -/
def keysWhere (m : HashMap K V) (p : K → V → Bool) : List K :=
  (m.entries.filter fun e => p e.1 e.2).map Sigma.fst

theorem mem_keysWhere {m : HashMap K V} {p : K → V → Bool} {k : K} :
    k ∈ keysWhere m p ↔ ∃ v, m.lookup k = some v ∧ p k v = true := by
  simp only [keysWhere, List.mem_map, List.mem_filter]
  constructor
  · rintro ⟨⟨k', v⟩, ⟨he, hp⟩, rfl⟩
    exact ⟨v, AList.mem_lookup_iff.mpr he, hp⟩
  · rintro ⟨v, hv, hp⟩
    exact ⟨⟨k, v⟩, ⟨AList.mem_lookup_iff.mp hv, hp⟩, rfl⟩

omit [DecidableEq K] in
theorem nodup_keysWhere (p : K → V → Bool) : (keysWhere m p).Nodup :=
  (List.filter_sublist.map Sigma.fst).nodup m.nodupKeys

def values (m : HashMap K V) : List V := m.entries.map Sigma.snd

omit [DecidableEq K] in
theorem nodupKeys_of_map {m : HashMap K V} {f : (Σ _ : K, V) → Σ _ : K, V}
    (hf : ∀ e, (f e).1 = e.1) : (m.entries.map f).NodupKeys := by
  have hkeys : (m.entries.map f).keys = m.entries.keys := by
    simp only [List.keys, List.map_map]
    exact List.map_congr_left fun e _ => hf e
  rw [List.NodupKeys, hkeys]
  exact m.nodupKeys

def adjust (m : HashMap K V) (k : K) (f : V → V) : HashMap K V where
  entries := m.entries.map fun e => ⟨e.1, if e.1 = k then f e.2 else e.2⟩
  nodupKeys := nodupKeys_of_map fun _ => rfl

def retain (m : HashMap K V) (p : K → V → Bool) : HashMap K V where
  entries := m.entries.filter fun e => p e.1 e.2
  nodupKeys := m.nodupKeys.sublist List.filter_sublist

theorem mem_values {m : HashMap K V} {v : V} : v ∈ values m ↔ ∃ k, m.lookup k = some v := by
  simp only [values, List.mem_map, Sigma.exists, exists_eq_right]
  exact exists_congr fun k => AList.mem_lookup_iff.symm

theorem lookup_adjust (k k' : K) (f : V → V) :
    (adjust m k f).lookup k' = if k' = k then (m.lookup k').map f else m.lookup k' := by
  ext v
  rw [← Option.mem_def, AList.mem_lookup_iff]
  simp only [adjust, List.mem_map, Sigma.mk.injEq, heq_eq_eq]
  constructor
  · rintro ⟨⟨k₁, v₁⟩, hmem, rfl, rfl⟩
    have hv₁ : m.lookup k₁ = some v₁ := AList.mem_lookup_iff.mpr hmem
    split_ifs with hk
    · rw [hv₁]
      rfl
    · exact hv₁
  · intro h
    split_ifs at h with hk
    · obtain ⟨v₁, hv₁, rfl⟩ := Option.map_eq_some_iff.mp h
      exact ⟨⟨k', v₁⟩, AList.mem_lookup_iff.mp hv₁, rfl, if_pos hk⟩
    · exact ⟨⟨k', v⟩, AList.mem_lookup_iff.mp h, rfl, if_neg hk⟩

theorem lookup_retain (p : K → V → Bool) (k : K) :
    (retain m p).lookup k = (m.lookup k).filter (p k) := by
  ext v
  rw [← Option.mem_def, AList.mem_lookup_iff, Option.filter_eq_some_iff]
  simp only [retain, List.mem_filter]
  exact and_congr_left fun _ => AList.mem_lookup_iff.symm

theorem countP_values_erase_le (k : K) (p : V → Bool) :
    (values (m.erase k)).countP p ≤ (values m).countP p :=
  ((List.kerase_sublist k m.entries).map Sigma.snd).countP_le

theorem countP_values_insert_le (k : K) (v : V) (p : V → Bool) :
    (values (m.insert k v)).countP p ≤ (values m).countP p + 1 := by
  have herase := countP_values_erase_le m k p
  have hentries : (m.insert k v).entries = ⟨k, v⟩ :: (m.erase k).entries := by
    rw [AList.entries_insert]
    rfl
  rw [values, hentries, List.map_cons, List.countP_cons]
  show (values (m.erase k)).countP p + _ ≤ _
  split <;> omega

theorem countP_values_adjust_le (k : K) (f : V → V) {p : V → Bool} (hf : ∀ v, p (f v) → p v) :
    (values (adjust m k f)).countP p ≤ (values m).countP p := by
  simp only [values, adjust, List.map_map, List.countP_map]
  refine List.countP_mono_left fun e _ he => ?_
  simp only [Function.comp_apply] at he ⊢
  split_ifs at he with hk
  · exact hf e.2 he
  · exact he

theorem countP_values_insert_of_not_mem {m : HashMap K V} {k : K} (h : k ∉ m) (v : V)
    (p : V → Bool) :
    (values (m.insert k v)).countP p = (values m).countP p + if p v then 1 else 0 := by
  rw [values, AList.entries_insert_of_notMem h, List.map_cons, List.countP_cons]
  rfl

theorem adjust_insert (k : K) (v : V) (f : V → V) :
    adjust (m.insert k v) k f = m.insert k (f v) := by
  apply AList.ext
  have hother : ∀ e ∈ (m.erase k).entries,
      (⟨e.1, if e.1 = k then f e.2 else e.2⟩ : Σ _ : K, V) = e := by
    intro e he
    have hne : e.1 ≠ k := by
      rintro rfl
      exact absurd (List.mem_keys_of_mem he) (AList.mem_erase.not.mpr (by simp))
    rw [if_neg hne]
  have hentries : ∀ w, (m.insert k w).entries = ⟨k, w⟩ :: (m.erase k).entries := fun w => by
    rw [AList.entries_insert]
    rfl
  simp only [adjust, hentries, List.map_cons, if_true]
  rw [List.map_congr_left hother, List.map_id']

section Gather

variable {key : V → K} {absorb : V → V → V}

/-- A value put under its key. A value that is there already absorbs it. -/
def absorbInto (key : V → K) (absorb : V → V → V) (m : HashMap K V) (v : V) : HashMap K V :=
  match m.lookup (key v) with
  | some w => m.insert (key v) (absorb w v)
  | none => m.insert (key v) v

def gather (key : V → K) (absorb : V → V → V) (vs : List V) : HashMap K V :=
  vs.foldl (absorbInto key absorb) ∅

theorem lookup_absorbInto (m : HashMap K V) (v : V) (k : K) :
    (absorbInto key absorb m v).lookup k =
      if k = key v then some (match m.lookup (key v) with | some w => absorb w v | none => v)
      else m.lookup k := by
  rw [absorbInto]
  split <;> rw [lookup_insert]

theorem key_of_lookup_gather (hkey : ∀ w v, key (absorb w v) = key w) {vs : List V} {k : K} {w : V}
    (h : (gather key absorb vs).lookup k = some w) : key w = k ∧ ∃ v ∈ vs, key v = k := by
  suffices hfold : ∀ m : HashMap K V, (∀ k w, m.lookup k = some w → key w = k) →
      (vs.foldl (absorbInto key absorb) m).lookup k = some w →
      key w = k ∧ (k ∈ m ∨ ∃ v ∈ vs, key v = k) by
    obtain ⟨hw, hmem | hmem⟩ := hfold ∅ nofun h
    · exact absurd hmem (AList.notMem_empty k)
    · exact ⟨hw, hmem⟩
  clear h
  induction vs with
  | nil => exact fun m hm h => ⟨hm k w h, .inl (mem_iff_exists_lookup.mpr ⟨w, h⟩)⟩
  | cons v vs ih =>
    intro m hm h
    have hm' : ∀ k w, (absorbInto key absorb m v).lookup k = some w → key w = k := by
      intro k w hlookup
      rw [lookup_absorbInto] at hlookup
      split_ifs at hlookup with hk
      · rw [hk, ← Option.some.inj hlookup]
        split
        · next w' hw' => rw [hkey, hm _ _ hw']
        · rfl
      · exact hm k w hlookup
    obtain ⟨hw, hmem | ⟨v', hv', heq⟩⟩ := ih _ hm' h
    · refine ⟨hw, ?_⟩
      obtain ⟨w', hw'⟩ := mem_iff_exists_lookup.mp hmem
      rw [lookup_absorbInto] at hw'
      split_ifs at hw' with hk
      · exact .inr ⟨v, List.mem_cons_self, hk.symm⟩
      · exact .inl (mem_iff_exists_lookup.mpr ⟨w', hw'⟩)
    · exact ⟨hw, .inr ⟨v', List.mem_cons_of_mem v hv', heq⟩⟩

/-- A relation holds of what is gathered under a key, if absorbing keeps it and adds the value
absorbed. -/
theorem lookup_gather_of_mem {P : V → Prop} {R : V → V → Prop} (hrefl : ∀ v, R v v)
    (hP : ∀ w v, P w → P v → P (absorb w v))
    (hkeep : ∀ w v, P w → P v → ∀ u, R u w → R u (absorb w v))
    (hadd : ∀ w v, P w → P v → R v (absorb w v)) {vs : List V} (hvs : ∀ v ∈ vs, P v) {v : V}
    (hv : v ∈ vs) : ∃ w, (gather key absorb vs).lookup (key v) = some w ∧ R v w := by
  suffices hfold : ∀ m : HashMap K V, (∀ k w, m.lookup k = some w → P w) →
      (∃ w, m.lookup (key v) = some w ∧ R v w) ∨ v ∈ vs →
      ∃ w, (vs.foldl (absorbInto key absorb) m).lookup (key v) = some w ∧ R v w from
    hfold ∅ nofun (.inr hv)
  clear hv
  induction vs with
  | nil =>
    rintro m - (h | h)
    · exact h
    · cases h
  | cons u us ih =>
    intro m hm h
    have hu : P u := hvs u List.mem_cons_self
    refine ih (fun v hv => hvs v (List.mem_cons_of_mem u hv)) _ ?_ ?_
    · intro k w hw
      rw [lookup_absorbInto] at hw
      split_ifs at hw with hk
      · rw [← Option.some.inj hw]
        split
        · next w' hw' => exact hP w' u (hm _ _ hw') hu
        · exact hu
      · exact hm k w hw
    · rw [lookup_absorbInto]
      rcases h with ⟨w, hw, hR⟩ | h
      · left
        split_ifs with hk
        · rw [← hk, hw]
          exact ⟨_, rfl, hkeep w u (hm _ _ hw) hu v hR⟩
        · exact ⟨w, hw, hR⟩
      · rcases List.mem_cons.mp h with rfl | hmem
        · rw [if_pos rfl]
          refine .inl ⟨_, rfl, ?_⟩
          split
          · next w hw => exact hadd w v (hm _ _ hw) hu
          · exact hrefl v
        · exact .inr hmem

end Gather

end HashMap

end IronClaw.Foundation
