import IronClaw.Foundation.Rewriting
import IronClaw.Foundation.Splitting

/-!
# First occurrences

The first occurrence of a pattern is the one before which none begins. Whether one begins in a text
may depend on what follows the text.
-/

namespace IronClaw.Foundation.Text

open List (append_assoc cons_append cons_prefix_cons exists_cons_of_ne_nil infix_cons_iff infix_nil
  mem_cons prefix_append)

variable {pat front rest s : Text} {c x : Char}

/-- No occurrence of the pattern begins in the front of a text. -/
def Absent (pat : Text) : Text → Text → Prop
  | [], _ => True
  | c :: front, rest => ¬ pat <+: c :: (front ++ rest) ∧ Absent pat front rest

@[simp] theorem absent_nil (pat rest : Text) : Absent pat [] rest := trivial

theorem absent_cons : Absent pat (c :: front) rest ↔
    ¬ pat <+: c :: (front ++ rest) ∧ Absent pat front rest := Iff.rfl

theorem absent_append (front' : Text) : Absent pat (front ++ front') rest ↔
    Absent pat front (front' ++ rest) ∧ Absent pat front' rest := by
  induction front with
  | nil => simp
  | cons c front ih => rw [cons_append, absent_cons, absent_cons, ih, append_assoc, and_assoc]

theorem absent_of_not_mem {tail : Text} (h : c ∉ front) (rest : Text) :
    Absent (c :: tail) front rest := by
  induction front with
  | nil => trivial
  | cons d front ih =>
    rw [mem_cons, not_or] at h
    refine ⟨fun hprefix => h.1 (cons_prefix_cons.mp hprefix).1, ih h.2⟩

theorem Absent.of_prefix {longer : Text} (h : Absent pat front rest) (hlonger : pat <+: longer) :
    Absent longer front rest := by
  induction front with
  | nil => trivial
  | cons c front ih => exact ⟨fun hprefix => h.1 (hlonger.trans hprefix), ih h.2⟩

theorem absent_congr (rest rest' : Text) :
    Absent pat front (pat ++ rest) ↔ Absent pat front (pat ++ rest') := by
  induction front with
  | nil => rfl
  | cons c front ih =>
    have hprefix : ∀ rest, pat <+: c :: (front ++ (pat ++ rest)) ↔ pat <+: c :: (front ++ pat) := by
      intro rest
      have hsplit : c :: (front ++ (pat ++ rest)) = c :: (front ++ pat) ++ rest := by simp
      rw [hsplit]
      refine ⟨fun h => List.prefix_of_prefix_length_le h (prefix_append _ _) ?_,
        fun h => h.trans (prefix_append _ _)⟩
      simp only [List.length_cons, List.length_append]
      omega
    rw [absent_cons, absent_cons, ih, hprefix, hprefix]

theorem absent_append_cons_iff (hx : x ∉ pat) (hne : pat ≠ []) (s rest : Text) :
    Absent pat s (x :: rest) ↔ ¬ pat <:+: s := by
  induction s with
  | nil => simpa [infix_nil] using hne
  | cons c s ih =>
    rw [absent_cons, ih, infix_cons_iff, not_or, ← cons_append,
      prefix_append_cons_iff hx]

theorem absent_cons_of_not_mem (hx : x ∉ pat) (hne : pat ≠ []) :
    Absent pat (x :: front) rest ↔ Absent pat front rest := by
  obtain ⟨d, tail, rfl⟩ := exists_cons_of_ne_nil hne
  refine and_iff_right fun h => hx ?_
  rw [(cons_prefix_cons.mp h).1]
  exact List.mem_cons_self

theorem absent_snoc_iff (hx : x ∉ pat) (hne : pat ≠ []) (s rest : Text) :
    Absent pat (s ++ [x]) rest ↔ ¬ pat <:+: s := by
  have hlast : Absent pat [x] rest := by
    obtain ⟨d, tail, rfl⟩ := exists_cons_of_ne_nil hne
    exact absent_of_not_mem (fun h => hx (by simp [List.mem_singleton.mp h])) rest
  rw [absent_append, List.singleton_append, absent_append_cons_iff hx hne]
  exact and_iff_left hlast

theorem absent_singleton_iff (c : Char) (front rest : Text) :
    Absent [c] front rest ↔ c ∉ front := by
  induction front with
  | nil => simp
  | cons d front ih =>
    rw [absent_cons, ih, cons_prefix_cons, and_iff_left List.nil_prefix, mem_cons, not_or]

theorem find?_pattern (hne : pat ≠ []) (s : Text) : find? pat (pat ++ s) = some ([], s) := by
  obtain ⟨c, tail, rfl⟩ := exists_cons_of_ne_nil hne
  rw [cons_append, find?, if_pos]
  · simp
  · rw [List.isPrefixOf_iff_prefix]
    exact prefix_append _ _

theorem find?_cons_of_not_prefix (h : ¬ pat <+: c :: s) :
    find? pat (c :: s) = (find? pat s).map fun r => (c :: r.1, r.2) := by
  rw [find?, if_neg (by rwa [List.isPrefixOf_iff_prefix])]

theorem Absent.find? (h : Absent pat front rest) :
    find? pat (front ++ rest) = (Text.find? pat rest).map fun r => (front ++ r.1, r.2) := by
  induction front with
  | nil =>
    rw [List.nil_append]
    cases Text.find? pat rest <;> rfl
  | cons c front ih =>
    rw [cons_append, find?_cons_of_not_prefix h.1, ih h.2, Option.map_map]
    rfl

variable {before after : Text}

/-- **What is found** is the first occurrence. -/
theorem find?_eq_some_iff (hne : pat ≠ []) : find? pat s = some (before, after) ↔
      s = before ++ pat ++ after ∧ Absent pat before (pat ++ after) := by
  constructor
  · intro h
    induction s generalizing before with
    | nil =>
      rw [find?, if_neg (by simpa using hne)] at h
      cases h
    | cons c s ih =>
      by_cases hprefix : pat <+: c :: s
      · obtain ⟨t, ht⟩ := hprefix
        rw [← ht, find?_pattern hne] at h
        cases h
        exact ⟨ht.symm, trivial⟩
      · rw [ find?_cons_of_not_prefix hprefix] at h
        obtain ⟨⟨b, a⟩, hfound, heq⟩ := Option.map_eq_some_iff.mp h
        cases heq
        obtain ⟨hs, habsent⟩ := ih hfound
        refine ⟨by rw [hs]; rfl, ?_, habsent⟩
        rwa [← append_assoc, ← hs]
  · rintro ⟨rfl, habsent⟩
    rw [append_assoc, habsent.find?, find?_pattern hne]
    simp

theorem eq_append_of_find? (h : find? pat s = some (before, after)) :
    s = before ++ pat ++ after := by
  by_cases hne : pat = []
  · cases s with
    | nil =>
      rw [hne] at h
      cases h
      rw [hne]
      rfl
    | cons c s =>
      rw [hne] at h
      cases h
      rw [hne]
      rfl
  · exact ((find?_eq_some_iff hne).mp h).1

theorem find?_singleton_eq_some_iff :
    find? [c] s = some (before, after) ↔ s = before ++ c :: after ∧ c ∉ before := by
  rw [find?_eq_some_iff (List.cons_ne_nil _ _), absent_singleton_iff, append_assoc,
    List.singleton_append]

theorem find?_eq_none_iff (hne : pat ≠ []) : find? pat s = none ↔ ¬ pat <:+: s := by
  induction s with
  | nil => simp [find?, infix_nil, hne]
  | cons c s ih =>
    by_cases hprefix : pat <+: c :: s
    · obtain ⟨t, ht⟩ := hprefix
      rw [← ht, find?_pattern hne]
      exact iff_of_false (Option.some_ne_none _) (not_not.mpr (prefix_append _ _).isInfix)
    · rw [ find?_cons_of_not_prefix hprefix, Option.map_eq_none_iff, ih, infix_cons_iff, not_or]
      exact (and_iff_right hprefix).symm

theorem find?_isSome_iff : (find? pat s).isSome = true ↔ pat <:+: s := by
  by_cases hne : pat = []
  · rw [hne]
    refine iff_of_true ?_ List.nil_infix
    cases s <;> rfl
  · rw [← not_iff_not, ← find?_eq_none_iff hne, Bool.not_eq_true, Option.isSome_eq_false_iff,
      Option.isNone_iff_eq_none]

def occurrences (pat : Text) : Text → Nat
  | [] => 0
  | c :: s => (if pat.isPrefixOf (c :: s) then 1 else 0) + occurrences pat s

theorem occurrences_cons_of_prefix (h : pat <+: c :: s) :
    occurrences pat (c :: s) = 1 + occurrences pat s := by
  rw [occurrences, if_pos (by rwa [List.isPrefixOf_iff_prefix])]

theorem occurrences_cons_of_not_prefix (h : ¬ pat <+: c :: s) :
    occurrences pat (c :: s) = occurrences pat s := by
  rw [occurrences, if_neg (by rwa [List.isPrefixOf_iff_prefix]), Nat.zero_add]

theorem occurrences_le_cons (pat : Text) (c : Char) (s : Text) :
    occurrences pat s ≤ occurrences pat (c :: s) := Nat.le_add_left _ _

theorem occurrences_eq_zero_iff (hne : pat ≠ []) : occurrences pat s = 0 ↔ ¬ pat <:+: s := by
  induction s with
  | nil => simp [occurrences, infix_nil, hne]
  | cons c s ih =>
    by_cases hprefix : pat <+: c :: s
    · rw [ occurrences_cons_of_prefix hprefix]
      exact iff_of_false (by omega) (not_not.mpr hprefix.isInfix)
    · rw [ occurrences_cons_of_not_prefix hprefix, ih, infix_cons_iff, not_or]
      exact (and_iff_right hprefix).symm

theorem Absent.occurrences (h : Absent pat front rest) :
    occurrences pat (front ++ rest) = Text.occurrences pat rest := by
  induction front with
  | nil => rfl
  | cons c front ih => rw [cons_append, occurrences_cons_of_not_prefix h.1, ih h.2]

/-- **Separated texts** have the occurrences of both. -/
theorem occurrences_append_cons (hx : x ∉ pat) (hne : pat ≠ []) (s rest : Text) :
    occurrences pat (s ++ x :: rest) = occurrences pat s + occurrences pat rest := by
  induction s with
  | nil =>
    obtain ⟨d, tail, rfl⟩ := exists_cons_of_ne_nil hne
    have hnot : ¬ d :: tail <+: x :: rest := fun h =>
      hx (by simp [(cons_prefix_cons.mp h).1])
    rw [List.nil_append, occurrences_cons_of_not_prefix hnot]
    exact (Nat.zero_add _).symm
  | cons c s ih =>
    have hbegins : pat.isPrefixOf (c :: (s ++ x :: rest)) = pat.isPrefixOf (c :: s) := by
      rw [Bool.eq_iff_iff, List.isPrefixOf_iff_prefix, List.isPrefixOf_iff_prefix,
        ← cons_append, prefix_append_cons_iff hx]
    rw [cons_append, occurrences, occurrences, ih, hbegins, Nat.add_assoc]

theorem occurrences_cons_of_not_mem (hx : x ∉ pat) (hne : pat ≠ []) (s : Text) :
    occurrences pat (x :: s) = occurrences pat s :=
  (occurrences_append_cons hx hne [] s).trans (Nat.zero_add _)

theorem occurrences_pattern_append (hne : pat ≠ []) (s : Text) :
    1 + occurrences pat s ≤ occurrences pat (pat ++ s) := by
  have hle : ∀ front : Text, occurrences pat s ≤ occurrences pat (front ++ s) := by
    intro front
    induction front with
    | nil => exact Nat.le_refl _
    | cons c front ih => exact ih.trans (occurrences_le_cons pat c _)
  obtain ⟨c, tail, rfl⟩ := exists_cons_of_ne_nil hne
  rw [cons_append, occurrences_cons_of_prefix (by
    rw [← cons_append]
    exact prefix_append _ _)]
  exact Nat.add_le_add_left (hle tail) 1

theorem countMatchesFrom_eq_drop (k : Nat) (s : Text) :
    countMatchesFrom pat k s = countMatches pat (s.drop k) := by
  induction s generalizing k with
  | nil => cases k <;> rfl
  | cons c s ih =>
    cases k with
    | zero => rfl
    | succ k => rw [countMatchesFrom, ih, List.drop_succ_cons]

theorem countMatches_cons_of_not_prefix (h : ¬ pat <+: c :: s) :
    countMatches pat (c :: s) = countMatches pat s := by
  rw [countMatches, countMatchesFrom, if_neg (by rwa [List.isPrefixOf_iff_prefix])]
  rfl

theorem countMatches_pattern (hne : pat ≠ []) (s : Text) :
    countMatches pat (pat ++ s) = countMatches pat s + 1 := by
  obtain ⟨c, tail, rfl⟩ := exists_cons_of_ne_nil hne
  have hprefix : (c :: tail).isPrefixOf (c :: (tail ++ s)) = true := by
    rw [List.isPrefixOf_iff_prefix, ← cons_append]
    exact prefix_append _ _
  rw [cons_append, countMatches, countMatchesFrom, if_pos hprefix, countMatchesFrom_eq_drop,
    List.length_cons, Nat.add_sub_cancel, List.drop_left]

theorem Absent.countMatches (h : Absent pat front rest) :
    countMatches pat (front ++ rest) = Text.countMatches pat rest := by
  induction front with
  | nil => rfl
  | cons c front ih => rw [cons_append, countMatches_cons_of_not_prefix h.1, ih h.2]

theorem countMatches_of_find?_eq_some (hne : pat ≠ []) (h : find? pat s = some (before, after)) :
    countMatches pat s = countMatches pat after + 1 := by
  obtain ⟨rfl, habsent⟩ := (find?_eq_some_iff hne).mp h
  rw [append_assoc, habsent.countMatches, countMatches_pattern hne]

theorem countMatches_singleton (c : Char) (s : Text) : countMatches [c] s = s.count c := by
  induction s with
  | nil => rfl
  | cons d s ih =>
    by_cases hd : d = c
    · rw [hd, List.count_cons_self, ← ih]
      exact countMatches_pattern (List.cons_ne_nil c []) s
    · rw [List.count_cons_of_ne hd, ← ih,
        countMatches_cons_of_not_prefix fun h => hd (cons_prefix_cons.mp h).1.symm]

theorem countMatches_le_length (pat s : Text) : countMatches pat s ≤ s.length := by
  have hle : ∀ k, countMatchesFrom pat k s ≤ s.length := by
    induction s with
    | nil => exact fun k => Nat.le_refl 0
    | cons c s ih =>
      intro k
      cases k with
      | zero =>
        rw [countMatchesFrom]
        split_ifs
        · exact Nat.succ_le_succ (ih _)
        · exact (ih _).trans (Nat.le_succ _)
      | succ k => exact (ih k).trans (Nat.le_succ _)
  exact hle 0

theorem countMatches_eq_zero_iff (hne : pat ≠ []) : countMatches pat s = 0 ↔ ¬ pat <:+: s := by
  rw [← find?_eq_none_iff hne]
  cases h : find? pat s with
  | none =>
    refine iff_of_true ?_ rfl
    rw [find?_eq_none_iff hne] at h
    induction s with
    | nil => rfl
    | cons c s ih =>
      rw [infix_cons_iff, not_or] at h
      rw [ countMatches_cons_of_not_prefix h.1, ih h.2]
  | some found =>
    obtain ⟨before, after⟩ := found
    rw [countMatches_of_find?_eq_some hne h]
    exact iff_of_false (Nat.succ_ne_zero _) (Option.some_ne_none _)

end IronClaw.Foundation.Text
