import Mathlib.Data.List.Basic
import Mathlib.Data.List.Infix
import Mathlib.Data.List.Range


/-!
# Masking ranges

The places of a text that lie in one of some ranges are replaced by markers. Neighbouring markers
are merged before two lists of pieces are compared.
-/

namespace IronClaw.Foundation

open List (cons_append getLast?_cons mem_cons mem_cons_of_mem mem_cons_self mem_map mem_range'_1)

def Covered (ranges : List (Nat × Nat)) (i : Nat) : Prop := ∃ r ∈ ranges, r.1 ≤ i ∧ i < r.2

instance (ranges : List (Nat × Nat)) : DecidablePred (Covered ranges) :=
  fun i => inferInstanceAs (Decidable (∃ r ∈ ranges, r.1 ≤ i ∧ i < r.2))

variable {r : Nat × Nat} {ranges : List (Nat × Nat)} {i : Nat}

theorem covered_cons_iff : Covered (r :: ranges) i ↔ (r.1 ≤ i ∧ i < r.2) ∨ Covered ranges i := by
  simp only [Covered, mem_cons, exists_eq_or_imp]

theorem not_covered_of_lt (h : ∀ r ∈ ranges, i < r.1) : ¬ Covered ranges i := by
  rintro ⟨r, hr, hle, -⟩
  exact absurd (h r hr) (Nat.not_lt_of_le hle)

/-- A place borders on one that lies in some ranges. -/
def Touched (ranges : List (Nat × Nat)) (place : Nat) : Prop :=
  Covered ranges place ∨ 0 < place ∧ Covered ranges (place - 1)

instance (ranges : List (Nat × Nat)) : DecidablePred (Touched ranges) :=
  fun place => inferInstanceAs
    (Decidable (Covered ranges place ∨ 0 < place ∧ Covered ranges (place - 1)))

theorem touched_cons {place : Nat} (h : Touched (r :: ranges) place) :
    place ≤ r.2 ∨ Touched ranges place := by
  rcases h with hcovered | ⟨hpos, hcovered⟩
  · rcases covered_cons_iff.mp hcovered with hin | hcovered
    · exact .inl hin.2.le
    · exact .inr (.inl hcovered)
  · rcases covered_cons_iff.mp hcovered with hin | hcovered
    · exact .inl (by omega)
    · exact .inr (.inr ⟨hpos, hcovered⟩)

abbrev Piece := Option Nat

def keep (start stop : Nat) : List Piece := (List.range' start (stop - start)).map some

def mask (masked : Nat → Prop) [DecidablePred masked] (start stop : Nat) : List Piece :=
  (List.range' start (stop - start)).map fun i => if masked i then none else some i

def mark : List Piece → List Piece
  | none :: l => none :: l
  | l => none :: l

def collapse : List Piece → List Piece
  | [] => []
  | none :: l => mark (collapse l)
  | some i :: l => some i :: collapse l

@[simp] theorem keep_self (i : Nat) : keep i i = [] := by simp [keep]

theorem keep_of_le {start stop : Nat} (h : stop ≤ start) : keep start stop = [] := by
  rw [keep, Nat.sub_eq_zero_of_le h]
  rfl

theorem mem_keep {start stop : Nat} : some i ∈ keep start stop ↔ start ≤ i ∧ i < stop := by
  simp only [keep, mem_map, mem_range'_1, Option.some.injEq, exists_eq_right]
  omega

section Mask

variable {masked : Nat → Prop} [DecidablePred masked] {start stop : Nat}

theorem mem_mask {i : Nat} :
    some i ∈ mask masked start stop ↔ (start ≤ i ∧ i < stop) ∧ ¬ masked i := by
  simp only [mask, mem_map, mem_range'_1, ite_eq_iff, reduceCtorEq, and_false, false_or,
    Option.some.injEq]
  constructor
  · rintro ⟨j, hj, hmasked, rfl⟩
    exact ⟨by omega, hmasked⟩
  · rintro ⟨hi, hmasked⟩
    exact ⟨i, by omega, hmasked, rfl⟩

theorem mask_append {middle : Nat} (h : start ≤ middle) (h' : middle ≤ stop) :
    mask masked start middle ++ mask masked middle stop = mask masked start stop := by
  have hrange : List.range' start (middle - start) ++ List.range' middle (stop - middle) =
      List.range' start (stop - start) := by
    have hmiddle : middle = start + 1 * (middle - start) := by omega
    have hlength : stop - start = middle - start + (stop - middle) := by omega
    rw [hlength, ← List.range'_append, ← hmiddle]
  rw [mask, mask, mask, ← List.map_append, hrange]

theorem mask_congr {masked' : Nat → Prop} [DecidablePred masked']
    (h : ∀ i, start ≤ i → i < stop → (masked i ↔ masked' i)) :
    mask masked start stop = mask masked' start stop := by
  refine List.map_congr_left fun i hi => ?_
  rw [mem_range'_1] at hi
  simp only [h i hi.1 (by omega)]

theorem mask_eq_keep (h : ∀ i, start ≤ i → i < stop → ¬ masked i) :
    mask masked start stop = keep start stop := by
  refine List.map_congr_left fun i hi => ?_
  rw [mem_range'_1] at hi
  rw [if_neg (h i hi.1 (by omega))]

theorem mask_eq_replicate (h : ∀ i, start ≤ i → i < stop → masked i) :
    mask masked start stop = List.replicate (stop - start) none := by
  refine List.eq_replicate_iff.mpr ⟨by simp [mask], fun p hp => ?_⟩
  obtain ⟨i, hi, rfl⟩ := mem_map.mp hp
  rw [mem_range'_1] at hi
  exact if_pos (h i hi.1 (by omega))

theorem mask_cons (h : start < stop) : mask masked start stop =
      (if masked start then none else some start) :: mask masked (start + 1) stop := by
  have hlength : stop - start = stop - (start + 1) + 1 := by omega
  rw [mask, mask, hlength, List.range'_succ, List.map_cons]

end Mask

variable (l : List Piece)

theorem mark_mark : mark (mark l) = mark l := by
  rcases l with _ | ⟨_ | i, l⟩
  · rfl
  · rfl
  · rfl

theorem collapse_append_congr {l l' : List Piece} (h : collapse l = collapse l')
    (front : List Piece) : collapse (front ++ l) = collapse (front ++ l') := by
  induction front with
  | nil => exact h
  | cons p front ih =>
    cases p with
    | none => rw [cons_append, cons_append, collapse, collapse, ih]
    | some i => rw [cons_append, cons_append, collapse, collapse, ih]

theorem collapse_none_none : collapse (none :: none :: l) = collapse (none :: l) :=
  mark_mark _

theorem collapse_none_replicate (k : Nat) (l : List Piece) :
    collapse (none :: (List.replicate k none ++ l)) = collapse (none :: l) := by
  induction k with
  | zero => rfl
  | succ k ih => rw [List.replicate_succ, cons_append, collapse_none_none, ih]

theorem collapse_replicate {k : Nat} (hk : 0 < k) (l : List Piece) :
    collapse (List.replicate k none ++ l) = collapse (none :: l) := by
  obtain ⟨k, rfl⟩ := Nat.exists_eq_succ_of_ne_zero hk.ne'
  exact collapse_none_replicate k l

theorem mem_mark {l : List Piece} : some i ∈ mark l ↔ some i ∈ l := by
  rcases l with _ | ⟨_ | j, l⟩ <;> simp [mark]

theorem mem_collapse {l : List Piece} : some i ∈ collapse l ↔ some i ∈ l := by
  induction l with
  | nil => rfl
  | cons p l ih =>
    cases p with
    | none => rw [collapse, mem_mark, ih, mem_cons, or_iff_right (by nofun)]
    | some j => rw [collapse, mem_cons, mem_cons, ih]

variable {q : Piece → Bool}

theorem takeWhile_mark (hq : q none = true) (l : List Piece) :
    (mark l).takeWhile q = mark (l.takeWhile q) := by
  rcases l with _ | ⟨_ | i, l⟩
  · simp [mark, hq]
  · simp [mark, hq]
  · cases hi : q (some i) with
    | true => simp [mark, hq, hi]
    | false => simp [mark, hq, hi]

theorem getLast?_mark : (mark l).getLast? = some (l.getLast?.getD none) := by
  rcases l with _ | ⟨_ | i, l⟩
  · rfl
  · simp [mark, getLast?_cons]
  · simp [mark, getLast?_cons]

theorem getLast?_collapse : (collapse l).getLast? = l.getLast? := by
  induction l with
  | nil => rfl
  | cons p l ih =>
    cases p with
    | none => rw [collapse, getLast?_mark, ih, getLast?_cons]
    | some i => rw [collapse, getLast?_cons, getLast?_cons, ih]

theorem takeWhile_collapse (hq : q none = true) (l : List Piece) :
    (collapse l).takeWhile q = collapse (l.takeWhile q) := by
  induction l with
  | nil => rfl
  | cons p l ih =>
    cases p with
    | none => rw [collapse, takeWhile_mark hq, ih, List.takeWhile_cons_of_pos hq, collapse]
    | some i =>
      cases hi : q (some i) with
      | true => rw [collapse, List.takeWhile_cons_of_pos hi, List.takeWhile_cons_of_pos hi, ih,
          collapse]
      | false =>
        rw [collapse, List.takeWhile_cons_of_neg (by simp [hi]),
          List.takeWhile_cons_of_neg (by simp [hi])]
        rfl

theorem getLast?_takeWhile_collapse (hq : q none = true) {l l' : List Piece}
    (h : collapse l = collapse l') : (l.takeWhile q).getLast? = (l'.takeWhile q).getLast? := by
  rw [← getLast?_collapse, ← takeWhile_collapse hq, h, takeWhile_collapse hq, getLast?_collapse]

/-- Cut ranges out in the order of their start, with a marker for each, from `last` on. -/
def cutFrom (last stop : Nat) : List (Nat × Nat) → List Piece
  | [] => keep last stop
  | r :: ranges => keep last r.1 ++ none :: cutFrom (max last r.2) stop ranges

/-- The ranges are in the order of their start and lie in a text of some length. -/
structure Ordered (stop : Nat) (ranges : List (Nat × Nat)) : Prop where
  sorted : ranges.Pairwise fun r r' => r.1 ≤ r'.1
  within : ∀ r ∈ ranges, r.1 ≤ r.2 ∧ r.2 ≤ stop

theorem Ordered.tail {stop : Nat} (h : Ordered stop (r :: ranges)) : Ordered stop ranges :=
  ⟨h.sorted.of_cons, fun r' hr' => h.within r' (mem_cons_of_mem r hr')⟩

theorem collapse_mask_cons {stop : Nat} (h : Ordered stop (r :: ranges))
    (hempty : r.1 = r.2 → Covered ranges r.1) : collapse (mask (Covered (r :: ranges)) r.1 stop) =
      collapse (none :: mask (Covered ranges) r.2 stop) := by
  obtain ⟨hle, hstop⟩ := h.within r mem_cons_self
  have hbehind : mask (Covered (r :: ranges)) r.2 stop = mask (Covered ranges) r.2 stop := by
    refine mask_congr fun i hi _ => ?_
    rw [covered_cons_iff, or_iff_right]
    omega
  rcases Nat.eq_or_lt_of_le hle with heq | hlt
  · -- another range has the place of an empty one
    obtain ⟨r', hr', hstart, hend⟩ := hempty heq
    have hlt : r.2 < stop := by
      have hwithin := (h.within r' (mem_cons_of_mem r hr')).2
      omega
    have hcovered : Covered ranges r.2 := ⟨r', hr', heq ▸ hstart, heq ▸ hend⟩
    rw [heq, hbehind, mask_cons hlt, if_pos hcovered, collapse_none_none]
  · rw [← mask_append hle hstop, hbehind,
      mask_eq_replicate fun i hi hi' => covered_cons_iff.mpr (.inl ⟨hi, hi'⟩),
      collapse_replicate (by omega)]

theorem Ordered.not_covered {stop : Nat} (h : Ordered stop (r :: ranges)) (hi : i < r.1) :
    ¬ Covered (r :: ranges) i :=
  not_covered_of_lt fun r' hr' => by
    rcases mem_cons.mp hr' with rfl | hr'
    · exact hi
    · exact Nat.lt_of_lt_of_le hi (List.rel_of_pairwise_cons h.sorted hr')

theorem Ordered.covered_of_empty {stop : Nat} (h : Ordered stop (r :: ranges)) (hempty : r.1 = r.2)
    (htouched : Touched (r :: ranges) r.1) : Covered ranges r.1 := by
  rcases htouched with hcovered | ⟨hpos, hcovered⟩
  · refine (covered_cons_iff.mp hcovered).resolve_left ?_
    omega
  · exact absurd hcovered (h.not_covered (by omega))

theorem collapse_keep_cutFrom {last stop : Nat} (hlast : last ≤ r.1)
    (h : Ordered stop (r :: ranges)) (hempty : r.1 = r.2 → Covered ranges r.1)
    (hrest : collapse (none :: cutFrom r.2 stop ranges) =
      collapse (none :: mask (Covered ranges) r.2 stop)) :
    collapse (keep last r.1 ++ none :: cutFrom r.2 stop ranges) =
      collapse (mask (Covered (r :: ranges)) last stop) := by
  obtain ⟨hle, hstop⟩ := h.within r mem_cons_self
  rw [← mask_append hlast (hle.trans hstop), mask_eq_keep fun i _ hi => h.not_covered hi]
  exact collapse_append_congr (hrest.trans (collapse_mask_cons h hempty).symm) _

theorem collapse_none_cutFrom {last stop : Nat} (hlast : last ≤ stop) (h : Ordered stop ranges)
    (hempty : ∀ place, (place, place) ∈ ranges → place ≤ last ∨ Touched ranges place) :
    collapse (none :: cutFrom last stop ranges) =
      collapse (none :: mask (Covered ranges) last stop) := by
  induction ranges generalizing last with
  | nil =>
    rw [cutFrom, mask_eq_keep]
    rintro i - - ⟨r, hr, -⟩
    cases hr
  | cons r ranges ih =>
    obtain ⟨hle, hstop⟩ := h.within r mem_cons_self
    have hrest := @ih (max last r.2) (by omega) h.tail fun place hplace => by
      rcases hempty place (mem_cons_of_mem r hplace) with hle | htouched
      · exact .inl (by omega)
      · exact (touched_cons htouched).imp_left fun hle => by omega
    rw [cutFrom]
    rcases Nat.lt_or_ge last r.1 with hlt | hge
    · -- something is kept in front of the range
      have hmax : max last r.2 = r.2 := by omega
      rw [hmax] at hrest ⊢
      refine collapse_append_congr (collapse_keep_cutFrom hlt.le h (fun heq => ?_) hrest) [none]
      have hmem : (r.1, r.1) ∈ r :: ranges :=
        (Prod.ext rfl heq : (r.1, r.1) = r) ▸ mem_cons_self
      exact h.covered_of_empty heq ((hempty r.1 hmem).resolve_left (by omega))
    · -- the range starts in what is cut out already
      have hblock : mask (Covered (r :: ranges)) last stop =
          List.replicate (max last r.2 - last) none ++
            mask (Covered ranges) (max last r.2) stop := by
        rw [← mask_append (Nat.le_max_left last r.2) (by omega),
          mask_eq_replicate fun i hi hi' => covered_cons_iff.mpr (.inl ⟨by omega, by omega⟩)]
        congr 1
        refine mask_congr fun i hi _ => ?_
        rw [covered_cons_iff, or_iff_right]
        omega
      rw [keep_of_le hge, List.nil_append, collapse_none_none, hrest, hblock,
        collapse_none_replicate]

/-- **Cutting out leaves what masking leaves**, if an empty range touches another one. -/
theorem collapse_cutFrom {stop : Nat} (h : Ordered stop ranges)
    (hempty : ∀ place, (place, place) ∈ ranges → Touched ranges place) :
    collapse (cutFrom 0 stop ranges) = collapse (mask (Covered ranges) 0 stop) := by
  cases ranges with
  | nil =>
    rw [cutFrom, mask_eq_keep]
    rintro i - - ⟨r, hr, -⟩
    cases hr
  | cons r ranges =>
    obtain ⟨hle, hstop⟩ := h.within r mem_cons_self
    rw [cutFrom, Nat.zero_max]
    refine collapse_keep_cutFrom (Nat.zero_le _) h (fun heq => ?_) ?_
    · have hmem : (r.1, r.1) ∈ r :: ranges :=
        (Prod.ext rfl heq : (r.1, r.1) = r) ▸ mem_cons_self
      exact h.covered_of_empty heq (hempty r.1 hmem)
    · exact collapse_none_cutFrom hstop h.tail fun place hplace =>
        touched_cons (hempty place (mem_cons_of_mem r hplace))

end IronClaw.Foundation
