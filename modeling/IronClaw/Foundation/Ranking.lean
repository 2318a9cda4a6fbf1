import Mathlib.Data.List.Sort
import IronClaw.Foundation.HashMap

/-!
# Ranking

Entries are sorted by a comparison, or the greatest is chosen. Where the comparison tells entries
apart, their order does not matter.
-/

namespace IronClaw.Foundation

open List (mem_cons mem_cons_self pairwise_cons perm_insertionSort)

variable {α : Type*}

/-- What compares equal keeps its order. -/
def sortBy (cmp : α → α → Ordering) (l : List α) : List α :=
  l.insertionSort fun a b => (cmp a b).isLE = true

/-- Choose the greatest entry; of those that compare equal, the last. -/
def maxBy (cmp : α → α → Ordering) : List α → Option α
  | [] => none
  | a :: l => some (l.foldl (fun best b => if cmp best b = .gt then best else b) a)

def Separates (cmp : α → α → Ordering) (l : List α) : Prop :=
  ∀ a ∈ l, ∀ b ∈ l, cmp a b = .eq → a = b

section Ranking

variable {cmp : α → α → Ordering} {l l' : List α} {a b : α}

theorem mem_sortBy : a ∈ sortBy cmp l ↔ a ∈ l := List.mem_insertionSort _

theorem Separates.perm (h : Separates cmp l) (hperm : l.Perm l') : Separates cmp l' :=
  fun a ha b hb => h a (hperm.mem_iff.mpr ha) b (hperm.mem_iff.mpr hb)

theorem Separates.filter (h : Separates cmp l) (p : α → Bool) : Separates cmp (l.filter p) :=
  fun a ha b hb => h a (List.mem_of_mem_filter ha) b (List.mem_of_mem_filter hb)

theorem maxBy_eq_none_iff : maxBy cmp l = none ↔ l = [] := by
  cases l <;> simp [maxBy]

variable [Std.TransCmp cmp]

theorem pairwise_sortBy (cmp : α → α → Ordering) [Std.TransCmp cmp] (l : List α) :
    (sortBy cmp l).Pairwise fun a b => (cmp a b).isLE = true := by
  have htotal : Std.Total fun a b => (cmp a b).isLE = true := by
    constructor
    intro a b
    by_cases hle : (cmp a b).isLE = true
    · exact .inl hle
    · exact .inr (Ordering.isLE_of_eq_lt (Std.OrientedCmp.lt_of_not_isLE hle))
  have htrans : IsTrans α fun a b => (cmp a b).isLE = true :=
    ⟨fun _ _ _ => Std.TransCmp.isLE_trans⟩
  exact List.pairwise_insertionSort _ l

theorem sortBy_perm (h : Separates cmp l) (hperm : l.Perm l') : sortBy cmp l = sortBy cmp l' := by
  have hsorted : (sortBy cmp l).Perm (sortBy cmp l') :=
    (perm_insertionSort _ l).trans (hperm.trans (perm_insertionSort _ l').symm)
  refine hsorted.eq_of_pairwise ?_ (pairwise_sortBy cmp l) (pairwise_sortBy cmp l')
  intro a b ha hb hab hba
  exact h a (mem_sortBy.mp ha) b (hperm.mem_iff.mpr (mem_sortBy.mp hb))
    (Std.OrientedCmp.isLE_antisymm hab hba)

theorem maxBy_eq_some (h : maxBy cmp l = some a) : a ∈ l ∧ ∀ b ∈ l, (cmp b a).isLE = true := by
  have hfold : ∀ (l : List α) (best : α),
      let chosen := l.foldl (fun best b => if cmp best b = .gt then best else b) best
      (chosen = best ∨ chosen ∈ l) ∧ (cmp best chosen).isLE = true ∧
        ∀ b ∈ l, (cmp b chosen).isLE = true := by
    intro l
    induction l with
    | nil => exact fun best => ⟨.inl rfl, Std.ReflCmp.isLE_rfl, by simp⟩
    | cons c l ih =>
      intro best
      rw [List.foldl_cons]
      split_ifs with hgt
      · -- the best one so far is greater, and stays
        have hle : (cmp c best).isLE = true :=
          Ordering.isLE_of_eq_lt (Std.OrientedCmp.lt_of_gt hgt)
        obtain ⟨hmem, hbest, hall⟩ := ih best
        refine ⟨hmem.imp_right (List.mem_cons_of_mem c), hbest, ?_⟩
        exact List.forall_mem_cons.mpr ⟨Std.TransCmp.isLE_trans hle hbest, hall⟩
      · obtain ⟨hmem, hbest, hall⟩ := ih c
        refine ⟨.inr (mem_cons.mpr hmem), ?_, List.forall_mem_cons.mpr ⟨hbest, hall⟩⟩
        exact Std.TransCmp.isLE_trans (Ordering.isLE_iff_ne_gt.mpr hgt) hbest
  cases l with
  | nil => cases h
  | cons c l =>
    obtain rfl := Option.some.inj h
    obtain ⟨hmem, hbest, hall⟩ := hfold l c
    exact ⟨mem_cons.mpr hmem, List.forall_mem_cons.mpr ⟨hbest, hall⟩⟩

theorem getLast?_filter_sortBy {p : α → Bool} (h : ((sortBy cmp l).filter p).getLast? = some a) :
    (a ∈ l ∧ p a = true) ∧ ∀ b ∈ l, p b = true → (cmp b a).isLE = true := by
  have hmem := List.mem_filter.mp (List.mem_of_getLast? h)
  refine ⟨⟨mem_sortBy.mp hmem.1, hmem.2⟩, fun b hb hp => ?_⟩
  obtain ⟨front, hfront⟩ := List.getLast?_eq_some_iff.mp h
  have hsorted := (pairwise_sortBy cmp l).filter p
  have hb' : b ∈ (sortBy cmp l).filter p := List.mem_filter.mpr ⟨mem_sortBy.mpr hb, hp⟩
  rw [hfront, List.pairwise_append] at hsorted
  rw [hfront, List.mem_append, List.mem_singleton] at hb'
  rcases hb' with hb' | rfl
  · exact hsorted.2.2 b hb' a mem_cons_self
  · exact Std.ReflCmp.isLE_rfl

theorem maxBy_eq_getLast?_sortBy (h : Separates cmp l) : maxBy cmp l = (sortBy cmp l).getLast? := by
  cases hmax : maxBy cmp l with
  | none =>
    rw [maxBy_eq_none_iff.mp hmax]
    rfl
  | some a =>
    obtain ⟨ha, hgreatest⟩ := maxBy_eq_some hmax
    have hne : sortBy cmp l ≠ [] := List.ne_nil_of_mem (mem_sortBy.mpr ha)
    have hlast : ((sortBy cmp l).filter fun _ => true).getLast? =
        some ((sortBy cmp l).getLast hne) := by
      rw [List.filter_true, List.getLast?_eq_some_getLast hne]
    obtain ⟨⟨hb, -⟩, hlargest⟩ := getLast?_filter_sortBy hlast
    rw [List.getLast?_eq_some_getLast hne, Option.some.injEq]
    exact h a ha _ hb (Std.OrientedCmp.isLE_antisymm (hlargest a ha rfl) (hgreatest _ hb))

end Ranking

section Top

variable {β : Type*} [LinearOrder β] {score : α → β} {l l' : List α} {a : α} {n : Nat}

/-- The first entries when they are sorted in descending order of their score. -/
def topBy (score : α → β) (n : Nat) (l : List α) : List α :=
  (l.insertionSort fun a b => score b ≤ score a).take n

theorem topBy_sublist : (topBy score n l).Sublist (l.insertionSort fun a b => score b ≤ score a) :=
  List.take_sublist n _

theorem mem_of_mem_topBy (h : a ∈ topBy score n l) : a ∈ l :=
  (List.mem_insertionSort _).mp (topBy_sublist.subset h)

theorem pairwise_insertionSort_score (score : α → β) (l : List α) :
    (l.insertionSort fun a b => score b ≤ score a).Pairwise fun a b => score b ≤ score a := by
  have htotal : Std.Total fun a b : α => score b ≤ score a := ⟨fun a b => le_total _ _⟩
  have htrans : IsTrans α fun a b => score b ≤ score a := ⟨fun _ _ _ h h' => h'.trans h⟩
  exact List.pairwise_insertionSort _ l

theorem mem_topBy_or (h : a ∈ l) :
    a ∈ topBy score n l ∨ (topBy score n l).length = n ∧ ∀ b ∈ topBy score n l, score a ≤ score b := by
  have hsorted := pairwise_insertionSort_score score l
  have hmem := (List.mem_insertionSort fun a b => score b ≤ score a).mpr h
  rw [← List.take_append_drop n (l.insertionSort _)] at hmem hsorted
  rcases List.mem_append.mp hmem with hmem | hmem
  · exact .inl hmem
  · refine .inr ⟨?_, fun b hb => (List.pairwise_append.mp hsorted).2.2 b hb a hmem⟩
    have hlength := List.length_pos_of_mem hmem
    rw [List.length_drop] at hlength
    rw [topBy, List.length_take]
    omega

/-- Entries that compare equal are too far back to matter. -/
def TiesBeyond (score : α → β) (n : Nat) (l : List α) : Prop :=
  ∀ a ∈ l, ∀ b ∈ l, a ≠ b → score a = score b → n ≤ l.countP fun c => score a < score c

theorem take_eq_of_perm (hperm : l.Perm l') (hl : l.Pairwise fun a b => score b ≤ score a)
    (hl' : l'.Pairwise fun a b => score b ≤ score a) (hties : TiesBeyond score n l) :
    l.take n = l'.take n := by
  induction n generalizing l l' with
  | zero => rfl
  | succ n ih =>
    cases l with
    | nil => rw [hperm.nil_eq]
    | cons a l =>
      cases l' with
      | nil => exact absurd hperm.eq_nil (List.cons_ne_nil a l)
      | cons b l' =>
        obtain ⟨ha, hl⟩ := pairwise_cons.mp hl
        obtain ⟨hb, hrest⟩ := pairwise_cons.mp hl'
        have hnone (c : α) (hc : score a ≤ score c) :
            (a :: l).countP (fun d => score c < score d) = 0 := by
          rw [List.countP_eq_zero]
          intro d hd
          rw [decide_eq_true_eq, not_lt]
          rcases mem_cons.mp hd with rfl | hd
          · exact hc
          · exact (ha d hd).trans hc
        by_cases hab : a = b
        · subst hab
          rw [List.take_succ_cons, List.take_succ_cons, ih hperm.cons_inv hl hrest ?_]
          intro c hc d hd hne heq
          have hcount := hties c (List.mem_cons_of_mem a hc) d (List.mem_cons_of_mem a hd) hne heq
          by_cases hlt : score c < score a
          · rw [List.countP_cons, if_pos (decide_eq_true hlt)] at hcount
            exact Nat.le_of_succ_le_succ hcount
          · rw [hnone c (not_lt.mp hlt)] at hcount
            cases hcount
        · -- the first two compare equal, and nothing is before them
          have hbmem : b ∈ a :: l := hperm.mem_iff.mpr mem_cons_self
          have hamem : a ∈ b :: l' := hperm.mem_iff.mp mem_cons_self
          have hle := ha b ((mem_cons.mp hbmem).resolve_left (Ne.symm hab))
          have hge := hb a ((mem_cons.mp hamem).resolve_left hab)
          have hcount := hties a mem_cons_self b hbmem hab (hge.antisymm hle)
          rw [hnone a le_rfl] at hcount
          cases hcount

theorem length_takeWhile_eq_countP {p : α → Bool} (h : l.Pairwise fun a b => p b → p a) :
    (l.takeWhile p).length = l.countP p := by
  induction l with
  | nil => rfl
  | cons a l ih =>
    obtain ⟨ha, hl⟩ := pairwise_cons.mp h
    by_cases hp : p a = true
    · rw [List.takeWhile_cons_of_pos hp, List.countP_cons_of_pos hp, List.length_cons, ih hl]
    · rw [List.takeWhile_cons_of_neg hp, List.countP_cons_of_neg hp]
      exact (List.countP_eq_zero.mpr fun b hb hpb => hp (ha b hb hpb)).symm

theorem getElem?_topBy_cons (h : l.countP (fun b => score a < score b) < n) :
    (topBy score n (a :: l))[l.countP fun b => score a < score b]? = some a := by
  have hcount : ((l.insertionSort fun a b => score b ≤ score a).takeWhile
      fun b => ¬ score b ≤ score a).length = l.countP fun b => score a < score b := by
    rw [length_takeWhile_eq_countP, (perm_insertionSort _ l).countP_eq]
    · simp only [not_le]
    · refine (pairwise_insertionSort_score score l).imp fun {b c} hle hc => ?_
      simp only [not_le, decide_eq_true_eq] at hc ⊢
      exact hc.trans_le hle
  rw [topBy, List.getElem?_take_of_lt h, List.insertionSort_cons_eq_take_drop,
    List.getElem?_append_right hcount.le, hcount, Nat.sub_self]
  rfl

/-- The order of entries does not matter if none that compare equal are among the first. -/
theorem topBy_eq_of_perm (hperm : l.Perm l') (hties : TiesBeyond score n l) :
    topBy score n l = topBy score n l' := by
  have hl := perm_insertionSort (fun a b => score b ≤ score a) l
  refine take_eq_of_perm (hl.trans (hperm.trans (perm_insertionSort _ l').symm))
    (pairwise_insertionSort_score score l) (pairwise_insertionSort_score score l')
    fun a ha b hb hab heq => ?_
  rw [hl.countP_eq]
  exact hties a (hl.mem_iff.mp ha) b (hl.mem_iff.mp hb) hab heq

end Top

section Write

variable {K V : Type*} [DecidableEq K]

def writeAll (key : α → Option K) (value : α → V) (l : List α) (m : HashMap K V) : HashMap K V :=
  l.foldl (fun m a => (key a).elim m fun k => m.insert k (value a)) m

theorem lookup_writeAll (key : α → Option K) (value : α → V) (l : List α) (m : HashMap K V)
    (k : K) : (writeAll key value l m).lookup k =
      ((l.filter fun a => key a = some k).getLast?.map value).or (m.lookup k) := by
  induction l generalizing m with
  | nil => rfl
  | cons a l ih =>
    have hstep : writeAll key value (a :: l) m =
        writeAll key value l ((key a).elim m fun k => m.insert k (value a)) := rfl
    rw [hstep, ih]
    cases hlast : (l.filter fun a => key a = some k).getLast? with
    | some b =>
      -- a later entry writes the key
      have hcons : ((a :: l).filter fun a => key a = some k).getLast? = some b := by
        rw [List.filter_cons]
        split_ifs
        · rw [List.getLast?_cons, hlast]
          rfl
        · exact hlast
      rw [hcons]
      rfl
    | none =>
      have hnil := List.getLast?_eq_none_iff.mp hlast
      rw [List.filter_cons, hnil]
      cases hkey : key a with
      | none => simp
      | some k' =>
        by_cases hk : k' = k
        · subst hk
          simp
        · simp [hk, Ne.symm hk]

end Write

end IronClaw.Foundation
