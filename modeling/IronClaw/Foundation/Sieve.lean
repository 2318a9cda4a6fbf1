import Mathlib.Data.List.Infix

/-!
# Sieves

A sieve drops elements of a list and translates those it keeps. Whether one is kept depends on what
follows it only, so a position in the result is traced back to one in the list.
-/

namespace IronClaw.Foundation

/-- Which elements are kept, given what follows, and what becomes of them. -/
structure Sieve (α β : Type) where
  keep : α → List α → Bool
  image : α → β

namespace Sieve

variable {α β γ : Type} (N : Sieve α β)

def apply : List α → List β
  | [] => []
  | a :: s => if N.keep a s then N.image a :: apply s else apply s

/-- The list up to an element that is kept, the last one of a number of these. -/
def front : Nat → List α → List α
  | 0, _ => []
  | _ + 1, [] => []
  | k + 1, a :: s => a :: if N.keep a s then front k s else front (k + 1) s

def behind : Nat → List α → List α
  | 0, s => s
  | _ + 1, [] => []
  | k + 1, a :: s => if N.keep a s then behind k s else behind (k + 1) s

variable {N} {a : α} {s t : List α} {k : Nat}

@[simp] theorem apply_nil : N.apply [] = [] := rfl

theorem apply_cons_of_keep (h : N.keep a s = true) : N.apply (a :: s) = N.image a :: N.apply s := by
  rw [apply, if_pos h]

theorem apply_cons_of_drop (h : N.keep a s = false) : N.apply (a :: s) = N.apply s := by
  rw [apply, if_neg (by simp [h])]

@[simp] theorem front_zero (s : List α) : N.front 0 s = [] := by
  cases s <;> rfl

@[simp] theorem behind_zero (s : List α) : N.behind 0 s = s := by
  cases s <;> rfl

@[simp] theorem front_nil (k : Nat) : N.front k [] = [] := by
  cases k <;> rfl

@[simp] theorem behind_nil (k : Nat) : N.behind k [] = [] := by
  cases k <;> rfl

theorem front_succ_of_keep (h : N.keep a s = true) :
    N.front (k + 1) (a :: s) = a :: N.front k s := by
  rw [front, if_pos h]

theorem front_succ_of_drop (h : N.keep a s = false) :
    N.front (k + 1) (a :: s) = a :: N.front (k + 1) s := by
  rw [front, if_neg (by simp [h])]

theorem behind_succ_of_keep (h : N.keep a s = true) : N.behind (k + 1) (a :: s) = N.behind k s := by
  rw [behind, if_pos h]

theorem behind_succ_of_drop (h : N.keep a s = false) :
    N.behind (k + 1) (a :: s) = N.behind (k + 1) s := by
  rw [behind, if_neg (by simp [h])]

theorem length_apply_le (N : Sieve α β) (s : List α) : (N.apply s).length ≤ s.length := by
  induction s with
  | nil => exact Nat.le_refl 0
  | cons a s ih =>
    cases h : N.keep a s with
    | true =>
      rw [apply_cons_of_keep h]
      exact Nat.succ_le_succ ih
    | false =>
      rw [apply_cons_of_drop h]
      exact ih.trans (Nat.le_succ _)

theorem front_append_behind (N : Sieve α β) (k : Nat) (s : List α) :
    N.front k s ++ N.behind k s = s := by
  induction s generalizing k with
  | nil => simp
  | cons a s ih =>
    cases k with
    | zero => simp
    | succ k =>
      cases h : N.keep a s with
      | true => rw [front_succ_of_keep h, behind_succ_of_keep h, List.cons_append, ih]
      | false => rw [front_succ_of_drop h, behind_succ_of_drop h, List.cons_append, ih]

theorem behind_suffix (N : Sieve α β) (k : Nat) (s : List α) : N.behind k s <:+ s :=
  ⟨N.front k s, N.front_append_behind k s⟩

/-- **What is made of the rest** is what is made of the list, without as many elements. -/
theorem apply_behind (N : Sieve α β) (k : Nat) (s : List α) :
    N.apply (N.behind k s) = (N.apply s).drop k := by
  induction s generalizing k with
  | nil => simp
  | cons a s ih =>
    cases k with
    | zero => simp
    | succ k =>
      cases h : N.keep a s with
      | true => rw [behind_succ_of_keep h, apply_cons_of_keep h, ih, List.drop_succ_cons]
      | false => rw [behind_succ_of_drop h, apply_cons_of_drop h, ih]

theorem front_add (N : Sieve α β) (j k : Nat) (s : List α) :
    N.front (j + k) s = N.front j s ++ N.front k (N.behind j s) := by
  induction s generalizing j with
  | nil => simp
  | cons a s ih =>
    cases j with
    | zero => simp
    | succ j =>
      rw [Nat.add_right_comm]
      cases h : N.keep a s with
      | true => rw [front_succ_of_keep h, front_succ_of_keep h, behind_succ_of_keep h, ih]; rfl
      | false =>
        rw [front_succ_of_drop h, front_succ_of_drop h, behind_succ_of_drop h, Nat.add_right_comm,
          ih]
        rfl

theorem front_ne_nil (hk : 0 < k) (hs : s ≠ []) : N.front k s ≠ [] := by
  obtain ⟨a, s, rfl⟩ := List.exists_cons_of_ne_nil hs
  cases k with
  | zero => cases hk
  | succ k => exact List.cons_ne_nil _ _

theorem apply_suffix (h : t <:+ s) : N.apply t <:+ N.apply s := by
  obtain ⟨front, rfl⟩ := h
  induction front with
  | nil => exact List.suffix_rfl
  | cons a front ih =>
    rw [List.cons_append]
    cases h : N.keep a (front ++ t) with
    | true =>
      rw [apply_cons_of_keep h]
      exact ih.trans (List.suffix_cons _ _)
    | false => rwa [apply_cons_of_drop h]

/-- The same elements kept, and translated once more. -/
def map (N : Sieve α β) (f : β → γ) : Sieve α γ := ⟨N.keep, f ∘ N.image⟩

theorem apply_map (f : β → γ) (s : List α) : (N.map f).apply s = (N.apply s).map f := by
  induction s with
  | nil => rfl
  | cons a s ih =>
    cases h : N.keep a s with
    | true => rw [apply_cons_of_keep h, apply_cons_of_keep (N := N.map f) h, ih, List.map_cons]; rfl
    | false => rw [apply_cons_of_drop h, apply_cons_of_drop (N := N.map f) h, ih]

theorem front_map (f : β → γ) (k : Nat) (s : List α) : (N.map f).front k s = N.front k s := by
  induction s generalizing k with
  | nil => simp
  | cons a s ih =>
    cases k with
    | zero => simp
    | succ k => rw [front, front, ih, ih]; rfl

theorem behind_map (f : β → γ) (k : Nat) (s : List α) : (N.map f).behind k s = N.behind k s := by
  have h := (N.map f).front_append_behind k s
  rw [front_map] at h
  exact List.append_cancel_left (h.trans (N.front_append_behind k s).symm)

theorem apply_map_of_keep {M : Sieve α α} {f : α → α}
    (hkeep : ∀ a s, M.keep (f a) (s.map f) = M.keep a s) (himage : ∀ a, M.image (f a) = f (M.image a))
    (s : List α) : M.apply (s.map f) = (M.apply s).map f := by
  induction s with
  | nil => rfl
  | cons a s ih =>
    rw [List.map_cons]
    cases h : M.keep a s with
    | true =>
      rw [apply_cons_of_keep h, apply_cons_of_keep ((hkeep a s).trans h), ih, himage, List.map_cons]
    | false => rw [apply_cons_of_drop h, apply_cons_of_drop ((hkeep a s).trans h), ih]

def all (f : α → β) : Sieve α β := ⟨fun _ _ => true, f⟩

theorem apply_all (f : α → β) (s : List α) : (all f).apply s = s.map f := by
  induction s with
  | nil => rfl
  | cons a s ih => rw [apply_cons_of_keep rfl, ih, List.map_cons]; rfl

theorem front_all (f : α → β) (k : Nat) (s : List α) : (all f).front k s = s.take k := by
  induction s generalizing k with
  | nil => simp
  | cons a s ih =>
    cases k with
    | zero => simp
    | succ k => rw [front_succ_of_keep rfl, ih, List.take_succ_cons]

theorem behind_all (f : α → β) (k : Nat) (s : List α) : (all f).behind k s = s.drop k := by
  have h := (all f).front_append_behind k s
  rw [front_all] at h
  exact List.append_cancel_left (h.trans (List.take_append_drop k s).symm)

end Sieve

end IronClaw.Foundation
