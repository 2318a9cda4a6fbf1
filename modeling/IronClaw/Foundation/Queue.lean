import Mathlib.Data.List.Basic
import Mathlib.Data.List.TakeDrop


/-!
# Queues of bounded length

Entries are pushed at the end, and the oldest are dropped while there are more than a limit. The
newest entry of a kind can be taken out.
-/

namespace IronClaw.Foundation

variable {α : Type*}

def popFrontWhileOver (max : Nat) : List α → List α
  | [] => []
  | x :: xs => if max < (x :: xs).length then popFrontWhileOver max xs else x :: xs

theorem popFrontWhileOver_of_le {max : Nat} {xs : List α} (h : xs.length ≤ max) :
    popFrontWhileOver max xs = xs := by
  cases xs with
  | nil => rfl
  | cons x xs => rw [popFrontWhileOver, if_neg (by omega)]

theorem popFrontWhileOver_eq_drop (max : Nat) (xs : List α) :
    popFrontWhileOver max xs = xs.drop (xs.length - max) := by
  induction xs with
  | nil => exact List.drop_nil.symm
  | cons x xs ih =>
    rw [popFrontWhileOver]
    split
    · have hover : (x :: xs).length - max = xs.length - max + 1 := by
        simp only [List.length_cons] at *
        omega
      rw [ih, hover, List.drop_succ_cons]
    · have hunder : (x :: xs).length - max = 0 := by omega
      rw [hunder, List.drop_zero]

theorem length_popFrontWhileOver_le (max : Nat) (xs : List α) :
    (popFrontWhileOver max xs).length ≤ max := by
  rw [popFrontWhileOver_eq_drop, List.length_drop]
  omega

def removeLast? (p : α → Bool) : List α → Option (α × List α)
  | [] => none
  | x :: xs =>
    match removeLast? p xs with
    | some (y, ys) => some (y, x :: ys)
    | none => if p x then some (x, xs) else none

theorem removeLast?_eq_none_iff {p : α → Bool} {xs : List α} :
    removeLast? p xs = none ↔ ∀ x ∈ xs, ¬ p x := by
  induction xs with
  | nil => simp [removeLast?]
  | cons x xs ih =>
    rw [removeLast?, List.forall_mem_cons, ← ih]
    cases h : removeLast? p xs with
    | none => simp
    | some r => simp

theorem removeLast?_eq_some_iff {p : α → Bool} {xs ys : List α} {y : α} :
    removeLast? p xs = some (y, ys) ↔
      ∃ front back, xs = front ++ y :: back ∧ p y ∧ (∀ z ∈ back, ¬ p z) ∧ ys = front ++ back := by
  induction xs generalizing y ys with
  | nil => simp [removeLast?]
  | cons x xs ih =>
    rw [removeLast?]
    cases h : removeLast? p xs with
    | none =>
      have hnone := removeLast?_eq_none_iff.mp h
      simp only [Option.ite_none_right_eq_some, Option.some.injEq, Prod.mk.injEq]
      constructor
      · rintro ⟨hp, rfl, rfl⟩
        exact ⟨[], xs, rfl, hp, hnone, rfl⟩
      · rintro ⟨front, back, hxs, hp, hback, rfl⟩
        cases front with
        | nil =>
          cases hxs
          exact ⟨hp, rfl, rfl⟩
        | cons f front =>
          cases hxs
          exact absurd hp (hnone y (by simp))
    | some r =>
      obtain ⟨z, zs⟩ := r
      obtain ⟨front, back, hxs, hp, hback, rfl⟩ := ih.mp h
      simp only [Option.some.injEq, Prod.mk.injEq]
      constructor
      · rintro ⟨rfl, rfl⟩
        exact ⟨x :: front, back, by rw [hxs, List.cons_append], hp, hback, rfl⟩
      · rintro ⟨front', back', hxs', hp', hback', rfl⟩
        cases front' with
        | nil =>
          cases hxs'
          exact absurd hp (hback' z (by simp [hxs]))
        | cons f front' =>
          obtain ⟨rfl, htail⟩ := List.cons.inj hxs'
          have hsome := ih.mpr ⟨front', back', htail, hp', hback', rfl⟩
          rw [h] at hsome
          obtain ⟨rfl, heq⟩ := Prod.mk.inj (Option.some.inj hsome)
          exact ⟨rfl, by rw [heq, List.cons_append]⟩

end IronClaw.Foundation
