import Mathlib.Logic.Function.Basic
import Mathlib.Data.List.Induction


/-!
# Keyed writes behind a store

A store answers from memory and hands its writes to a slower medium. A write may overtake those to
other keys, never an earlier one to its own.
-/

namespace IronClaw.Foundation

variable {K V : Type*}

inductive Write (K V : Type*) where
  | put (key : K) (value : V)
  | del (key : K)
deriving DecidableEq

namespace Write

def key : Write K V → K
  | put k _ => k
  | del k => k

/-- What the write's key holds after it. -/
def value : Write K V → Option V
  | put _ v => some v
  | del _ => none

variable (k : K)

@[simp] theorem key_put (v : V) : (put k v).key = k := rfl
@[simp] theorem key_del : (del k : Write K V).key = k := rfl
@[simp] theorem value_put (v : V) : (put k v).value = some v := rfl
@[simp] theorem value_del : (del k : Write K V).value = none := rfl

variable [DecidableEq K]

def apply (w : Write K V) (d : K → Option V) : K → Option V :=
  Function.update d w.key w.value

theorem apply_self (w : Write K V) (d : K → Option V) : w.apply d w.key = w.value :=
  Function.update_self ..

theorem apply_of_ne {w : Write K V} {k : K} (h : k ≠ w.key) (d : K → Option V) :
    w.apply d k = d k :=
  Function.update_of_ne h ..

theorem apply_comm {w w' : Write K V} (h : w.key ≠ w'.key) (d : K → Option V) :
    w.apply (w'.apply d) = w'.apply (w.apply d) :=
  Function.update_comm h.symm ..

end Write

variable [DecidableEq K]

/-- The contents once the writes `ws` have been applied in order. -/
def flush (d : K → Option V) (ws : List (Write K V)) : K → Option V :=
  ws.foldl (fun d w => w.apply d) d

variable (d : K → Option V)

@[simp] theorem flush_nil : flush d [] = d := rfl

theorem flush_cons (w : Write K V) (ws : List (Write K V)) :
    flush d (w :: ws) = flush (w.apply d) ws := rfl

theorem flush_append (ws vs : List (Write K V)) : flush d (ws ++ vs) = flush (flush d ws) vs :=
  List.foldl_append

theorem flush_snoc (ws : List (Write K V)) (w : Write K V) :
    flush d (ws ++ [w]) = w.apply (flush d ws) := by
  rw [flush_append, flush_cons, flush_nil]

theorem apply_flush {w : Write K V} {ws : List (Write K V)} (h : ∀ v ∈ ws, v.key ≠ w.key)
    (d : K → Option V) : flush (w.apply d) ws = w.apply (flush d ws) := by
  induction ws generalizing d with
  | nil => rfl
  | cons v ws ih =>
    rw [flush_cons, flush_cons, Write.apply_comm (h v List.mem_cons_self)]
    exact ih (fun u hu => h u (List.mem_cons_of_mem v hu)) _

/-- **Overtaking.** A write that no pending write to the same key precedes may go first. -/
theorem flush_overtake {pre post : List (Write K V)} {w : Write K V}
    (h : ∀ v ∈ pre, v.key ≠ w.key) (d : K → Option V) :
    flush (w.apply d) (pre ++ post) = flush d (pre ++ w :: post) := by
  rw [flush_append, flush_append, flush_cons, apply_flush h]

theorem flush_cases (ws : List (Write K V)) (k : K) :
    (∃ w ∈ ws, w.key = k ∧ flush d ws k = w.value) ∨
      ((∀ w ∈ ws, w.key ≠ k) ∧ flush d ws k = d k) := by
  induction ws using List.reverseRecOn with
  | nil => exact .inr ⟨by simp, rfl⟩
  | append_singleton ws w ih =>
    rw [flush_snoc]
    by_cases hk : w.key = k
    · exact .inl ⟨w, by simp, hk, hk ▸ w.apply_self _⟩
    · rw [Write.apply_of_ne (Ne.symm hk)]
      rcases ih with ⟨v, hv, hvk, hval⟩ | ⟨hne, hval⟩
      · exact .inl ⟨v, by simp [hv], hvk, hval⟩
      · refine .inr ⟨fun v hv => ?_, hval⟩
        rcases List.mem_append.mp hv with hv | hv
        · exact hne v hv
        · rwa [List.mem_singleton.mp hv]

theorem flush_eq_some {d : K → Option V} {ws : List (Write K V)} {k : K} {v : V}
    (h : flush d ws k = some v) : Write.put k v ∈ ws ∨ ((∀ w ∈ ws, w.key ≠ k) ∧ d k = some v) := by
  rcases flush_cases d ws k with ⟨w, hw, hk, hval⟩ | ⟨hne, hval⟩
  · rw [h] at hval
    cases w with
    | put k' v' =>
      cases hval
      cases hk
      exact .inl hw
    | del k' => cases hval
  · exact .inr ⟨hne, hval ▸ h⟩

theorem flush_map_del (ks : List K) (k : K) :
    flush d (ks.map .del) k = if k ∈ ks then none else d k := by
  induction ks generalizing d with
  | nil => simp
  | cons k' ks ih =>
    rw [List.map_cons, flush_cons, ih]
    by_cases hk : k = k'
    · rw [hk, show (Write.del k').apply d k' = none from Write.apply_self ..]
      simp
    · rw [Write.apply_of_ne hk]
      simp [hk]

end IronClaw.Foundation
