import Mathlib.Data.List.MinMax
import IronClaw.Foundation.HashMap

/-!
# Maps of bounded size

A map makes room by giving up the entry of the least age, again and again, until it has fewer
entries than a limit. Of two entries of the same age the first one goes.
-/

namespace IronClaw.Foundation.HashMap

variable {K V : Type*} [DecidableEq K]

omit [DecidableEq K] in
def size (m : HashMap K V) : Nat := m.keys.length

theorem size_erase_of_mem {m : HashMap K V} {k : K} (h : k ∈ m) :
    size (m.erase k) = size m - 1 := by
  rw [size, AList.keys_erase, List.length_erase_of_mem (AList.mem_keys.mp h), size]

theorem size_erase_le (m : HashMap K V) (k : K) : size (m.erase k) ≤ size m := by
  rw [size, AList.keys_erase]
  exact List.length_erase_le

theorem size_insert_pos (m : HashMap K V) (k : K) (v : V) : 0 < size (m.insert k v) := by
  rw [size, AList.keys_insert]
  exact Nat.succ_pos _

theorem size_insert_le (m : HashMap K V) (k : K) (v : V) : size (m.insert k v) ≤ size m + 1 := by
  rw [size, AList.keys_insert, List.length_cons]
  exact Nat.succ_le_succ List.length_erase_le

@[simp] theorem size_adjust (m : HashMap K V) (k : K) (f : V → V) :
    size (adjust m k f) = size m := by
  simp [size, AList.keys, adjust, List.keys]

def leastBy (age : V → Nat) (m : HashMap K V) : Option K :=
  (m.entries.argmin fun e => age e.2).map Sigma.fst

/-- Entries are given up while there are as many as the limit, at most so many times. -/
def evictFrom (age : V → Nat) (limit : Nat) : Nat → HashMap K V → HashMap K V
  | 0, m => m
  | n + 1, m =>
    if limit ≤ size m then
      match leastBy age m with
      | some k => evictFrom age limit n (m.erase k)
      | none => m
    else m

/-- The oldest entries are given up until there are fewer than the limit. -/
def evict (age : V → Nat) (limit : Nat) (m : HashMap K V) : HashMap K V :=
  evictFrom age limit (size m) m

variable {age : V → Nat} {limit : Nat} {m : HashMap K V}

omit [DecidableEq K] in
theorem mem_of_leastBy {k : K} (h : leastBy age m = some k) : k ∈ m := by
  obtain ⟨e, he, rfl⟩ := Option.map_eq_some_iff.mp h
  exact List.mem_keys_of_mem (List.argmin_mem he)

omit [DecidableEq K] in
theorem size_eq_zero_of_leastBy (h : leastBy age m = none) : size m = 0 := by
  rw [leastBy, Option.map_eq_none_iff, List.argmin_eq_none] at h
  simp [size, AList.keys, h]

theorem size_evictFrom_lt (hlimit : 0 < limit) {n : Nat} (h : size m < n + limit) :
    size (evictFrom age limit n m) < limit := by
  induction n generalizing m with
  | zero => simpa [evictFrom] using h
  | succ n ih =>
    rw [evictFrom]
    split_ifs with hfull
    · split
      · next k hk =>
        refine ih ?_
        rw [size_erase_of_mem (mem_of_leastBy hk)]
        omega
      · next hnone =>
        rw [size_eq_zero_of_leastBy hnone]
        exact hlimit
    · exact Nat.lt_of_not_le hfull

/-- **There is room** for an entry after an eviction, if there may be any entries. -/
theorem size_evict_lt (hlimit : 0 < limit) (m : HashMap K V) : size (evict age limit m) < limit :=
  size_evictFrom_lt hlimit (Nat.lt_add_of_pos_right hlimit)

theorem lookup_of_lookup_evict {k : K} {v : V} (h : (evict age limit m).lookup k = some v) :
    m.lookup k = some v := by
  rw [evict] at h
  generalize size m = n at h
  induction n generalizing m with
  | zero => exact h
  | succ n ih =>
    rw [evictFrom] at h
    split_ifs at h
    · split at h
      · have herased := ih h
        rw [lookup_erase] at herased
        split_ifs at herased
        exact herased
      · exact h
    · exact h

end IronClaw.Foundation.HashMap
