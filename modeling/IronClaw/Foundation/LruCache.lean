import Mathlib.Data.List.Nodup

/-!
# Caches that forget what was used least recently

A cache is a list of entries, one for a key and as many as its capacity at most. A key that is
looked up or stored moves to the front; the last entry goes where there is no room.
-/

namespace IronClaw.Foundation

structure LruCache (K V : Type*) where
  cap : Nat
  entries : List (K × V)
  nodup : (entries.map Prod.fst).Nodup
  bounded : entries.length ≤ cap

namespace LruCache

variable {K V : Type*}

def empty (cap : Nat) : LruCache K V := ⟨cap, [], List.nodup_nil, Nat.zero_le cap⟩

@[simp] theorem entries_empty (cap : Nat) : (empty cap : LruCache K V).entries = [] := rfl

@[simp] theorem cap_empty (cap : Nat) : (empty cap : LruCache K V).cap = cap := rfl

variable [DecidableEq K]

def without (k : K) (entries : List (K × V)) : List (K × V) := entries.filter fun e => e.1 ≠ k

theorem mem_without {k : K} {entries : List (K × V)} {e : K × V} :
    e ∈ without k entries ↔ e ∈ entries ∧ e.1 ≠ k := by
  simp [without]

theorem nodup_cons_without {k : K} {v : V} {entries : List (K × V)}
    (h : (entries.map Prod.fst).Nodup) :
    (((k, v) :: without k entries).map Prod.fst).Nodup := by
  refine List.nodup_cons.mpr ⟨fun hmem => ?_, h.sublist (List.filter_sublist.map _)⟩
  obtain ⟨e, he, heq⟩ := List.mem_map.mp hmem
  exact (mem_without.mp he).2 heq

def lookup (k : K) (c : LruCache K V) : Option V :=
  (c.entries.find? fun e => e.1 = k).map Prod.snd

def push (k : K) (v : V) (c : LruCache K V) : LruCache K V where
  cap := c.cap
  entries := ((k, v) :: without k c.entries).take c.cap
  nodup := (nodup_cons_without c.nodup).sublist ((List.take_sublist _ _).map _)
  bounded := List.length_take_le _ _

/-- The value under a key, which moves to the front. -/
def get (k : K) (c : LruCache K V) : Option (V × LruCache K V) :=
  (c.lookup k).map fun v => (v, c.push k v)

variable {k : K} {v : V} {c c' : LruCache K V} {e : K × V}

@[simp] theorem cap_push : (c.push k v).cap = c.cap := rfl

theorem mem_of_lookup (h : c.lookup k = some v) : (k, v) ∈ c.entries := by
  obtain ⟨⟨k', v'⟩, hfind, rfl⟩ := Option.map_eq_some_iff.mp h
  have hkey : k' = k := by simpa using List.find?_some hfind
  subst hkey
  exact List.mem_of_find?_eq_some hfind

theorem mem_push (h : e ∈ (c.push k v).entries) : e = (k, v) ∨ e ∈ c.entries := by
  rcases List.mem_cons.mp (List.mem_of_mem_take h) with rfl | hmem
  · exact .inl rfl
  · exact .inr (mem_without.mp hmem).1

theorem length_without_lt (h : (k, v) ∈ c.entries) :
    (without k c.entries).length < c.entries.length := by
  rw [without, List.length_filter_lt_length_iff_exists]
  exact ⟨(k, v), h, by simp⟩

theorem eq_of_mem {v' : V} (h : (k, v) ∈ c.entries) (h' : (k, v') ∈ c.entries) : v = v' := by
  have heq := List.inj_on_of_nodup_map c.nodup h h' rfl
  exact (Prod.mk.inj heq).2

/-- **Looking up** finds an entry, and keeps all that are there. -/
theorem mem_of_get (h : c.get k = some (v, c')) :
    (k, v) ∈ c.entries ∧ c'.cap = c.cap ∧ ∀ e, e ∈ c'.entries ↔ e ∈ c.entries := by
  obtain ⟨v', hlookup, heq⟩ := Option.map_eq_some_iff.mp h
  cases heq
  have hmem := mem_of_lookup hlookup
  refine ⟨hmem, rfl, fun e => ?_⟩
  -- nothing is cut off, as the entry itself is moved
  have hroom : ((k, v) :: without k c.entries).length ≤ c.cap :=
    Nat.le_trans (Nat.succ_le_of_lt (length_without_lt hmem)) c.bounded
  have hentries : (c.push k v).entries = (k, v) :: without k c.entries :=
    List.take_of_length_le hroom
  rw [hentries, List.mem_cons, mem_without]
  constructor
  · rintro (rfl | ⟨he, -⟩)
    · exact hmem
    · exact he
  · intro he
    by_cases hkey : e.1 = k
    · left
      obtain ⟨k', v'⟩ := e
      dsimp only at hkey
      subst hkey
      rw [eq_of_mem he hmem]
    · exact .inr ⟨he, hkey⟩

end LruCache

end IronClaw.Foundation
