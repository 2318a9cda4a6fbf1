import Mathlib.Data.List.Nodup

/-!
# Lists with a key

The entries of a table, in the order in which it lists them, each with a key of its own. An entry is
saved in the place of the one with its key, or behind all others.
-/

namespace IronClaw.Foundation

variable {α κ : Type*} [DecidableEq κ]

def putKeyed (key : α → κ) (items : List α) (a : α) : List α :=
  if items.any fun b => key b = key a then items.map fun b => if key b = key a then a else b
  else items ++ [a]

theorem putKeyed_of_new {key : α → κ} {items : List α} {a : α} (h : ∀ b ∈ items, key b ≠ key a) :
    putKeyed key items a = items ++ [a] := by
  rw [putKeyed, if_neg]
  simpa using h

theorem map_key_putKeyed_of_mem {key : α → κ} {items : List α} {a b : α} (hb : b ∈ items)
    (h : key b = key a) : (putKeyed key items a).map key = items.map key := by
  have hany : (items.any fun b => key b = key a) = true :=
    List.any_eq_true.mpr ⟨b, hb, decide_eq_true h⟩
  rw [putKeyed, if_pos hany, List.map_map]
  refine List.map_congr_left fun c _ => ?_
  rw [Function.comp_apply]
  split_ifs with hc
  · exact hc.symm
  · rfl

structure Keyed (key : α → κ) where
  items : List α
  nodup : (items.map key).Nodup

namespace Keyed

variable {key : α → κ} {table : Keyed key} {a : α}

def save (table : Keyed key) (a : α) : Keyed key where
  items := putKeyed key table.items a
  nodup := by
    by_cases h : ∃ b ∈ table.items, key b = key a
    · obtain ⟨b, hb, heq⟩ := h
      rw [map_key_putKeyed_of_mem hb heq]
      exact table.nodup
    · have hnew : ∀ b ∈ table.items, key b ≠ key a := fun b hb heq => h ⟨b, hb, heq⟩
      rw [putKeyed_of_new hnew, List.map_append, List.nodup_append]
      refine ⟨table.nodup, List.pairwise_singleton _ _, fun k hk k' hk' heq => ?_⟩
      obtain ⟨b, hb, rfl⟩ := List.mem_map.mp hk
      rw [List.mem_singleton.mp hk'] at heq
      exact hnew b hb heq

theorem items_save_of_new (a : α) (h : ∀ b ∈ table.items, key b ≠ key a) :
    (table.save a).items = table.items ++ [a] := putKeyed_of_new h

theorem items_save_of_split (a : α) {front back : List α} {old : α}
    (hitems : table.items = front ++ old :: back) (hkey : key a = key old) :
    (table.save a).items = front ++ a :: back := by
  have hnodup := table.nodup
  rw [hitems, List.map_append, List.map_cons, List.nodup_append] at hnodup
  obtain ⟨-, hback, hcross⟩ := hnodup
  have hfront : ∀ b ∈ front, key b ≠ key a := fun b hb heq =>
    hcross (key b) (List.mem_map_of_mem hb) (key old) List.mem_cons_self (heq.trans hkey)
  have hrest : ∀ b ∈ back, key b ≠ key a := by
    intro b hb heq
    refine (List.nodup_cons.mp hback).1 ?_
    rw [← hkey, ← heq]
    exact List.mem_map_of_mem hb
  have hkept : ∀ l : List α, (∀ b ∈ l, key b ≠ key a) →
      (l.map fun b => if key b = key a then a else b) = l := by
    intro l hl
    refine (List.map_congr_left fun b hb => ?_).trans (List.map_id l)
    rw [if_neg (hl b hb), id]
  have hany : (table.items.any fun b => key b = key a) = true := by simp [hitems, hkey]
  simp only [save, putKeyed]
  rw [if_pos hany, hitems, List.map_append, List.map_cons, if_pos hkey.symm, hkept front hfront,
    hkept back hrest]

def find? (table : Keyed key) (k : κ) : Option α := table.items.find? fun a => key a = k

end Keyed

end IronClaw.Foundation
