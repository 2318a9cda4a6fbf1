import Mathlib.Data.List.Basic

/-!
# Logs

A log is extended at its end. What is asserted of each entry and of what came before it has to be
shown for new entries only. The same goes for a log that has its last entry first.
-/

namespace IronClaw.Foundation

variable {α : Type*} {log events before after rest : List α} {e e' : α}

theorem append_eq_append_cons (h : log ++ events = before ++ e :: after) :
    (∃ after', log = before ++ e :: after') ∨
      ∃ before', before = log ++ before' ∧ events = before' ++ e :: after := by
  rcases List.append_eq_append_iff.mp h with ⟨before', rfl, hevents⟩ | ⟨rest, hlog, hrest⟩
  · exact .inr ⟨before', rfl, hevents⟩
  · cases rest with
    | nil => exact .inr ⟨[], by rw [hlog, List.append_nil, List.append_nil], hrest.symm⟩
    | cons e' rest =>
      cases hrest
      exact .inl ⟨rest, hlog⟩

theorem snoc_eq_append_cons (h : log ++ [e'] = before ++ e :: after) :
    (∃ after', log = before ++ e :: after') ∨ before = log ∧ e = e' := by
  rcases append_eq_append_cons h with hold | ⟨before', rfl, hevents⟩
  · exact .inl hold
  · cases before' with
    | nil =>
      cases hevents
      exact .inr ⟨List.append_nil log, rfl⟩
    | cons b before' => simp at hevents

theorem mem_of_append_cons_eq {earlier : List α} (h : before ++ e :: after = earlier ++ e' :: rest)
    (hlast : e' ∉ after) : e = e' ∨ e ∈ rest := by
  rcases append_eq_append_cons h with ⟨after', hbefore⟩ | ⟨middle, rfl, hevents⟩
  · -- the second entry would be among what precedes the first one
    rw [hbefore, List.append_assoc, List.cons_append] at h
    have hrest : rest = after' ++ e :: after := by
      have hcons := List.append_cancel_left h
      cases hcons
      rfl
    exact .inr (hrest ▸ List.mem_append_right _ List.mem_cons_self)
  · cases middle with
    | nil =>
      cases hevents
      exact .inl rfl
    | cons m middle =>
      cases hevents
      exact absurd (List.mem_append_right middle List.mem_cons_self) hlast

theorem mem_takeWhile_iff {p : α → Bool} : e ∈ log.takeWhile p ↔
    ∃ before after, log = before ++ e :: after ∧ (∀ d ∈ before, p d = true) ∧ p e = true := by
  constructor
  · intro he
    obtain ⟨before, rest, hsplit⟩ := List.append_of_mem he
    have hpass : ∀ d ∈ before ++ e :: rest, p d = true := by
      intro d hd
      rw [← hsplit] at hd
      exact List.all_eq_true.mp List.all_takeWhile d hd
    refine ⟨before, rest ++ log.dropWhile p, ?_, fun d hd => ?_, ?_⟩
    · rw [← List.cons_append, ← List.append_assoc, ← hsplit, List.takeWhile_append_dropWhile]
    · exact hpass d (List.mem_append_left _ hd)
    · exact hpass e (List.mem_append_right _ List.mem_cons_self)
  · rintro ⟨before, after, rfl, hbefore, he⟩
    rw [List.takeWhile_append_of_pos hbefore, List.takeWhile_cons_of_pos he]
    exact List.mem_append_right _ List.mem_cons_self

/-- Each entry is related to the entries before it. -/
def Successively (P : α → List α → Prop) : List α → Prop
  | [] => True
  | e :: earlier => P e earlier ∧ Successively P earlier

@[simp] theorem successively_nil (P : α → List α → Prop) : Successively P [] := trivial

end IronClaw.Foundation
