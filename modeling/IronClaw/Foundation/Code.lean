import Mathlib.Data.List.Basic
import Mathlib.Data.List.Infix
import Mathlib.Tactic.Cases

/-!
# Readable codes

A code writes values as lists of symbols. It is readable before certain continuations if the two can
be told apart, and self-delimiting if it is so before all.
-/

namespace IronClaw.Foundation

open List (append_assoc prefix_append)

variable {τ α β : Type*}

/-- What is written and followed by certain continuations can be read. -/
def ReadableBefore (K : List τ → Prop) (f : α → List τ) : Prop :=
  ∀ x y s t, K s → K t → f x ++ s = f y ++ t → x = y ∧ s = t

/-- What is written can be read, whatever follows. -/
def SelfDelimiting (f : α → List τ) : Prop := ∀ x y s t, f x ++ s = f y ++ t → x = y ∧ s = t

variable {K : List τ → Prop} {f : α → List τ} {g : β → α}

theorem SelfDelimiting.readableBefore (h : SelfDelimiting f) : ReadableBefore K f :=
  fun x y s t _ _ heq => h x y s t heq

/-- Two beginnings of which none begins the other one. -/
def Clash (l l' : List τ) : Prop := ¬ l <+: l' ∧ ¬ l' <+: l

instance [DecidableEq τ] (l l' : List τ) : Decidable (Clash l l') :=
  inferInstanceAs (Decidable (_ ∧ _))

theorem Clash.not_prefix_append {l l' : List τ} (h : Clash l l') (s : List τ) :
    ¬ l <+: l' ++ s := by
  intro hprefix
  rcases List.prefix_or_prefix_of_prefix hprefix (prefix_append l' s) with hl | hl
  · exact h.1 hl
  · exact h.2 hl

theorem Clash.append_ne {l l' : List τ} (h : Clash l l') (s t : List τ) : l ++ s ≠ l' ++ t := by
  intro heq
  refine h.not_prefix_append t ?_
  rw [← heq]
  exact prefix_append l s

def writeOptional (l : List τ) (f : α → List τ) : Option α → List τ
  | none => []
  | some a => l ++ f a

theorem SelfDelimiting.optional (h : SelfDelimiting f) (l : List τ) :
    ReadableBefore (fun s => ¬ l <+: s) (writeOptional l f) := by
  rintro (_ | x) (_ | y) s t hs ht heq
  · exact ⟨rfl, heq⟩
  · refine absurd ?_ hs
    change s = _ at heq
    rw [heq, writeOptional, append_assoc]
    exact prefix_append _ _
  · refine absurd ?_ ht
    change _ = t at heq
    rw [← heq, writeOptional, append_assoc]
    exact prefix_append _ _
  · simp only [writeOptional, append_assoc, List.append_cancel_left_eq] at heq
    obtain ⟨rfl, rfl⟩ := h x y s t heq
    exact ⟨rfl, rfl⟩

theorem not_prefix_writeOptional {l l' s : List τ} (h : Clash l l') (hs : ¬ l <+: s)
    (o : Option α) : ¬ l <+: writeOptional l' f o ++ s := by
  cases o with
  | none => exact hs
  | some a =>
    rw [writeOptional, append_assoc]
    exact h.not_prefix_append _

def writeSequence (f : α → List τ) (stop : List τ) (as : List α) : List τ := as.flatMap f ++ stop

/-- A sequence can be read if each element can, and no element begins like the stop. -/
theorem ReadableBefore.sequence (h : ReadableBefore K f) {stop : List τ}
    (helement : ∀ a s, K (f a ++ s)) (hstop : ∀ s, K (stop ++ s))
    (hne : ∀ a s t, f a ++ s ≠ stop ++ t) : SelfDelimiting (writeSequence f stop) := by
  have hcons : ∀ a as s, writeSequence f stop (a :: as) ++ s =
      f a ++ (writeSequence f stop as ++ s) := by
    intro a as s
    simp [writeSequence]
  have hrest : ∀ as s, K (writeSequence f stop as ++ s) := by
    intro as s
    cases as with
    | nil => exact hstop s
    | cons a as =>
      rw [hcons]
      exact helement a _
  intro as
  induction as with
  | nil =>
    intro bs s t heq
    cases bs with
    | nil => exact ⟨rfl, List.append_cancel_left heq⟩
    | cons b bs =>
      rw [hcons] at heq
      exact absurd heq.symm (hne b _ s)
  | cons a as ih =>
    intro bs s t heq
    cases bs with
    | nil =>
      rw [hcons] at heq
      exact absurd heq (hne a _ t)
    | cons b bs =>
      rw [hcons, hcons] at heq
      obtain ⟨rfl, htail⟩ := h a b _ _ (hrest as s) (hrest bs t) heq
      obtain ⟨rfl, hst⟩ := ih bs s t htail
      exact ⟨rfl, hst⟩

theorem ReadableBefore.cons (h : ReadableBefore K f) (c : τ) :
    ReadableBefore K fun a => c :: f a := fun x y s t hs ht heq =>
  h x y s t hs ht (List.cons.inj heq).2

theorem splitOn_terminated [BEq τ] [ReflBEq τ] (x : τ) (ls : List (List τ)) :
    (ls.flatMap fun l => l ++ [x]).splitOn x = (ls.flatMap fun l => l.splitOn x) ++ [[]] := by
  induction ls with
  | nil => rfl
  | cons l ls ih =>
    rw [List.flatMap_cons, append_assoc, List.singleton_append, List.splitOn_append_cons_self,
      ih, List.flatMap_cons, append_assoc]

/-- Such sequences are written the same if they are the same once each list is split at the
symbol. -/
theorem terminated_eq_iff [BEq τ] [LawfulBEq τ] (x : τ) (ls ls' : List (List τ)) :
    (ls.flatMap fun l => l ++ [x]) = (ls'.flatMap fun l => l ++ [x]) ↔
      (ls.flatMap fun l => l.splitOn x) = ls'.flatMap fun l => l.splitOn x := by
  constructor
  · intro heq
    have hsplit := congrArg (List.splitOn x) heq
    rw [splitOn_terminated, splitOn_terminated] at hsplit
    exact List.append_cancel_right hsplit
  · intro heq
    calc (ls.flatMap fun l => l ++ [x])
        = [x].intercalate ((ls.flatMap fun l => l ++ [x]).splitOn x) :=
          (List.intercalate_splitOn x).symm
      _ = [x].intercalate ((ls'.flatMap fun l => l ++ [x]).splitOn x) := by
          rw [splitOn_terminated, heq, splitOn_terminated]
      _ = ls'.flatMap fun l => l ++ [x] := List.intercalate_splitOn x

end IronClaw.Foundation
