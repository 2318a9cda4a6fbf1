import Mathlib.Data.List.Pairwise
import Mathlib.Data.List.TakeDrop
import IronClaw.Foundation.Run

/-!
# Interleaved tasks

Tasks share a state and take turns. A step may change the state, and leaves what is still to be done
in the task's place. An assertion of a task has to survive the steps of others.
-/

namespace IronClaw.Foundation

open List (mem_append pairwise_append)

/-- A shared state and the tasks under way. -/
structure Pool (σ τ : Type*) where
  shared : σ
  tasks : List τ

namespace Pool

variable {σ τ ε : Type*}

def start (t : τ) (p : Pool σ τ) : Pool σ τ := { p with tasks := p.tasks ++ [t] }

/-- The task at a place takes its next step, if there is one and the step is enabled. -/
def advance (next : ε → σ → τ → Option (σ × List τ)) (i : Nat) (e : ε) (p : Pool σ τ) :
    Option (Pool σ τ) :=
  match p.tasks[i]? with
  | none => none
  | some t =>
    (next e p.shared t).map fun r => ⟨r.1, p.tasks.take i ++ r.2 ++ p.tasks.drop (i + 1)⟩

def others (i : Nat) (p : Pool σ τ) : List τ := p.tasks.take i ++ p.tasks.drop (i + 1)

variable {next : ε → σ → τ → Option (σ × List τ)} {i : Nat} {e : ε} {p p' : Pool σ τ}

theorem advance_eq_some_iff :
    advance next i e p = some p' ↔
      ∃ front t back s' ts, p.tasks = front ++ t :: back ∧ front.length = i ∧
        next e p.shared t = some (s', ts) ∧ p' = ⟨s', front ++ ts ++ back⟩ := by
  constructor
  · intro h
    unfold advance at h
    split at h
    · cases h
    · rename_i t ht
      obtain ⟨hi, rfl⟩ := List.getElem?_eq_some_iff.mp ht
      obtain ⟨⟨s', ts⟩, hnext, rfl⟩ := Option.map_eq_some_iff.mp h
      refine ⟨p.tasks.take i, p.tasks[i], p.tasks.drop (i + 1), s', ts, ?_, ?_, hnext, rfl⟩
      · rw [← List.drop_eq_getElem_cons hi, List.take_append_drop]
      · exact List.length_take_of_le (Nat.le_of_lt hi)
  · rintro ⟨front, t, back, s', ts, htasks, rfl, hnext, rfl⟩
    have hget : p.tasks[front.length]? = some t := by simp [htasks]
    rw [advance, hget]
    simp [hnext, htasks]

variable {front back : List τ}

theorem others_eq {t : τ} (h : p.tasks = front ++ t :: back) (hi : front.length = i) :
    p.others i = front ++ back := by
  subst hi
  simp [others, h]

variable {t u : τ}

theorem mem_others_of_mem (h : p.tasks = front ++ t :: back) (hi : front.length = i)
    (hu : u ∈ front ++ back) : u ∈ p.others i := by
  rw [others_eq h hi]
  exact hu

theorem mem_of_split (h : p.tasks = front ++ t :: back) (hu : u ∈ front ++ back) : u ∈ p.tasks := by
  rw [h]
  rcases mem_append.mp hu with hu | hu
  · exact List.mem_append_left _ hu
  · exact List.mem_append_right _ (List.mem_cons_of_mem t hu)

theorem mem_split_iff : u ∈ front ++ t :: back ↔ u = t ∨ u ∈ front ++ back := by
  rw [mem_append, List.mem_cons, mem_append, or_left_comm]

theorem mem_of_mem_others {u : τ} (h : u ∈ p.others i) : u ∈ p.tasks := by
  rcases mem_append.mp h with h | h
  · exact List.mem_of_mem_take h
  · exact List.mem_of_mem_drop h

/-- The shared state satisfies `I`, each task `A`, and any two tasks `R`. -/
structure Holds (I : σ → Prop) (A : σ → τ → Prop) (R : τ → τ → Prop) (p : Pool σ τ) : Prop where
  shared : I p.shared
  tasks : ∀ t ∈ p.tasks, A p.shared t
  apart : p.tasks.Pairwise R

variable {I : σ → Prop} {A : σ → τ → Prop} {R : τ → τ → Prop}

theorem Holds.empty {s : σ} (h : I s) : Holds I A R ⟨s, []⟩ where
  shared := h
  tasks := fun _ ht => absurd ht List.not_mem_nil
  apart := List.Pairwise.nil

theorem Holds.start (h : Holds I A R p) {t : τ} (ht : A p.shared t)
    (hapart : ∀ u ∈ p.tasks, R u t) : Holds I A R (p.start t) where
  shared := h.shared
  tasks := by
    intro u hu
    rcases mem_append.mp hu with hu | hu
    · exact h.tasks u hu
    · rw [List.mem_singleton.mp hu]
      exact ht
  apart := by
    refine pairwise_append.mpr ⟨h.apart, List.pairwise_singleton _ _, ?_⟩
    intro u hu v hv
    rw [List.mem_singleton.mp hv]
    exact hapart u hu

theorem Holds.apart_of_mem (h : Holds I A R p) (hsymm : ∀ u v, R u v → R v u)
    (htasks : p.tasks = front ++ t :: back) (hu : u ∈ front ++ back) : R t u := by
  have hpair := h.apart
  rw [htasks] at hpair
  obtain ⟨-, hback, hcross⟩ := pairwise_append.mp hpair
  rcases mem_append.mp hu with hu | hu
  · exact hsymm u t (hcross u hu t List.mem_cons_self)
  · exact (List.pairwise_cons.mp hback).1 u hu

/-- **The rule for a step**: it establishes its assertions, and keeps those of the other tasks. -/
theorem Holds.replace (h : Holds I A R p) (hsymm : ∀ u v, R u v → R v u)
    {front back ts : List τ} {t : τ} {s' : σ} (htasks : p.tasks = front ++ t :: back)
    (hshared : I s') (hown : ∀ t' ∈ ts, A s' t')
    (hframe : ∀ u ∈ front ++ back, A p.shared u → R t u → A s' u)
    (hapart : ∀ u ∈ front ++ back, R t u → ∀ t' ∈ ts, R t' u) (hnew : ts.Pairwise R) :
    Holds I A R ⟨s', front ++ ts ++ back⟩ where
  shared := hshared
  tasks := by
    intro u hu
    simp only [mem_append, or_assoc] at hu
    have hkept : u ∈ front ++ back → A s' u := by
      intro hmem
      exact hframe u hmem (h.tasks u (mem_of_split htasks hmem))
        (h.apart_of_mem hsymm htasks hmem)
    rcases hu with hu | hu | hu
    · exact hkept (List.mem_append_left _ hu)
    · exact hown u hu
    · exact hkept (List.mem_append_right _ hu)
  apart := by
    have hpair := h.apart
    rw [htasks] at hpair
    obtain ⟨hfront, hback, hcross⟩ := pairwise_append.mp hpair
    have hnewApart : ∀ u ∈ front ++ back, ∀ t' ∈ ts, R t' u := fun u hu =>
      hapart u hu (h.apart_of_mem hsymm htasks hu)
    refine pairwise_append.mpr ⟨pairwise_append.mpr ⟨hfront, hnew, ?_⟩,
      (List.pairwise_cons.mp hback).2, ?_⟩
    · intro u hu t' ht'
      exact hsymm t' u (hnewApart u (List.mem_append_left _ hu) t' ht')
    · intro u hu v hv
      rcases mem_append.mp hu with hu | hu
      · exact hcross u hu v (List.mem_cons_of_mem t hv)
      · exact hnewApart v (List.mem_append_right _ hv) u hu

/-- The rule for a step that no task takes. The tasks that it starts get along with the others. -/
theorem Holds.extend (h : Holds I A R p) {s' : σ} {ts : List τ} (hshared : I s')
    (hframe : ∀ u ∈ p.tasks, A p.shared u → A s' u) (hnew : ∀ t ∈ ts, A s' t)
    (hapart : ∀ u ∈ p.tasks, ∀ t ∈ ts, R u t) (hnewApart : ts.Pairwise R) :
    Holds I A R ⟨s', p.tasks ++ ts⟩ where
  shared := hshared
  tasks := by
    intro u hu
    rcases mem_append.mp hu with hu | hu
    · exact hframe u hu (h.tasks u hu)
    · exact hnew u hu
  apart := pairwise_append.mpr ⟨h.apart, hnewApart, hapart⟩

end Pool

end IronClaw.Foundation
