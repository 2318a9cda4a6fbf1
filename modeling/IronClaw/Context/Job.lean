import IronClaw.Foundation.Json
import IronClaw.Tools.Approval

/-!
# The states of a job

A job takes a slot while it is pending, in progress or stuck; it can be completed and submitted, and
ends as accepted, failed or cancelled.
-/

namespace IronClaw.Context

open Foundation (Json)
open Tools (ApprovalContext)

abbrev Uuid := Nat

abbrev Time := Nat

inductive JobState where
  | pending
  | inProgress
  | completed
  | submitted
  | accepted
  | failed
  | stuck
  | cancelled
deriving DecidableEq

namespace JobState

/-- The second completion of a job is a transition as well, one that changes nothing. -/
def canTransitionTo : JobState → JobState → Bool
  | completed, completed => true
  | pending, inProgress | pending, failed | pending, cancelled => true
  | inProgress, completed | inProgress, failed | inProgress, stuck | inProgress, cancelled => true
  | completed, submitted | completed, failed => true
  | submitted, accepted | submitted, failed => true
  | stuck, inProgress | stuck, failed | stuck, cancelled => true
  | _, _ => false

def isTerminal : JobState → Bool
  | accepted | failed | cancelled => true
  | _ => false

def isParallelBlocking : JobState → Bool
  | pending | inProgress | stuck => true
  | _ => false

def display : JobState → String
  | pending => "pending"
  | inProgress => "in_progress"
  | completed => "completed"
  | submitted => "submitted"
  | accepted => "accepted"
  | failed => "failed"
  | stuck => "stuck"
  | cancelled => "cancelled"

theorem isParallelBlocking_of_canTransitionTo {s t : JobState} (h : s.canTransitionTo t)
    (ht : t.isParallelBlocking) : s.isParallelBlocking := by
  revert h ht
  cases s <;> cases t <;> decide

theorem not_isTerminal_of_canTransitionTo {s t : JobState} (h : s.canTransitionTo t) :
    ¬ s.isTerminal := by
  revert h
  cases s <;> cases t <;> decide

theorem not_isParallelBlocking_of_isTerminal {s : JobState} (h : s.isTerminal) :
    ¬ s.isParallelBlocking := by
  revert h
  cases s <;> decide

end JobState

structure StateTransition where
  fromState : JobState
  toState : JobState
  timestamp : Time
  reason : Option String
deriving DecidableEq

structure JobContext where
  jobId : Uuid
  state : JobState
  userId : String
  title : String
  description : String
  createdAt : Time
  startedAt : Option Time
  completedAt : Option Time
  totalTokensUsed : Nat
  /-- No limit if it is 0. -/
  maxTokens : Nat
  repairAttempts : Nat
  transitions : List StateTransition
  metadata : Json
  approvalContext : Option ApprovalContext

def maxTransitions : Nat := 200

namespace JobContext

def withUser (jobId : Uuid) (now : Time) (userId title description : String) : JobContext where
  jobId := jobId
  state := .pending
  userId := userId
  title := title
  description := description
  createdAt := now
  startedAt := none
  completedAt := none
  totalTokensUsed := 0
  maxTokens := 0
  repairAttempts := 0
  transitions := []
  metadata := .null
  approvalContext := none

def stamped (c : JobContext) (now : Time) : JobState → JobContext
  | .inProgress => { c with startedAt := c.startedAt.orElse fun _ => some now }
  | .completed | .accepted | .failed | .cancelled => { c with completedAt := some now }
  | _ => c

def transitionTo (c : JobContext) (now : Time) (newState : JobState) (reason : Option String) :
    Except String Unit × JobContext :=
  if c.state.canTransitionTo newState then
    if c.state = newState then (.ok (), c)
    else
      let transitions := c.transitions ++ [⟨c.state, newState, now, reason⟩]
      let transitions := transitions.drop (transitions.length - maxTransitions)
      (.ok (), ({ c with state := newState, transitions }).stamped now newState)
  else (.error s!"Cannot transition from {c.state.display} to {newState.display}", c)

def markStuck (c : JobContext) (now : Time) (reason : String) : Except String Unit × JobContext :=
  c.transitionTo now .stuck (some reason)

def attemptRecovery (c : JobContext) (now : Time) : Except String Unit × JobContext :=
  if c.state = .stuck then
    ({ c with repairAttempts := c.repairAttempts + 1 }).transitionTo now .inProgress
      (some "Recovery attempt")
  else (.error "Job is not stuck", c)

/-- Record token usage from a model call. The limit and what is used, if it is exceeded now. -/
def addTokens (c : JobContext) (tokens : Nat) : Except (Nat × Nat) Unit × JobContext :=
  let c := { c with totalTokensUsed := c.totalTokensUsed + tokens }
  if 0 < c.maxTokens ∧ c.maxTokens < c.totalTokensUsed then
    (.error (c.totalTokensUsed, c.maxTokens), c)
  else (.ok (), c)

@[simp] theorem stamped_state (c : JobContext) (now : Time) (s : JobState) :
    (c.stamped now s).state = c.state := by
  cases s <;> rfl

theorem transitionTo_cases (c : JobContext) (now : Time) (newState : JobState)
    (reason : Option String) : (c.transitionTo now newState reason).2.state = c.state ∨
      c.state.canTransitionTo newState ∧
        (c.transitionTo now newState reason).2.state = newState := by
  unfold transitionTo
  split_ifs with hcan hsame
  · exact .inl rfl
  · exact .inr ⟨hcan, stamped_state _ _ _⟩
  · exact .inl rfl

end JobContext

inductive JobChange where
  | transitionTo (newState : JobState) (reason : Option String)
  | markStuck (reason : String)
  | attemptRecovery
deriving DecidableEq

def JobChange.apply (now : Time) (c : JobContext) : JobChange → Except String Unit × JobContext
  | transitionTo newState reason => c.transitionTo now newState reason
  | markStuck reason => c.markStuck now reason
  | attemptRecovery => c.attemptRecovery now

theorem JobChange.apply_cases (change : JobChange) (now : Time) (c : JobContext) :
    (change.apply now c).2.state = c.state ∨
      c.state.canTransitionTo (change.apply now c).2.state := by
  have hto : ∀ (c : JobContext) newState reason,
      (c.transitionTo now newState reason).2.state = c.state ∨
        c.state.canTransitionTo (c.transitionTo now newState reason).2.state := by
    intro c newState reason
    rcases c.transitionTo_cases now newState reason with h | ⟨hcan, h⟩
    · exact .inl h
    · rw [h]
      exact .inr hcan
  cases change with
  | transitionTo newState reason => exact hto c newState reason
  | markStuck reason => exact hto c .stuck (some reason)
  | attemptRecovery =>
    simp only [apply, JobContext.attemptRecovery]
    split_ifs with hstuck
    · exact hto { c with repairAttempts := c.repairAttempts + 1 } .inProgress _
    · exact .inl rfl

theorem JobChange.isParallelBlocking_of_apply {change : JobChange} {now : Time} {c : JobContext}
    (h : (change.apply now c).2.state.isParallelBlocking) : c.state.isParallelBlocking := by
  rcases change.apply_cases now c with hsame | hcan
  · rwa [hsame] at h
  · exact JobState.isParallelBlocking_of_canTransitionTo hcan h

theorem JobChange.state_apply_of_isTerminal {change : JobChange} {now : Time} {c : JobContext}
    (h : c.state.isTerminal) : (change.apply now c).2.state = c.state := by
  rcases change.apply_cases now c with hsame | hcan
  · exact hsame
  · exact absurd h (JobState.not_isTerminal_of_canTransitionTo hcan)

theorem JobChange.tokens_apply (change : JobChange) (now : Time) (c : JobContext) :
    (change.apply now c).2.totalTokensUsed = c.totalTokensUsed ∧
      (change.apply now c).2.maxTokens = c.maxTokens := by
  have hstamped : ∀ (c : JobContext) newState, (c.stamped now newState).totalTokensUsed =
      c.totalTokensUsed ∧ (c.stamped now newState).maxTokens = c.maxTokens := by
    intro c newState
    cases newState <;> exact ⟨rfl, rfl⟩
  have hto : ∀ (c : JobContext) newState reason,
      (c.transitionTo now newState reason).2.totalTokensUsed = c.totalTokensUsed ∧
        (c.transitionTo now newState reason).2.maxTokens = c.maxTokens := by
    intro c newState reason
    unfold JobContext.transitionTo
    split_ifs
    · exact ⟨rfl, rfl⟩
    · exact hstamped _ newState
    · exact ⟨rfl, rfl⟩
  cases change with
  | transitionTo newState reason => exact hto c newState reason
  | markStuck reason => exact hto c .stuck (some reason)
  | attemptRecovery =>
    simp only [apply, JobContext.attemptRecovery]
    split_ifs
    · exact hto _ .inProgress _
    · exact ⟨rfl, rfl⟩

section History

/-- The transitions lead from one state to another, each to a new state that is allowed. -/
def Chained : JobState → List StateTransition → JobState → Prop
  | s, [], t => s = t
  | s, first :: rest, t => first.fromState = s ∧ s.canTransitionTo first.toState = true ∧
      s ≠ first.toState ∧ Chained first.toState rest t

variable {c : JobContext} {history : List StateTransition}

theorem Chained.snoc {s t : JobState} {last : StateTransition} (h : Chained s history t)
    (hfrom : last.fromState = t) (hcan : t.canTransitionTo last.toState = true)
    (hnew : t ≠ last.toState) : Chained s (history ++ [last]) last.toState := by
  induction history generalizing s with
  | nil =>
    cases h
    exact ⟨hfrom, hcan, hnew, rfl⟩
  | cons first rest ih => exact ⟨h.1, h.2.1, h.2.2.1, ih h.2.2.2⟩

namespace JobContext

/-- What a job remembers of all its transitions. -/
structure Remembers (c : JobContext) (history : List StateTransition) : Prop where
  chained : Chained .pending history c.state
  kept : c.transitions = history.drop (history.length - maxTransitions)
  started : c.startedAt = (history.find? fun t => t.toState = .inProgress).map (·.timestamp)
  completed : c.completedAt = (history.reverse.find? fun t =>
    t.toState ∈ [.completed, .accepted, .failed, .cancelled]).map (·.timestamp)

def changed (c : JobContext) (changes : List (Time × JobChange)) : JobContext :=
  changes.foldl (fun c change => (change.2.apply change.1 c).2) c

@[simp] theorem stamped_transitions (now : Time) (s : JobState) :
    (c.stamped now s).transitions = c.transitions := by
  cases s <;> rfl

theorem drop_snoc {α : Type} (l : List α) (a : α) (n : Nat) (kept : List α)
    (hkept : kept = l.drop (l.length - n) ++ [a]) :
    kept.drop (kept.length - n) = (l ++ [a]).drop ((l ++ [a]).length - n) := by
  have hlength : kept.length = l.length - (l.length - n) + 1 := by simp [hkept]
  have hdrop : kept = (l ++ [a]).drop (l.length - n) := by
    rw [hkept, List.drop_append_of_le_length (Nat.sub_le _ _)]
  rw [hlength, hdrop, List.drop_drop, List.length_append, List.length_singleton]
  congr 1
  omega

theorem Remembers.transitionTo (h : c.Remembers history) (now : Time) (newState : JobState)
    (reason : Option String) : ∃ added,
      (c.transitionTo now newState reason).2.Remembers (history ++ added) ∧
        (added.map StateTransition.timestamp).Sublist [now] := by
  unfold JobContext.transitionTo
  split_ifs with hcan hsame
  · exact ⟨[], by simpa using h, List.nil_sublist _⟩
  · refine ⟨[⟨c.state, newState, now, reason⟩], ⟨?_, ?_, ?_, ?_⟩, List.Sublist.refl _⟩
    · rw [stamped_state]
      exact h.chained.snoc rfl hcan hsame
    · rw [stamped_transitions]
      dsimp only
      rw [drop_snoc history _ _ _ (congrArg (· ++ [_]) h.kept)]
    · -- the first entry into progress stays the first one
      have hstarted := h.started
      rw [List.find?_append]
      generalize history.find? _ = first at hstarted ⊢
      cases newState <;> cases first <;> simp_all [stamped]
    · -- the last ending is the new one, if it is an ending
      have hcompleted := h.completed
      cases newState <;> simp_all [stamped]
  · exact ⟨[], by simpa using h, List.nil_sublist _⟩

theorem Remembers.apply (h : c.Remembers history) (now : Time) (change : JobChange) : ∃ added,
    (change.apply now c).2.Remembers (history ++ added) ∧
      (added.map StateTransition.timestamp).Sublist [now] := by
  cases change with
  | transitionTo newState reason => exact h.transitionTo now newState reason
  | markStuck reason => exact h.transitionTo now .stuck (some reason)
  | attemptRecovery =>
    simp only [JobChange.apply, attemptRecovery]
    split_ifs
    · -- the number of attempts is none of the transitions
      have hattempted : { c with repairAttempts := c.repairAttempts + 1 }.Remembers history :=
        ⟨h.chained, h.kept, h.started, h.completed⟩
      exact hattempted.transitionTo now .inProgress _
    · exact ⟨[], by simpa using h, List.nil_sublist _⟩

theorem Remembers.changed (h : c.Remembers history) (changes : List (Time × JobChange)) :
    ∃ added, (c.changed changes).Remembers (history ++ added) ∧
      (added.map StateTransition.timestamp).Sublist (changes.map Prod.fst) := by
  induction changes generalizing c history with
  | nil => exact ⟨[], by simpa [JobContext.changed] using h, List.Sublist.refl _⟩
  | cons change changes ih =>
    obtain ⟨first, hfirst, hnow⟩ := h.apply change.1 change.2
    obtain ⟨rest, hrest, htimes⟩ := ih hfirst
    refine ⟨first ++ rest, by simpa [JobContext.changed] using hrest, ?_⟩
    rw [List.map_append, List.map_cons, ← List.singleton_append]
    exact hnow.append htimes

/-- **A job remembers its history**: the last transitions of an allowed chain from `pending`, made
by the changes, when it was first in progress, and when it last ended. -/
theorem history_of_changes (jobId : Uuid) (now : Time) (userId title description : String)
    (changes : List (Time × JobChange)) : ∃ history,
      ((withUser jobId now userId title description).changed changes).Remembers history ∧
        (history.map StateTransition.timestamp).Sublist (changes.map Prod.fst) := by
  have hnew : (withUser jobId now userId title description).Remembers [] := ⟨rfl, rfl, rfl, rfl⟩
  exact hnew.changed changes

end JobContext

end History

end IronClaw.Context
