import IronClaw.Bridge.Adapter
import IronClaw.Foundation.Log
import IronClaw.Foundation.Run

/-!
# The limit on the calls of a code step

A code step may make fifty calls. The adapter has one counter for all steps of all threads, set to
zero when a message starts a thread or a paused one goes on.
-/

namespace IronClaw.Bridge

open Foundation (Along Effect Successively Text Throughout run run_append run_cons
  throughout_iff_along)

structure CodeStep where
  threadId : Text
  stepId : Nat
deriving DecidableEq

structure CountedCall where
  step : CodeStep
  refused : Bool

/-- The adapter, the calls it has counted, the last first, and how many since a reset. -/
structure CountingAdapter where
  adapter : AdapterState
  calls : List CountedCall
  sinceReset : Nat

def resetCallCount (s : AdapterState) : AdapterState := { s with callCount := 0 }

inductive CountAction where
  | executeAction (step : CodeStep)
  | resetCallCount
  | change (s : AdapterState)

def countStep (s : CountingAdapter) : CountAction → Option CountingAdapter
  | .executeAction step =>
    let counted := Effect.exec countCall s.adapter
    some ⟨counted.2, ⟨step, !counted.1.isOk⟩ :: s.calls, s.sinceReset + 1⟩
  | .resetCallCount => some ⟨Bridge.resetCallCount s.adapter, s.calls, 0⟩
  | .change adapter =>
    if adapter.callCount = s.adapter.callCount then some { s with adapter } else none

theorem exec_countCall (s : AdapterState) :
    Effect.exec countCall s =
      (if s.callCount < maxCallsPerStep then .ok () else .error callLimitReached,
        { s with callCount := (s.callCount + 1) % 2 ^ 32 }) := by
  by_cases h : s.callCount < maxCallsPerStep
  · rw [if_pos h, countCall, Effect.exec_bind_ok (Effect.exec_get s),
      Effect.exec_bind_ok (Effect.exec_modify _ s), Effect.require, if_pos (decide_eq_true h)]
    rfl
  · rw [if_neg h, countCall, Effect.exec_bind_ok (Effect.exec_get s),
      Effect.exec_bind_ok (Effect.exec_modify _ s), Effect.require, if_neg (by simpa using h)]
    rfl

theorem exec_executeActionInternal (config : AdapterConfig) (call : ActionCall)
    (s : AdapterState) :
    Effect.exec (executeActionInternal config call) s =
      if s.callCount < maxCallsPerStep then
        Effect.exec (route config call) { s with callCount := (s.callCount + 1) % 2 ^ 32 }
      else (.error callLimitReached, { s with callCount := (s.callCount + 1) % 2 ^ 32 }) := by
  have hcount := exec_countCall s
  split_ifs at hcount ⊢ with h
  · exact Effect.exec_bind_ok hcount
  · exact Effect.exec_bind_error hcount

def KeepsCount {α : Type} (x : AdapterOp α) : Prop :=
  Effect.Within (fun s s' => s'.callCount = s.callCount) x

section KeepsCount

variable {α β : Type}

theorem KeepsCount.pure (a : α) : KeepsCount (pure a : AdapterOp α) := fun _ => rfl

theorem KeepsCount.ofExcept (r : Except BridgeError α) :
    KeepsCount (Effect.ofExcept r : AdapterOp α) := fun s => by rw [Effect.exec_ofExcept]

theorem KeepsCount.bind {x : AdapterOp α} {f : α → AdapterOp β} (hx : KeepsCount x)
    (hf : ∀ a, KeepsCount (f a)) : KeepsCount (x >>= f) :=
  Effect.Within.bind (fun _ _ _ h h' => h'.trans h) hx hf

theorem KeepsCount.get : KeepsCount (get : AdapterOp AdapterState) := fun _ => rfl

theorem KeepsCount.lift {ε : Type} (wrap : ε → BridgeError)
    (x : Effect Missions.MissionSystem ε α) : KeepsCount (lift wrap x) := fun _ => rfl

variable (config : AdapterConfig) (call : ActionCall)

theorem keepsCount_checkRateLimit (lookupName : Text) (tool : Option Tools.RegisteredTool) :
    KeepsCount (checkRateLimit call lookupName tool) := by
  unfold checkRateLimit
  split
  · exact .pure ()
  · refine .bind .get fun s => .bind (fun _ => rfl) fun _ => ?_
    split
    · exact .pure ()
    · exact fun _ => rfl

theorem keepsCount_admitCall (tool : Option Tools.RegisteredTool) (lookupName : Text) :
    KeepsCount (admitCall config call tool lookupName) := by
  refine .bind (.ofExcept _) fun _ => ?_
  refine .bind (keepsCount_checkRateLimit call lookupName tool) fun _ => ?_
  refine .bind (.ofExcept _) fun _ => .bind (.ofExcept _) fun _ => .bind .get fun _ => ?_
  exact .bind (.ofExcept _) fun _ => .ofExcept _

theorem keepsCount_toolRoute : KeepsCount (toolRoute config call) := by
  have hlatent : KeepsCount (routeLatent config call) := by
    unfold routeLatent
    split
    · exact .pure _
    · exact .bind (fun _ => rfl) fun _ => .ofExcept _
  refine .bind (.ofExcept _) fun _ => .bind hlatent fun routed => ?_
  cases routed with
  | finished result => exact .pure result
  | lookup tools name =>
    refine .bind (keepsCount_admitCall config call _ name) fun _ => ?_
    exact .bind (fun _ => rfl) fun _ => .lift _ _

theorem keepsCount_route : KeepsCount (route config call) := by
  unfold route
  split
  · next handled hmission =>
    unfold missionRoute at hmission
    split_ifs at hmission
    obtain ⟨op, -, rfl⟩ := Option.map_eq_some_iff.mp hmission
    exact .lift _ op
  · split_ifs
    · refine .bind .get fun _ => .bind (.ofExcept _) fun _ => ?_
      exact .bind (.ofExcept _) fun _ => .pure _
    · exact keepsCount_toolRoute config call

end KeepsCount

/-- **What the adapter counts.** Whatever becomes of the calls, the adapter gets where the counting
machine gets that counts each of them once. -/
theorem counted_of_calls (config : AdapterConfig) (calls : List (CodeStep × ActionCall))
    (s : CountingAdapter) : ∃ actions t, run countStep s actions = some t ∧
      t.adapter = calls.foldl
        (fun s c => (Effect.exec (executeActionInternal config c.2) s).2) s.adapter ∧
      t.calls.map CountedCall.step = (calls.map Prod.fst).reverse ++ s.calls.map CountedCall.step ∧
      t.sinceReset = s.sinceReset + calls.length := by
  induction calls generalizing s with
  | nil => exact ⟨[], s, rfl, rfl, rfl, rfl⟩
  | cons c calls ih =>
    let counted := (Effect.exec countCall s.adapter).2
    let after := (Effect.exec (executeActionInternal config c.2) s.adapter).2
    -- the route that a call takes leaves the counter alone
    have hkept : after.callCount = counted.callCount := by
      dsimp only [after, counted]
      rw [exec_executeActionInternal, exec_countCall]
      split_ifs
      · exact keepsCount_route config c.2 _
      · rfl
    have hstep : ∃ t, run countStep s [.executeAction c.1, .change after] = some t ∧
        t.adapter = after ∧ t.calls.map CountedCall.step = c.1 :: s.calls.map CountedCall.step ∧
        t.sinceReset = s.sinceReset + 1 :=
      ⟨_, by simp [run_cons, countStep, hkept, counted]; rfl, rfl, rfl, rfl⟩
    obtain ⟨t, ht, hadapter, hcalls, hcount⟩ := hstep
    obtain ⟨actions, u, hu, hadapter', hcalls', hcount'⟩ := ih t
    refine ⟨[.executeAction c.1, .change after] ++ actions, u, ?_, ?_, ?_, ?_⟩
    · rw [run_append, ht]
      exact hu
    · rw [hadapter', hadapter]
      rfl
    · rw [hcalls', hcalls]
      simp
    · rw [hcount', hcount, List.length_cons]
      omega

def callsOf (step : CodeStep) (calls : List CountedCall) : Nat :=
  calls.countP fun c => c.step = step

def admittedOf (step : CodeStep) (calls : List CountedCall) : Nat :=
  calls.countP fun c => c.step = step ∧ c.refused = false

/-- A call is refused only after fifty calls of its step, and no step makes more unrefused ones. -/
structure LimitsOneStep (calls : List CountedCall) : Prop where
  refused : Successively
    (fun c earlier => c.refused = true → maxCallsPerStep ≤ callsOf c.step earlier) calls
  admitted : ∀ step, admittedOf step calls ≤ maxCallsPerStep

/-- The counted calls are on the same side of the limit as those of the step that makes a call. -/
def CountsFor (s : CountingAdapter) : CountAction → Prop
  | .executeAction step =>
    (maxCallsPerStep ≤ s.sinceReset % 2 ^ 32 → maxCallsPerStep ≤ callsOf step s.calls) ∧
      (s.sinceReset % 2 ^ 32 < maxCallsPerStep → admittedOf step s.calls < maxCallsPerStep)
  | _ => True

instance (s : CountingAdapter) (a : CountAction) : Decidable (CountsFor s a) :=
  match a with
  | .executeAction _ => inferInstanceAs (Decidable (_ ∧ _))
  | .resetCallCount | .change _ => isTrue trivial

theorem limitsOneStep_nil : LimitsOneStep [] := ⟨trivial, fun _ => Nat.zero_le _⟩

theorem admittedOf_cons (step : CodeStep) (c : CountedCall) (calls : List CountedCall) :
    admittedOf step (c :: calls) =
      admittedOf step calls + if c.step = step ∧ c.refused = false then 1 else 0 := by
  simp [admittedOf, List.countP_cons]

theorem limitsOneStep_cons {c : CountedCall} {calls : List CountedCall}
    (h : LimitsOneStep calls) : LimitsOneStep (c :: calls) ↔
      (c.refused = true → maxCallsPerStep ≤ callsOf c.step calls) ∧
        (c.refused = false → admittedOf c.step calls < maxCallsPerStep) := by
  constructor
  · intro h'
    refine ⟨h'.refused.1, fun hc => ?_⟩
    have hadmitted := h'.admitted c.step
    rw [admittedOf_cons, if_pos ⟨rfl, hc⟩] at hadmitted
    omega
  · rintro ⟨hrefused, hadmitted⟩
    refine ⟨⟨hrefused, h.refused⟩, fun step => ?_⟩
    rw [admittedOf_cons]
    split_ifs with hc
    · obtain ⟨rfl, hc⟩ := hc
      exact hadmitted hc
    · exact h.admitted step

theorem callCount_countStep {s s' : CountingAdapter} {a : CountAction}
    (hs : s.adapter.callCount = s.sinceReset % 2 ^ 32) (hstep : countStep s a = some s') :
    s'.adapter.callCount = s'.sinceReset % 2 ^ 32 := by
  cases a with
  | executeAction step =>
    cases hstep
    rw [exec_countCall]
    show (s.adapter.callCount + 1) % 2 ^ 32 = (s.sinceReset + 1) % 2 ^ 32
    omega
  | resetCallCount =>
    cases hstep
    rfl
  | change adapter =>
    simp only [countStep] at hstep
    split_ifs at hstep with hcount
    cases hstep
    exact hcount.trans hs

theorem limitsOneStep_countStep {s s' : CountingAdapter} {a : CountAction}
    (hs : s.adapter.callCount = s.sinceReset % 2 ^ 32) (h : LimitsOneStep s.calls)
    (hstep : countStep s a = some s') : LimitsOneStep s'.calls ↔ CountsFor s a := by
  cases a with
  | executeAction step =>
    cases hstep
    rw [limitsOneStep_cons h, exec_countCall, CountsFor, ← hs]
    split_ifs with hlimit
    · simp [Except.isOk, Except.toBool, hlimit]
    · simp [Except.isOk, Except.toBool, hlimit, Nat.le_of_not_lt hlimit]
  | resetCallCount =>
    cases hstep
    exact iff_of_true h trivial
  | change adapter =>
    simp only [countStep] at hstep
    split_ifs at hstep
    cases hstep
    exact iff_of_true h trivial

def CountingAdapter.new (adapter : AdapterState) : CountingAdapter :=
  ⟨resetCallCount adapter, [], 0⟩

theorem run_executeActions (step : CodeStep) (n : Nat) (s : CountingAdapter)
    (hn : s.adapter.callCount + n ≤ maxCallsPerStep) :
    run countStep s (List.replicate n (.executeAction step)) =
      some ⟨{ s.adapter with callCount := s.adapter.callCount + n },
        List.replicate n ⟨step, false⟩ ++ s.calls, s.sinceReset + n⟩ := by
  induction n generalizing s with
  | zero => rfl
  | succ n ih =>
    have hlimit : s.adapter.callCount < maxCallsPerStep := by omega
    have hwrap : (s.adapter.callCount + 1) % 2 ^ 32 = s.adapter.callCount + 1 := by
      rw [maxCallsPerStep] at hn
      omega
    have hnext : countStep s (.executeAction step) =
        some ⟨{ s.adapter with callCount := s.adapter.callCount + 1 },
          ⟨step, false⟩ :: s.calls, s.sinceReset + 1⟩ := by
      rw [countStep, exec_countCall, if_pos hlimit, hwrap]
      rfl
    rw [List.replicate_succ, run_cons, hnext, Option.bind_some, ih _ (by dsimp only; omega)]
    simp [List.replicate_succ', Nat.add_assoc, Nat.add_comm 1 n]

def idleAdapter : AdapterState := ⟨∅, 0, ∅, ⟨.empty, [], ∅, ∅, ∅, ∅⟩, [], []⟩

def firstStep : CodeStep := ⟨"t".toList, 1⟩

def secondStep : CodeStep := ⟨"t".toList, 2⟩

def fewCalls : List CountAction :=
  [.executeAction firstStep, .executeAction secondStep, .resetCallCount, .executeAction firstStep]

def manyCalls : List CountAction := List.replicate maxCallsPerStep (.executeAction firstStep)

end IronClaw.Bridge
