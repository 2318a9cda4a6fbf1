import IronClaw.Jobs.Worker

/-!
# Stopping a job

The scheduler signals the worker, waits, aborts it, and only then changes the state. The loop of the
worker ends without an error, so the job may be completed before.
-/

namespace IronClaw.Jobs

open Context (JobChange JobContext JobState Time)
open Foundation (Along run)

/-- When a stop of an open job has returned, the job is cancelled, at last also in the database. -/
def Cancels (cfg : WorkerConfig) (h : JobHost) : Prop :=
  h.stop = .returned → h.stoppedOpen = true →
    h.context.state = .cancelled ∧
      (cfg.hasStore = true → h.writes = [] → h.status = some .cancelled)

/-- The stop was called and has not changed the state of the job yet. -/
def StopPhase.isUnderWay : StopPhase → Bool
  | sending | sleeping | aborted => true
  | notCalled | returned => false

def KeepsOpen (now : Time) (context : JobContext) (change : JobChange) : Prop :=
  (change.apply now context).2.state.isParallelBlocking = true

def Position.change? : Position → Option JobChange
  | marking change _ _ => some change
  | _ => none

/-- Nobody closes the job before the stop, and the status written by that lands last. -/
def Undisturbed (h : JobHost) : HostEvent → Prop
  | .work now _ => h.stop.isUnderWay = true →
    ∀ change ∈ h.position.change?, KeepsOpen now h.context change
  | .change now change => h.stop.isUnderWay = true → KeepsOpen now h.context change
  | .land i => h.stop = .returned → i + 1 = h.writes.length → i = 0
  | _ => True

/-- The job is open while a stop is under way, then cancelled, the last status written. -/
structure Stopping (cfg : WorkerConfig) (h : JobHost) : Prop where
  underWay : h.stop.isUnderWay = true → h.stoppedOpen = true →
    h.context.state.isParallelBlocking = true
  returned : h.stop = .returned → h.stoppedOpen = true → h.context.state = .cancelled
  written : cfg.hasStore = true → h.stop = .returned → h.stoppedOpen = true →
    h.writes.getLast? = some .cancelled ∨ h.writes = [] ∧ h.status = some .cancelled

variable {cfg : WorkerConfig} {now : Time} {h h' : JobHost}

theorem Stopping.of_same (hs : Stopping cfg h) (hstop : h'.stop = h.stop)
    (hopen : h'.stoppedOpen = h.stoppedOpen) (hstate : h'.context.state = h.context.state)
    (hwrites : h'.writes = h.writes) (hstatus : h'.status = h.status) : Stopping cfg h' where
  underWay := by rw [hstop, hopen, hstate]; exact hs.underWay
  returned := by rw [hstop, hopen, hstate]; exact hs.returned
  written := by rw [hstop, hopen, hwrites, hstatus]; exact hs.written

theorem Stopping.of_before (hstop : h.stop ≠ .returned)
    (hopen : h.stoppedOpen = true → h.context.state.isParallelBlocking = true) :
    Stopping cfg h where
  underWay := fun _ => hopen
  returned := fun hreturned => absurd hreturned hstop
  written := fun _ hreturned => absurd hreturned hstop

variable {context : JobContext}

theorem apply_of_cancelled (now : Time) (change : JobChange) (h : context.state = .cancelled) :
    ∃ error, change.apply now context = (.error error, context) := by
  have hto : ∀ newState reason, ∃ error,
      context.transitionTo now newState reason = (.error error, context) := by
    intro newState reason
    have hnot : context.state.canTransitionTo newState = false := by
      rw [h]
      cases newState <;> rfl
    unfold JobContext.transitionTo
    rw [if_neg (by simp [hnot])]
    exact ⟨_, rfl⟩
  cases change with
  | transitionTo newState reason => exact hto newState reason
  | markStuck reason => exact hto .stuck (some reason)
  | attemptRecovery =>
    refine ⟨"Job is not stuck", ?_⟩
    show context.attemptRecovery now = _
    unfold JobContext.attemptRecovery
    rw [if_neg (by rw [h]; decide)]

variable {change : JobChange}

theorem state_apply_of_cancelled (h : context.state = .cancelled) :
    (change.apply now context).2.state = .cancelled := by
  obtain ⟨error, herror⟩ := apply_of_cancelled now change h
  rw [herror, h]

theorem stopping_change (hs : Stopping cfg h)
    (hkeeps : h.stop.isUnderWay = true → KeepsOpen now h.context change) :
    Stopping cfg { h with context := (change.apply now h.context).2 } where
  underWay := fun hway _ => hkeeps hway
  returned := fun hreturned hopen => state_apply_of_cancelled (hs.returned hreturned hopen)
  written := hs.written

theorem stopping_mark (hs : Stopping cfg h) {onOk onError : Position}
    (hkeeps : h.stop.isUnderWay = true → KeepsOpen now h.context change) :
    Stopping cfg (h.mark cfg now change onOk onError) := by
  obtain ⟨position, writes, heq, hresult⟩ := mark_eq cfg now h change onOk onError
  rw [heq]
  refine ⟨fun hway _ => hkeeps hway, fun hreturned hopen => ?_, fun hstore hreturned hopen => ?_⟩
  · exact state_apply_of_cancelled (hs.returned hreturned hopen)
  · -- marking a cancelled job has nothing written
    obtain ⟨error, herror⟩ := apply_of_cancelled now change
      (hs.returned hreturned hopen)
    rcases hresult with ⟨hok, -⟩ | ⟨-, -, hwrites⟩
    · rw [herror] at hok
      cases hok
    · rw [hwrites]
      exact hs.written hstore hreturned hopen

theorem stopping_works (hs : Stopping cfg h) (hw : Works cfg now h h')
    (hund : h.stop.isUnderWay = true → ∀ change ∈ h.position.change?,
      KeepsOpen now h.context change) : Stopping cfg h' := by
  rcases hw.quiet_or_mark with hquiet | ⟨change, onOk, onError, hpos, rfl⟩
  · exact hs.of_same hquiet.outside.stop hquiet.outside.stoppedOpen hquiet.state hquiet.writes
      hquiet.outside.status
  · refine stopping_mark hs fun hway => hund hway change ?_
    rw [hpos]
    rfl

theorem cancel_of_open (h : context.state.isParallelBlocking = true) (reason : Option String) :
    ((JobChange.transitionTo .cancelled reason).apply now context).2.state = .cancelled := by
  have hcan : context.state.canTransitionTo .cancelled = true ∧ context.state ≠ .cancelled := by
    revert h
    cases context.state <;> decide
  show (context.transitionTo now .cancelled reason).2.state = _
  unfold JobContext.transitionTo
  rw [if_pos hcan.1, if_neg hcan.2]
  exact JobContext.stamped_state _ _ _

theorem stopping_stops (hs : Stopping cfg h) (hstops : Stops cfg now h h') : Stopping cfg h' := by
  cases hstops with
  | call hstop => exact .of_before (by simp) fun hopen => hopen
  | send channel hstop => exact .of_before (by simp) (hs.underWay (by rw [hstop]; rfl))
  | abort hstop => exact .of_before (by simp) (hs.underWay (by rw [hstop]; rfl))
  | cancel hstop =>
    have hopen := hs.underWay (by rw [hstop]; rfl)
    refine ⟨fun hway => ?_, fun _ h => cancel_of_open (hopen h) _, fun hstore _ _ => ?_⟩
    · cases hway
    · -- its own status is the last that is to be written
      simp only [if_pos hstore, List.getLast?_append, List.getLast?_singleton, Option.some_or]
      exact .inl trivial

theorem stopping_land (hs : Stopping cfg h) {i : Nat} {status : JobState}
    (hstatus : h.writes[i]? = some status)
    (hlast : h.stop = .returned → i + 1 = h.writes.length → i = 0) :
    Stopping cfg { h with writes := h.writes.eraseIdx i, status := some status } := by
  refine ⟨hs.underWay, hs.returned, fun hstore hreturned hopen => ?_⟩
  rcases hs.written hstore hreturned hopen with hwritten | ⟨hnil, -⟩
  · obtain ⟨front, hfront⟩ := List.getLast?_eq_some_iff.mp hwritten
    have hlt : i < h.writes.length := (List.getElem?_eq_some_iff.mp hstatus).1
    by_cases hi : i < front.length
    · -- the last status stays
      left
      rw [hfront, List.eraseIdx_append_of_lt_length hi]
      simp
    · -- the last status lands, and it is the only one
      have hlength : h.writes.length = front.length + 1 := by simp [hfront]
      have hzero : i = 0 := hlast hreturned (by omega)
      subst hzero
      have hnil : front = [] := List.eq_nil_of_length_eq_zero (by omega)
      rw [hfront, hnil] at hstatus ⊢
      exact .inr ⟨rfl, hstatus.symm⟩
  · rw [hnil] at hstatus
    cases hstatus

theorem stopping_hostStep {e : HostEvent} (hs : Stopping cfg h) (hund : Undisturbed h e)
    (hstep : hostStep cfg h e = some h') : Stopping cfg h' := by
  cases happens_of_hostStep hstep with
  | work now e hw => exact stopping_works hs hw hund
  | stop now hstops => exact stopping_stops hs hstops
  | change now change => exact stopping_change hs hund
  | land i status hstatus => exact stopping_land hs hstatus hund
  | timeOut | die | sendMessage | cleanUp => exact hs.of_same rfl rfl rfl rfl rfl

theorem cancels_of_stopping (hs : Stopping cfg h) : Cancels cfg h := by
  intro hreturned hopen
  refine ⟨hs.returned hreturned hopen, fun hstore hwrites => ?_⟩
  rcases hs.written hstore hreturned hopen with hlast | ⟨-, hstatus⟩
  · rw [hwrites] at hlast
    cases hlast
  · exact hstatus

/-- **A stopped job is cancelled** and stays so, if nobody closes it meanwhile and the stop's status
lands last. -/
theorem cancels_of_undisturbed {cfg : WorkerConfig} {context : JobContext}
    {events : List HostEvent} {h : JobHost}
    (hrun : run (hostStep cfg) (.start context) events = some h)
    (hund : Along (hostStep cfg) Undisturbed (.start context) events) : Cancels cfg h := by
  have hstart : Stopping cfg (.start context) := .of_before (by simp [JobHost.start])
    nofun
  have hstep : ∀ s e s', Stopping cfg s → Undisturbed s e → hostStep cfg s e = some s' →
      Stopping cfg s' := fun s e s' hs he => stopping_hostStep hs he
  exact cancels_of_stopping (Foundation.run_invariant hstep hstart hund hrun)

def sampleWorker : WorkerConfig := ⟨"1".toList, false, 50, true⟩

def sampleJob : JobContext :=
  { JobContext.withUser 1 0 "user" "title" "description" with
    state := .inProgress, maxTokens := 100 }

def untilCheck : List HostEvent := [.work 0 .proceed, .work 0 (.planned none)]

def abortedActions : List HostEvent :=
  untilCheck ++ [.work 0 .proceed, .work 0 .proceed, .stop 1, .stop 1, .stop 1, .die, .stop 1,
    .land 0]

instance (now : Time) (context : JobContext) (change : JobChange) :
    Decidable (KeepsOpen now context change) := inferInstanceAs (Decidable (_ = true))

instance (h : JobHost) (e : HostEvent) : Decidable (Undisturbed h e) := by
  cases e <;> unfold Undisturbed <;> infer_instance

theorem aborted_cancels : ∃ h, run (hostStep sampleWorker) (.start sampleJob) abortedActions =
    some h ∧ h.stop = .returned ∧ h.stoppedOpen = true ∧ Cancels sampleWorker h := by
  obtain ⟨h, hrun⟩ : ∃ h, run (hostStep sampleWorker) (.start sampleJob) abortedActions = some h :=
    ⟨_, rfl⟩
  have hcancels := cancels_of_undisturbed hrun (by decide +kernel)
  cases hrun
  exact ⟨_, rfl, rfl, rfl, hcancels⟩

/-- The worker finds the stop signal, and what is around its loop completes the job. -/
def completedActions : List HostEvent :=
  untilCheck ++ [.stop 1, .stop 1, .work 1 .proceed, .work 1 .proceed, .work 1 .proceed, .stop 1,
    .stop 1, .land 0, .land 0]

/-- The time of the worker is up before it is aborted, and its status lands last. -/
def reorderedActions : List HostEvent :=
  untilCheck ++ [.stop 1, .stop 1, .timeOut, .work 1 .proceed, .stop 1, .stop 1, .land 1, .land 0]

/-- A stopped job is completed; another one is cancelled, and stuck in the database. -/
theorem stopped_not_cancelled :
    (∃ h, run (hostStep sampleWorker) (.start sampleJob) completedActions = some h ∧
      h.context.state = .completed ∧ h.status = some .cancelled ∧ ¬ Cancels sampleWorker h) ∧
    ∃ h, run (hostStep sampleWorker) (.start sampleJob) reorderedActions = some h ∧
      h.context.state = .cancelled ∧ h.status = some .stuck ∧ ¬ Cancels sampleWorker h := by
  refine ⟨⟨_, rfl, rfl, rfl, fun h => ?_⟩, ⟨_, rfl, rfl, rfl, fun h => ?_⟩⟩
  · cases (h rfl rfl).1
  · cases (h rfl rfl).2 rfl rfl

end IronClaw.Jobs
