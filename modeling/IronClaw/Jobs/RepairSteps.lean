import IronClaw.Jobs.SelfRepair

/-!
# The steps of self-repair

Each step of the repair or of a worker changes one job at most. A transition keeps the attempts, and
the last time as a stuck job can only get later or be forgotten.
-/

namespace IronClaw.Jobs

open Context (ContextManager JobContext JobState Uuid)
open Foundation (HashMap)

def RepairHost.job? (h : RepairHost) (jobId : Uuid) : Option JobContext :=
  h.manager.contexts.lookup jobId

/-- A worker or the detection has changed the state of a job, or left it as it is. -/
structure Moved (now : Nanos) (c c' : JobContext) : Prop where
  attempts : c'.repairAttempts = c.repairAttempts
  state : c' = c ∨ c.state.canTransitionTo c'.state = true
  since : ∀ t, stuckSince c' = some t → t = now ∨ stuckSince c = some t
  stuck : c'.state = .stuck → c' = c ∨ ∀ t, stuckSince c' = some t → t = now

section Moved

variable {now : Nanos} {c c' : JobContext}

theorem Moved.refl (now : Nanos) (c : JobContext) : Moved now c c :=
  ⟨rfl, .inl rfl, fun _ => .inr, fun _ => .inl rfl⟩

theorem Moved.isParallelBlocking (h : Moved now c c') (hc' : c'.state.isParallelBlocking) :
    c.state.isParallelBlocking := by
  rcases h.state with rfl | hcan
  · exact hc'
  · exact JobState.isParallelBlocking_of_canTransitionTo hcan hc'

theorem Moved.isTerminal (h : Moved now c c') (hc : c.state.isTerminal) : c'.state.isTerminal := by
  rcases h.state with rfl | hcan
  · exact hc
  · exact absurd hc (JobState.not_isTerminal_of_canTransitionTo hcan)

theorem Moved.ne_pending (h : Moved now c c') (hc : c.state ≠ .pending) : c'.state ≠ .pending := by
  rcases h.state with rfl | hcan
  · exact hc
  · intro hpending
    rw [hpending] at hcan
    revert hcan
    cases c.state <;> decide

theorem stamped_attempts (now : Nanos) (c : JobContext) (s : JobState) :
    (c.stamped now s).repairAttempts = c.repairAttempts ∧
      (c.stamped now s).transitions = c.transitions := by
  cases s <;> exact ⟨rfl, rfl⟩

/-- A context as a transition leaves it, which forgets the first transitions. -/
def entered (now : Nanos) (c : JobContext) (newState : JobState) (reason : Option String)
    (k : Nat) : JobContext :=
  let transitions := c.transitions ++ [⟨c.state, newState, now, reason⟩]
  ({ c with state := newState, transitions := transitions.drop k }).stamped now newState

variable {newState : JobState}

theorem stuckSince_entered {reason : Option String} {k : Nat} {t : Nanos}
    (ht : stuckSince (entered now c newState reason k) = some t) :
    (newState = .stuck ∧ t = now) ∨ (newState ≠ .stuck ∧ stuckSince c = some t) := by
  rw [entered, stuckSince, (stamped_attempts now _ newState).2] at ht
  obtain ⟨event, hfind, rfl⟩ := Option.map_eq_some_iff.mp ht
  -- the transitions that are remembered come first when they are looked through backwards
  have hprefix := List.reverse_prefix.mpr (List.drop_suffix k
    (c.transitions ++ [⟨c.state, newState, now, reason⟩]))
  have hfind := hprefix.find?_eq_some hfind
  rw [List.reverse_append, List.reverse_singleton, List.singleton_append, List.find?_cons] at hfind
  by_cases hstuck : newState = .stuck
  · subst hstuck
    cases hfind
    exact .inl ⟨rfl, rfl⟩
  · rw [beq_false_of_ne hstuck] at hfind
    have hold : c.transitions.reverse.find? (fun t => t.toState == .stuck) = some event := hfind
    exact .inr ⟨hstuck, by rw [stuckSince, hold]; rfl⟩

theorem moved_entered {reason : Option String} {k : Nat}
    (hcan : c.state.canTransitionTo newState = true) :
    Moved now c (entered now c newState reason k) := by
  have hstate : (entered now c newState reason k).state = newState :=
    JobContext.stamped_state _ _ _
  refine ⟨(stamped_attempts now _ newState).1, .inr ?_, fun t ht => ?_, fun hstuck => .inr ?_⟩
  · rw [hstate]
    exact hcan
  · rcases stuckSince_entered ht with ⟨-, rfl⟩ | ⟨-, hold⟩
    · exact .inl rfl
    · exact .inr hold
  · intro t ht
    rcases stuckSince_entered ht with ⟨-, rfl⟩ | ⟨hne, -⟩
    · rfl
    · exact absurd (hstate.symm.trans hstuck) hne

theorem moved_transitionTo (now : Nanos) (c : JobContext) (newState : JobState)
    (reason : Option String) : Moved now c (c.transitionTo now newState reason).2 := by
  unfold JobContext.transitionTo
  split_ifs with hcan hsame
  · exact .refl now c
  · exact moved_entered hcan
  · exact .refl now c

theorem transitionTo_ok (now : Nanos) (reason : Option String)
    (hcan : c.state.canTransitionTo newState = true) (hne : c.state ≠ newState) :
    (c.transitionTo now newState reason).1 = .ok () ∧
      (c.transitionTo now newState reason).2.state = newState := by
  rw [JobContext.transitionTo, if_pos hcan, if_neg hne]
  exact ⟨rfl, JobContext.stamped_state _ _ _⟩

theorem transitionTo_error (now : Nanos) (reason : Option String)
    (hcan : c.state.canTransitionTo newState = false) :
    ∃ e, c.transitionTo now newState reason = (.error e, c) := by
  rw [JobContext.transitionTo, if_neg (by simp [hcan])]
  exact ⟨_, rfl⟩

theorem attemptRecovery_ok (now : Nanos) (hc : c.state = .stuck) :
    (c.attemptRecovery now).1 = .ok () ∧ (c.attemptRecovery now).2.state = .inProgress ∧
      (c.attemptRecovery now).2.repairAttempts = c.repairAttempts + 1 := by
  rw [JobContext.attemptRecovery, if_pos hc]
  let counted : JobContext := { c with repairAttempts := c.repairAttempts + 1 }
  have hcan : counted.state.canTransitionTo .inProgress = true := by
    rw [show counted.state = c.state from rfl, hc]
    rfl
  obtain ⟨hok, hstate⟩ := transitionTo_ok now (some "Recovery attempt") hcan (by simp [counted, hc])
  exact ⟨hok, hstate, (moved_transitionTo now _ _ _).attempts⟩

theorem recover_cases (now : Nanos) (c : JobContext) :
    ((c.state = .stuck ∨ c.state = .inProgress) ∧ (RepairHost.recover now c).1 = .ok () ∧
      (RepairHost.recover now c).2.state = .inProgress ∧
      (RepairHost.recover now c).2.repairAttempts = c.repairAttempts + 1) ∨
    c.state ≠ .stuck ∧ c.state ≠ .inProgress ∧ ∃ e, RepairHost.recover now c = (.error e, c) := by
  unfold RepairHost.recover
  split_ifs with hprogress
  · have hcan : c.state.canTransitionTo .stuck = true := by
      rw [hprogress]
      rfl
    obtain ⟨hok, hstate⟩ :=
      transitionTo_ok now (some "exceeded stuck_threshold") hcan (by simp [hprogress])
    have hmoved := moved_transitionTo now c .stuck (some "exceeded stuck_threshold")
    rcases hr : c.transitionTo now .stuck (some "exceeded stuck_threshold") with ⟨r, c'⟩
    rw [hr] at hok hstate hmoved
    cases hok
    have hrecovery := attemptRecovery_ok now hstate
    rw [hmoved.attempts] at hrecovery
    exact .inl ⟨.inr hprogress, hrecovery⟩
  · by_cases hstuck : c.state = .stuck
    · exact .inl ⟨.inl hstuck, attemptRecovery_ok now hstuck⟩
    · refine .inr ⟨hstuck, hprogress, "Job is not stuck", ?_⟩
      rw [JobContext.attemptRecovery, if_neg hstuck]

end Moved

/-- An action and what comes of it: how jobs change, and where the repair stands. -/
inductive RepairMove (config : RepairConfig) (h : RepairHost) :
    RepairAction → RepairHost → Prop where
  | inserted (c : JobContext) (m : HashMap Uuid JobContext)
      (hm : ∀ id, m.lookup id = if id = c.jobId then some c else h.job? id)
      (hunused : h.isUnused c.jobId = true) (hattempts : c.repairAttempts = 0) :
      RepairMove config h (.insert c) (h.setContexts m)
  | removed (jobId : Uuid) (m : HashMap Uuid JobContext)
      (hm : ∀ id, m.lookup id = if id = jobId then none else h.job? id) :
      RepairMove config h (.remove jobId) (h.setContexts m)
  | clocked (now : Nanos) (hle : h.now ≤ now) :
      RepairMove config h (.clock now) { h with now }
  | unknown (jobId : Uuid) (newState : JobState) (reason : Option String) :
      RepairMove config h (.worker jobId newState reason) h
  | worked (jobId : Uuid) (newState : JobState) (reason : Option String) (c c' : JobContext)
      (m : HashMap Uuid JobContext) (hc : h.job? jobId = some c)
      (hm : ∀ id, m.lookup id = if id = jobId then some c' else h.job? id)
      (hmoved : Moved h.now c c') (hstate : c' = c ∨ c'.state = newState) :
      RepairMove config h (.worker jobId newState reason) (h.setContexts m)
  | scanned (hphase : h.phase = .idle) :
      RepairMove config h .goOn
        { h with phase := .detecting (findStuckJobsWithThreshold config h.now h.manager) [] }
  | detected (found : List StuckJob) (hphase : h.phase = .detecting [] found) :
      RepairMove config h .goOn { h with phase := .repairing found }
  | skipped (jobId : Uuid) (rest : List Uuid) (found : List StuckJob)
      (hphase : h.phase = .detecting (jobId :: rest) found ∨
        h.phase = .marking jobId rest found ∨ ∃ b, h.phase = .measuring jobId b rest found)
      (m : HashMap Uuid JobContext) (hm : ∀ id, m.lookup id = h.job? id) :
      RepairMove config h .goOn { h.setContexts m with phase := .detecting rest found }
  | foundStuck (jobId : Uuid) (rest : List Uuid) (found : List StuckJob) (c : JobContext)
      (hphase : h.phase = .detecting (jobId :: rest) found) (hc : h.job? jobId = some c)
      (hstate : c.state = .stuck) :
      RepairMove config h .goOn { h with phase := .measuring jobId false rest found }
  | foundInProgress (jobId : Uuid) (rest : List Uuid) (found : List StuckJob)
      (hphase : h.phase = .detecting (jobId :: rest) found) :
      RepairMove config h .goOn { h with phase := .marking jobId rest found }
  | marked (jobId : Uuid) (rest : List Uuid) (found : List StuckJob) (c c' : JobContext)
      (m : HashMap Uuid JobContext) (hphase : h.phase = .marking jobId rest found)
      (hc : h.job? jobId = some c) (hstate : c.state = .inProgress)
      (hm : ∀ id, m.lookup id = if id = jobId then some c' else h.job? id)
      (hmoved : Moved h.now c c') (hstate' : c'.state = .stuck) :
      RepairMove config h .goOn
        { h.setContexts m with
          phase := .measuring jobId true rest found
          log := .markedStuck jobId h.now :: h.log }
  | reported (jobId : Uuid) (justTransitioned : Bool) (rest : List Uuid) (found : List StuckJob)
      (c : JobContext) (job : StuckJob)
      (hphase : h.phase = .measuring jobId justTransitioned rest found)
      (hc : h.job? jobId = some c)
      (hlong : justTransitioned = false →
        config.stuckThreshold ≤ stuckDuration h.now c * 10 ^ 9)
      (hid : job.jobId = jobId) (hattempts : job.repairAttempts = c.repairAttempts) :
      RepairMove config h .goOn
        { h with phase := .detecting rest (found ++ [job]), log := .reported jobId :: h.log }
  | ended (hphase : h.phase = .repairing []) :
      RepairMove config h .goOn { h with phase := .idle }
  | failed (k : Nat) (found : List StuckJob) (job : StuckJob) (c c' : JobContext)
      (m : HashMap Uuid JobContext) (hphase : h.phase = .repairing found)
      (hjob : found[k]? = some job) (hmax : config.maxRepairAttempts ≤ job.repairAttempts)
      (hc : h.job? job.jobId = some c)
      (hm : ∀ id, m.lookup id = if id = job.jobId then some c' else h.job? id)
      (hmoved : Moved h.now c c') (hstate' : c'.state = .failed) :
      RepairMove config h (.repair k)
        { h.setContexts m with
          phase := .repairing (found.eraseIdx k)
          log := .markedFailed job.jobId h.now c.state :: h.log }
  | recovered (k : Nat) (found : List StuckJob) (job : StuckJob) (c c' : JobContext)
      (m : HashMap Uuid JobContext) (hphase : h.phase = .repairing found)
      (hjob : found[k]? = some job) (hmax : job.repairAttempts < config.maxRepairAttempts)
      (hc : h.job? job.jobId = some c) (hstate : c.state = .stuck ∨ c.state = .inProgress)
      (hm : ∀ id, m.lookup id = if id = job.jobId then some c' else h.job? id)
      (hstate' : c'.state = .inProgress) (hattempts : c'.repairAttempts = c.repairAttempts + 1) :
      RepairMove config h (.repair k)
        { h.setContexts m with
          phase := .repairing (found.eraseIdx k)
          log := h.recoveryEvents job c ++ h.log }
  | passedOver (k : Nat) (found : List StuckJob) (job : StuckJob)
      (hphase : h.phase = .repairing found) (hjob : found[k]? = some job)
      (hover : ∀ c, h.job? job.jobId = some c →
        if config.maxRepairAttempts ≤ job.repairAttempts then c.state.isTerminal = true
        else c.state ≠ .stuck ∧ c.state ≠ .inProgress)
      (m : HashMap Uuid JobContext) (hm : ∀ id, m.lookup id = h.job? id) :
      RepairMove config h (.repair k)
        { h.setContexts m with phase := .repairing (found.eraseIdx k) }

section Inversion

variable {config : RepairConfig} {h h' : RepairHost}

theorem update_cases (h : RepairHost) (jobId : Uuid)
    (f : JobContext → Except String Unit × JobContext) (note : JobContext → List RepairEvent) :
    (h.job? jobId = none ∧ h.update jobId f note = (h, false)) ∨
    ∃ c m, h.job? jobId = some c ∧
      (∀ id, m.lookup id = if id = jobId then some (f c).2 else h.job? id) ∧
      (((f c).1 = .ok () ∧ h.update jobId f note =
          ({ h.setContexts m with log := note c ++ h.log }, true)) ∨
        ∃ e, (f c).1 = .error e ∧ h.update jobId f note = (h.setContexts m, false)) := by
  unfold RepairHost.update ContextManager.updateContext
  cases hc : h.manager.contexts.lookup jobId with
  | none => exact .inl ⟨hc, rfl⟩
  | some c =>
    refine .inr ⟨c, HashMap.adjust h.manager.contexts jobId fun c => (f c).2, hc, fun id => ?_, ?_⟩
    · rw [HashMap.lookup_adjust]
      split_ifs with hid
      · rw [hid, hc]
        rfl
      · rfl
    · dsimp only
      cases hr : (f c).1 with
      | ok u => exact .inl ⟨rfl, rfl⟩
      | error e => exact .inr ⟨e, rfl, rfl⟩

variable {jobId : Uuid}

theorem move_of_worker {newState : JobState} {reason : Option String}
    (hstep : repairStep config h (.worker jobId newState reason) = some h') :
    RepairMove config h (.worker jobId newState reason) h' := by
  have hh' := Option.some.inj hstep
  have hmoved := fun c => moved_transitionTo h.now c newState reason
  rcases update_cases h jobId (fun c => c.transitionTo h.now newState reason) fun _ => [] with
    ⟨-, hu⟩ | ⟨c, m, hc, hm, hu⟩
  · rw [hu] at hh'
    subst hh'
    exact .unknown jobId newState reason
  · have hstate : (c.transitionTo h.now newState reason).2 = c ∨
        (c.transitionTo h.now newState reason).2.state = newState := by
      unfold JobContext.transitionTo
      split_ifs
      · exact .inl rfl
      · exact .inr (JobContext.stamped_state _ _ _)
      · exact .inl rfl
    rcases hu with ⟨-, hu⟩ | ⟨e, -, hu⟩
    · rw [hu] at hh'
      subst hh'
      exact .worked jobId newState reason c _ m hc hm (hmoved c) hstate
    · rw [hu] at hh'
      subst hh'
      exact .worked jobId newState reason c _ m hc hm (hmoved c) hstate

theorem lookup_of_same {m : HashMap Uuid JobContext} {c : JobContext} (hc : h.job? jobId = some c)
    (hm : ∀ id, m.lookup id = if id = jobId then some c else h.job? id) (id : Uuid) :
    m.lookup id = h.job? id := by
  rw [hm]
  split_ifs with hid
  · rw [hid, hc]
  · rfl

variable {found : List StuckJob}

theorem move_of_marking {rest : List Uuid} (hphase : h.phase = .marking jobId rest found)
    (hstep : h.goOn config = some h') : RepairMove config h .goOn h' := by
  rw [RepairHost.goOn, hphase] at hstep
  dsimp only at hstep
  have hh' := Option.some.inj hstep
  rcases update_cases h jobId (fun c => c.markStuck h.now "exceeded stuck_threshold")
    (fun _ => [.markedStuck jobId h.now]) with ⟨-, hu⟩ | ⟨c, m, hc, hm, hu⟩
  · rw [RepairHost.markFound, hu] at hh'
    subst hh'
    exact .skipped jobId rest found (.inr (.inl hphase)) _ fun _ => rfl
  · have hmoved := moved_transitionTo h.now c .stuck (some "exceeded stuck_threshold")
    by_cases hcan : c.state.canTransitionTo .stuck = true
    · -- only a job in progress can be marked stuck
      have hstate : c.state = .inProgress := by
        revert hcan
        cases c.state <;> decide
      obtain ⟨hok, hstate'⟩ :=
        transitionTo_ok h.now (some "exceeded stuck_threshold") hcan (by simp [hstate])
      rcases hu with ⟨-, hu⟩ | ⟨e, herror, -⟩
      · rw [RepairHost.markFound, hu] at hh'
        subst hh'
        exact .marked jobId rest found c _ m hphase hc hstate hm hmoved hstate'
      · rw [JobContext.markStuck, hok] at herror
        cases herror
    · obtain ⟨e, he⟩ :=
        transitionTo_error h.now (some "exceeded stuck_threshold") (Bool.not_eq_true _ ▸ hcan)
      rcases hu with ⟨hok, -⟩ | ⟨e', -, hu⟩
      · rw [JobContext.markStuck, he] at hok
        cases hok
      · rw [RepairHost.markFound, hu] at hh'
        subst hh'
        simp only [JobContext.markStuck, he] at hm
        exact .skipped jobId rest found (.inr (.inl hphase)) m (lookup_of_same hc hm)

theorem move_of_goOn (hstep : h.goOn config = some h') : RepairMove config h .goOn h' := by
  cases hphase : h.phase with
  | idle =>
    rw [RepairHost.goOn, hphase] at hstep
    cases hstep
    exact .scanned hphase
  | detecting rest found =>
    rw [RepairHost.goOn, hphase] at hstep
    cases rest with
    | nil =>
      cases hstep
      exact .detected found hphase
    | cons jobId rest =>
      dsimp only at hstep
      split at hstep
      · next hstate =>
        cases hstep
        obtain ⟨c, hc, hstate⟩ := Option.map_eq_some_iff.mp hstate
        exact .foundStuck jobId rest found c hphase hc hstate
      · cases hstep
        exact .foundInProgress jobId rest found hphase
      · cases hstep
        exact .skipped jobId rest found (.inl hphase) _ fun _ => rfl
  | marking jobId rest found => exact move_of_marking hphase hstep
  | measuring jobId justTransitioned rest found =>
    have hskipped : RepairMove config h .goOn { h with phase := .detecting rest found } :=
      .skipped jobId rest found (.inr (.inr ⟨_, hphase⟩)) h.manager.contexts fun _ => rfl
    rw [RepairHost.goOn, hphase] at hstep
    dsimp only at hstep
    split at hstep
    · cases hstep
      exact hskipped
    · next c hc =>
      split_ifs at hstep with hshort
      · cases hstep
        exact hskipped
      · cases hstep
        refine .reported jobId justTransitioned rest found c _ hphase hc (fun hjust => ?_) rfl rfl
        exact Nat.le_of_not_lt fun hlt => hshort ⟨hjust, hlt⟩
  | repairing found =>
    rw [RepairHost.goOn, hphase] at hstep
    cases found with
    | nil =>
      cases hstep
      exact .ended hphase
    | cons job found => cases hstep

theorem canTransitionTo_failed (s : JobState) : s.canTransitionTo .failed = !s.isTerminal := by
  cases s <;> rfl

theorem move_of_failing {k : Nat} {job : StuckJob} (hphase : h.phase = .repairing found)
    (hjob : found[k]? = some job) (hmax : config.maxRepairAttempts ≤ job.repairAttempts) :
    RepairMove config h (.repair k)
      { h.repairStuckJob config job with phase := .repairing (found.eraseIdx k) } := by
  rw [RepairHost.repairStuckJob, if_pos hmax]
  rcases update_cases h job.jobId (fun c => c.transitionTo h.now .failed (some config.exceeded))
    (fun c => [.markedFailed job.jobId h.now c.state]) with ⟨hnone, hu⟩ | ⟨c, m, hc, hm, hu⟩
  · rw [hu]
    refine .passedOver k found job hphase hjob (fun c hc => ?_) h.manager.contexts fun _ => rfl
    rw [hnone] at hc
    cases hc
  · have hmoved := moved_transitionTo h.now c .failed (some config.exceeded)
    cases hend : c.state.isTerminal with
    | true =>
      have hcan := canTransitionTo_failed c.state
      rw [hend] at hcan
      obtain ⟨e, he⟩ := transitionTo_error h.now (some config.exceeded) hcan
      rcases hu with ⟨hok, -⟩ | ⟨e', -, hu⟩
      · rw [he] at hok
        cases hok
      · rw [hu]
        simp only [he] at hm
        refine .passedOver k found job hphase hjob (fun c₁ hc₁ => ?_) m (lookup_of_same hc hm)
        rw [hc] at hc₁
        cases hc₁
        rw [if_pos hmax]
        exact hend
    | false =>
      have hcan := canTransitionTo_failed c.state
      rw [hend] at hcan
      obtain ⟨hok, hstate'⟩ := transitionTo_ok h.now (some config.exceeded) hcan (by
        intro hfailed
        rw [hfailed] at hend
        cases hend)
      rcases hu with ⟨-, hu⟩ | ⟨e, herror, -⟩
      · rw [hu]
        exact .failed k found job c _ m hphase hjob hmax hc hm hmoved hstate'
      · rw [hok] at herror
        cases herror

theorem move_of_recovering {k : Nat} {job : StuckJob} (hphase : h.phase = .repairing found)
    (hjob : found[k]? = some job) (hmax : ¬ config.maxRepairAttempts ≤ job.repairAttempts) :
    RepairMove config h (.repair k)
      { h.repairStuckJob config job with phase := .repairing (found.eraseIdx k) } := by
  rw [RepairHost.repairStuckJob, if_neg hmax]
  rcases update_cases h job.jobId (RepairHost.recover h.now) (h.recoveryEvents job) with
    ⟨hnone, hu⟩ | ⟨c, m, hc, hm, hu⟩
  · rw [hu]
    refine .passedOver k found job hphase hjob (fun c hc => ?_) h.manager.contexts fun _ => rfl
    rw [hnone] at hc
    cases hc
  · rcases recover_cases h.now c with
      ⟨hstate, hok, hstate', hattempts⟩ | ⟨hstuck, hprogress, e, he⟩
    · rcases hu with ⟨-, hu⟩ | ⟨e, herror, -⟩
      · rw [hu]
        exact .recovered k found job c _ m hphase hjob (Nat.lt_of_not_le hmax) hc hstate hm
          hstate' hattempts
      · rw [hok] at herror
        cases herror
    · rcases hu with ⟨hok, -⟩ | ⟨e', -, hu⟩
      · rw [he] at hok
        cases hok
      · rw [hu]
        simp only [he] at hm
        refine .passedOver k found job hphase hjob (fun c₁ hc₁ => ?_) m (lookup_of_same hc hm)
        rw [hc] at hc₁
        cases hc₁
        rw [if_neg hmax]
        exact ⟨hstuck, hprogress⟩

theorem move_of_repairStep {a : RepairAction} (hstep : repairStep config h a = some h') :
    RepairMove config h a h' := by
  cases a with
  | insert c =>
    simp only [repairStep] at hstep
    split_ifs at hstep with hguard
    cases hstep
    exact .inserted c _ (fun id => HashMap.lookup_insert _ _ _ _) hguard.1 hguard.2
  | remove jobId =>
    cases hstep
    exact .removed jobId _ fun id => HashMap.lookup_erase _ _ _
  | clock now =>
    simp only [repairStep] at hstep
    split_ifs at hstep with hle
    cases hstep
    exact .clocked now hle
  | worker jobId newState reason => exact move_of_worker hstep
  | goOn => exact move_of_goOn hstep
  | repair k =>
    simp only [repairStep] at hstep
    split at hstep
    · next found hphase =>
      obtain ⟨job, hjob, rfl⟩ := Option.map_eq_some_iff.mp hstep
      by_cases hmax : config.maxRepairAttempts ≤ job.repairAttempts
      · exact move_of_failing hphase hjob hmax
      · exact move_of_recovering hphase hjob hmax
    · cases hstep

end Inversion

end IronClaw.Jobs
