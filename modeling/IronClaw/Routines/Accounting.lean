import IronClaw.Routines.Schedule

/-!
# Accounts of runs

When a run has been completed, its routine is written back from a copy. That is right as long as
each is the next one completed, with the counters and the trigger stored.
-/

namespace IronClaw.Routines

open Foundation (Along Pool Text run run_invariant)

def completionsOf (id : Uuid) (s : EngineShared) : List RunStatus :=
  (s.completions.filter fun c => decide (c.1 = id)).map Prod.snd

def EngineTask.writesBack : EngineTask → Option Uuid
  | reckoning r _ | scheduling r _ _ | writing r _ _ _ => some r.id
  | dispatchedLoading id _ => some id
  | _ => none

def EngineTask.owes (id : Uuid) (t : EngineTask) : Bool := decide (t.writesBack = some id)

def Routine.Consistent {libs : RoutineLibs} (occurs : libs.Schedule → Option Text → Time → Prop)
    (r : Routine) : Prop :=
  ∀ n, r.nextFireAt = some n → libs.Occurs occurs n r.trigger

/-- The accounts of a routine after runs that have ended so. -/
structure Reckoned {libs : RoutineLibs} (occurs : libs.Schedule → Option Text → Time → Prop)
    (before : Routine) (endings : List RunStatus) (r : Routine) : Prop where
  runCount : r.runCount = before.runCount + endings.length
  failures : r.consecutiveFailures = endings.foldl failuresAfter before.consecutiveFailures
  nextFire : r.Consistent occurs

/-- What is written back is of the next completed run, computed from what is stored. -/
def InTurn (before : Routine) (p : EnginePool) (a : EngineAction) : Prop :=
  ∀ i r status lastRunAt nextFireAt, a = .advance i .go →
    p.tasks[i]? = some (.writing r status lastRunAt nextFireAt) → r.id = before.id →
    ∀ row, p.shared.routines.lookup before.id = some row →
      r.runCount = row.runCount ∧ r.consecutiveFailures = row.consecutiveFailures ∧
      r.trigger = row.trigger ∧
      (completionsOf before.id p.shared)[row.runCount - before.runCount]? = some status

/-- The accounts of a routine cover all endings but the last ones, which are owed. -/
def Covers {libs : RoutineLibs} (occurs : libs.Schedule → Option Text → Time → Prop)
    (before : Routine) (endings : List RunStatus) (owed : Nat) (r : Routine) : Prop :=
  ∃ k, k + owed = endings.length ∧ Reckoned occurs before (endings.take k) r

/-- The accounts cover all completed runs but those that are still to be written back. -/
structure Accounted {libs : RoutineLibs} (occurs : libs.Schedule → Option Text → Time → Prop)
    (before : Routine) (p : EnginePool) : Prop where
  row : ∀ row, p.shared.routines.lookup before.id = some row →
    Covers occurs before (completionsOf before.id p.shared)
      (p.tasks.countP (EngineTask.owes before.id)) row
  edited : ∀ r, r.id = before.id → ((∃ edit, .applying r edit ∈ p.tasks) ∨ .saving r ∈ p.tasks) →
    r.Consistent occurs

section Steps

variable {env : RoutineEnv} {occurs : env.libs.Schedule → Option Text → Time → Prop}
  {before : Routine} {s s' : EngineShared} {p p' : EnginePool} {a : EngineAction} {t : EngineTask}
  {ts : List EngineTask}

theorem consistent_of_nextFire (hlaw : env.libs.Lawful occurs) {r : Routine} (now : Time)
    (h : r.nextFireAt = env.libs.nextFire now r.trigger) : r.Consistent occurs := by
  intro n hn
  exact (RoutineLibs.nextFire_spec hlaw (h.symm.trans hn)).1.2

theorem nextFire_of_nextCronFire {libs : RoutineLibs} {now : Time} {schedule : Text}
    {timezone : Option Text} {next : Option Time}
    (h : libs.nextCronFire now schedule timezone = some next) :
    next = libs.nextFire now (.cron schedule timezone) := by
  simp [RoutineLibs.nextFire, h]

theorem consistent_of_apply (hlaw : env.libs.Lawful occurs) {now : Time} {r r' : Routine}
    {edit : RoutineEdit} (hr : r.Consistent occurs) (h : edit.apply env.libs now r = some r') :
    r'.Consistent occurs := by
  cases edit with
  | toggle enabled =>
    simp only [RoutineEdit.apply, Routine.toggled] at h
    split at h
    · next schedule timezone htrigger =>
      split_ifs at h
      · obtain ⟨next, hnext, rfl⟩ := Option.map_eq_some_iff.mp h
        refine consistent_of_nextFire hlaw now ?_
        rw [htrigger]
        exact nextFire_of_nextCronFire hnext
      · cases h
        exact hr
    · cases h
      exact hr
  | update enabled prompt schedule timezone =>
    simp only [RoutineEdit.apply] at h
    split_ifs at h
    · cases h
      exact hr
    · simp only [Routine.withSchedule] at h
      split at h
      · obtain ⟨next, hnext, rfl⟩ := Option.map_eq_some_iff.mp h
        exact consistent_of_nextFire hlaw now (nextFire_of_nextCronFire hnext)
      · cases h
  | retrigger trigger =>
    cases h
    exact consistent_of_nextFire hlaw now rfl

theorem owes_of_goNext {id : Uuid} (hgo : EngineTask.goNext env s t = some (s', ts))
    (ht : t.writesBack = none) (hcompleting : ∀ run status, t ≠ .completing run status)
    (hdispatched : ∀ run status, t ≠ .dispatchedCompleting run status) :
    ts.countP (EngineTask.owes id) = 0 := by
  rw [List.countP_eq_zero]
  intro u hu howes
  have hprecedes := precedes_of_goNext hgo u hu
  cases u with
  | reckoning r status =>
    rcases hprecedes with ⟨run, rfl, -⟩ | ⟨id, rfl, -⟩
    · exact hcompleting run status rfl
    · cases ht
  | scheduling r status lastRunAt =>
    obtain ⟨rfl, -⟩ := hprecedes
    cases ht
  | writing r status lastRunAt nextFireAt =>
    obtain ⟨rfl, -⟩ := hprecedes
    cases ht
  | dispatchedLoading id status =>
    obtain ⟨run, rfl, -⟩ := hprecedes
    exact hdispatched run status rfl
  | _ => simp [EngineTask.owes, EngineTask.writesBack] at howes

theorem completionsOf_completeRoutineRun (id runId routineId : Uuid) (status : RunStatus) :
    completionsOf id (s.completeRoutineRun runId routineId status) =
      completionsOf id s ++ if routineId = id then [status] else [] := by
  simp only [completionsOf, EngineShared.completeRoutineRun, List.filter_append, List.map_append]
  split_ifs with h <;> simp [h]

variable {endings : List RunStatus} {owed : Nat} {r row : Routine}

theorem Covers.complete (h : Covers occurs before endings owed row) (status : RunStatus) :
    Covers occurs before (endings ++ [status]) (owed + 1) row := by
  obtain ⟨k, hk, hrow⟩ := h
  refine ⟨k, by simp; omega, ?_⟩
  rw [List.take_append_of_le_length (by omega)]
  exact hrow

theorem Covers.write (h : Covers occurs before endings (owed + 1) row) {status : RunStatus}
    {lastRunAt : Time} {nextFireAt : Option Time} (hcount : r.runCount = row.runCount)
    (hfailures : r.consecutiveFailures = row.consecutiveFailures)
    (hturn : endings[row.runCount - before.runCount]? = some status)
    (hnext : (row.withRuntime lastRunAt nextFireAt (r.runCount + 1)
      (failuresAfter r.consecutiveFailures status)).Consistent occurs) :
    Covers occurs before endings owed (row.withRuntime lastRunAt nextFireAt (r.runCount + 1)
      (failuresAfter r.consecutiveFailures status)) := by
  obtain ⟨k, hk, hrow⟩ := h
  have hlength : (endings.take k).length = k := List.length_take_of_le (by omega)
  have hstored : row.runCount = before.runCount + k := by rw [hrow.runCount, hlength]
  -- the run in turn is the one behind those that are covered
  have hturn : endings[k]? = some status := by
    rw [hstored, Nat.add_sub_cancel_left] at hturn
    exact hturn
  have htake : endings.take (k + 1) = endings.take k ++ [status] := by
    rw [List.take_add_one, hturn]
    rfl
  refine ⟨k + 1, by omega, ?_, ?_, hnext⟩
  · show r.runCount + 1 = _
    rw [htake, List.length_append, hlength, hcount, hstored]
    rfl
  · show failuresAfter r.consecutiveFailures status = _
    rw [htake, List.foldl_append, ← hrow.failures, hfailures]
    rfl

theorem Covers.save (h : Covers occurs before endings owed row) (hr : r.Consistent occurs) :
    Covers occurs before endings owed (r.withoutRuntime row) := by
  obtain ⟨k, hk, hrow⟩ := h
  exact ⟨k, hk, hrow.runCount, hrow.failures, hr⟩

theorem persistent_true (env : RoutineEnv) : Persistent env 0 (fun _ => True) fun _ => True := by
  constructor <;> intros <;> trivial

theorem Accounted.rows_of_goNext (hreckoned : TaskOk env 0 (fun _ => True) (fun _ => True) t)
    (h : ∀ row, s.routines.lookup before.id = some row →
      Covers occurs before (completionsOf before.id s)
        (owed + if t.owes before.id then 1 else 0) row)
    (hedited : ∀ r, r.id = before.id → t = .saving r → r.Consistent occurs)
    (hlaw : env.libs.Lawful occurs) (hgo : EngineTask.goNext env s t = some (s', ts))
    (hturn : ∀ r status lastRunAt nextFireAt, t = .writing r status lastRunAt nextFireAt →
      r.id = before.id → ∀ row, s.routines.lookup before.id = some row →
        r.runCount = row.runCount ∧ r.consecutiveFailures = row.consecutiveFailures ∧
        r.trigger = row.trigger ∧
        (completionsOf before.id s)[row.runCount - before.runCount]? = some status) :
    ∀ row, s'.routines.lookup before.id = some row →
      Covers occurs before (completionsOf before.id s')
        (owed + ts.countP (EngineTask.owes before.id)) row := by
  -- tasks that neither complete nor write back a run, and leave the routine as it is
  have hquiet : t.writesBack = none → (∀ run status, t ≠ .completing run status) →
      (∀ run status, t ≠ .dispatchedCompleting run status) → s'.routines = s.routines →
      s'.completions = s.completions → ∀ row, s'.routines.lookup before.id = some row →
        Covers occurs before (completionsOf before.id s')
          (owed + ts.countP (EngineTask.owes before.id)) row := by
    intro hnone hcompleting hdispatched hroutines hcompletions row hrow
    rw [owes_of_goNext hgo hnone hcompleting hdispatched]
    have hcovers := h row (hroutines ▸ hrow)
    simpa [EngineTask.owes, hnone, completionsOf, hcompletions] using hcovers
  cases sharedStep_of_goNext hgo with
  | idle t hidle =>
    cases t with
    | reckoning r status =>
      cases hgo
      simpa [EngineTask.owes, EngineTask.writesBack] using h
    | scheduling r status lastRunAt =>
      cases hgo
      simpa [EngineTask.owes, EngineTask.writesBack] using h
    | dispatchedLoading id status =>
      cases hgo
      intro row hrow
      have hcovers := h row hrow
      cases hr : s.routines.lookup id with
      | none =>
        -- a routine that is gone owes nothing
        have hne : id ≠ before.id := by
          rintro rfl
          rw [hr] at hrow
          cases hrow
        simpa [EngineTask.owes, EngineTask.writesBack, hne] using hcovers
      | some r =>
        have hid : r.id = id := RoutineTable.id_of_lookup hr
        simpa [EngineTask.owes, EngineTask.writesBack, hid] using hcovers
    | writing r status lastRunAt nextFireAt => cases hidle
    | completing run status => cases hidle
    | dispatchedCompleting run status => cases hidle
    | _ => exact hquiet rfl (by simp) (by simp) rfl rfl
  | completed run status =>
    cases hgo
    intro row hrow
    have hcovers := h row hrow
    simp only [completionsOf_completeRoutineRun]
    by_cases hid : run.routine.id = before.id
    · simpa [EngineTask.owes, EngineTask.writesBack, hid] using hcovers.complete status
    · simpa [EngineTask.owes, EngineTask.writesBack, hid] using hcovers
  | recovered run status =>
    cases hgo
    intro row hrow
    have hcovers := h row hrow
    simp only [completionsOf_completeRoutineRun]
    by_cases hid : run.routineId = before.id
    · simpa [EngineTask.owes, EngineTask.writesBack, hid] using hcovers.complete status
    · simpa [EngineTask.owes, EngineTask.writesBack, hid] using hcovers
  | written r status lastRunAt nextFireAt =>
    have hleft : ts.countP (EngineTask.owes before.id) = 0 := by
      cases hgo
      split_ifs <;> rfl
    intro row hrow
    rw [EngineShared.lookup_updateRoutineRuntime] at hrow
    rw [hleft]
    split_ifs at hrow with hid
    · obtain ⟨old, hold, rfl⟩ := Option.map_eq_some_iff.mp hrow
      obtain ⟨hcount, hfailures, htrigger, hending⟩ :=
        hturn r status lastRunAt nextFireAt rfl hid.symm old hold
      have hcovers : Covers occurs before (completionsOf before.id s) (owed + 1) old := by
        simpa [EngineTask.owes, EngineTask.writesBack, hid] using h old hold
      refine hcovers.write hcount hfailures hending ?_
      obtain ⟨now, -, hnext⟩ := hreckoned.reckoned r status lastRunAt nextFireAt rfl
      refine consistent_of_nextFire hlaw now ?_
      rw [htrigger] at hnext
      exact hnext
    · have hcovers := h row hrow
      simp only [EngineTask.owes, EngineTask.writesBack, Option.some.injEq, Ne.symm hid,
        decide_false, Bool.false_eq_true, if_false] at hcovers
      exact hcovers
  | saved r =>
    cases hgo
    intro row hrow
    rw [EngineShared.lookup_updateRoutine] at hrow
    split_ifs at hrow with hid
    · obtain ⟨old, hold, rfl⟩ := Option.map_eq_some_iff.mp hrow
      exact (h old hold).save (hedited r hid.symm rfl)
    · exact h row hrow
  | deleted id =>
    cases hgo
    intro row hrow
    rw [RoutineTable.lookup_erase] at hrow
    split_ifs at hrow
    exact h row hrow
  | _ => exact hquiet rfl (by simp) (by simp) rfl rfl

theorem accounted_of_engineStep (hlaw : env.libs.Lawful occurs)
    (hcopies : Everywhere env 0 (fun _ => True) (fun _ => True) p) (h : Accounted occurs before p)
    (hturn : InTurn before p a) (hstep : engineStep env p a = some p') :
    Accounted occurs before p' := by
  rcases engineStep_cases hstep with ⟨u, hu, rfl⟩ | ⟨now, rfl, hle, rfl⟩ |
    ⟨event, front, t, back, s', ts, rfl, htasks, hnext, rfl⟩
  · have howes : u.owes before.id = false := by
      cases a <;> cases hu <;> rfl
    refine ⟨fun row hrow => ?_, fun r hid hr => h.edited r hid ?_⟩
    · simpa [Pool.start, List.countP_append, howes] using h.row row hrow
    · -- what comes in has loaded nothing yet
      simp only [Pool.start, List.mem_append, List.mem_singleton] at hr
      rcases hr with ⟨edit, hr | hr⟩ | hr | hr
      · exact .inl ⟨edit, hr⟩
      · cases a <;> cases hu <;> cases hr
      · exact .inr hr
      · cases a <;> cases hu <;> cases hr
  · exact ⟨h.row, h.edited⟩
  · have hmem : t ∈ p.tasks := by simp [htasks]
    have hget := getElem_length htasks
    have hothers : ∀ u ∈ front ++ back, u ∈ p.tasks := fun u => Pool.mem_of_split htasks
    have hcount : ∀ P : EngineTask → Bool, (front ++ ts ++ back).countP P =
        (front ++ back).countP P + ts.countP P := by
      intro P
      simp only [List.countP_append]
      omega
    have hbefore : p.tasks.countP (EngineTask.owes before.id) =
        (front ++ back).countP (EngineTask.owes before.id) +
          if t.owes before.id then 1 else 0 := by
      rw [htasks]
      simp only [List.countP_append, List.countP_cons]
      omega
    have hrows := h.row
    rw [hbefore] at hrows
    rcases next_cases hnext with ⟨rfl, hgo⟩ | ⟨runId, r, origin, rest, rfl, hpending, -, rfl, rfl⟩ |
      ⟨status, run, rfl, rfl, hstatus, rfl, rfl⟩
    · refine ⟨fun row hrow => ?_, fun r hid hr => ?_⟩
      · rw [hcount]
        refine Accounted.rows_of_goNext (hcopies.tasks t hmem) hrows ?_ hlaw hgo ?_ row hrow
        · rintro r hid rfl
          exact h.edited r hid (.inr hmem)
        · rintro r status lastRunAt nextFireAt rfl hid row hrow
          exact hturn _ r status lastRunAt nextFireAt rfl hget hid row hrow
      · rcases hr with ⟨edit, hr⟩ | hr <;> rcases mem_replaced_iff.mp hr with hr | hr
        · -- the author starts from what is stored
          obtain ⟨id, rfl, hload⟩ := precedes_of_goNext hgo _ hr
          rw [← RoutineTable.id_of_lookup hload, hid] at hload
          obtain ⟨k, -, hrow⟩ := h.row r hload
          exact hrow.nextFire
        · exact h.edited r hid (.inl ⟨edit, hothers _ hr⟩)
        · obtain ⟨old, edit, rfl, happly⟩ := precedes_of_goNext hgo _ hr
          have hold : old.id = before.id := (id_of_apply happly).symm.trans hid
          exact consistent_of_apply hlaw (h.edited old hold (.inl ⟨edit, hmem⟩)) happly
        · exact h.edited r hid (.inr (hothers _ hr))
    · have howes : t.owes before.id = false := by
        rcases pending_cases hpending with ⟨due, rfl, -⟩ | ⟨e, counts, matchers, rfl, -⟩ |
          ⟨e, triggered, rfl, -⟩ | ⟨rfl, -⟩ <;> rfl
      have hleft : (rest ++ [EngineTask.recording (p.shared.fire env runId r origin)]).countP
          (EngineTask.owes before.id) = 0 := by
        rw [List.countP_eq_zero]
        intro u hu
        rcases mem_of_pending hpending hu with rfl | ⟨due, -, rfl⟩ |
          ⟨e, counts, matchers, -, rfl⟩ | ⟨e, triggered, -, rfl⟩ <;> simp [EngineTask.owes,
            EngineTask.writesBack]
      refine ⟨fun row hrow => ?_, fun r' hid hr => ?_⟩
      · have hcovers := hrows row hrow
        rw [howes] at hcovers
        rw [hcount, hleft]
        exact hcovers
      · have hkept : ∀ u ∈ front ++
            (rest ++ [.recording (p.shared.fire env runId r origin)]) ++ back,
            ((∃ edit, u = .applying r' edit) ∨ u = .saving r') → u ∈ p.tasks := by
          intro u hu hkind
          rcases mem_replaced_iff.mp hu with hu | hu
          · rcases mem_of_pending hpending hu with rfl | ⟨due, -, rfl⟩ |
              ⟨e, counts, matchers, -, rfl⟩ | ⟨e, triggered, -, rfl⟩ <;> simp at hkind
          · exact hothers u hu
        refine h.edited r' hid ?_
        rcases hr with ⟨edit, hr⟩ | hr
        · exact .inl ⟨edit, hkept _ hr (.inl ⟨edit, rfl⟩)⟩
        · exact .inr (hkept _ hr (.inr rfl))
    · refine ⟨fun row hrow => ?_, fun r' hid hr => h.edited r' hid ?_⟩
      · rw [hcount]
        exact hrows row hrow
      · rcases hr with ⟨edit, hr⟩ | hr <;> rcases mem_replaced_iff.mp hr with hr | hr
        · cases List.mem_singleton.mp hr
        · exact .inl ⟨edit, hothers _ hr⟩
        · cases List.mem_singleton.mp hr
        · exact .inr (hothers _ hr)

end Steps

/-- **No run is lost.** If runs are written back in order, the routine counts them all and their
failures in a row, and is due by its trigger. -/
theorem reckoned_of_inTurn {env : RoutineEnv}
    {occurs : env.libs.Schedule → Option Text → Time → Prop} (hlaw : env.libs.Lawful occurs)
    {now : Time} {routines : RoutineTable} {runs : List RoutineRun} {before : Routine}
    (hbefore : routines.lookup before.id = some before) (hdue : before.Consistent occurs)
    {actions : List EngineAction} {p : EnginePool}
    (hcond : Along (engineStep env) (InTurn before) (.boot now routines runs) actions)
    (hrun : run (engineStep env) (.boot now routines runs) actions = some p)
    (hdone : ∀ t ∈ p.tasks, t.writesBack ≠ some before.id) {row : Routine}
    (hrow : p.shared.routines.lookup before.id = some row) :
    Reckoned occurs before (completionsOf before.id p.shared) row := by
  have hstart : Everywhere env 0 (fun _ => True) (fun _ => True) (.boot now routines runs) := by
    refine ⟨⟨Nat.zero_le _, fun _ _ _ => trivial, ?_, ?_⟩, ?_⟩ <;> simp [EnginePool.boot]
  have haccounted : Accounted occurs before (.boot now routines runs) := by
    refine ⟨fun row hrow => ⟨0, rfl, ?_⟩, by simp [EnginePool.boot]⟩
    obtain rfl : before = row := Option.some.inj (hbefore.symm.trans hrow)
    exact ⟨rfl, rfl, hdue⟩
  have hinv := run_invariant (I := fun q => Everywhere env 0 (fun _ => True) (fun _ => True) q ∧
    Accounted occurs before q) (fun q a q' hq hturn hstep =>
      ⟨everywhere_of_engineStep (persistent_true env) hq.1 (fun _ _ _ => trivial) hstep,
        accounted_of_engineStep hlaw hq.1 hq.2 hturn hstep⟩) ⟨hstart, haccounted⟩ hcond hrun
  obtain ⟨k, hk, hreckoned⟩ := hinv.2.row row hrow
  have howed : p.tasks.countP (EngineTask.owes before.id) = 0 := by
    rw [List.countP_eq_zero]
    intro t ht
    simpa [EngineTask.owes] using hdone t ht
  rw [List.take_of_length_le (by omega)] at hreckoned
  exact hreckoned

def oneRun : List EngineAction :=
  [.manual 1 none, .advance 0 .go, .advance 0 .go, .advance 0 (.fire 7), .advance 0 .go,
    .advance 0 .go, .advance 0 (.finish .failed), .advance 0 .go, .advance 0 .go, .advance 0 .go,
    .advance 0 .go]

/-- Two runs are fired. Meanwhile the author sets the schedule to midnight. Both fail and are
written back. -/
def twoRuns : List EngineAction :=
  [.manual 1 none, .manual 1 none, .advance 0 .go, .advance 0 .go, .advance 1 .go, .advance 1 .go,
    .advance 0 (.fire 7), .advance 1 (.fire 8), .advance 0 .go, .advance 0 .go, .advance 1 .go,
    .advance 1 .go,
    .edit 1 (.update none none (some "0 0 * * *".toList) none), .advance 2 .go, .advance 2 .go,
    .advance 2 .go, .advance 2 .go, .advance 2 .go,
    .advance 0 (.finish .failed), .advance 0 .go, .advance 0 .go, .advance 0 .go, .advance 0 .go,
    .advance 0 (.finish .failed), .advance 0 .go, .advance 0 .go, .advance 0 .go, .advance 0 .go]

theorem consistent_hourlyRoutine : hourlyRoutine.Consistent onTheClock := by
  rintro n ⟨rfl⟩
  exact ⟨(.hour, none), rfl, Nat.dvd_refl _⟩

theorem reckoned_oneRun : ∃ p row, run (engineStep smallEngine) hourlyEngine oneRun = some p ∧
    p.shared.routines.lookup 1 = some row ∧ row.runCount = 1 ∧
    Reckoned onTheClock hourlyRoutine (completionsOf 1 p.shared) row := by
  obtain ⟨p, row, hrun, hrow, hcount, hdone⟩ : ∃ p row,
      run (engineStep smallEngine) hourlyEngine oneRun = some p ∧
      p.shared.routines.lookup 1 = some row ∧ row.runCount = 1 ∧ p.tasks = [] :=
    ⟨_, _, rfl, rfl, rfl, rfl⟩
  refine ⟨p, row, hrun, hrow, hcount, ?_⟩
  have hlaw : smallEngine.libs.Lawful onTheClock := lawful_onTheClock
  have hbefore : (RoutineTable.single hourlyRoutine).lookup hourlyRoutine.id =
      some hourlyRoutine := rfl
  refine reckoned_of_inTurn hlaw hbefore consistent_hourlyRoutine ?_ hrun ?_ hrow
  · refine .of_step rfl (fun i r status lastRunAt nextFireAt heq => nomatch heq) ?_
    iterate 2 refine .of_step rfl (by rintro i r status lastRunAt nextFireAt ⟨⟩ ⟨⟩) ?_
    refine .of_step rfl (fun i r status lastRunAt nextFireAt heq => nomatch heq) ?_
    iterate 2 refine .of_step rfl (by rintro i r status lastRunAt nextFireAt ⟨⟩ ⟨⟩) ?_
    refine .of_step rfl (fun i r status lastRunAt nextFireAt heq => nomatch heq) ?_
    iterate 3 refine .of_step rfl (by rintro i r status lastRunAt nextFireAt ⟨⟩ ⟨⟩) ?_
    -- the copy of the run is still what is stored
    refine .of_step rfl ?_ trivial
    rintro i r status lastRunAt nextFireAt ⟨⟩ ⟨rfl⟩ - row ⟨rfl⟩
    exact ⟨rfl, rfl, rfl, rfl⟩
  · intro t ht
    rw [hdone] at ht
    cases ht

/-- Of two runs one is counted; the next fire is no time of the new schedule. -/
theorem run_lost : ∃ p row, run (engineStep smallEngine) hourlyEngine twoRuns = some p ∧
    p.tasks = [] ∧ p.shared.routines.lookup 1 = some row ∧
    completionsOf 1 p.shared = [.failed, .failed] ∧ row.runCount = 1 ∧
    row.consecutiveFailures = 1 ∧ ¬ row.Consistent onTheClock := by
  refine ⟨_, _, rfl, rfl, rfl, rfl, rfl, rfl, ?_⟩
  intro h
  obtain ⟨every, heq, hdvd⟩ := h anHour rfl
  cases heq
  have hday : 24 * anHour ∣ anHour := hdvd
  exact absurd hday (by decide)

end IronClaw.Routines
