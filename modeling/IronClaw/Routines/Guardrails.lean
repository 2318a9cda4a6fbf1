import IronClaw.Routines.Copies
import IronClaw.Routines.Steps

/-!
# Guardrails

The guardrails are checked on a copy, and a run recorded and counted later: what passes together is
recorded together. The last run of a routine is known when it has ended.
-/

namespace IronClaw.Routines

open Foundation (Along Pool Throughout run throughout_iff_along)

/-- An execution of a routine that was fired by anything but a call of the user. -/
def EngineTask.executesAutomatic : EngineTask → Bool
  | executing run => run.origin.isAutomatic
  | _ => false

/-- Of two fires, the later one keeps the cooldown if both are automatic. -/
def Apart (f f' : FiredRun) : Prop :=
  f.routine.id = f'.routine.id → f.origin.isAutomatic → f'.origin.isAutomatic →
    f.startedAt + f'.routine.guardrails.cooldown ≤ f'.startedAt

def WithinLimits (s : EngineShared) : Prop :=
  ∀ id r, s.routines.lookup id = some r → s.countRunning id ≤ r.guardrails.maxConcurrent

structure Guarded (env : RoutineEnv) (p : EnginePool) : Prop where
  concurrent : WithinLimits p.shared
  capacity : p.tasks.countP EngineTask.executesAutomatic ≤ env.maxConcurrentRoutines
  cooldown : p.shared.fires.Pairwise Apart

/-- A run is recorded, counted, and fired while the guards for this hold. -/
structure GuardsHold (env : RoutineEnv) (p : EnginePool) (a : EngineAction) : Prop where
  concurrent : ∀ i run, a = .advance i .go → p.tasks[i]? = some (.recording run) →
    ∀ r, p.shared.routines.lookup run.routine.id = some r →
      p.shared.countRunning run.routine.id < r.guardrails.maxConcurrent
  capacity : ∀ i run, a = .advance i .go → p.tasks[i]? = some (.starting run) →
    run.origin.isAutomatic →
      p.tasks.countP EngineTask.executesAutomatic < env.maxConcurrentRoutines
  cooldown : ∀ i runId t r origin rest, a = .advance i (.fire runId) → p.tasks[i]? = some t →
    t.pending = some (r, origin, rest) → origin.isAutomatic → ∀ f ∈ p.shared.fires,
      f.routine.id = r.id → f.origin.isAutomatic →
        f.startedAt + r.guardrails.cooldown ≤ p.shared.now

def EngineTask.Ends : EngineTask → Prop
  | completing _ status | dispatchedCompleting _ status => status ≠ .running
  | _ => True

/-- A routine's guardrails are the same in all copies, and completed runs have ended. -/
structure Steady (env : RoutineEnv) (guardrails : Uuid → RoutineGuardrails) (p : EnginePool) :
    Prop where
  copies : Everywhere env 0 (fun _ => True) (fun r => r.guardrails = guardrails r.id) p
  ends : ∀ t ∈ p.tasks, t.Ends

section Steps

variable {env : RoutineEnv} {guardrails : Uuid → RoutineGuardrails} {s s' : EngineShared}
  {p p' : EnginePool} {a : EngineAction} {t : EngineTask} {ts : List EngineTask}

theorem guardrails_persist (env : RoutineEnv) (guardrails : Uuid → RoutineGuardrails) :
    Persistent env 0 (fun _ => True) fun r => r.guardrails = guardrails r.id where
  written := fun _ _ _ _ _ hold _ _ => hold
  patched := fun _ _ _ hr => hr
  edited := by
    intro r r' edit t hr _ _ h
    obtain ⟨_, _, _, _, rfl⟩ := exists_of_apply h
    exact hr
  saved := by
    intro r old hr _ hid _
    show r.guardrails = guardrails old.id
    rw [hid]
    exact hr

theorem ends_of_next {event : EngineEvent}
    (h : EngineTask.next env event s t = some (s', ts)) : ∀ u ∈ ts, u.Ends := by
  rcases next_cases h with ⟨-, hgo⟩ | ⟨runId, r, origin, rest, -, hpending, -, -, rfl⟩ |
    ⟨status, run, -, -, hstatus, -, rfl⟩
  · intro u hu
    have hprecedes := precedes_of_goNext hgo u hu
    cases u with
    | completing run status => exact hprecedes.elim
    | dispatchedCompleting run status => exact hprecedes.elim
    | _ => trivial
  · intro u hu
    rcases mem_of_pending hpending hu with rfl | ⟨due, -, rfl⟩ | ⟨e, counts, matchers, -, rfl⟩ |
      ⟨e, triggered, -, rfl⟩ <;> trivial
  · intro u hu
    rw [List.mem_singleton.mp hu]
    exact hstatus

theorem steady_of_engineStep (h : Steady env guardrails p) (hstep : engineStep env p a = some p') :
    Steady env guardrails p' where
  copies := everywhere_of_engineStep (guardrails_persist env guardrails) h.copies
    (fun _ _ _ => trivial) hstep
  ends := by
    rcases engineStep_cases hstep with ⟨u, hu, rfl⟩ | ⟨now, -, -, rfl⟩ |
      ⟨event, front, t, back, s', ts, rfl, htasks, hnext, rfl⟩
    · intro v hv
      rcases List.mem_append.mp hv with hv | hv
      · exact h.ends v hv
      · rw [List.mem_singleton.mp hv]
        cases a with
        | recover run status =>
          cases hu
          exact (status_of_recover hstep).2
        | _ =>
          cases hu
          all_goals trivial
    · exact h.ends
    · intro v hv
      simp only [List.mem_append, or_assoc] at hv
      rcases hv with hv | hv | hv
      · exact h.ends v (Pool.mem_of_split htasks (List.mem_append_left _ hv))
      · exact ends_of_next hnext v hv
      · exact h.ends v (Pool.mem_of_split htasks (List.mem_append_right _ hv))

theorem withinLimits_mono
    (hrows : ∀ id r', s'.routines.lookup id = some r' →
      ∃ r, s.routines.lookup id = some r ∧ r'.guardrails = r.guardrails)
    (hcount : ∀ id, s'.countRunning id ≤ s.countRunning id) (h : WithinLimits s) :
    WithinLimits s' := by
  intro id r' hr'
  obtain ⟨r, hr, heq⟩ := hrows id r' hr'
  rw [heq]
  exact (hcount id).trans (h id r hr)

theorem countRunning_createRoutineRun (run : FiredRun) (id : Uuid) :
    (s.createRoutineRun run).countRunning id =
      s.countRunning id + if run.routine.id = id then 1 else 0 := by
  simp [EngineShared.createRoutineRun, EngineShared.countRunning, List.countP_append,
    List.countP_singleton]

theorem countRunning_completeRoutineRun (runId routineId : Uuid) {status : RunStatus}
    (hstatus : status ≠ .running) (id : Uuid) :
    (s.completeRoutineRun runId routineId status).countRunning id ≤ s.countRunning id := by
  simp only [EngineShared.completeRoutineRun, EngineShared.countRunning, List.countP_map]
  refine List.countP_mono_left fun run _ hrun => ?_
  simp only [Function.comp_apply, Bool.and_eq_true, beq_iff_eq] at hrun
  split_ifs at hrun
  · exact absurd hrun.2 hstatus
  · simpa using hrun

theorem withinLimits_createRoutineRun (h : WithinLimits s) (run : FiredRun) :
    WithinLimits (s.createRoutineRun run) ↔
      ∀ r, s.routines.lookup run.routine.id = some r →
        s.countRunning run.routine.id < r.guardrails.maxConcurrent := by
  constructor
  · intro h' r hr
    have hle := h' run.routine.id r hr
    rw [countRunning_createRoutineRun, if_pos rfl] at hle
    exact hle
  · intro hlt id r hr
    rw [countRunning_createRoutineRun]
    split_ifs with hid
    · subst hid
      exact hlt r hr
    · exact h id r hr

theorem withinLimits_of_sharedStep
    (hcopies : TaskOk env 0 (fun _ => True) (fun r => r.guardrails = guardrails r.id) t)
    (hends : t.Ends) (hrows : ∀ id r, s.routines.lookup id = some r →
      r.guardrails = guardrails r.id) (hstep : SharedStep s t s')
    (ht : ∀ run, t ≠ .recording run) (h : WithinLimits s) : WithinLimits s' := by
  have hsame : ∀ id r', s.routines.lookup id = some r' →
      ∃ r, s.routines.lookup id = some r ∧ r'.guardrails = r.guardrails :=
    fun id r' hr' => ⟨r', hr', rfl⟩
  cases hstep with
  | recorded run => exact absurd rfl (ht run)
  | completed run status =>
    exact withinLimits_mono hsame (countRunning_completeRoutineRun _ _ hends) h
  | recovered run status =>
    exact withinLimits_mono hsame (countRunning_completeRoutineRun _ _ hends) h
  | written r status lastRunAt nextFireAt =>
    refine withinLimits_mono (s := s) (fun id r' hr' => ?_) (fun _ => Nat.le_refl _) h
    rw [EngineShared.lookup_updateRoutineRuntime] at hr'
    split_ifs at hr'
    · obtain ⟨old, hold, rfl⟩ := Option.map_eq_some_iff.mp hr'
      exact ⟨old, hold, rfl⟩
    · exact ⟨r', hr', rfl⟩
  | saved r =>
    refine withinLimits_mono (s := s) (fun id r' hr' => ?_) (fun _ => Nat.le_refl _) h
    rw [EngineShared.lookup_updateRoutine] at hr'
    split_ifs at hr' with hid
    · obtain ⟨old, hold, rfl⟩ := Option.map_eq_some_iff.mp hr'
      -- the copy that is saved has the guardrails of the row
      refine ⟨old, hold, ?_⟩
      have hcopy : r.guardrails = guardrails r.id := hcopies.copies r List.mem_cons_self
      show r.guardrails = old.guardrails
      rw [hcopy, hrows id old hold, RoutineTable.id_of_lookup hold, hid]
    · exact ⟨r', hr', rfl⟩
  | deleted id =>
    refine withinLimits_mono (s := s) (fun id' r' hr' => ?_) (fun _ => Nat.le_refl _) h
    rw [RoutineTable.lookup_erase] at hr'
    split_ifs at hr'
    exact ⟨r', hr', rfl⟩
  | _ => exact h

theorem executesAutomatic_of_goNext (h : EngineTask.goNext env s t = some (s', ts))
    (ht : ∀ run, t ≠ .starting run) : ts.countP EngineTask.executesAutomatic = 0 := by
  rw [List.countP_eq_zero]
  intro u hu hexecutes
  have hprecedes := precedes_of_goNext h u hu
  cases u with
  | executing run => exact ht run hprecedes
  | _ => cases hexecutes

theorem executesAutomatic_of_pending {r : Routine} {origin : Origin} {rest : List EngineTask}
    (h : t.pending = some (r, origin, rest)) (run : FiredRun) :
    (rest ++ [EngineTask.recording run]).countP EngineTask.executesAutomatic = 0 := by
  rcases pending_cases h with ⟨due, -, -, rfl⟩ | ⟨e, counts, matchers, -, -, rfl⟩ |
    ⟨e, triggered, -, -, rfl⟩ | ⟨-, rfl⟩
  all_goals rfl

theorem executes_of_starts {u : EngineTask} (h : a.starts = some u) :
    u.executesAutomatic = false := by
  cases a <;> cases h <;> rfl

theorem capacity_iff (hstep : engineStep env p a = some p')
    (h : p.tasks.countP EngineTask.executesAutomatic ≤ env.maxConcurrentRoutines) :
    p'.tasks.countP EngineTask.executesAutomatic ≤ env.maxConcurrentRoutines ↔
      ∀ i run, a = .advance i .go → p.tasks[i]? = some (.starting run) → run.origin.isAutomatic →
        p.tasks.countP EngineTask.executesAutomatic < env.maxConcurrentRoutines := by
  rcases engineStep_cases hstep with ⟨u, hu, rfl⟩ | ⟨now, rfl, -, rfl⟩ |
    ⟨event, front, t, back, s', ts, rfl, htasks, hnext, rfl⟩
  · refine iff_of_true ?_ fun i run heq => absurd heq (ne_advance_of_starts hu i _)
    simpa [Pool.start, List.countP_append, executes_of_starts hu] using h
  · exact iff_of_true h fun i run heq => nomatch heq
  · have hcount := countP_replace EngineTask.executesAutomatic front t ts back
    have hget := getElem_length htasks
    rw [← htasks] at hcount
    rcases next_cases hnext with ⟨rfl, hgo⟩ | ⟨runId, r, origin, rest, rfl, hpending, -, -, rfl⟩ |
      ⟨status, run, rfl, rfl, hstatus, -, rfl⟩
    · by_cases ht : ∃ run, t = .starting run
      · -- the only step that lets a run execute
        obtain ⟨run, rfl⟩ := ht
        cases hgo
        constructor
        · rintro hle i run' ⟨⟩ hrun' hauto
          rw [hget] at hrun'
          cases hrun'
          simp [EngineTask.executesAutomatic, hauto] at hcount hle ⊢
          omega
        · intro hlt
          by_cases hauto : run.origin.isAutomatic
          · have := hlt _ run rfl hget hauto
            simp [EngineTask.executesAutomatic, hauto] at hcount this ⊢
            omega
          · simp [EngineTask.executesAutomatic, hauto] at hcount h ⊢
            omega
      · rw [executesAutomatic_of_goNext hgo fun run hrun => ht ⟨run, hrun⟩] at hcount
        refine iff_of_true (?_ : (front ++ ts ++ back).countP _ ≤ _) ?_
        · omega
        rintro i run ⟨⟩ hrun
        rw [hget] at hrun
        exact absurd ⟨run, Option.some.inj hrun⟩ ht
    · rw [executesAutomatic_of_pending hpending] at hcount
      refine iff_of_true (?_ : (front ++ _ ++ back).countP _ ≤ _) fun i run heq => nomatch heq
      omega
    · have hnone : [EngineTask.completing run status].countP EngineTask.executesAutomatic = 0 := rfl
      rw [hnone] at hcount
      refine iff_of_true (?_ : (front ++ _ ++ back).countP _ ≤ _) fun i run heq => nomatch heq
      omega

theorem cooldown_iff (hstep : engineStep env p a = some p') (h : p.shared.fires.Pairwise Apart) :
    p'.shared.fires.Pairwise Apart ↔
      ∀ i runId t r origin rest, a = .advance i (.fire runId) → p.tasks[i]? = some t →
        t.pending = some (r, origin, rest) → origin.isAutomatic → ∀ f ∈ p.shared.fires,
          f.routine.id = r.id → f.origin.isAutomatic →
            f.startedAt + r.guardrails.cooldown ≤ p.shared.now := by
  rcases engineStep_cases hstep with ⟨u, hu, rfl⟩ | ⟨now, rfl, -, rfl⟩ |
    ⟨event, front, t, back, s', ts, rfl, htasks, hnext, rfl⟩
  · exact iff_of_true h fun i runId t r origin rest heq => absurd heq (ne_advance_of_starts hu i _)
  · exact iff_of_true h fun i runId t r origin rest heq => nomatch heq
  · have hget := getElem_length htasks
    rcases next_cases hnext with ⟨rfl, hgo⟩ | ⟨runId, r, origin, rest, rfl, hpending, -, rfl, rfl⟩ |
      ⟨status, run, rfl, rfl, hstatus, rfl, rfl⟩
    · refine iff_of_true ?_ fun i runId t r origin rest heq => nomatch heq
      rw [fires_of_sharedStep (sharedStep_of_goNext hgo)]
      exact h
    · simp only [EngineShared.noteFire, List.pairwise_append, h, List.pairwise_singleton, true_and,
        List.mem_singleton, forall_eq]
      constructor
      · rintro hapart i runId' t' r' origin' rest' ⟨⟩ ht' hpending' hauto' f hf hid hauto
        rw [hget] at ht'
        cases ht'
        rw [hpending] at hpending'
        cases hpending'
        exact hapart f hf hid hauto hauto'
      · intro hguard f hf hid hauto hauto'
        exact hguard _ runId t r origin rest rfl hget hpending hauto' f hf hid hauto
    · exact iff_of_true h fun i runId t r origin rest heq => nomatch heq

theorem withinLimits_iff (hsteady : Steady env guardrails p) (hstep : engineStep env p a = some p')
    (h : WithinLimits p.shared) :
    WithinLimits p'.shared ↔ ∀ i run, a = .advance i .go → p.tasks[i]? = some (.recording run) →
      ∀ r, p.shared.routines.lookup run.routine.id = some r →
        p.shared.countRunning run.routine.id < r.guardrails.maxConcurrent := by
  rcases engineStep_cases hstep with ⟨u, hu, rfl⟩ | ⟨now, rfl, -, rfl⟩ |
    ⟨event, front, t, back, s', ts, rfl, htasks, hnext, rfl⟩
  · exact iff_of_true h fun i run heq => absurd heq (ne_advance_of_starts hu i _)
  · exact iff_of_true h fun i run heq => nomatch heq
  · have hget := getElem_length htasks
    have hmem : t ∈ p.tasks := by simp [htasks]
    rcases next_cases hnext with ⟨rfl, hgo⟩ | ⟨runId, r, origin, rest, rfl, hpending, -, rfl, rfl⟩ |
      ⟨status, run, rfl, rfl, hstatus, rfl, rfl⟩
    · have hshared := sharedStep_of_goNext hgo
      by_cases ht : ∃ run, t = .recording run
      · obtain ⟨run, rfl⟩ := ht
        cases hgo
        rw [withinLimits_createRoutineRun h run]
        constructor
        · rintro hlt i run' ⟨⟩ hrun'
          rw [hget] at hrun'
          cases hrun'
          exact hlt
        · intro hlt
          exact hlt _ run rfl hget
      · have hne : ∀ run, t ≠ .recording run := fun run hrun => ht ⟨run, hrun⟩
        refine iff_of_true (withinLimits_of_sharedStep (hsteady.copies.tasks t hmem)
          (hsteady.ends t hmem) hsteady.copies.shared.rows hshared hne h) ?_
        rintro i run ⟨⟩ hrun
        rw [hget] at hrun
        exact absurd (Option.some.inj hrun) (hne run)
    · exact iff_of_true h fun i run heq => nomatch heq
    · exact iff_of_true h fun i run heq => nomatch heq

end Steps

theorem steady_boot (env : RoutineEnv) (now : Time) (routines : RoutineTable)
    (runs : List RoutineRun) :
    Steady env (fun id => ((routines.lookup id).map Routine.guardrails).getD ⟨0, 0⟩)
      (EnginePool.boot now routines runs) where
  copies := by
    refine ⟨⟨Nat.zero_le _, fun id r hr => ?_, ?_, ?_⟩, ?_⟩
    · have hid : r.id = id := RoutineTable.id_of_lookup hr
      have hr' : routines.lookup id = some r := hr
      rw [hid, hr']
      rfl
    all_goals simp [EnginePool.boot]
  ends := by simp [EnginePool.boot]

/-- Two deliveries that both pass the checks before either of them is recorded. -/
def twoDeliveries : List EngineAction :=
  [.webhook 1 [], .webhook 1 [],
    .advance 0 .go, .advance 0 .go, .advance 0 .go, .advance 0 .go,
    .advance 1 .go, .advance 1 .go, .advance 1 .go, .advance 1 .go,
    .advance 0 (.fire 7), .advance 1 (.fire 8),
    .advance 0 .go, .advance 1 .go, .advance 0 .go, .advance 1 .go]

theorem withinLimits_webhookEngine : WithinLimits (webhookEngine "user1").shared :=
  fun _ _ _ => Nat.zero_le _

end IronClaw.Routines
