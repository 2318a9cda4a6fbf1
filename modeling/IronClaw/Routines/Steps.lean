import IronClaw.Routines.Engine

/-!
# Steps of the engine

Something comes in, the clock advances, or a task goes on. What a task does to what is shared
depends on the task alone, up to a few looks at the cache.
-/

namespace IronClaw.Routines

open Foundation (Pool)
open List (mem_append mem_singleton)

def EngineAction.starts : EngineAction → Option EngineTask
  | tick => some .listing
  | input e => some (.arriving e)
  | webhook id path => some (.webhookLoading id path)
  | manual id userId => some (.manualLoading id userId)
  | recover run status => some (.dispatchedCompleting run status)
  | edit id change => some (.changing id change)
  | delete id => some (.deleting id)
  | refresh => some (.refreshing none)
  | clock _ | advance _ _ => none

def EngineTask.writes : EngineTask → Bool
  | recording _ | starting _ | completing _ _ | dispatchedCompleting _ _ => true
  | writing _ _ _ _ | patching _ _ _ _ | saving _ | deleting _ | replacing _ _ => true
  | _ => false

/-- What a task that fires nothing and ends no execution does to what is shared. -/
inductive SharedStep (s : EngineShared) : EngineTask → EngineShared → Prop where
  | idle (t : EngineTask) (h : t.writes = false) : SharedStep s t s
  | locked (e : EngineInput) :
      SharedStep s (.arriving e) { s with cacheReaders := s.cacheReaders + 1 }
  | unlocked (e : EngineInput) (counts : Uuid → Nat) (triggered : List Routine) :
      SharedStep s (.checking e counts [] triggered)
        { s with cacheReaders := s.cacheReaders - 1 }
  | recorded (run : FiredRun) : SharedStep s (.recording run) (s.createRoutineRun run)
  | started (run : FiredRun) :
      SharedStep s (.starting run) { s with runningCount := s.runningCount + 1 }
  | completed (run : FiredRun) (status : RunStatus) :
      SharedStep s (.completing run status) (s.completeRoutineRun run.id run.routine.id status)
  | recovered (run : RoutineRun) (status : RunStatus) :
      SharedStep s (.dispatchedCompleting run status)
        (s.completeRoutineRun run.id run.routineId status)
  | written (r : Routine) (status : RunStatus) (lastRunAt : Time) (nextFireAt : Option Time) :
      SharedStep s (.writing r status lastRunAt nextFireAt)
        (s.updateRoutineRuntime r.id lastRunAt nextFireAt (r.runCount + 1)
          (failuresAfter r.consecutiveFailures status))
  | patched (id : Uuid) (lastRunAt : Time) (runCount failures : Nat) (h : s.cacheReaders = 0) :
      SharedStep s (.patching id lastRunAt runCount failures) { s with
        eventCache := EngineShared.patchCache id lastRunAt runCount failures s.eventCache }
  | saved (r : Routine) : SharedStep s (.saving r) (s.updateRoutine r)
  | deleted (id : Uuid) :
      SharedStep s (.deleting id) { s with routines := s.routines.erase id }
  | replaced (author : Option Uuid) (cache : List EventMatcher) (h : s.cacheReaders = 0) :
      SharedStep s (.replacing author cache) { s with eventCache := cache }

variable {env : RoutineEnv} {s s' : EngineShared} {t : EngineTask} {ts : List EngineTask}

theorem sharedStep_of_goNext (h : EngineTask.goNext env s t = some (s', ts)) :
    SharedStep s t s' := by
  cases t with
  | ticking due =>
    cases due <;> cases h <;> exact .idle _ rfl
  | arriving e =>
    simp only [EngineTask.goNext] at h
    split_ifs at h <;> cases h
    · exact .locked e
    · exact .idle _ rfl
  | checking e counts rest triggered =>
    cases rest with
    | nil =>
      cases h
      exact .unlocked e counts triggered
    | cons m rest =>
      -- whatever comes of the matcher, nothing is written
      simp only [EngineTask.goNext, EngineTask.checkNext] at h
      split_ifs at h <;> cases h <;> exact .idle _ rfl
  | triggering e triggered =>
    cases triggered <;> cases h
    exact .idle _ rfl
  | webhookLoading id path =>
    simp only [EngineTask.goNext] at h
    split at h <;> cases h <;> exact .idle _ rfl
  | manualLoading id userId =>
    simp only [EngineTask.goNext] at h
    split at h <;> cases h <;> exact .idle _ rfl
  | recording run => cases h; exact .recorded run
  | starting run => cases h; exact .started run
  | completing run status => cases h; exact .completed run status
  | dispatchedCompleting run status => cases h; exact .recovered run status
  | writing r status lastRunAt nextFireAt => cases h; exact .written r status lastRunAt nextFireAt
  | patching id lastRunAt runCount failures =>
    simp only [EngineTask.goNext] at h
    split_ifs at h with hreaders
    cases h
    exact .patched id lastRunAt runCount failures hreaders
  | saving r => cases h; exact .saved r
  | deleting id => cases h; exact .deleted id
  | replacing author cache =>
    simp only [EngineTask.goNext] at h
    split_ifs at h with hreaders
    cases h
    exact .replaced author cache hreaders
  | tickFiring r rest => cases h
  | emitting e counts r rest => cases h
  | firing r origin => cases h
  | executing run => cases h
  | _ => cases h; exact .idle _ rfl

theorem now_of_sharedStep (h : SharedStep s t s') : s'.now = s.now := by
  cases h <;> rfl

theorem fires_of_sharedStep (h : SharedStep s t s') : s'.fires = s.fires := by
  cases h <;> rfl

/-- What a task that goes on has been before, with what it has found. -/
def Precedes (env : RoutineEnv) (s : EngineShared) (t : EngineTask) : EngineTask → Prop
  | .ticking due => (t = .listing ∧ due = s.listDueCronRoutines) ∨
      ∃ r, t = .tickCooling r due ∨ t = .tickCounting r due
  | .tickCooling r rest => t = .ticking (r :: rest) ∧ s.runningCount < env.maxConcurrentRoutines
  | .tickCounting r rest => t = .tickCooling r rest ∧ s.checkCooldown r
  | .tickFiring r rest => t = .tickCounting r rest ∧ s.checkConcurrent r
  | .counting e matchers => t = .arriving e ∧ matchers = s.eventCache
  | .checking e counts rest triggered =>
      (t = .counting e rest ∧ counts = s.countRunning ∧ triggered = []) ∨
      ∃ m before, t = .checking e counts (m :: rest) before ∧ (triggered = before ∨
        e.isMessage ∧ e.selects env.libs m ∧ triggered = before ++ [m.routine])
  | .emitting e counts r rest => ∃ m triggered, t = .checking e counts (m :: rest) triggered ∧
      e.isMessage = false ∧ e.selects env.libs m ∧ r = m.routine
  | .triggering e triggered => ∃ counts, t = .checking e counts [] triggered ∧ e.isMessage
  | .webhookCooling r path =>
      ∃ id, t = .webhookLoading id path ∧ s.routines.lookup id = some r ∧ r.enabled
  | .webhookCounting r path => t = .webhookCooling r path ∧ s.checkCooldown r
  | .webhookLimiting r path => t = .webhookCounting r path ∧ s.checkConcurrent r
  | .manualCounting r userId => ∃ id, t = .manualLoading id userId ∧
      s.routines.lookup id = some r ∧ (userId.elim true fun uid => r.isOwnedBy uid) ∧ r.enabled
  | .firing r origin =>
      (∃ path, origin = .webhook path ∧ t = .webhookLimiting r path ∧
        s.runningCount < env.maxConcurrentRoutines) ∨
      ∃ userId, origin = .manual userId ∧ t = .manualCounting r userId ∧ s.checkConcurrent r
  | .starting run => t = .recording run
  | .executing run => t = .starting run
  | .reckoning r status => (∃ run, t = .completing run status ∧ r = run.routine) ∨
      ∃ id, t = .dispatchedLoading id status ∧ s.routines.lookup id = some r
  | .scheduling r status lastRunAt => t = .reckoning r status ∧ lastRunAt = s.now
  | .writing r status lastRunAt nextFireAt => t = .scheduling r status lastRunAt ∧
      nextFireAt = env.libs.nextFire s.now r.trigger
  | .patching id lastRunAt runCount failures => ∃ r status nextFireAt,
      t = .writing r status lastRunAt nextFireAt ∧ id = r.id ∧ runCount = r.runCount + 1 ∧
        failures = failuresAfter r.consecutiveFailures status
  | .dispatchedLoading id status => ∃ run, t = .dispatchedCompleting run status ∧
      id = run.routineId
  | .applying r edit => ∃ id, t = .changing id edit ∧ s.routines.lookup id = some r
  | .saving r' => ∃ r edit, t = .applying r edit ∧ edit.apply env.libs s.now r = some r'
  | .refreshing author => ∃ id, author = some id ∧
      ((∃ r, t = .saving r ∧ id = r.id) ∨ t = .deleting id)
  | .replacing author cache => t = .refreshing author ∧
      cache = buildCache env.libs s.listEventRoutines
  | _ => False

theorem precedes_of_goNext (h : EngineTask.goNext env s t = some (s', ts)) :
    ∀ u ∈ ts, Precedes env s t u := by
  intro u hu
  cases t with
  | ticking due =>
    cases due with
    | nil => cases h; cases hu
    | cons r rest =>
      cases h
      split_ifs at hu with hcount
      · cases hu
      · rw [mem_singleton.mp hu]
        exact ⟨rfl, Nat.lt_of_not_le hcount⟩
  | tickCooling r rest =>
    cases h
    split_ifs at hu with hcool <;> rw [mem_singleton.mp hu]
    · exact ⟨rfl, hcool⟩
    · exact .inr ⟨r, .inl rfl⟩
  | tickCounting r rest =>
    cases h
    split_ifs at hu with hcount <;> rw [mem_singleton.mp hu]
    · exact ⟨rfl, hcount⟩
    · exact .inr ⟨r, .inr rfl⟩
  | arriving e =>
    simp only [EngineTask.goNext] at h
    split_ifs at h <;> cases h
    · rw [mem_singleton.mp hu]
      exact ⟨rfl, rfl⟩
    · cases hu
  | counting e matchers =>
    cases h
    rw [mem_singleton.mp hu]
    exact .inl ⟨rfl, rfl, rfl⟩
  | checking e counts rest triggered =>
    cases rest with
    | nil =>
      cases h
      split_ifs at hu with hmessage
      · rw [mem_singleton.mp hu]
        exact ⟨counts, rfl, hmessage⟩
      · cases hu
    | cons m rest =>
      simp only [EngineTask.goNext, EngineTask.checkNext] at h
      split_ifs at h with hselect hmessage <;> cases h <;> rw [mem_singleton.mp hu]
      · simp only [Bool.and_eq_true] at hselect
        exact .inr ⟨m, triggered, rfl, .inr ⟨hmessage, hselect.1.1.1.2, rfl⟩⟩
      · simp only [Bool.and_eq_true] at hselect
        exact ⟨m, triggered, rfl, Bool.eq_false_of_not_eq_true hmessage, hselect.1.1.1.2, rfl⟩
      · exact .inr ⟨m, triggered, rfl, .inl rfl⟩
  | triggering e triggered =>
    cases triggered <;> cases h
    cases hu
  | webhookLoading id path =>
    simp only [EngineTask.goNext] at h
    split at h
    · next r hr =>
      cases h
      split_ifs at hu with henabled
      · rw [mem_singleton.mp hu]
        exact ⟨id, rfl, hr, henabled⟩
      · cases hu
    · cases h; cases hu
  | webhookCooling r path =>
    cases h
    split_ifs at hu with hcool
    · rw [mem_singleton.mp hu]
      exact ⟨rfl, hcool⟩
    · cases hu
  | webhookCounting r path =>
    cases h
    split_ifs at hu with hcount
    · rw [mem_singleton.mp hu]
      exact ⟨rfl, hcount⟩
    · cases hu
  | webhookLimiting r path =>
    cases h
    split_ifs at hu with hlimit
    · rw [mem_singleton.mp hu]
      exact .inl ⟨path, rfl, rfl, hlimit⟩
    · cases hu
  | manualLoading id userId =>
    simp only [EngineTask.goNext] at h
    split at h
    · next r hr =>
      cases h
      split_ifs at hu with howner
      · rw [mem_singleton.mp hu]
        rw [Bool.and_eq_true] at howner
        exact ⟨id, rfl, hr, howner.1, howner.2⟩
      · cases hu
    · cases h; cases hu
  | manualCounting r userId =>
    cases h
    split_ifs at hu with hcount
    · rw [mem_singleton.mp hu]
      exact .inr ⟨userId, rfl, rfl, hcount⟩
    · cases hu
  | completing run status =>
    cases h
    rw [mem_singleton.mp hu]
    exact .inl ⟨run, rfl, rfl⟩
  | dispatchedCompleting run status =>
    cases h
    rw [mem_singleton.mp hu]
    exact ⟨run, rfl, rfl⟩
  | dispatchedLoading id status =>
    cases h
    cases hr : s.routines.lookup id with
    | none =>
      rw [hr] at hu
      cases hu
    | some r =>
      rw [hr] at hu
      rw [mem_singleton.mp hu]
      exact .inr ⟨id, rfl, hr⟩
  | writing r status lastRunAt nextFireAt =>
    cases h
    split_ifs at hu
    · rw [mem_singleton.mp hu]
      exact ⟨r, status, nextFireAt, rfl, rfl, rfl, rfl⟩
    · cases hu
  | patching id lastRunAt runCount failures =>
    simp only [EngineTask.goNext] at h
    split_ifs at h
    cases h
    cases hu
  | changing id edit =>
    cases h
    cases hr : s.routines.lookup id with
    | none =>
      rw [hr] at hu
      cases hu
    | some r =>
      rw [hr] at hu
      rw [mem_singleton.mp hu]
      exact ⟨id, rfl, hr⟩
  | applying r edit =>
    cases h
    cases hr : edit.apply env.libs s.now r with
    | none =>
      rw [hr] at hu
      cases hu
    | some r' =>
      rw [hr] at hu
      rw [mem_singleton.mp hu]
      exact ⟨r, edit, rfl, hr⟩
  | saving r =>
    cases h
    rw [mem_singleton.mp hu]
    exact ⟨r.id, rfl, .inl ⟨r, rfl, rfl⟩⟩
  | deleting id =>
    cases h
    rw [mem_singleton.mp hu]
    exact ⟨id, rfl, .inr rfl⟩
  | replacing author cache =>
    simp only [EngineTask.goNext] at h
    split_ifs at h
    cases h
    cases hu
  | listing =>
    cases h
    rw [mem_singleton.mp hu]
    exact .inl ⟨rfl, rfl⟩
  | recording run | starting run =>
    cases h
    rw [mem_singleton.mp hu]
    rfl
  | reckoning r status | scheduling r status lastRunAt | refreshing author =>
    cases h
    rw [mem_singleton.mp hu]
    exact ⟨rfl, rfl⟩
  | tickFiring r rest => cases h
  | emitting e counts r rest => cases h
  | firing r origin => cases h
  | executing run => cases h

theorem next_cases {event : EngineEvent} (h : EngineTask.next env event s t = some (s', ts)) :
    (event = .go ∧ EngineTask.goNext env s t = some (s', ts)) ∨
    (∃ runId r origin rest, event = .fire runId ∧ t.pending = some (r, origin, rest) ∧
      s.IsFresh runId ∧ s' = s.noteFire (s.fire env runId r origin) ∧
      ts = rest ++ [.recording (s.fire env runId r origin)]) ∨
    ∃ status run, event = .finish status ∧ t = .executing run ∧ status ≠ .running ∧
      s' = { s with runningCount := s.runningCount - 1 } ∧ ts = [.completing run status] := by
  unfold EngineTask.next at h
  split at h
  · exact .inl ⟨rfl, h⟩
  · unfold EngineTask.fireNext at h
    split at h
    · next runId r origin rest hpending =>
      split_ifs at h with hfresh
      cases h
      exact .inr (.inl ⟨_, r, origin, rest, rfl, hpending, hfresh, rfl, rfl⟩)
    · cases h
  · split_ifs at h with hstatus
    cases h
    exact .inr (.inr ⟨_, _, rfl, rfl, hstatus, rfl, rfl⟩)
  · cases h

theorem pending_cases {r : Routine} {origin : Origin} {rest : List EngineTask}
    (h : t.pending = some (r, origin, rest)) :
    (∃ due, t = .tickFiring r due ∧ origin = .cron ∧ rest = [.ticking due]) ∨
    (∃ e counts matchers, t = .emitting e counts r matchers ∧ origin = e.origin ∧
      rest = [.checking e counts matchers []]) ∨
    (∃ e triggered, t = .triggering e (r :: triggered) ∧ origin = e.origin ∧
      rest = [.triggering e triggered]) ∨ t = .firing r origin ∧ rest = [] := by
  unfold EngineTask.pending at h
  split at h <;> cases h
  · exact .inl ⟨_, rfl, rfl, rfl⟩
  · exact .inr (.inl ⟨_, _, _, rfl, rfl, rfl⟩)
  · exact .inr (.inr (.inl ⟨_, _, rfl, rfl, rfl⟩))
  · exact .inr (.inr (.inr ⟨rfl, rfl⟩))

theorem mem_of_pending {r : Routine} {origin : Origin} {rest : List EngineTask} {run : FiredRun}
    {u : EngineTask} (h : t.pending = some (r, origin, rest)) (hu : u ∈ rest ++ [.recording run]) :
    u = .recording run ∨ (∃ due, t = .tickFiring r due ∧ u = .ticking due) ∨
    (∃ e counts matchers, t = .emitting e counts r matchers ∧ u = .checking e counts matchers []) ∨
    ∃ e triggered, t = .triggering e (r :: triggered) ∧ u = .triggering e triggered := by
  rcases mem_append.mp hu with hu | hu
  · rcases pending_cases h with ⟨due, rfl, -, rfl⟩ | ⟨e, counts, matchers, rfl, -, rfl⟩ |
      ⟨e, triggered, rfl, -, rfl⟩ | ⟨-, rfl⟩
    · exact .inr (.inl ⟨due, rfl, mem_singleton.mp hu⟩)
    · exact .inr (.inr (.inl ⟨e, counts, matchers, rfl, mem_singleton.mp hu⟩))
    · exact .inr (.inr (.inr ⟨e, triggered, rfl, mem_singleton.mp hu⟩))
    · cases hu
  · exact .inl (mem_singleton.mp hu)

variable {p p' : EnginePool} {a : EngineAction}

theorem engineStep_cases (h : engineStep env p a = some p') :
    (∃ u, a.starts = some u ∧ p' = p.start u) ∨
    (∃ now, a = .clock now ∧ p.shared.now ≤ now ∧
      p' = { p with shared := { p.shared with now } }) ∨
    ∃ event front t back s' ts, a = .advance front.length event ∧
      p.tasks = front ++ t :: back ∧ EngineTask.next env event p.shared t = some (s', ts) ∧
      p' = ⟨s', front ++ ts ++ back⟩ := by
  cases a with
  | tick =>
    simp only [engineStep] at h
    split_ifs at h
    cases h
    exact .inl ⟨_, rfl, rfl⟩
  | recover run status =>
    simp only [engineStep] at h
    split_ifs at h
    cases h
    exact .inl ⟨_, rfl, rfl⟩
  | clock now =>
    simp only [engineStep] at h
    split_ifs at h with hle
    cases h
    exact .inr (.inl ⟨now, rfl, hle, rfl⟩)
  | advance i event =>
    obtain ⟨front, t, back, s', ts, htasks, rfl, hnext, rfl⟩ := Pool.advance_eq_some_iff.mp h
    exact .inr (.inr ⟨event, front, t, back, s', ts, rfl, htasks, hnext, rfl⟩)
  | _ =>
    cases h
    exact .inl ⟨_, rfl, rfl⟩

theorem ne_advance_of_starts {u : EngineTask} (h : a.starts = some u) (i : Nat)
    (event : EngineEvent) : a ≠ .advance i event := by
  rintro rfl
  cases h

theorem mem_replaced_iff {front back : List EngineTask} {u : EngineTask} :
    u ∈ front ++ ts ++ back ↔ u ∈ ts ∨ u ∈ front ++ back := by
  simp only [mem_append]
  tauto

theorem countP_replace (P : EngineTask → Bool) (front : List EngineTask) (t : EngineTask)
    (ts back : List EngineTask) : (front ++ ts ++ back).countP P + (if P t then 1 else 0) =
      (front ++ t :: back).countP P + ts.countP P := by
  simp only [List.countP_append, List.countP_cons]
  omega

theorem status_of_recover {run : RoutineRun} {status : RunStatus}
    (h : engineStep env p (.recover run status) = some p') :
    run.status = .running ∧ status ≠ .running := by
  simp only [engineStep] at h
  split_ifs at h with hrun
  exact ⟨hrun.2.2.1, hrun.2.2.2.2⟩

theorem getElem_length {front back : List EngineTask} (h : p.tasks = front ++ t :: back) :
    p.tasks[front.length]? = some t := by
  simp [h]

def Origin.isCall : Origin → Bool
  | webhook _ | manual _ => true
  | _ => false

def OnlyCalls (p : EnginePool) : Prop :=
  ∀ r origin, .firing r origin ∈ p.tasks → origin.isCall

theorem onlyCalls_of_engineStep (h : OnlyCalls p) (hstep : engineStep env p a = some p') :
    OnlyCalls p' := by
  rcases engineStep_cases hstep with ⟨u, hu, rfl⟩ | ⟨now, -, -, rfl⟩ |
    ⟨event, front, t, back, s', ts, rfl, htasks, hnext, rfl⟩
  · intro r origin hv
    rcases mem_append.mp hv with hv | hv
    · exact h r origin hv
    · rw [← mem_singleton.mp hv] at hu
      cases a <;> cases hu
  · exact h
  · intro r origin hv
    rcases mem_replaced_iff.mp hv with hv | hv
    · rcases next_cases hnext with ⟨-, hgo⟩ | ⟨runId, r', origin', rest, -, hpending, -, -, rfl⟩ |
        ⟨status, run, -, -, -, -, rfl⟩
      · rcases precedes_of_goNext hgo _ hv with ⟨path, rfl, -⟩ | ⟨userId, rfl, -⟩ <;> rfl
      · rcases mem_of_pending hpending hv with heq | ⟨due, -, heq⟩ |
          ⟨e, counts, matchers, -, heq⟩ | ⟨e, triggered, -, heq⟩ <;> cases heq
      · cases mem_singleton.mp hv
    · exact h r origin (Pool.mem_of_split htasks hv)

end IronClaw.Routines
