import IronClaw.Foundation.Interleaving
import IronClaw.Routines.Routine

/-!
# The routine engine

A tick, a message, a system event, a webhook or a call selects routines, checks the guardrails on a
copy, and fires: a task records the run, executes the routine, and writes back the copy. Tasks take
turns at each access to what is shared. The database does not fail.
-/

namespace IronClaw.Routines

open Foundation (HashMap Json Pool Text)
open Memory (MemoryLayer Workspace)

/-- A cached routine. A message matcher comes with its compiled pattern. -/
inductive EventMatcher where
  | message (routine : Routine) (regex : Text)
  | system (routine : Routine)

namespace EventMatcher

def routine : EventMatcher → Routine
  | message r _ => r
  | system r => r

def isMessage : EventMatcher → Bool
  | message _ _ => true
  | system _ => false

def mapRoutine (f : Routine → Routine) : EventMatcher → EventMatcher
  | message r regex => .message (f r) regex
  | system r => .system (f r)

end EventMatcher

/-- A run under way, with the copy of its routine and the workspace that it executes in. -/
structure FiredRun where
  id : Uuid
  routine : Routine
  origin : Origin
  startedAt : Time
  workspace : Workspace

structure RoutineEnv where
  libs : RoutineLibs
  maxConcurrentRoutines : Nat
  workspace : Workspace
  bootTime : Time

def workspaceForUser (ws : Workspace) (userId : UserId) : Workspace :=
  { ws with
    userId
    additionalReadScopes := []
    agentId := none
    memoryLayers := MemoryLayer.defaultForUser userId
    privacyClassifier := none
    adminPromptEnabled := false }

def RoutineEnv.workspaceOf (env : RoutineEnv) (userId : UserId) : Workspace :=
  if userId = env.workspace.userId then env.workspace else workspaceForUser env.workspace userId

def RoutineEnv.workspaceFor (env : RoutineEnv) (r : Routine) : Origin → Workspace
  | .webhook _ => env.workspace
  | _ => env.workspaceOf r.userId

/-- The database, the cache, the count of runs, and the clock. `fires` and `completions` are logs.
-/
structure EngineShared where
  now : Time
  routines : RoutineTable
  runs : List RoutineRun
  eventCache : List EventMatcher
  cacheReaders : Nat
  runningCount : Nat
  fires : List FiredRun
  completions : List (Uuid × RunStatus)

def chronoCooldown (cooldown : Time) : Time :=
  if cooldown ≤ (2 ^ 63 - 1) * 1000 then cooldown else 300 * 10 ^ 6

namespace EngineShared

variable (s : EngineShared)

def countRunning (routineId : Uuid) : Nat :=
  s.runs.countP fun run => run.routineId == routineId && run.status == .running

def checkCooldown (r : Routine) : Bool :=
  r.lastRunAt.elim true fun last => !decide (s.now < last + chronoCooldown r.guardrails.cooldown)

def checkConcurrent (r : Routine) : Bool := s.countRunning r.id < r.guardrails.maxConcurrent

def listDueCronRoutines : List Routine :=
  s.routines.list.filter fun r =>
    r.enabled && r.trigger.isCron && r.nextFireAt.any (· ≤ s.now)

def listEventRoutines : List Routine :=
  s.routines.list.filter fun r => r.enabled && r.trigger.usesEventCache

def createRoutineRun (run : FiredRun) : EngineShared :=
  { s with runs := s.runs ++ [⟨run.id, run.routine.id, run.origin, run.startedAt, .running⟩] }

def completeRoutineRun (runId routineId : Uuid) (status : RunStatus) : EngineShared :=
  { s with
    runs := s.runs.map fun run => if run.id = runId then { run with status } else run
    completions := s.completions ++ [(routineId, status)] }

def updateRoutineRuntime (id : Uuid) (lastRunAt : Time) (nextFireAt : Option Time)
    (runCount consecutiveFailures : Nat) : EngineShared :=
  let written := Routine.withRuntime lastRunAt nextFireAt runCount consecutiveFailures
  { s with routines := s.routines.adjust id written fun _ => rfl }

def updateRoutine (r : Routine) : EngineShared :=
  { s with routines := s.routines.adjust r.id (Routine.withoutRuntime r) fun _ => rfl }

theorem lookup_updateRoutineRuntime (id : Uuid) (lastRunAt : Time) (nextFireAt : Option Time)
    (runCount consecutiveFailures : Nat) (id' : Uuid) :
    (s.updateRoutineRuntime id lastRunAt nextFireAt runCount consecutiveFailures).routines.lookup
      id' = if id' = id then (s.routines.lookup id').map
        (Routine.withRuntime lastRunAt nextFireAt runCount consecutiveFailures)
      else s.routines.lookup id' :=
  HashMap.lookup_adjust s.routines.rows id id' _

theorem lookup_updateRoutine (r : Routine) (id : Uuid) : (s.updateRoutine r).routines.lookup id =
      if id = r.id then (s.routines.lookup id).map r.withoutRuntime else s.routines.lookup id :=
  HashMap.lookup_adjust s.routines.rows r.id id _

/-- The first cached copy of a routine gets its new runtime fields. -/
def patchCache (id : Uuid) (lastRunAt : Time) (runCount consecutiveFailures : Nat) :
    List EventMatcher → List EventMatcher
  | [] => []
  | m :: cache =>
    if m.routine.id = id then
      m.mapRoutine (fun r =>
        { r with lastRunAt := some lastRunAt, runCount, consecutiveFailures }) :: cache
    else m :: patchCache id lastRunAt runCount consecutiveFailures cache

/-- A run id that was not given out before. -/
def IsFresh (id : Uuid) : Prop := (∀ f ∈ s.fires, f.id ≠ id) ∧ ∀ run ∈ s.runs, run.id ≠ id

instance (id : Uuid) : Decidable (s.IsFresh id) := inferInstanceAs (Decidable (_ ∧ _))

def fire (env : RoutineEnv) (id : Uuid) (r : Routine) (origin : Origin) : FiredRun :=
  ⟨id, r, origin, s.now, env.workspaceFor r origin⟩

def noteFire (run : FiredRun) : EngineShared := { s with fires := s.fires ++ [run] }

end EngineShared

/-- The cache that a list of routines makes. A pattern that does not compile is left out. -/
def buildCache (libs : RoutineLibs) (routines : List Routine) : List EventMatcher :=
  routines.filterMap fun r =>
    match r.trigger with
    | .event _ pattern => if libs.compiles pattern then some (.message r pattern) else none
    | .systemEvent _ _ _ => some (.system r)
    | _ => none

inductive EngineInput where
  | message (userId : UserId) (channel content : Text)
  | systemEvent (source eventType : Text) (payload : Json) (userId : Option UserId)

namespace EngineInput

def isMessage : EngineInput → Bool
  | message _ _ _ => true
  | systemEvent _ _ _ _ => false

def concerns (e : EngineInput) (m : EventMatcher) : Bool := m.isMessage == e.isMessage

def selects (libs : RoutineLibs) : EngineInput → EventMatcher → Bool
  | message userId channel content, .message r regex =>
    routineMatchesMessage r userId channel && libs.isMatch regex content
  | systemEvent source eventType payload userId, .system r =>
    matchesSystemEvent r source eventType payload userId
  | _, _ => false

def origin : EngineInput → Origin
  | message userId _ _ => .event userId
  | systemEvent _ _ _ userId => .systemEvent userId

end EngineInput

inductive EngineTask where
  | listing
  | ticking (due : List Routine)
  | tickCooling (r : Routine) (rest : List Routine)
  | tickCounting (r : Routine) (rest : List Routine)
  | tickFiring (r : Routine) (rest : List Routine)
  /-- An input takes the lock of the cache, loads the counts, and goes through the matchers. -/
  | arriving (e : EngineInput)
  | counting (e : EngineInput) (matchers : List EventMatcher)
  | checking (e : EngineInput) (counts : Uuid → Nat) (rest : List EventMatcher)
      (triggered : List Routine)
  /-- What an event selects is fired under the lock; what a message selects, after it. -/
  | emitting (e : EngineInput) (counts : Uuid → Nat) (r : Routine) (rest : List EventMatcher)
  | triggering (e : EngineInput) (triggered : List Routine)
  | webhookLoading (id : Uuid) (path : Text)
  | webhookCooling (r : Routine) (path : Text)
  | webhookCounting (r : Routine) (path : Text)
  | webhookLimiting (r : Routine) (path : Text)
  | manualLoading (id : Uuid) (userId : Option UserId)
  | manualCounting (r : Routine) (userId : Option UserId)
  | firing (r : Routine) (origin : Origin)
  /-- A run from its record to what is written back. -/
  | recording (run : FiredRun)
  | starting (run : FiredRun)
  | executing (run : FiredRun)
  | completing (run : FiredRun) (status : RunStatus)
  | reckoning (r : Routine) (status : RunStatus)
  | scheduling (r : Routine) (status : RunStatus) (lastRunAt : Time)
  | writing (r : Routine) (status : RunStatus) (lastRunAt : Time) (nextFireAt : Option Time)
  | patching (id : Uuid) (lastRunAt : Time) (runCount consecutiveFailures : Nat)
  /-- A run of a former process is completed. -/
  | dispatchedCompleting (run : RoutineRun) (status : RunStatus)
  | dispatchedLoading (routineId : Uuid) (status : RunStatus)
  /-- A change by the author, and its refresh. Other refreshes have no author. -/
  | changing (id : Uuid) (edit : RoutineEdit)
  | applying (r : Routine) (edit : RoutineEdit)
  | saving (r : Routine)
  | deleting (id : Uuid)
  | refreshing (author : Option Uuid)
  | replacing (author : Option Uuid) (cache : List EventMatcher)

/-- What a task gets from outside: a new run id, or how an execution has ended. -/
inductive EngineEvent where
  | go
  | fire (runId : Uuid)
  | finish (status : RunStatus)

def failuresAfter (failures : Nat) (status : RunStatus) : Nat :=
  if status = .failed then failures + 1 else 0

namespace EngineTask

variable (env : RoutineEnv)

/-- What a task fires next, and what is left of the task then. -/
def pending : EngineTask → Option (Routine × Origin × List EngineTask)
  | tickFiring r rest => some (r, .cron, [.ticking rest])
  | emitting e counts r rest => some (r, e.origin, [.checking e counts rest []])
  | triggering e (r :: triggered) => some (r, e.origin, [.triggering e triggered])
  | firing r origin => some (r, origin, [])
  | _ => none

def fireNext (runId : Uuid) (s : EngineShared) (t : EngineTask) :
    Option (EngineShared × List EngineTask) :=
  match t.pending with
  | some (r, origin, rest) =>
    if s.IsFresh runId then
      let run := s.fire env runId r origin
      some (s.noteFire run, rest ++ [.recording run])
    else none
  | none => none

def checkNext (e : EngineInput) (counts : Uuid → Nat) (triggered : List Routine)
    (s : EngineShared) : List EventMatcher → EngineShared × List EngineTask
  | [] =>
    ({ s with cacheReaders := s.cacheReaders - 1 },
      if e.isMessage then [.triggering e triggered] else [])
  | m :: rest =>
    let r := m.routine
    if e.concerns m && e.selects env.libs m && s.checkCooldown r &&
        decide (counts r.id < r.guardrails.maxConcurrent) &&
        decide (s.runningCount < env.maxConcurrentRoutines) then
      if e.isMessage then (s, [.checking e counts rest (triggered ++ [r])])
      else (s, [.emitting e counts r rest])
    else (s, [.checking e counts rest triggered])

/-- The next step of a task that fires nothing and ends no execution. -/
def goNext (s : EngineShared) : EngineTask → Option (EngineShared × List EngineTask)
  | listing => some (s, [.ticking s.listDueCronRoutines])
  | ticking [] => some (s, [])
  | ticking (r :: rest) =>
    some (s, if env.maxConcurrentRoutines ≤ s.runningCount then [] else [.tickCooling r rest])
  | tickCooling r rest =>
    some (s, [if s.checkCooldown r then .tickCounting r rest else .ticking rest])
  | tickCounting r rest =>
    some (s, [if s.checkConcurrent r then .tickFiring r rest else .ticking rest])
  | arriving e =>
    if s.eventCache.any e.concerns then
      some ({ s with cacheReaders := s.cacheReaders + 1 }, [.counting e s.eventCache])
    else some (s, [])
  | counting e matchers => some (s, [.checking e s.countRunning matchers []])
  | checking e counts rest triggered => some (checkNext env e counts triggered s rest)
  | triggering _ [] => some (s, [])
  | webhookLoading id path =>
    match s.routines.lookup id with
    | some r => some (s, if r.enabled then [.webhookCooling r path] else [])
    | none => some (s, [])
  | webhookCooling r path =>
    some (s, if s.checkCooldown r then [.webhookCounting r path] else [])
  | webhookCounting r path =>
    some (s, if s.checkConcurrent r then [.webhookLimiting r path] else [])
  | webhookLimiting r path =>
    some (s, if s.runningCount < env.maxConcurrentRoutines then [.firing r (.webhook path)]
      else [])
  | manualLoading id userId =>
    match s.routines.lookup id with
    | some r =>
      some (s, if (userId.elim true fun uid => r.isOwnedBy uid) && r.enabled then
          [.manualCounting r userId]
        else [])
    | none => some (s, [])
  | manualCounting r userId =>
    some (s, if s.checkConcurrent r then [.firing r (.manual userId)] else [])
  | recording run => some (s.createRoutineRun run, [.starting run])
  | starting run => some ({ s with runningCount := s.runningCount + 1 }, [.executing run])
  | completing run status =>
    some (s.completeRoutineRun run.id run.routine.id status, [.reckoning run.routine status])
  | reckoning r status => some (s, [.scheduling r status s.now])
  | scheduling r status lastRunAt =>
    some (s, [.writing r status lastRunAt (env.libs.nextFire s.now r.trigger)])
  | writing r status lastRunAt nextFireAt =>
    let runCount := r.runCount + 1
    let failures := failuresAfter r.consecutiveFailures status
    some (s.updateRoutineRuntime r.id lastRunAt nextFireAt runCount failures,
      if r.trigger.usesEventCache then [.patching r.id lastRunAt runCount failures] else [])
  | patching id lastRunAt runCount failures =>
    if s.cacheReaders = 0 then
      some ({ s with
        eventCache := EngineShared.patchCache id lastRunAt runCount failures s.eventCache }, [])
    else none
  | dispatchedCompleting run status =>
    some (s.completeRoutineRun run.id run.routineId status,
      [.dispatchedLoading run.routineId status])
  | dispatchedLoading routineId status =>
    some (s, (s.routines.lookup routineId).elim [] fun r => [.reckoning r status])
  | changing id edit =>
    some (s, (s.routines.lookup id).elim [] fun r => [.applying r edit])
  | applying r edit => some (s, (edit.apply env.libs s.now r).elim [] fun r => [.saving r])
  | saving r => some (s.updateRoutine r, [.refreshing (some r.id)])
  | deleting id =>
    some ({ s with routines := s.routines.erase id }, [.refreshing (some id)])
  | refreshing author => some (s, [.replacing author (buildCache env.libs s.listEventRoutines)])
  | replacing _ cache =>
    if s.cacheReaders = 0 then some ({ s with eventCache := cache }, []) else none
  | _ => none

def next (event : EngineEvent) (s : EngineShared) (t : EngineTask) :
    Option (EngineShared × List EngineTask) :=
  match event, t with
  | .go, t => goNext env s t
  | .fire runId, t => fireNext env runId s t
  | .finish status, executing run =>
    if status = .running then none
    else some ({ s with runningCount := s.runningCount - 1 }, [.completing run status])
  | .finish _, _ => none

def isTicker : EngineTask → Bool
  | listing | ticking _ | tickCooling _ _ | tickCounting _ _ | tickFiring _ _ => true
  | dispatchedCompleting _ _ => true
  | _ => false

end EngineTask

abbrev EnginePool := Pool EngineShared EngineTask

inductive EngineAction where
  | tick
  | input (e : EngineInput)
  | webhook (id : Uuid) (path : Text)
  | manual (id : Uuid) (userId : Option UserId)
  /-- A run of a former process is found to have ended. -/
  | recover (run : RoutineRun) (status : RunStatus)
  | edit (id : Uuid) (edit : RoutineEdit)
  | delete (id : Uuid)
  | refresh
  | clock (now : Time)
  | advance (i : Nat) (event : EngineEvent)

def engineStep (env : RoutineEnv) (p : EnginePool) : EngineAction → Option EnginePool
  | .tick => if p.tasks.any EngineTask.isTicker then none else some (p.start .listing)
  | .input e => some (p.start (.arriving e))
  | .webhook id path => some (p.start (.webhookLoading id path))
  | .manual id userId => some (p.start (.manualLoading id userId))
  | .recover run status =>
    if !p.tasks.any EngineTask.isTicker ∧ run ∈ p.shared.runs ∧ run.status = .running ∧
        run.startedAt < env.bootTime ∧ status ≠ .running then
      some (p.start (.dispatchedCompleting run status))
    else none
  | .edit id edit => some (p.start (.changing id edit))
  | .delete id => some (p.start (.deleting id))
  | .refresh => some (p.start (.refreshing none))
  | .clock now =>
    if p.shared.now ≤ now then some { p with shared := { p.shared with now } } else none
  | .advance i event => p.advance (EngineTask.next env) i event

def EnginePool.boot (now : Time) (routines : RoutineTable) (runs : List RoutineRun) : EnginePool :=
  ⟨⟨now, routines, runs, [], 0, 0, [], []⟩, []⟩

def anHour : Time := 3600 * 10 ^ 6

inductive Every where
  | hour
  | day

def Every.period : Every → Time
  | hour => anHour
  | day => 24 * anHour

def smallLibs : RoutineLibs where
  Schedule := Every
  parseSchedule := fun s =>
    if s = "0 0 * * * * *".toList then some .hour
    else if s = "0 0 0 * * * *".toList then some .day
    else none
  isTimezone := fun tz => tz = "UTC".toList
  upcoming := fun every _ now => some ((now / every.period + 1) * every.period)
  compiles := fun _ => true
  isMatch := fun pattern content => content.tails.any pattern.isPrefixOf

def smallEngine : RoutineEnv where
  libs := smallLibs
  maxConcurrentRoutines := 1
  workspace := ⟨"user1", [], none, [], none, false, fun _ _ => [], fun _ => none⟩
  bootTime := 0

/-- A routine that never ran. -/
def freshRoutine (userId : UserId) (trigger : Trigger) (nextFireAt : Option Time) : Routine :=
  ⟨1, "routine".toList, userId, true, trigger, .lightweight "look".toList [], ⟨300 * 10 ^ 6, 1⟩,
    none, nextFireAt, 0, 0⟩

def hourlyRoutine : Routine :=
  freshRoutine "user1" (.cron "0 * * * *".toList none) (some anHour)

def hourlyEngine : EnginePool := .boot 0 (.single hourlyRoutine) []

def webhookEngine (userId : UserId) : EnginePool :=
  .boot 0 (.single (freshRoutine userId (.webhook none none) none)) []

def oneDelivery : List EngineAction :=
  [.webhook 1 [], .advance 0 .go, .advance 0 .go, .advance 0 .go, .advance 0 .go,
    .advance 0 (.fire 7), .advance 0 .go, .advance 0 .go]

end IronClaw.Routines
