import Mathlib.Data.List.Sort
import IronClaw.Foundation.Effect
import IronClaw.Foundation.HashMap
import IronClaw.Missions.Mission
import Mathlib.Data.List.Destutter

/-!
# The mission manager

The manager keeps the missions in a store and the active ones in a list, and remembers when it fired
what. The store never fails. What a fired thread does is left out.
-/

namespace IronClaw.Missions

open Foundation (Text Json HashMap Effect)

structure MissionStore where
  entries : HashMap MissionId Mission
  keyed : ∀ id m, entries.lookup id = some m → m.id = id

namespace MissionStore

def empty : MissionStore := ⟨∅, fun _ _ h => by cases h⟩

variable (store : MissionStore)

def loadMission (id : MissionId) : Option Mission := store.entries.lookup id

def saveMission (m : Mission) : MissionStore where
  entries := store.entries.insert m.id m
  keyed := by
    intro id m' h
    rw [HashMap.lookup_insert] at h
    split_ifs at h with hid
    · cases h
      exact hid.symm
    · exact store.keyed id m' h

def updateMissionStatus (id : MissionId) (status : MissionStatus) (now : Instant) :
    MissionStore where
  entries := store.entries.adjust id fun m => { m with status := status, updatedAt := now }
  keyed := by
    intro id' m' h
    rw [HashMap.lookup_adjust] at h
    split_ifs at h
    · obtain ⟨m, hm, rfl⟩ := Option.map_eq_some_iff.mp h
      exact store.keyed id' m hm
    · exact store.keyed id' m' h

def listMissions (projectId : ProjectId) (userId : Text) : List Mission :=
  store.entries.values.filter fun m => m.projectId == projectId && m.userId == userId

def listSharedMissions (projectId : ProjectId) : List Mission :=
  ((sharedOwnerCandidates.flatMap (store.listMissions projectId)).insertionSort
    fun m m' => m.id ≤ m'.id).destutter fun m m' => m.id ≠ m'.id

def listMissionsWithShared (projectId : ProjectId) (userId : Text) : List Mission :=
  if isSharedOwner userId then store.listSharedMissions projectId
  else store.listMissions projectId userId ++ store.listSharedMissions projectId

theorem loadMission_saveMission (m : Mission) (id : MissionId) :
    (store.saveMission m).loadMission id = if id = m.id then some m else store.loadMission id :=
  HashMap.lookup_insert ..

theorem loadMission_updateMissionStatus (id id' : MissionId) (status : MissionStatus)
    (now : Instant) :
    (store.updateMissionStatus id status now).loadMission id' =
      if id' = id then
        (store.loadMission id').map fun m => { m with status := status, updatedAt := now }
      else store.loadMission id' :=
  HashMap.lookup_adjust ..

variable {store} in
theorem id_of_loadMission {id : MissionId} {m : Mission} (h : store.loadMission id = some m) :
    m.id = id :=
  store.keyed id m h

end MissionStore

inductive ThreadState where
  | created
  | running
  | waiting
  | suspended
  | completed
  | done
  | failed
deriving DecidableEq

def ThreadState.debug : ThreadState → Text
  | created => "Created".toList
  | running => "Running".toList
  | waiting => "Waiting".toList
  | suspended => "Suspended".toList
  | completed => "Completed".toList
  | done => "Done".toList
  | failed => "Failed".toList

def ThreadState.canTransitionTo : ThreadState → ThreadState → Bool
  | created, running => true
  | created, failed => true
  | running, waiting => true
  | running, suspended => true
  | running, completed => true
  | running, failed => true
  | waiting, running => true
  | waiting, failed => true
  | suspended, running => true
  | suspended, failed => true
  | completed, done => true
  | _, _ => false

inductive MessageRole where
  | system
  | user
  | assistant
  | actionResult
deriving DecidableEq

structure Thread where
  state : ThreadState
  messages : List (MessageRole × Text)
  stepCount : Nat
  totalTokensUsed : Nat
  createdAt : Instant
  completedAt : Option Instant

structure Project where
  id : ProjectId
  userId : Text
  name : Text

structure MissionSystem where
  store : MissionStore
  active : List MissionId
  lastFireAttempt : HashMap MissionId Instant
  userFireLog : HashMap Text (List Instant)
  threads : HashMap ThreadId Thread
  projects : HashMap ProjectId Project

abbrev MissionOp := Effect MissionSystem EngineError

structure ManagerConfig where
  libs : Libraries
  maxFires : Nat
  window : Int
  budgetGate : Option (Text → MissionId → Bool)

/-- What one call takes from outside: clock readings, new ids, and what spawning gives. -/
structure CallEnv where
  now : Instant
  fireInstant : Instant
  recordInstant : Instant
  newMissionId : MissionId
  newCallId : Nat
  spawn : Mission → Text → Except EngineError (ThreadId × Thread)

namespace Manager

variable (config : ManagerConfig) (env : CallEnv)

def saveMission (m : Mission) : MissionOp Unit :=
  modify fun s => { s with store := s.store.saveMission m }

def missionNotFound (id : MissionId) : EngineError :=
  .store ("mission ".toList ++ config.libs.uuidText id ++ " not found".toList)

def accessDenied (id : MissionId) (userId : Text) : EngineError :=
  .accessDenied userId ("mission ".toList ++ config.libs.uuidText id)

def loadMission (id : MissionId) : MissionOp Mission := do
  let s ← get
  match s.store.loadMission id with
  | some m => pure m
  | none => throw (missionNotFound config id)

/-- The mission under an id, for a user whom a check lets have it. -/
def loadAllowed (allowed : Mission → Bool) (id : MissionId) (userId : Text) :
    MissionOp Mission := do
  let m ← loadMission config id
  Effect.require (allowed m) (accessDenied config id userId)
  pure m

def loadManaged (id : MissionId) (userId : Text) : MissionOp Mission :=
  loadAllowed config (fun m => m.managedBy userId) id userId

def createMission (projectId : ProjectId) (userId name goal : Text) (cadence : MissionCadence)
    (notifyChannels : List Text) : MissionOp MissionId := do
  let mission := Mission.new env.newMissionId env.now projectId userId name goal cadence
  let nextFireAt ← Effect.ofExcept (scheduledFire config.libs env.now cadence)
  saveMission { mission with nextFireAt := nextFireAt, notifyChannels := notifyChannels }
  modify fun s => { s with active := s.active ++ [mission.id] }
  pure mission.id

def updateMission (id : MissionId) (userId : Text) (updates : MissionUpdate) : MissionOp Unit := do
  let mission ← loadManaged config id userId
  let updated ← Effect.ofExcept (updates.apply config.libs env.now mission)
  saveMission updated

/-- Set the status of a mission that stops. -/
def retire (id : MissionId) (status : MissionStatus) : MissionOp Unit :=
  modify fun s =>
    { s with
      store := s.store.updateMissionStatus id status env.now
      active := s.active.filter fun mid => mid != id
      lastFireAttempt := s.lastFireAttempt.erase id }

def pauseMission (id : MissionId) (userId : Text) : MissionOp Unit := do
  let _ ← loadManaged config id userId
  retire env id .paused

/-- The schedule of a mission that resumes. Without a cron cadence it stays as it is. -/
def resumedFire (m : Mission) : Except EngineError (Option Instant) :=
  match m.cadence with
  | .cron expression timezone =>
    (nextCronFireRequired config.libs env.now expression timezone).map some
  | _ => .ok m.nextFireAt

def resumedMission (m : Mission) (nextFireAt : Option Instant) : Mission :=
  { m with status := .active, nextFireAt := nextFireAt, updatedAt := env.now }

def activate (id : MissionId) : MissionOp Unit :=
  modify fun s =>
    { s with active := if s.active.contains id then s.active else s.active ++ [id] }

def resumeMission (id : MissionId) (userId : Text) : MissionOp Unit := do
  let mission ← loadManaged config id userId
  Effect.require (mission.status == .paused || mission.status == .failed)
    (.store ("mission ".toList ++ config.libs.uuidText id ++ " is in state ".toList ++
      mission.status.debug ++ ", only Paused or Failed missions can be resumed".toList))
  let nextFireAt ← Effect.ofExcept (resumedFire config env mission)
  saveMission (resumedMission env mission nextFireAt)
  activate id

def completeMission (id : MissionId) : MissionOp Unit := retire env id .completed

def listMissions (projectId : ProjectId) (userId : Text) : MissionOp (List Mission) := do
  let s ← get
  pure (s.store.listMissionsWithShared projectId userId)

def getMission (id : MissionId) : MissionOp (Option Mission) := do
  let s ← get
  pure (s.store.loadMission id)

def isRunning (threads : HashMap ThreadId Thread) (tid : ThreadId) : Bool :=
  match threads.lookup tid with
  | some thread => thread.state != .done && thread.state != .failed
  | none => false

theorem isRunning_congr {threads threads' : HashMap ThreadId Thread} {tid : ThreadId}
    (h : threads.lookup tid = threads'.lookup tid) :
    isRunning threads tid = isRunning threads' tid := by
  rw [isRunning, isRunning, h]

def countRunningThreads (threads : HashMap ThreadId Thread) (m : Mission) : Nat :=
  m.threadHistory.countP (isRunning threads)

def cooldownElapsed (m : Mission) : Bool :=
  match m.lastFireAt with
  | none => true
  | some last =>
    let elapsed := Int.tdiv (env.now - last) 1000000000
    !(0 < m.cooldownSecs && 0 ≤ elapsed && elapsed < m.cooldownSecs)

def guardsAllow (threads : HashMap ThreadId Thread) (m : Mission) : Bool :=
  !(0 < m.maxThreadsPerDay && m.maxThreadsPerDay ≤ m.threadsToday) && cooldownElapsed env m &&
    (m.maxConcurrent == 0 || countRunningThreads threads m < m.maxConcurrent)

def checkUserRate (userId : Text) : MissionOp Bool := do
  let s ← get
  let fires := ((s.userFireLog.lookup userId).getD []).dropWhile fun t =>
    t < env.now - config.window
  modify fun s => { s with userFireLog := s.userFireLog.insert userId fires }
  pure (fires.length < config.maxFires)

def recordUserRate (userId : Text) : MissionOp Unit :=
  modify fun s =>
    { s with
      userFireLog := s.userFireLog.insert userId
        ((s.userFireLog.lookup userId).getD [] ++ [env.recordInstant]) }

def budgetAllows (userId : Text) (id : MissionId) : Bool :=
  match config.budgetGate with
  | some gate => gate userId id
  | none => true

def countedToday (m : Mission) : Mission :=
  if threadsTodayIsStale config.libs m env.now then { m with threadsToday := 0 } else m

def resetThreadsToday (m : Mission) : MissionOp Unit :=
  if threadsTodayIsStale config.libs m env.now then saveMission (countedToday config env m)
  else pure ()

/-- The mission after a fire. An unreadable cron expression leaves schedule and last fire alone. -/
def firedMission (m : Mission) (tid : ThreadId) (triggerPayload : Option Json) : Mission :=
  let recorded :=
    { m with
      threadHistory := m.threadHistory ++ [tid]
      threadsToday := m.threadsToday + 1
      lastTriggerPayload := triggerPayload
      updatedAt := env.fireInstant }
  match m.cadence with
  | .cron expression timezone =>
    match nextCronFire config.libs env.fireInstant expression timezone with
    | .ok next => { recorded with nextFireAt := next, lastFireAt := some env.fireInstant }
    | .error _ => recorded
  | _ => { recorded with lastFireAt := some env.fireInstant }

def spawnThread (m : Mission) (userId : Text) (triggerPayload : Option Json) :
    MissionOp (Option ThreadId) := do
  let (tid, thread) ← Effect.ofExcept (env.spawn m userId)
  modify fun s =>
    { s with
      threads := s.threads.insert tid thread
      lastFireAttempt := s.lastFireAttempt.insert m.id env.fireInstant }
  saveMission (firedMission config env m tid triggerPayload)
  recordUserRate env m.userId
  pure (some tid)

/-- Fire a mission that is not over. -/
def tryFire (m : Mission) (userId : Text) (triggerPayload : Option Json) :
    MissionOp (Option ThreadId) := do
  let s ← get
  if !guardsAllow env s.threads m then pure none
  else
    let withinRate ← checkUserRate config env m.userId
    if !withinRate || !budgetAllows config m.userId m.id then pure none
    else spawnThread config env m userId triggerPayload

def mayFire (m : Mission) : Bool :=
  !m.isTerminal || (m.status == .completed && m.isEventDriven)

def fireMission (id : MissionId) (userId : Text) (triggerPayload : Option Json) :
    MissionOp (Option ThreadId) := do
  let mission ← loadAllowed config (fun m => m.isShared || m.isOwnedBy userId) id userId
  if !mayFire mission then pure none
  else
    resetThreadsToday config env mission
    tryFire config env (countedToday config env mission) userId triggerPayload

end Manager

end IronClaw.Missions
