import IronClaw.Foundation.Interleaving
import IronClaw.Missions.Triggers

/-!
# Concurrent operations on missions

No operation of the mission manager holds a lock between a load and a save; here it is taken apart
into steps. A watcher writes the outcome of a spawned thread into the mission.
-/

namespace IronClaw.Missions.Interleaving

open Foundation (Text Json HashMap Effect Pool)
open List (mem_singleton)
open Option (map_eq_some_iff mem_toList)

/-- A call of `fire_mission`. A trigger goes on with the remaining missions after it. -/
structure FireCall where
  id : MissionId
  userId : Text
  triggerPayload : Option Json
  sweep : Option (Trigger × List MissionId)

/-- A fire that has loaded its mission, with the reading of the clock that it goes by. -/
structure Fire where
  call : FireCall
  mission : Mission
  now : Instant

inductive SaveKind where
  | created
  | updated
  | resumed
  | outcome
deriving DecidableEq

inductive Task where
  | fireMission (call : FireCall)
  | resetThreadsToday (fire : Fire)
  | countRunning (fire : Fire) (rest : List ThreadId) (running : Nat)
  | checkUserRate (fire : Fire)
  | spawnThread (fire : Fire)
  | armCooldown (fire : Fire) (tid : ThreadId) (firedAt : Instant) (updated : Mission)
  | saveFired (fire : Fire) (tid : ThreadId) (updated : Mission)
  | recordUserRate (fire : Fire)
  | watchOutcome (id : MissionId) (tid : ThreadId) (firedAt : Instant)
  | processOutcome (id : MissionId) (tid : ThreadId) (firedAt : Instant)
      (outcome : ThreadOutcome)
  | createMission (projectId : ProjectId) (userId name goal : Text) (cadence : MissionCadence)
      (notifyChannels : List Text)
  | updateMission (id : MissionId) (userId : Text) (updates : MissionUpdate)
  | resumeMission (id : MissionId) (userId : Text)
  | saveMission (kind : SaveKind) (m : Mission)
  | pushActive (id : MissionId)
  | activate (id : MissionId)
  | pauseMission (id : MissionId) (userId : Text)
  | completeMission (id : MissionId)
  | setPaused (id : MissionId)
  | deactivate (id : MissionId) (status : MissionStatus)
  | forgetAttempt (id : MissionId) (status : MissionStatus)
  | trigger (trigger : Trigger)
  | prune (now : Instant) (ids : List MissionId)
  | sweep (trigger : Trigger) (ids : List MissionId)
  | hold (trigger : Trigger) (m : Mission) (ids : List MissionId)

namespace Task

def isEntry : Task → Bool
  | fireMission call => call.sweep.isNone
  | createMission _ _ _ _ _ _ => true
  | updateMission _ _ _ => true
  | resumeMission _ _ => true
  | pauseMission _ _ => true
  | completeMission _ => true
  | trigger _ => true
  | _ => false

/-- The mission that the task has loaded or made, and saves unless it gives up. -/
def inHand : Task → Option Mission
  | resetThreadsToday fire => some fire.mission
  | countRunning fire _ _ => some fire.mission
  | checkUserRate fire => some fire.mission
  | spawnThread fire => some fire.mission
  | armCooldown fire _ _ _ => some fire.mission
  | saveFired fire _ _ => some fire.mission
  | saveMission _ m => some m
  | _ => none

def saves : Task → Option Mission
  | resetThreadsToday fire => some { fire.mission with threadsToday := 0 }
  | saveFired _ _ updated => some updated
  | saveMission _ m => some m
  | _ => none

/-- The mission that the task loads with its next step, in order to save it later. -/
def loads : Task → Option MissionId
  | fireMission call => some call.id
  | processOutcome id _ _ _ => some id
  | updateMission id _ _ => some id
  | resumeMission id _ => some id
  | _ => none

end Task

structure Spawned where
  mission : MissionId
  thread : ThreadId
  firedAt : Instant
deriving DecidableEq

/-- The manager, the spawned threads, the newest first, new missions, missions whose pause nobody
has begun to undo, and the clock. -/
structure Observed where
  host : MissionHost
  spawned : List Spawned
  drawn : List MissionId
  paused : List MissionId
  clock : Instant

namespace Observed

def store (s : Observed) : MissionStore := s.host.system.store

def withSystem (s : Observed) (system : MissionSystem) : Observed :=
  { s with host := { s.host with system := system } }

def withStore (s : Observed) (store : MissionStore) : Observed :=
  s.withSystem { s.host.system with store := store }

def withThread (s : Observed) (id : MissionId) (tid : ThreadId) (thread : Thread)
    (firedAt : Instant) : Observed :=
  { s.withSystem { s.host.system with threads := s.host.system.threads.insert tid thread } with
    spawned := ⟨id, tid, firedAt⟩ :: s.spawned
    clock := firedAt }

def inUse (s : Observed) (tid : ThreadId) : Bool :=
  tid ∈ s.host.system.threads || s.spawned.any (fun sp => sp.thread == tid) ||
    (HashMap.values s.store.entries).any fun m => m.threadHistory.contains tid

theorem not_mem_threadHistory {s : Observed} {tid : ThreadId} {id : MissionId} {m : Mission}
    (h : s.inUse tid = false) (hm : s.store.loadMission id = some m) : tid ∉ m.threadHistory := by
  intro hmem
  simp only [inUse, Bool.or_eq_false_iff, List.any_eq_false, List.contains_iff_mem] at h
  exact h.2 m (HashMap.mem_values.mpr ⟨id, hm⟩) hmem

@[simp] theorem store_withStore (s : Observed) (store : MissionStore) :
    (s.withStore store).store = store := rfl

@[simp] theorem spawned_withStore (s : Observed) (store : MissionStore) :
    (s.withStore store).spawned = s.spawned := rfl

@[simp] theorem spawned_withSystem (s : Observed) (system : MissionSystem) :
    (s.withSystem system).spawned = s.spawned := rfl

end Observed

/-- What one step takes from outside: what a call takes, and how a thread ended that is waited
for. -/
structure StepEnv extends CallEnv where
  ended : Option ThreadOutcome

structure HostConfig where
  manager : ManagerConfig
  events : EventLibraries

section Next

variable (config : HostConfig) (env : StepEnv)

/-- A call of `fire_mission` returns. A trigger but a tick ends with an error. -/
def FireCall.returns (call : FireCall) (failed : Bool) : List Task :=
  match call.sweep with
  | none => []
  | some (trigger, ids) => if failed && !trigger.isTick then [] else [.sweep trigger ids]

namespace Fire

def withinBudget (m : Mission) : Bool := !(0 < m.maxThreadsPerDay && m.maxThreadsPerDay ≤
    m.threadsToday)

/-- A fire after its daily reset: it stops, counts running threads, or checks the rate. -/
def checked (fire : Fire) : List Task :=
  if !withinBudget fire.mission ||
      !Manager.cooldownElapsed { env.toCallEnv with now := fire.now } fire.mission then
    fire.call.returns false
  else if fire.mission.maxConcurrent = 0 then [.checkUserRate fire]
  else [.countRunning fire fire.mission.threadHistory.reverse 0]

def loaded (call : FireCall) (m : Mission) : List Task :=
  if !(m.isShared || m.isOwnedBy call.userId) then call.returns true
  else if !Manager.mayFire m then call.returns false
  else if threadsTodayIsStale config.manager.libs m env.now then
    [.resetThreadsToday ⟨call, m, env.now⟩]
  else checked env ⟨call, m, env.now⟩

/-- The mission of the fire with its count started anew. -/
def reset (fire : Fire) : Fire := { fire with mission := { fire.mission with threadsToday := 0 } }

end Fire

def loadManaged (store : MissionStore) (id : MissionId) (userId : Text) : Option Mission :=
  (store.loadMission id).filter fun m => m.managedBy userId

def next (s : Observed) : Task → Option (Observed × List Task)
  | .fireMission call =>
    match s.store.loadMission call.id with
    | none => some (s, call.returns true)
    | some m => some ({ s with clock := env.now }, Fire.loaded config env call m)
  | .resetThreadsToday fire =>
    some (s.withStore (s.store.saveMission fire.reset.mission), Fire.checked env fire.reset)
  | .countRunning fire [] running =>
    some (s, if fire.mission.maxConcurrent ≤ running then fire.call.returns false
      else [.checkUserRate fire])
  | .countRunning fire (tid :: rest) running =>
    some (s, [.countRunning fire rest
      (if Manager.isRunning s.host.system.threads tid then running + 1 else running)])
  | .checkUserRate fire =>
    let (allowed, system) := Effect.exec
      (Manager.checkUserRate config.manager env.toCallEnv fire.mission.userId) s.host.system
    some (s.withSystem system,
      if allowed matches .ok true &&
          Manager.budgetAllows config.manager fire.mission.userId fire.mission.id then
        [.spawnThread fire] else fire.call.returns false)
  | .spawnThread fire =>
    match env.spawn fire.mission fire.call.userId with
    | .error _ => some (s, fire.call.returns true)
    | .ok (tid, thread) =>
      if s.inUse tid then none
      else some (s.withThread fire.call.id tid thread env.fireInstant,
        [.armCooldown fire tid env.fireInstant (Manager.firedMission config.manager
          env.toCallEnv fire.mission tid fire.call.triggerPayload),
          .watchOutcome fire.call.id tid env.fireInstant])
  | .armCooldown fire tid firedAt updated =>
    some (s.withSystem { s.host.system with
      lastFireAttempt := s.host.system.lastFireAttempt.insert fire.call.id firedAt },
      [.saveFired fire tid updated])
  | .saveFired fire _ updated =>
    some (s.withStore (s.store.saveMission updated), [.recordUserRate fire])
  | .recordUserRate fire =>
    some (s.withSystem (Effect.exec (Manager.recordUserRate env.toCallEnv fire.mission.userId)
      s.host.system).2, fire.call.returns false)
  | .watchOutcome id tid firedAt =>
    env.ended.map fun outcome => (s, [.processOutcome id tid firedAt outcome])
  | .processOutcome id tid firedAt outcome =>
    match s.store.loadMission id with
    | none => some (s, [])
    -- a watcher that panics ends
    | some m => some (s, ((processOutcome config.manager.libs env.toCallEnv tid firedAt outcome
        m).map (Task.saveMission .outcome)).toList)
  | .createMission projectId userId name goal cadence notifyChannels =>
    if (s.store.loadMission env.newMissionId).isSome || s.drawn.contains env.newMissionId then none
    else
      match scheduledFire config.manager.libs env.now cadence with
      | .error _ => some (s, [])
      | .ok nextFireAt =>
        let m := Mission.new env.newMissionId env.now projectId userId name goal cadence
        some ({ s with drawn := env.newMissionId :: s.drawn }, [.saveMission .created
          { m with nextFireAt := nextFireAt, notifyChannels := notifyChannels }])
  | .updateMission id userId updates =>
    match loadManaged s.store id userId with
    | none => some (s, [])
    | some m =>
      match updates.apply config.manager.libs env.now m with
      | .error _ => some (s, [])
      | .ok updated => some (s, [.saveMission .updated updated])
  | .resumeMission id userId =>
    match loadManaged s.store id userId with
    | none => some (s, [])
    | some m =>
      if m.status == .paused || m.status == .failed then
        match Manager.resumedFire config.manager env.toCallEnv m with
        | .error _ => some (s, [])
        | .ok nextFireAt =>
          some ({ s with paused := s.paused.filter fun mid => mid != id },
            [.saveMission .resumed (Manager.resumedMission env.toCallEnv m nextFireAt)])
      else some (s, [])
  | .saveMission kind m =>
    some (s.withStore (s.store.saveMission m), match kind with
      | .created => [.pushActive m.id]
      | .resumed => [.activate m.id]
      | .updated => []
      | .outcome => [])
  | .pushActive id =>
    some (s.withSystem { s.host.system with active := s.host.system.active ++ [id] }, [])
  | .activate id =>
    some (s.withSystem (Effect.exec (Manager.activate id) s.host.system).2, [])
  | .pauseMission id userId =>
    some (s, ((loadManaged s.store id userId).map fun _ => Task.setPaused id).toList)
  | .setPaused id =>
    some (s.withStore (s.store.updateMissionStatus id .paused env.now), [.deactivate id .paused])
  | .completeMission id =>
    some (s.withStore (s.store.updateMissionStatus id .completed env.now),
      [.deactivate id .completed])
  | .deactivate id status =>
    some (s.withSystem
      { s.host.system with active := s.host.system.active.filter fun mid => mid != id },
      [.forgetAttempt id status])
  | .forgetAttempt id status =>
    some ({ s.withSystem
        { s.host.system with lastFireAttempt := s.host.system.lastFireAttempt.erase id } with
      paused := if status = .paused then id :: s.paused else s.paused }, [])
  | .trigger trigger =>
    some (s, match trigger with
      | .tick now => [.prune now s.host.system.active]
      | _ => [.sweep trigger s.host.system.active])
  | .prune now ids =>
    some (s.withSystem
      { s.host.system with lastFireAttempt := pruned now s.host.system.lastFireAttempt },
      [.sweep (.tick now) ids])
  | .sweep _ [] => some (s, [])
  | .sweep trigger (id :: ids) =>
    some (s, match s.store.loadMission id with
      | some m => if trigger.selects config.events m then [.hold trigger m ids]
        else [.sweep trigger ids]
      | none => [.sweep trigger ids])
  | .hold trigger m ids =>
    some ({ s with host := s.host.noted config.events env.now trigger m },
      if s.host.holdsBack config.events env.now trigger m then [.sweep trigger ids]
      else [.fireMission ⟨m.id, trigger.firesFor m, trigger.payload, some (trigger, ids)⟩])

variable {config env}

theorem next_checkUserRate {s s' : Observed} {fire : Fire} {ts : List Task}
    (h : next config env s (.checkUserRate fire) = some (s', ts)) :
    ∃ fires, s' = s.withSystem { s.host.system with userFireLog := fires } ∧
      (ts = [.spawnThread fire] ∨ ts = fire.call.returns false) := by
  simp only [next, Option.some.injEq, Prod.mk.injEq] at h
  obtain ⟨rfl, rfl⟩ := h
  exact ⟨_, rfl, ite_eq_or_eq ..⟩

theorem next_spawnThread {s s' : Observed} {fire : Fire} {ts : List Task}
    (h : next config env s (.spawnThread fire) = some (s', ts)) :
    (s' = s ∧ ts = fire.call.returns true) ∨ ∃ tid thread, s.inUse tid = false ∧
        s' = s.withThread fire.call.id tid thread env.fireInstant ∧
        ts = [.armCooldown fire tid env.fireInstant (Manager.firedMission config.manager
            env.toCallEnv fire.mission tid fire.call.triggerPayload),
          .watchOutcome fire.call.id tid env.fireInstant] := by
  rcases hspawn : env.spawn fire.mission fire.call.userId with e | ⟨tid, thread⟩
  · simp only [next, hspawn, Option.some.injEq, Prod.mk.injEq] at h
    exact .inl ⟨h.1.symm, h.2.symm⟩
  · simp only [next, hspawn] at h
    split_ifs at h with huse
    simp only [Option.some.injEq, Prod.mk.injEq] at h
    exact .inr ⟨tid, thread, Bool.eq_false_of_not_eq_true huse, h.1.symm, h.2.symm⟩

def Task.isPlain : Task → Bool
  | fireMission _ => true
  | recordUserRate _ => true
  | pushActive _ => true
  | activate _ => true
  | prune _ _ => true
  | sweep _ _ => true
  | hold _ _ _ => true
  | _ => false

/-- The tasks of a fire that its daily budget does not stop. -/
inductive Checks (fire : Fire) : Task → Prop
  | rate (budget : Fire.withinBudget fire.mission = true)
    (unlimited : fire.mission.maxConcurrent = 0) : Checks fire (.checkUserRate fire)
  | count (budget : Fire.withinBudget fire.mission = true) :
    Checks fire (.countRunning fire fire.mission.threadHistory.reverse 0)

/-- The second task remains to be done after a step of the first one. -/
inductive Follows (config : HostConfig) (env : StepEnv) (s : Observed) : Task → Task → Prop
  | plain {t t' : Task} (h : t'.isPlain = true) : Follows config env s t t'
  | stale {call : FireCall} {m : Mission} (hm : s.store.loadMission call.id = some m)
    (hallowed : (m.isShared || m.isOwnedBy call.userId) = true) (hmay : Manager.mayFire m = true)
    (hstale : threadsTodayIsStale config.manager.libs m env.now = true) :
    Follows config env s (.fireMission call) (.resetThreadsToday ⟨call, m, env.now⟩)
  | fresh {call : FireCall} {m : Mission} {t' : Task} (hm : s.store.loadMission call.id = some m)
    (hallowed : (m.isShared || m.isOwnedBy call.userId) = true) (hmay : Manager.mayFire m = true)
    (hfresh : threadsTodayIsStale config.manager.libs m env.now = false)
    (h : Checks ⟨call, m, env.now⟩ t') : Follows config env s (.fireMission call) t'
  | reset {fire : Fire} {t' : Task} (h : Checks fire.reset t') :
    Follows config env s (.resetThreadsToday fire) t'
  | counting {fire : Fire} {tid : ThreadId} {rest : List ThreadId} {running : Nat} :
    Follows config env s (.countRunning fire (tid :: rest) running) (.countRunning fire rest
      (if Manager.isRunning s.host.system.threads tid then running + 1 else running))
  | counted {fire : Fire} {running : Nat} (h : running < fire.mission.maxConcurrent) :
    Follows config env s (.countRunning fire [] running) (.checkUserRate fire)
  | rated {fire : Fire} : Follows config env s (.checkUserRate fire) (.spawnThread fire)
  | spawned {fire : Fire} {tid : ThreadId} : Follows config env s (.spawnThread fire)
    (.armCooldown fire tid env.fireInstant (Manager.firedMission config.manager env.toCallEnv
      fire.mission tid fire.call.triggerPayload))
  | watched {fire : Fire} {tid : ThreadId} :
    Follows config env s (.spawnThread fire) (.watchOutcome fire.call.id tid env.fireInstant)
  | armed {fire : Fire} {tid : ThreadId} {firedAt : Instant} {updated : Mission} :
    Follows config env s (.armCooldown fire tid firedAt updated) (.saveFired fire tid updated)
  | ended {id : MissionId} {tid : ThreadId} {firedAt : Instant} {outcome : ThreadOutcome} :
    Follows config env s (.watchOutcome id tid firedAt) (.processOutcome id tid firedAt outcome)
  | processed {id : MissionId} {tid : ThreadId} {firedAt : Instant} {outcome : ThreadOutcome}
    {m w : Mission} (hm : s.store.loadMission id = some m)
    (hw : processOutcome config.manager.libs env.toCallEnv tid firedAt outcome m = some w) :
    Follows config env s (.processOutcome id tid firedAt outcome) (.saveMission .outcome w)
  | created {projectId : ProjectId} {userId name goal : Text} {cadence : MissionCadence}
    {notifyChannels : List Text} {m : Mission} (hid : m.id = env.newMissionId)
    (hzero : m.threadsToday = 0) (hfree : s.store.loadMission env.newMissionId = none)
    (hdrawn : env.newMissionId ∉ s.drawn) :
    Follows config env s (.createMission projectId userId name goal cadence notifyChannels)
      (.saveMission .created m)
  | updated {id : MissionId} {userId : Text} {updates : MissionUpdate} {m m' : Mission}
    (hm : s.store.loadMission id = some m)
    (hu : updates.apply config.manager.libs env.now m = .ok m') :
    Follows config env s (.updateMission id userId updates) (.saveMission .updated m')
  | resumed {id : MissionId} {userId : Text} {m : Mission} {nextFireAt : Option Instant}
    (hload : loadManaged s.store id userId = some m)
    (hstatus : m.status = .paused ∨ m.status = .failed)
    (hfire : Manager.resumedFire config.manager env.toCallEnv m = .ok nextFireAt) :
    Follows config env s (.resumeMission id userId)
      (.saveMission .resumed (Manager.resumedMission env.toCallEnv m nextFireAt))
  | pausing {id : MissionId} {userId : Text} {m : Mission}
    (hm : s.store.loadMission id = some m) :
    Follows config env s (.pauseMission id userId) (.setPaused id)
  | paused {id : MissionId} : Follows config env s (.setPaused id) (.deactivate id .paused)
  | completed {id : MissionId} :
    Follows config env s (.completeMission id) (.deactivate id .completed)
  | deactivated {id : MissionId} {status : MissionStatus} :
    Follows config env s (.deactivate id status) (.forgetAttempt id status)

section Follows

variable {s s' : Observed} {t t' : Task} {ts : List Task}

theorem isPlain_of_mem_returns {call : FireCall} {failed : Bool} (h : t ∈ call.returns failed) :
    t.isPlain = true := by
  unfold FireCall.returns at h
  split at h
  · cases h
  · split at h
    · cases h
    · rw [mem_singleton.mp h]
      rfl

theorem checks_of_mem_checked {fire : Fire} (h : t ∈ Fire.checked env fire) :
    t.isPlain = true ∨ Checks fire t := by
  unfold Fire.checked at h
  split_ifs at h with hrefused hzero
  · exact .inl (isPlain_of_mem_returns h)
  all_goals
    have hbudget : Fire.withinBudget fire.mission = true := by
      by_contra hbudget
      simp [hbudget] at hrefused
    rw [mem_singleton.mp h]
  · exact .inr (.rate hbudget hzero)
  · exact .inr (.count hbudget)

theorem follows_of_mem_loaded {call : FireCall} {m : Mission}
    (hm : s.store.loadMission call.id = some m) (h : t ∈ Fire.loaded config env call m) :
    Follows config env s (.fireMission call) t := by
  unfold Fire.loaded at h
  split_ifs at h with hallowed hmay hstale
  · exact .plain (isPlain_of_mem_returns h)
  · exact .plain (isPlain_of_mem_returns h)
  all_goals
    rw [Bool.not_eq_true, Bool.not_eq_false'] at hallowed hmay
  · rw [mem_singleton.mp h]
    exact .stale hm hallowed hmay hstale
  · rcases checks_of_mem_checked h with hplain | hchecks
    · exact .plain hplain
    · exact .fresh hm hallowed hmay (Bool.eq_false_of_not_eq_true hstale) hchecks

/-- **What can remain to be done after a step.** -/
theorem follows_of_next (h : next config env s t = some (s', ts)) (ht : t' ∈ ts) :
    Follows config env s t t' := by
  cases t with
  | fireMission call =>
    simp only [next] at h
    split at h
    · cases h
      exact .plain (isPlain_of_mem_returns ht)
    · rename_i m hm
      cases h
      exact follows_of_mem_loaded hm ht
  | resetThreadsToday fire =>
    cases h
    rcases checks_of_mem_checked ht with hplain | hchecks
    · exact .plain hplain
    · exact .reset hchecks
  | countRunning fire rest running =>
    cases rest with
    | nil =>
      cases h
      split at ht
      · exact .plain (isPlain_of_mem_returns ht)
      · rename_i hlt
        rw [mem_singleton.mp ht]
        exact .counted (not_le.mp hlt)
    | cons tid rest =>
      cases h
      rw [mem_singleton.mp ht]
      exact .counting
  | checkUserRate fire =>
    obtain ⟨fires, rfl, rfl | rfl⟩ := next_checkUserRate h
    · rw [mem_singleton.mp ht]
      exact .rated
    · exact .plain (isPlain_of_mem_returns ht)
  | spawnThread fire =>
    rcases next_spawnThread h with ⟨rfl, rfl⟩ | ⟨tid, thread, hfresh, rfl, rfl⟩
    · exact .plain (isPlain_of_mem_returns ht)
    · rcases List.mem_cons.mp ht with rfl | ht
      · exact .spawned
      · rw [mem_singleton.mp ht]
        exact .watched
  | armCooldown fire tid firedAt updated =>
    cases h
    rw [mem_singleton.mp ht]
    exact .armed
  | saveFired fire tid updated =>
    cases h
    rw [mem_singleton.mp ht]
    exact .plain rfl
  | recordUserRate fire =>
    cases h
    exact .plain (isPlain_of_mem_returns ht)
  | watchOutcome id tid firedAt =>
    obtain ⟨outcome, -, h⟩ := map_eq_some_iff.mp h
    cases h
    rw [mem_singleton.mp ht]
    exact .ended
  | processOutcome id tid firedAt outcome =>
    simp only [next] at h
    split at h
    · cases h
      cases ht
    · rename_i m hm
      cases h
      obtain ⟨w, hw, rfl⟩ := map_eq_some_iff.mp (mem_toList.mp ht)
      exact .processed hm hw
  | createMission projectId userId name goal cadence notifyChannels =>
    simp only [next] at h
    split_ifs at h with hused
    rw [Bool.or_eq_true, not_or, Option.not_isSome_iff_eq_none, List.contains_iff_mem] at hused
    split at h
    · cases h
      cases ht
    · cases h
      rw [mem_singleton.mp ht]
      exact .created rfl rfl hused.1 hused.2
  | updateMission id userId updates =>
    simp only [next] at h
    split at h
    · cases h
      cases ht
    · rename_i m hload
      split at h
      · cases h
        cases ht
      · rename_i updated hu
        cases h
        rw [mem_singleton.mp ht]
        exact .updated (Option.filter_eq_some_iff.mp hload).1 hu
  | resumeMission id userId =>
    simp only [next] at h
    split at h
    · cases h
      cases ht
    · rename_i m hload
      split_ifs at h with hstatus
      · split at h
        · cases h
          cases ht
        · rename_i nextFireAt hfire
          cases h
          rw [mem_singleton.mp ht]
          exact .resumed hload (by simpa using hstatus) hfire
      · cases h
        cases ht
  | saveMission kind m =>
    cases h
    refine .plain ?_
    cases kind <;> simp only [mem_singleton, List.not_mem_nil] at ht <;> rw [ht] <;> rfl
  | pauseMission id userId =>
    cases h
    obtain ⟨m, hload, rfl⟩ := map_eq_some_iff.mp (mem_toList.mp ht)
    exact .pausing (Option.filter_eq_some_iff.mp hload).1
  | setPaused id =>
    cases h
    rw [mem_singleton.mp ht]
    exact .paused
  | completeMission id =>
    cases h
    rw [mem_singleton.mp ht]
    exact .completed
  | deactivate id status =>
    cases h
    rw [mem_singleton.mp ht]
    exact .deactivated
  | sweep trigger ids =>
    refine .plain ?_
    cases ids with
    | nil =>
      cases h
      cases ht
    | cons id ids =>
      cases h
      split at ht
      · split_ifs at ht <;> rw [mem_singleton.mp ht] <;> rfl
      · rw [mem_singleton.mp ht]
        rfl
  | hold trigger m ids =>
    cases h
    refine .plain ?_
    split_ifs at ht <;> rw [mem_singleton.mp ht] <;> rfl
  | trigger trigger =>
    cases h
    refine .plain ?_
    split at ht <;> rw [mem_singleton.mp ht] <;> rfl
  | prune now ids =>
    cases h
    rw [mem_singleton.mp ht]
    exact .plain rfl
  | pushActive id =>
    cases h
    cases ht
  | activate id =>
    cases h
    cases ht
  | forgetAttempt id status =>
    cases h
    cases ht

end Follows

/-- A step changes no mission, saves one, sets one status, or adds a thread of a mission. -/
inductive Change (t : Task) (env : StepEnv) (s s' : Observed) : Prop
  | none (store : s'.store = s.store) (spawned : s'.spawned = s.spawned)
    (threads : s'.host.system.threads = s.host.system.threads)
  | save (m : Mission) (saves : t.saves = some m) (store : s'.store = s.store.saveMission m)
    (spawned : s'.spawned = s.spawned) (threads : s'.host.system.threads = s.host.system.threads)
  | status (id : MissionId) (status : MissionStatus)
    (task : t = .setPaused id ∧ status = .paused ∨ t = .completeMission id ∧ status = .completed)
    (store : s'.store = s.store.updateMissionStatus id status env.now)
    (spawned : s'.spawned = s.spawned) (threads : s'.host.system.threads = s.host.system.threads)
  | spawn (fire : Fire) (tid : ThreadId) (thread : Thread) (task : t = .spawnThread fire)
    (fresh : s.inUse tid = false)
    (state : s' = s.withThread fire.call.id tid thread env.fireInstant)

theorem change_of_next {s s' : Observed} {t : Task} {ts : List Task}
    (h : next config env s t = some (s', ts)) : Change t env s s' := by
  cases t with
  | resetThreadsToday fire =>
    cases h
    exact .save _ rfl rfl rfl rfl
  | saveFired fire tid updated =>
    cases h
    exact .save _ rfl rfl rfl rfl
  | saveMission kind m =>
    cases h
    exact .save _ rfl rfl rfl rfl
  | setPaused id =>
    cases h
    exact .status id .paused (.inl ⟨rfl, rfl⟩) rfl rfl rfl
  | completeMission id =>
    cases h
    exact .status id .completed (.inr ⟨rfl, rfl⟩) rfl rfl rfl
  | spawnThread fire =>
    rcases next_spawnThread h with ⟨rfl, -⟩ | ⟨tid, thread, hfresh, rfl, -⟩
    · exact .none rfl rfl rfl
    · exact .spawn fire tid thread rfl hfresh rfl
  | checkUserRate fire =>
    obtain ⟨fires, rfl, -⟩ := next_checkUserRate h
    exact .none rfl rfl rfl
  | hold trigger m ids =>
    cases h
    refine .none ?_ rfl ?_ <;> simp [Observed.store]
  | countRunning fire rest running =>
    cases rest <;> cases h <;> exact .none rfl rfl rfl
  | sweep trigger ids =>
    cases ids <;> cases h <;> exact .none rfl rfl rfl
  | watchOutcome id tid firedAt =>
    obtain ⟨outcome, -, h⟩ := map_eq_some_iff.mp h
    cases h
    exact .none rfl rfl rfl
  | _ =>
    simp only [next] at h
    first
    | cases h
      exact .none rfl rfl rfl
    | (repeat' split at h) <;> cases h <;> exact .none rfl rfl rfl

theorem clock_of_next {s s' : Observed} {t : Task} {ts : List Task}
    (h : next config env s t = some (s', ts)) :
    s'.clock = s.clock ∨ (∃ call, t = .fireMission call) ∧ s'.clock = env.now ∨
      (∃ fire, t = .spawnThread fire) ∧ s'.clock = env.fireInstant := by
  cases t with
  | fireMission call =>
    simp only [next] at h
    split at h <;> cases h
    · exact .inl rfl
    · exact .inr (.inl ⟨⟨call, rfl⟩, rfl⟩)
  | spawnThread fire =>
    rcases next_spawnThread h with ⟨rfl, -⟩ | ⟨tid, thread, hfresh, rfl, -⟩
    · exact .inl rfl
    · exact .inr (.inr ⟨⟨fire, rfl⟩, rfl⟩)
  | checkUserRate fire =>
    obtain ⟨fires, rfl, -⟩ := next_checkUserRate h
    exact .inl rfl
  | countRunning fire rest running =>
    cases rest <;> cases h <;> exact .inl rfl
  | sweep trigger ids =>
    cases ids <;> cases h <;> exact .inl rfl
  | watchOutcome id tid firedAt =>
    obtain ⟨outcome, -, h⟩ := map_eq_some_iff.mp h
    cases h
    exact .inl rfl
  | _ =>
    simp only [next] at h
    first
    | cases h
      exact .inl rfl
    | (repeat' split at h) <;> cases h <;> exact .inl rfl

theorem drawn_of_next {s s' : Observed} {t : Task} {ts : List Task}
    (h : next config env s t = some (s', ts)) : ∀ id ∈ s.drawn, id ∈ s'.drawn := by
  cases t with
  | createMission projectId userId name goal cadence notifyChannels =>
    simp only [next] at h
    split_ifs at h
    split at h <;> cases h
    · exact fun id hid => hid
    · exact fun id hid => List.mem_cons_of_mem _ hid
  | spawnThread fire =>
    rcases next_spawnThread h with ⟨rfl, -⟩ | ⟨tid, thread, hfresh, rfl, -⟩ <;> exact fun id hid =>
      hid
  | checkUserRate fire =>
    obtain ⟨fires, rfl, -⟩ := next_checkUserRate h
    exact fun id hid => hid
  | countRunning fire rest running => cases rest <;> cases h <;> exact fun id hid => hid
  | sweep trigger ids => cases ids <;> cases h <;> exact fun id hid => hid
  | watchOutcome id tid firedAt =>
    obtain ⟨outcome, -, h⟩ := map_eq_some_iff.mp h
    cases h
    exact fun id hid => hid
  | _ =>
    simp only [next] at h
    first
    | cases h
      exact fun id hid => hid
    | (repeat' split at h) <;> cases h <;> exact fun id hid => hid

theorem isSome_of_next {s s' : Observed} {t : Task} {ts : List Task} {id : MissionId}
    (hnext : next config env s t = some (s', ts))
    (hsome : (s.store.loadMission id).isSome) : (s'.store.loadMission id).isSome := by
  cases change_of_next hnext with
  | none hstore hspawned hthreads => rwa [hstore]
  | save m hsaves hstore hspawned hthreads =>
    rw [hstore, MissionStore.loadMission_saveMission]
    split
    · rfl
    · exact hsome
  | status id' status htask hstore hspawned hthreads =>
    rw [hstore, MissionStore.loadMission_updateMissionStatus]
    split
    · rwa [Option.isSome_map]
    · exact hsome
  | spawn fire tid thread htask hfresh hstate =>
    subst hstate
    exact hsome

end Next

inductive Action where
  | call (task : Task)
  | advance (i : Nat) (env : StepEnv)
  | transition (tid : ThreadId) (state : ThreadState)

def Observed.withThreadState (s : Observed) (tid : ThreadId) (state : ThreadState) : Observed :=
  s.withSystem { s.host.system with
    threads := HashMap.adjust s.host.system.threads tid fun thread =>
      { thread with state := state } }

def step (config : HostConfig) (p : Pool Observed Task) : Action → Option (Pool Observed Task)
  | .call task => if task.isEntry then some (p.start task) else none
  | .advance i env => p.advance (next config) i env
  | .transition tid state =>
    match p.shared.host.system.threads.lookup tid with
    | none => none
    | some thread =>
      if thread.state.canTransitionTo state then
        some { p with shared := p.shared.withThreadState tid state }
      else none

theorem spawnThread_of_step {config : HostConfig} {p p' : Pool Observed Task} {a : Action}
    (hstep : step config p a = some p') {sp : Spawned}
    (hsp : p'.shared.spawned = sp :: p.shared.spawned) :
    ∃ i env fire thread, a = .advance i env ∧ p.tasks[i]? = some (.spawnThread fire) ∧
      .spawnThread fire ∈ p.tasks ∧ p.shared.inUse sp.thread = false ∧
      sp = ⟨fire.call.id, sp.thread, env.fireInstant⟩ ∧
      p'.shared = p.shared.withThread fire.call.id sp.thread thread env.fireInstant := by
  have hgrown : p'.shared.spawned ≠ p.shared.spawned := by
    rw [hsp]
    exact List.cons_ne_self _ _
  cases a with
  | call task =>
    simp only [step] at hstep
    split_ifs at hstep
    cases hstep
    exact absurd rfl hgrown
  | transition tid state =>
    simp only [step] at hstep
    split at hstep
    · cases hstep
    · split_ifs at hstep
      cases hstep
      exact absurd rfl hgrown
  | advance i env =>
    obtain ⟨front, t, back, s', ts, htasks, hi, hnext, rfl⟩ := Pool.advance_eq_some_iff.mp hstep
    cases change_of_next hnext with
    | none hstore hspawned hthreads => exact absurd hspawned hgrown
    | save m hsaves hstore hspawned hthreads => exact absurd hspawned hgrown
    | status id status htask hstore hspawned hthreads => exact absurd hspawned hgrown
    | spawn fire tid thread htask hfresh hstate =>
      subst htask hstate
      cases List.cons.inj hsp |>.1
      refine ⟨i, env, fire, thread, rfl, ?_, ?_, hfresh, rfl, rfl⟩
      · simp [htasks, ← hi]
      · simp [htasks]

def sampleLibraries : Libraries where
  parseUuid _ := .error []
  uuidText _ := []
  toLowercase := Text.toAsciiLowercase
  isTimezone _ := true
  checkRegex _ := .ok ()
  cronUpcoming _ _ now := .ok (some (now + 10))
  dateIn _ now := now / 1000
  rfc3339 _ := []
  debugCadence _ := []
  jsonText _ := []

def sampleConfig : HostConfig where
  manager := ⟨sampleLibraries, 10, 60000000000, none⟩
  events := ⟨fun pattern text => pattern == text, fun _ _ => true, fun _ => []⟩

/-- All clocks of a step read the same, new missions get the id 1, new threads run. -/
def sampleEnv (now : Instant) (tid : ThreadId) (ended : Option ThreadOutcome) : StepEnv where
  now := now
  fireInstant := now
  recordInstant := now
  newMissionId := 1
  newCallId := 0
  spawn _ _ := .ok (tid, ⟨.running, [], 0, 0, now, none⟩)
  ended := ended

def sampleStep (i : Nat) (now : Instant) : Action := .advance i (sampleEnv now 0 none)

def sampleUser : Text := ['u']

def sampleMission (cadence : MissionCadence) : Mission := Mission.new 1 0 1 sampleUser [] [] cadence

def sampleSystem (m : Mission) : Observed where
  host := ⟨⟨MissionStore.empty.saveMission m, [m.id], ∅, ∅, ∅, ∅⟩, ∅⟩
  spawned := []
  drawn := []
  paused := []
  clock := 0

def sampleFire : FireCall := ⟨1, sampleUser, none, none⟩

end IronClaw.Missions.Interleaving
