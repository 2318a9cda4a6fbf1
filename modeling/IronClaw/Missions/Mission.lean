import IronClaw.Missions.Cadence

/-!
# Missions

A mission is a long-running goal of one owner that spawns threads over time. The owner is a user,
or the shared one, which goes by two names.
-/

namespace IronClaw.Missions

open Foundation (Text Json)

abbrev MissionId := Nat

abbrev ThreadId := Nat

abbrev ProjectId := Nat

def legacySharedOwnerId : Text := "system".toList

def sharedOwnerId : Text := "__shared__".toList

def isSharedOwner (userId : Text) : Bool := userId == sharedOwnerId || userId == legacySharedOwnerId

def sharedOwnerCandidates : List Text := [sharedOwnerId, legacySharedOwnerId]

theorem isSharedOwner_iff {userId : Text} :
    isSharedOwner userId = true ↔ userId ∈ sharedOwnerCandidates := by
  simp [isSharedOwner, sharedOwnerCandidates]

inductive MissionStatus where
  | active
  | paused
  | completed
  | failed
deriving DecidableEq

def MissionStatus.debug : MissionStatus → Text
  | active => "Active".toList
  | paused => "Paused".toList
  | completed => "Completed".toList
  | failed => "Failed".toList

structure Mission where
  id : MissionId
  projectId : ProjectId
  userId : Text
  name : Text
  description : Option Text
  goal : Text
  status : MissionStatus
  cadence : MissionCadence
  currentFocus : Option Text
  approachHistory : List Text
  threadHistory : List ThreadId
  successCriteria : Option Text
  notifyChannels : List Text
  notifyUser : Option Text
  contextPaths : List Text
  maxThreadsPerDay : Nat
  threadsToday : Nat
  cooldownSecs : Nat
  maxConcurrent : Nat
  dedupWindowSecs : Nat
  lastFireAt : Option Instant
  lastTriggerPayload : Option Json
  metadata : Json
  createdAt : Instant
  updatedAt : Instant
  nextFireAt : Option Instant

def MissionCadence.isReactive : MissionCadence → Bool
  | onEvent _ _ => true
  | onSystemEvent _ _ _ => true
  | webhook _ _ => true
  | _ => false

namespace Mission

/-- A new mission. Reactive ones get tighter guardrails. -/
def new (id : MissionId) (now : Instant) (projectId : ProjectId) (userId name goal : Text)
    (cadence : MissionCadence) : Mission where
  id := id
  projectId := projectId
  userId := userId
  name := name
  description := none
  goal := goal
  status := .active
  cadence := cadence
  currentFocus := none
  approachHistory := []
  threadHistory := []
  successCriteria := none
  notifyChannels := []
  notifyUser := none
  contextPaths := []
  maxThreadsPerDay := if cadence.isReactive then 24 else 10
  threadsToday := 0
  cooldownSecs := if cadence.isReactive then 300 else 0
  maxConcurrent := if cadence.isReactive then 1 else 0
  dedupWindowSecs := 0
  lastFireAt := none
  lastTriggerPayload := none
  metadata := .obj []
  createdAt := now
  updatedAt := now
  nextFireAt := none

variable (m : Mission)

def isShared : Bool := isSharedOwner m.userId

def isOwnedBy (userId : Text) : Bool := !m.isShared && m.userId == userId

/-- The user may change the mission. -/
def managedBy (userId : Text) : Bool :=
  if m.isShared then isSharedOwner userId else m.isOwnedBy userId

def isTerminal : Bool := m.status == .completed || m.status == .failed

def isEventDriven : Bool := m.cadence.isReactive

end Mission

/-- The counter carries over from an earlier day. The day is that of the zone of a cron
cadence. -/
def threadsTodayIsStale (libs : Libraries) (m : Mission) (now : Instant) : Bool :=
  if m.threadsToday = 0 then false
  else
    match m.lastFireAt with
    | none => true
    | some last =>
      match m.cadence with
      | .cron _ (some tz) => libs.dateIn (some tz) last < libs.dateIn (some tz) now
      | _ => libs.dateIn none last < libs.dateIn none now

structure MissionUpdate where
  name : Option Text
  description : Option Text
  goal : Option Text
  cadence : Option MissionCadence
  notifyChannels : Option (List Text)
  notifyUser : Option Text
  contextPaths : Option (List Text)
  maxThreadsPerDay : Option Nat
  successCriteria : Option Text
  cooldownSecs : Option Nat
  maxConcurrent : Option Nat
  dedupWindowSecs : Option Nat

def MissionUpdate.default : MissionUpdate :=
  ⟨none, none, none, none, none, none, none, none, none, none, none, none⟩

/-- The next fire time of a cadence: a cron expression needs one, others have none. -/
def scheduledFire (libs : Libraries) (now : Instant) :
    MissionCadence → Except EngineError (Option Instant)
  | .cron expression timezone =>
    (nextCronFireRequired libs now expression timezone).map some
  | _ => .ok none

/-- The next fire time after an update. Only a new cadence is scheduled anew. -/
def MissionUpdate.nextFire (libs : Libraries) (now : Instant) (updates : MissionUpdate)
    (m : Mission) : Except EngineError (Option Instant) :=
  match updates.cadence with
  | some cadence => scheduledFire libs now cadence
  | none => .ok m.nextFireAt

def MissionUpdate.apply (libs : Libraries) (now : Instant) (updates : MissionUpdate)
    (m : Mission) : Except EngineError Mission := do
  let nextFireAt ← updates.nextFire libs now m
  .ok { m with
    name := updates.name.getD m.name
    description := updates.description.or m.description
    goal := updates.goal.getD m.goal
    cadence := updates.cadence.getD m.cadence
    nextFireAt := nextFireAt
    notifyChannels := updates.notifyChannels.getD m.notifyChannels
    notifyUser := updates.notifyUser.or m.notifyUser
    contextPaths := updates.contextPaths.getD m.contextPaths
    maxThreadsPerDay := updates.maxThreadsPerDay.getD m.maxThreadsPerDay
    successCriteria := updates.successCriteria.or m.successCriteria
    cooldownSecs := updates.cooldownSecs.getD m.cooldownSecs
    maxConcurrent := updates.maxConcurrent.getD m.maxConcurrent
    dedupWindowSecs := updates.dedupWindowSecs.getD m.dedupWindowSecs
    updatedAt := now }

theorem MissionUpdate.of_apply {libs : Libraries} {now : Instant} {updates : MissionUpdate}
    {m m' : Mission} (h : updates.apply libs now m = .ok m') :
    m'.id = m.id ∧ m'.userId = m.userId ∧ m'.status = m.status := by
  unfold MissionUpdate.apply at h
  cases hnext : updates.nextFire libs now m with
  | error e =>
    rw [hnext] at h
    cases h
  | ok next =>
    rw [hnext] at h
    cases h
    exact ⟨rfl, rfl, rfl⟩

end IronClaw.Missions
