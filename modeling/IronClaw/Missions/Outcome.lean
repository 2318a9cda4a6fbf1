import IronClaw.Missions.Manager

/-!
# Outcomes of mission threads

The outcome of a thread is written into its mission. The next focus is cut out of the response at a
byte found in lower case; the code panics where that is no boundary.
-/

namespace IronClaw.Missions

open Foundation (Text)

inductive ThreadOutcome where
  | completed (response : Option Text)
  | stopped
  | maxIterations
  | failed (error : Text)
  | gatePaused
deriving DecidableEq

def goalAchieved (lower : Text) : Bool :=
  Text.hasInfix "goal has been achieved: yes".toList lower ||
    Text.hasInfix "goal achieved: yes".toList lower || Text.hasInfix "mission complete".toList lower

def focusMarker : Text := "next focus:".toList

/-- The first line of a text, trimmed, unless nothing is left of it. -/
def focusLine (after : Text) : Option Text :=
  let line := Text.trim (after.takeWhile fun c => c != '\n')
  if line.isEmpty then none else some line

def nextFocus (lower text : Text) : Option (Option Text) :=
  match Text.find? focusMarker lower with
  | none => some none
  | some (before, _) =>
    (Text.dropBytes (Text.byteLength before + Text.byteLength focusMarker) text).map focusLine

namespace ThreadOutcome

def status (libs : Libraries) : ThreadOutcome → Option MissionStatus
  | completed (some text) => if goalAchieved (libs.toLowercase text) then some .completed else none
  | failed _ => some .failed
  | maxIterations => some .failed
  | _ => none

/-- The next focus that an outcome names. The outer `none` is a panic. -/
def focus (libs : Libraries) : ThreadOutcome → Option (Option Text)
  | completed (some text) => nextFocus (libs.toLowercase text) text
  | _ => some none

def approach : ThreadOutcome → Option Text
  | completed response => response
  | failed error => some ("FAILED: ".toList ++ error)
  | maxIterations => some "Hit max iterations without completing".toList
  | _ => none

def readable (libs : Libraries) (outcome : ThreadOutcome) : Bool := (outcome.focus libs).isSome

variable {libs : Libraries} {outcome : ThreadOutcome}

theorem silent_of_approach (libs : Libraries) (h : outcome.approach = none) :
    outcome.status libs = none ∧ outcome.focus libs = some none := by
  cases outcome with
  | completed response =>
    cases h
    exact ⟨rfl, rfl⟩
  | stopped => exact ⟨rfl, rfl⟩
  | gatePaused => exact ⟨rfl, rfl⟩
  | maxIterations => cases h
  | failed error => cases h

theorem readable_of_approach (h : outcome.approach = none) : outcome.readable libs = true := by
  rw [readable, (silent_of_approach libs h).2]
  rfl

end ThreadOutcome

/-- The schedule of a mission after a fire that was not persisted: a due cron mission gets its next
time. -/
def reconciledSchedule (libs : Libraries) (env : CallEnv) (m : Mission) : Option Instant :=
  match m.cadence with
  | .cron expression timezone =>
    if m.nextFireAt.all fun next => next ≤ env.now then
      match nextCronFire libs env.fireInstant expression timezone with
      | .ok (some next) => some next
      | _ => m.nextFireAt
    else m.nextFireAt
  | _ => m.nextFireAt

def reconciled (libs : Libraries) (env : CallEnv) (tid : ThreadId) (originalFireAt : Instant)
    (m : Mission) : Mission :=
  if m.threadHistory.contains tid then m
  else
    { m with
      threadHistory := m.threadHistory ++ [tid]
      threadsToday := m.threadsToday + 1
      lastFireAt := some originalFireAt
      nextFireAt := reconciledSchedule libs env m }

def processOutcome (libs : Libraries) (env : CallEnv) (tid : ThreadId) (originalFireAt : Instant)
    (outcome : ThreadOutcome) (m : Mission) : Option Mission :=
  let mission := reconciled libs env tid originalFireAt m
  (outcome.focus libs).map fun focus =>
    { mission with
      status := (outcome.status libs).getD mission.status
      currentFocus := focus.or mission.currentFocus
      approachHistory := mission.approachHistory ++ outcome.approach.toList
      updatedAt := env.recordInstant }

variable {libs : Libraries} {env : CallEnv} {tid : ThreadId} {originalFireAt : Instant}
  {outcome : ThreadOutcome} {m m' : Mission}

theorem reconciled_of_mem (h : tid ∈ m.threadHistory) :
    reconciled libs env tid originalFireAt m = m := by
  rw [reconciled, if_pos (List.contains_iff_mem.mpr h)]

theorem reconciled_of_not_mem (h : tid ∉ m.threadHistory) :
    reconciled libs env tid originalFireAt m =
      { m with
        threadHistory := m.threadHistory ++ [tid]
        threadsToday := m.threadsToday + 1
        lastFireAt := some originalFireAt
        nextFireAt := reconciledSchedule libs env m } := by
  rw [reconciled, if_neg (by rwa [List.contains_iff_mem])]

theorem processOutcome_eq_some_iff :
    processOutcome libs env tid originalFireAt outcome m = some m' ↔
      ∃ focus, outcome.focus libs = some focus ∧
        { reconciled libs env tid originalFireAt m with
          status := (outcome.status libs).getD (reconciled libs env tid originalFireAt m).status
          currentFocus := focus.or (reconciled libs env tid originalFireAt m).currentFocus
          approachHistory := (reconciled libs env tid originalFireAt m).approachHistory ++
            outcome.approach.toList
          updatedAt := env.recordInstant } = m' :=
  Option.map_eq_some_iff

theorem processOutcome_eq_none_iff : processOutcome libs env tid originalFireAt outcome m = none ↔
      outcome.readable libs = false := by
  rw [processOutcome, Option.map_eq_none_iff, ThreadOutcome.readable, Option.isSome_eq_false_iff,
    Option.isNone_iff_eq_none]

theorem readable_of_processOutcome
    (h : processOutcome libs env tid originalFireAt outcome m = some m') :
    outcome.readable libs = true := by
  by_contra hr
  rw [processOutcome_eq_none_iff.mpr (Bool.eq_false_of_not_eq_true hr)] at h
  cases h

theorem id_of_processOutcome (h : processOutcome libs env tid originalFireAt outcome m = some m') :
    m'.id = m.id := by
  obtain ⟨focus, -, rfl⟩ := processOutcome_eq_some_iff.mp h
  rw [reconciled]
  split <;> rfl

theorem status_ne_active_of_processOutcome
    (h : processOutcome libs env tid originalFireAt outcome m = some m') (hm : m.status ≠ .active) :
    m'.status ≠ .active := by
  obtain ⟨focus, -, rfl⟩ := processOutcome_eq_some_iff.mp h
  have hstatus : (reconciled libs env tid originalFireAt m).status = m.status := by
    rw [reconciled]
    split <;> rfl
  change (outcome.status libs).getD (reconciled libs env tid originalFireAt m).status ≠ _
  rw [hstatus]
  cases outcome with
  | completed response =>
    cases response with
    | none => exact hm
    | some text =>
      rw [ThreadOutcome.status]
      split
      · exact MissionStatus.noConfusion
      · exact hm
  | stopped => exact hm
  | gatePaused => exact hm
  | maxIterations => exact MissionStatus.noConfusion
  | failed error => exact MissionStatus.noConfusion

end IronClaw.Missions
