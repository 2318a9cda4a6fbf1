import Mathlib.Order.Bounds.Basic
import IronClaw.Memory.Documents
import IronClaw.Missions.Cadence

/-!
# Routines

A routine fires on a schedule, on messages, events or a webhook, or by hand. Guardrails bound how
often it starts. What comes from outside is in `RoutineLibs`.
-/

namespace IronClaw.Routines

open Foundation (HashMap Json Text)

abbrev Uuid := Nat

abbrev Time := Nat

abbrev UserId := Memory.Scope

inductive Trigger where
  | cron (schedule : Text) (timezone : Option Text)
  | event (channel : Option Text) (pattern : Text)
  | systemEvent (source eventType : Text) (filters : List (Text × Text))
  | webhook (path secret : Option Text)
  | manual
deriving DecidableEq

namespace Trigger

def isCron : Trigger → Bool
  | cron _ _ => true
  | _ => false

def usesEventCache : Trigger → Bool
  | event _ _ | systemEvent _ _ _ => true
  | _ => false

end Trigger

inductive RoutineAction where
  | lightweight (prompt : Text) (contextPaths : List Text)
  | fullJob (title description : Text) (maxIterations : Nat)

def RoutineAction.withPrompt (prompt : Text) : RoutineAction → RoutineAction
  | lightweight _ contextPaths => .lightweight prompt contextPaths
  | fullJob title _ maxIterations => .fullJob title prompt maxIterations

structure RoutineGuardrails where
  cooldown : Time
  maxConcurrent : Nat
deriving DecidableEq

structure Routine where
  id : Uuid
  name : Text
  userId : UserId
  enabled : Bool
  trigger : Trigger
  action : RoutineAction
  guardrails : RoutineGuardrails
  lastRunAt : Option Time
  nextFireAt : Option Time
  runCount : Nat
  consecutiveFailures : Nat

def Routine.isOwnedBy (r : Routine) (userId : UserId) : Bool := r.userId == userId

def Routine.withRuntime (lastRunAt : Time) (nextFireAt : Option Time)
    (runCount consecutiveFailures : Nat) (r : Routine) : Routine :=
  { r with lastRunAt := some lastRunAt, nextFireAt, runCount, consecutiveFailures }

def Routine.withoutRuntime (new r : Routine) : Routine :=
  { r with
    name := new.name
    enabled := new.enabled
    trigger := new.trigger
    action := new.action
    guardrails := new.guardrails
    nextFireAt := new.nextFireAt }

/-- The routines of the database, each under its own id. -/
structure RoutineTable where
  rows : HashMap Uuid Routine
  keyed : ∀ id r, rows.lookup id = some r → r.id = id

namespace RoutineTable

variable (table : RoutineTable)

def lookup (id : Uuid) : Option Routine := table.rows.lookup id

def list : List Routine := HashMap.values table.rows

def adjust (id : Uuid) (f : Routine → Routine) (hf : ∀ r, (f r).id = r.id) : RoutineTable where
  rows := HashMap.adjust table.rows id f
  keyed := by
    intro id' r h
    rw [HashMap.lookup_adjust] at h
    split_ifs at h with hid
    · obtain ⟨old, hold, rfl⟩ := Option.map_eq_some_iff.mp h
      rw [hf, table.keyed id' old hold]
    · exact table.keyed id' r h

def erase (id : Uuid) : RoutineTable where
  rows := table.rows.erase id
  keyed := by
    intro id' r h
    rw [HashMap.lookup_erase] at h
    split_ifs at h
    exact table.keyed id' r h

def single (r : Routine) : RoutineTable where
  rows := (∅ : HashMap Uuid Routine).insert r.id r
  keyed := by
    intro id r' h
    rw [HashMap.lookup_insert] at h
    split_ifs at h with hid
    · cases h
      exact hid.symm
    · cases h

variable {table}

theorem id_of_lookup {id : Uuid} {r : Routine} (h : table.lookup id = some r) : r.id = id :=
  table.keyed id r h

theorem mem_list {r : Routine} : r ∈ table.list ↔ table.lookup r.id = some r := by
  rw [list, HashMap.mem_values]
  constructor
  · rintro ⟨id, h⟩
    rw [lookup, table.keyed id r h]
    exact h
  · intro h
    exact ⟨r.id, h⟩

theorem lookup_erase {id : Uuid} (id' : Uuid) :
    (table.erase id).lookup id' = if id' = id then none else table.lookup id' :=
  HashMap.lookup_erase table.rows id id'

end RoutineTable

inductive RunStatus where
  | running
  | ok
  | attention
  | failed
deriving DecidableEq

/-- What a run was fired by, with the user of the message, event or call where there is one. -/
inductive Origin where
  | cron
  | event (userId : UserId)
  | systemEvent (userId : Option UserId)
  | webhook (path : Text)
  | manual (userId : Option UserId)
deriving DecidableEq

def Origin.isAutomatic : Origin → Bool
  | manual _ => false
  | _ => true

structure RoutineRun where
  id : Uuid
  routineId : Uuid
  origin : Origin
  startedAt : Time
  status : RunStatus
deriving DecidableEq

/-- What is used of other crates. A cron expression is normalised when it is asked for. -/
structure RoutineLibs where
  Schedule : Type
  parseSchedule : Text → Option Schedule
  isTimezone : Text → Bool
  /-- The first time of a schedule behind a point in time. -/
  upcoming : Schedule → Option Text → Time → Option Time
  compiles : Text → Bool
  isMatch : Text → Text → Bool

def normalizeCronExpression (schedule : Text) : Text :=
  let trimmed := schedule.trim
  let fields := Missions.splitWhitespace trimmed
  match fields.length with
  | 5 => "0 ".toList ++ Text.joinWith [' '] fields ++ " *".toList
  | 6 => Text.joinWith [' '] fields ++ " *".toList
  | _ => trimmed

namespace RoutineLibs

variable (libs : RoutineLibs)

/-- The schedule that a cron trigger names, with its time zone if that is known. -/
def scheduleOf (schedule : Text) (timezone : Option Text) :
    Option (libs.Schedule × Option Text) :=
  (libs.parseSchedule (normalizeCronExpression schedule)).map fun s =>
    (s, timezone.filter libs.isTimezone)

def nextCronFire (now : Time) (schedule : Text) (timezone : Option Text) : Option (Option Time) :=
  (libs.scheduleOf schedule timezone).map fun s => libs.upcoming s.1 s.2 now

def nextFire (now : Time) : Trigger → Option Time
  | .cron schedule timezone => (libs.nextCronFire now schedule timezone).getD none
  | _ => none

/-- What the cron crate gives is the first occurrence behind a point in time, if there is one. -/
def Lawful (occurs : libs.Schedule → Option Text → Time → Prop) : Prop :=
  ∀ s tz t n, libs.upcoming s tz t = some n → IsLeast {n | t < n ∧ occurs s tz n} n

def Occurs (occurs : libs.Schedule → Option Text → Time → Prop) (t : Time) : Trigger → Prop
  | .cron schedule timezone => ∃ s ∈ libs.scheduleOf schedule timezone, occurs s.1 s.2 t
  | _ => False

variable {libs}

theorem nextFire_spec {occurs : libs.Schedule → Option Text → Time → Prop}
    (hlaw : libs.Lawful occurs) {now n : Time} {trigger : Trigger}
    (h : libs.nextFire now trigger = some n) :
    IsLeast {n | now < n ∧ libs.Occurs occurs n trigger} n := by
  cases trigger with
  | cron schedule timezone =>
    rw [nextFire, nextCronFire] at h
    cases hs : libs.scheduleOf schedule timezone with
    | none => simp [hs] at h
    | some s =>
      rw [hs] at h
      -- the trigger is due exactly when its schedule is
      have hset : ∀ t, libs.Occurs occurs t (.cron schedule timezone) ↔ occurs s.1 s.2 t := by
        intro t
        simp [Occurs, hs]
      simp only [hset]
      exact hlaw s.1 s.2 now n h
  | _ => simp [nextFire] at h

end RoutineLibs

def routineMatchesMessage (r : Routine) (userId : UserId) (channel : Text) : Bool :=
  match r.trigger with
  | .event filter _ =>
    r.isOwnedBy userId && (filter.elim true fun ch => Text.eqIgnoreAsciiCase ch channel)
  | _ => false

def jsonValueAsFilterString : Json → Option Text
  | .str s => some s
  | .int n => some (toString n).toList
  | .float repr => some repr
  | .bool b => some (toString b).toList
  | _ => none

def matchesSystemEvent (r : Routine) (source eventType : Text) (payload : Json)
    (userId : Option UserId) : Bool :=
  match r.trigger with
  | .systemEvent expectedSource expectedEvent filters =>
    Text.eqIgnoreAsciiCase expectedSource source &&
      Text.eqIgnoreAsciiCase expectedEvent eventType &&
      (userId.elim true fun uid => r.isOwnedBy uid) &&
      filters.all fun f =>
        ((payload.get f.1).bind jsonValueAsFilterString).elim false fun actual =>
          Text.eqIgnoreAsciiCase actual f.2
  | _ => false

/-- What the author of a routine changes. -/
inductive RoutineEdit where
  /-- Enable or disable; without a value, the other way. -/
  | toggle (enabled : Option Bool)
  | update (enabled : Option Bool) (prompt schedule timezone : Option Text)
  /-- Any other trigger, due next as its schedule says. -/
  | retrigger (trigger : Trigger)

def Routine.rescheduled (libs : RoutineLibs) (now : Time) (trigger : Trigger) (r : Routine) :
    Routine :=
  { r with trigger, nextFireAt := libs.nextFire now trigger }

/-- Enabled or disabled. A cron routine that is enabled again is due when its schedule says next. -/
def Routine.toggled (libs : RoutineLibs) (now : Time) (enabled : Bool) (r : Routine) :
    Option Routine :=
  match r.trigger with
  | .cron schedule timezone =>
    if enabled && !r.enabled then
      (libs.nextCronFire now schedule timezone).map fun next =>
        { r with enabled, nextFireAt := next }
    else some { r with enabled }
  | _ => some { r with enabled }

def Routine.withSchedule (libs : RoutineLibs) (now : Time) (schedule timezone : Option Text)
    (r : Routine) : Option Routine :=
  match r.trigger with
  | .cron oldSchedule oldTimezone =>
    let schedule := schedule.getD oldSchedule
    let timezone := timezone.or oldTimezone
    (libs.nextCronFire now schedule timezone).map fun next =>
      { r with trigger := .cron schedule timezone, nextFireAt := next }
  | _ => none

def RoutineEdit.apply (libs : RoutineLibs) (now : Time) (r : Routine) :
    RoutineEdit → Option Routine
  | toggle enabled => r.toggled libs now (enabled.getD !r.enabled)
  | update enabled prompt schedule timezone =>
    let edited := { r with
      enabled := enabled.getD r.enabled
      action := prompt.elim r.action r.action.withPrompt }
    if timezone.any fun tz => !libs.isTimezone tz then none
    else if schedule.isNone && timezone.isNone then some edited
    else edited.withSchedule libs now (schedule.map normalizeCronExpression) timezone
  | retrigger trigger => some (r.rescheduled libs now trigger)

end IronClaw.Routines
