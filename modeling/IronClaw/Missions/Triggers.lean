import IronClaw.Missions.Outcome

/-!
# What fires missions

Missions are fired by hand, by the cron ticker, by system events, messages and webhooks. An event
seen within the window is skipped. Regular expressions and hashes come from outside.
-/

namespace IronClaw.Missions

open Foundation (Text Json HashMap)

/-- What is used of other crates to match events. An invalid pattern matches nothing. -/
structure EventLibraries where
  regexMatches : Text → Text → Bool
  jsonEq : Json → Json → Bool
  payloadDedupKey : Option Json → Text

/-- A tick of the ticker, with its clock reading, or an event from outside. -/
inductive Trigger where
  | tick (now : Instant)
  | systemEvent (source eventType userId : Text) (payload : Option Json)
  | messageEvent (channel text userId : Text) (payload : Option Json)
  | webhook (path userId : Text) (payload : Option Json)

def payloadMatchesFilters (events : EventLibraries) (filters : List (Text × Json))
    (payload : Option Json) : Bool :=
  filters.isEmpty ||
    match payload.bind Json.asObject with
    | some members => filters.all fun filter =>
      ((Json.obj members).get filter.1).any fun actual => events.jsonEq actual filter.2
    | none => false

namespace Trigger

variable (events : EventLibraries)

def payload : Trigger → Option Json
  | tick _ => none
  | systemEvent _ _ _ payload => payload
  | messageEvent _ _ _ payload => payload
  | webhook _ _ payload => payload

def firesFor (m : Mission) : Trigger → Text
  | tick _ => m.userId
  | systemEvent _ _ userId _ => userId
  | messageEvent _ _ userId _ => userId
  | webhook _ userId _ => userId

def isTick : Trigger → Bool
  | tick _ => true
  | _ => false

/-- The trigger may fire the mission in its status. A completed one may react to events. -/
def allowsStatus (m : Mission) (trigger : Trigger) : Bool :=
  m.status == .active || (!trigger.isTick && m.status == .completed && m.isEventDriven)

def allowsOwner (m : Mission) : Trigger → Bool
  | tick _ => true
  | trigger => m.isOwnedBy (trigger.firesFor m) || m.isShared

def matchesCadence (m : Mission) : Trigger → Bool
  | tick now =>
    match m.cadence with
    | .cron _ _ => m.nextFireAt.any fun next => next ≤ now
    | _ => false
  | systemEvent source eventType _ payload =>
    match m.cadence with
    | .onSystemEvent s et filters =>
      s == source && et == eventType && payloadMatchesFilters events filters payload
    | _ => false
  | messageEvent channel text _ _ =>
    match m.cadence with
    | .onEvent pattern c =>
      c.all (fun c => Text.eqIgnoreAsciiCase c channel) && events.regexMatches pattern text
    | _ => false
  | webhook path _ _ =>
    match m.cadence with
    | .webhook p _ => p == path
    | _ => false

/-- The record of the mission lets the trigger fire it. -/
def selects (trigger : Trigger) (m : Mission) : Bool :=
  trigger.allowsStatus m && trigger.allowsOwner m && trigger.matchesCadence events m

end Trigger

structure MissionHost where
  system : MissionSystem
  dedupTable : HashMap (MissionId × Text) Instant

def second : Int := 1000000000

/-- For how long a tick leaves a mission alone. -/
def fireCooldown : Int := 90 * second

/-- A fire that does not show in the record is too recent for a tick to fire again. -/
def onCooldown (now : Instant) (lastFireAttempt : HashMap MissionId Instant) (m : Mission) : Bool :=
  (lastFireAttempt.lookup m.id).any fun last =>
    now - last < fireCooldown && m.lastFireAt != some last

/-- Forget the fires that are too long ago for a tick. -/
def pruned (now : Instant) (lastFireAttempt : HashMap MissionId Instant) :
    HashMap MissionId Instant :=
  HashMap.retain lastFireAttempt fun _ last => now - last < fireCooldown

/-- The mission has seen the event within its window. -/
def isDuplicate (now : Instant) (table : HashMap (MissionId × Text) Instant) (m : Mission)
    (key : Text) : Bool :=
  0 < m.dedupWindowSecs &&
    (table.lookup (m.id, key)).any fun last => now - last < m.dedupWindowSecs * second

def dedupEvent (now : Instant) (table : HashMap (MissionId × Text) Instant) (m : Mission)
    (key : Text) : HashMap (MissionId × Text) Instant :=
  if m.dedupWindowSecs = 0 || isDuplicate now table m key then table
  else table.insert (m.id, key) now

namespace MissionHost

variable (events : EventLibraries) (now : Instant) (host : MissionHost)

def holdsBack (trigger : Trigger) (m : Mission) : Bool :=
  match trigger with
  | .tick tickNow => onCooldown tickNow host.system.lastFireAttempt m
  | _ => isDuplicate now host.dedupTable m (events.payloadDedupKey trigger.payload)

/-- The manager once a mission has been checked for a trigger. -/
def noted (trigger : Trigger) (m : Mission) : MissionHost :=
  match trigger with
  | .tick _ => host
  | _ =>
    { host with
      dedupTable := dedupEvent now host.dedupTable m (events.payloadDedupKey trigger.payload) }

@[simp] theorem system_noted (trigger : Trigger) (m : Mission) :
    (host.noted events now trigger m).system = host.system := by
  cases trigger <;> rfl

end MissionHost

end IronClaw.Missions
