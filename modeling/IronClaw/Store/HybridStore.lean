import IronClaw.Engine.Capability
import IronClaw.Foundation.Cache
import IronClaw.Missions.Manager

/-!
# The runtime records of the engine store

The store keeps threads, steps, events and leases in maps, and writes changed entries to files. A
cleanup drops finished threads and dead leases; loads bring back all but leases.
-/

namespace IronClaw.Store

open Engine (CapabilityLease LeaseId ThreadId Time)
open Foundation (Cache Json Pool)
open Missions (ThreadState)

abbrev StepId := Nat

abbrev EventId := Nat

structure Thread where
  id : ThreadId
  state : ThreadState
  updatedAt : Time
  completedAt : Option Time
  body : Json

structure Step where
  id : StepId
  threadId : ThreadId
  sequence : Nat
  body : Json

structure ThreadEvent where
  id : EventId
  threadId : ThreadId
  timestamp : Time
  body : Json

/-- What is kept: a thread, the steps or the events of one, or a lease. -/
inductive Entry where
  | thread (id : ThreadId)
  | steps (id : ThreadId)
  | events (id : ThreadId)
  | lease (id : LeaseId)
deriving DecidableEq

def Entry.Content : Entry → Type
  | thread id => { thread : Thread // thread.id = id }
  | steps id => { steps : List Step // ∀ step ∈ steps, step.threadId = id }
  | events id => { events : List ThreadEvent // ∀ event ∈ events, event.threadId = id }
  | lease id => { lease : CapabilityLease // lease.id = id }

def overwriteStep (step : Step) : List Step → List Step
  | [] => []
  | existing :: steps =>
    if existing.id = step.id then step :: steps else existing :: overwriteStep step steps

def storeStep (step : Step) (steps : List Step) : List Step :=
  if steps.any fun existing => existing.id = step.id then overwriteStep step steps
  else (steps ++ [step]).insertionSort fun a b => a.sequence ≤ b.sequence

def appendNew (new events : List ThreadEvent) : List ThreadEvent :=
  (new.foldl (fun events event =>
    if events.any fun existing => existing.id = event.id then events else events ++ [event])
    events).insertionSort fun a b => a.timestamp ≤ b.timestamp

theorem mem_overwriteStep {step s : Step} {steps : List Step} (h : s ∈ overwriteStep step steps) :
    s = step ∨ s ∈ steps := by
  induction steps with
  | nil => cases h
  | cons existing steps ih =>
    rw [overwriteStep] at h
    split_ifs at h
    · exact (List.mem_cons.mp h).imp id (List.mem_cons_of_mem existing)
    · rcases List.mem_cons.mp h with rfl | h
      · exact .inr List.mem_cons_self
      · exact (ih h).imp id (List.mem_cons_of_mem existing)

theorem mem_storeStep {step s : Step} {steps : List Step} (h : s ∈ storeStep step steps) :
    s = step ∨ s ∈ steps := by
  rw [storeStep] at h
  split_ifs at h
  · exact mem_overwriteStep h
  · rw [List.mem_insertionSort, List.mem_append, List.mem_singleton] at h
    exact h.symm

theorem mem_appendNew {new events : List ThreadEvent} {e : ThreadEvent}
    (h : e ∈ appendNew new events) : e ∈ new ∨ e ∈ events := by
  rw [appendNew, List.mem_insertionSort] at h
  induction new generalizing events with
  | nil => exact .inr h
  | cons event new ih =>
    rw [List.foldl_cons] at h
    rcases ih h with h | h
    · exact .inl (List.mem_cons_of_mem event h)
    · split_ifs at h
      · exact .inr h
      · rcases List.mem_append.mp h with h | h
        · exact .inr h
        · exact .inl (List.mem_cons.mpr (.inl (List.mem_singleton.mp h)))

/-- What a call does to an entry under the lock of its map. -/
inductive Change : Entry → Type where
  | saveThread (thread : Thread) : Change (.thread thread.id)
  | updateThreadState (id : ThreadId) (state : ThreadState) : Change (.thread id)
  | saveStep (step : Step) : Change (.steps step.threadId)
  | appendEvents (id : ThreadId)
      (events : { events : List ThreadEvent // ∀ event ∈ events, event.threadId = id }) :
      Change (.events id)
  | saveLease (lease : CapabilityLease) : Change (.lease lease.id)
  | revokeLease (id : LeaseId) : Change (.lease id)

def stepsOf {id : ThreadId} (content : Option (Entry.Content (.steps id))) : List Step :=
  match content with
  | some steps => steps.1
  | none => []

def eventsOf {id : ThreadId} (content : Option (Entry.Content (.events id))) : List ThreadEvent :=
  match content with
  | some events => events.1
  | none => []

theorem threadId_of_mem_stepsOf {id : ThreadId} {content : Option (Entry.Content (.steps id))}
    {step : Step} (h : step ∈ stepsOf content) : step.threadId = id := by
  cases content with
  | none => cases h
  | some steps => exact steps.2 step h

theorem threadId_of_mem_eventsOf {id : ThreadId} {content : Option (Entry.Content (.events id))}
    {event : ThreadEvent} (h : event ∈ eventsOf content) : event.threadId = id := by
  cases content with
  | none => cases h
  | some events => exact events.2 event h

def Change.apply : (e : Entry) → Change e → Option e.Content → Option e.Content
  | _, .saveThread thread, _ => some ⟨thread, rfl⟩
  | _, .updateThreadState _ state, content =>
    content.map fun thread => ⟨{ thread.1 with state := state }, thread.2⟩
  | _, .saveStep step, content =>
    some ⟨storeStep step (stepsOf content), fun _ h =>
      (mem_storeStep h).elim (fun heq => heq ▸ rfl) threadId_of_mem_stepsOf⟩
  | _, .appendEvents _ new, content =>
    some ⟨appendNew new.1 (eventsOf content), fun event h =>
      (mem_appendNew h).elim (new.2 event) threadId_of_mem_eventsOf⟩
  | _, .saveLease lease, _ => some ⟨lease, rfl⟩
  | _, .revokeLease _, content =>
    content.map fun lease => ⟨{ lease.1 with revoked := true }, lease.2⟩

/-- What a scan of a map reads: clocks for leases, and the order of iteration. -/
structure Reading where
  clock : LeaseId → Time
  order : List Entry

def Reading.arrange (reading : Reading) (entries : List Entry) : List Entry :=
  entries.insertionSort fun e e' => reading.order.idxOf e ≤ reading.order.idxOf e'

abbrev Records := AList Entry.Content

def Thread.isEvictable (now : Time) (minAge : Int) (thread : Thread) : Bool :=
  (thread.state == .done || thread.state == .failed || thread.state == .completed) &&
    decide (minAge < (now : Int) - (thread.completedAt.getD thread.updatedAt : Nat))

def terminalThreads (now : Time) (minAge : Int) (memory : Records) : List Entry :=
  memory.entries.flatMap fun
    | ⟨.thread id, thread⟩ => if thread.1.isEvictable now minAge then [.thread id] else []
    | _ => []

def Entry.evicted : Entry → List Entry
  | thread id => [thread id, events id, steps id]
  | e => [e]

def terminalEntries (now : Time) (minAge : Int) (reading : Reading) (memory : Records) :
    List Entry :=
  (reading.arrange (terminalThreads now minAge memory)).flatMap Entry.evicted

def deadLeases (reading : Reading) (memory : Records) : List Entry :=
  reading.arrange (memory.entries.flatMap fun
    | ⟨.lease id, lease⟩ =>
      if lease.1.revoked || !lease.1.isValid (reading.clock id) then [.lease id] else []
    | _ => [])

/-- The calls. The events to append come in groups, one for each thread, in any order. -/
inductive Call where
  | saveThread (thread : Thread)
  | updateThreadState (id : ThreadId) (state : ThreadState)
  | saveStep (step : Step)
  | appendEvents (events : List ThreadEvent) (order : List ThreadId)
  | saveLease (lease : CapabilityLease)
  | revokeLease (id : LeaseId)
  | loadThread (id : ThreadId)
  | loadSteps (id : ThreadId)
  | loadEvents (id : ThreadId)
  | cleanupTerminalState (now : Time) (minAge : Int)

abbrev System := Pool (Cache Entry.Content Change) (Cache.Task Entry.Content Change Reading)

/-- The events of one thread among those to append. -/
def grouped (events : List ThreadEvent) (id : ThreadId) :
    { events : List ThreadEvent // ∀ event ∈ events, event.threadId = id } :=
  ⟨events.filter fun event => event.threadId = id, fun _ h => by simpa using
    (List.mem_filter.mp h).2⟩

def Call.action : Call → Option (Cache.Action Entry.Content Change Reading)
  | saveThread thread => some (.run [.change (.thread thread.id) (.saveThread thread)])
  | updateThreadState id state => some (.run [.change (.thread id) (.updateThreadState id state)])
  | saveStep step => some (.run [.change (.steps step.threadId) (.saveStep step)])
  | appendEvents events order =>
    if order.Nodup ∧ (∀ event ∈ events, event.threadId ∈ order) ∧
        ∀ id ∈ order, ∃ event ∈ events, event.threadId = id then
      some (.run (order.map fun id => .change (.events id) (.appendEvents id (grouped events id))))
    else none
  | saveLease lease => some (.run [.change (.lease lease.id) (.saveLease lease)])
  | revokeLease id => some (.run [.change (.lease id) (.revokeLease id)])
  | loadThread id => some (.load (.thread id))
  | loadSteps id => some (.load (.steps id))
  | loadEvents id => some (.load (.events id))
  | cleanupTerminalState now minAge =>
    some (.run [.evict (terminalEntries now minAge), .evict deadLeases])

/-- A file is read at a start, unless it lists nothing. -/
def isLoaded : (Σ e : Entry, e.Content) → Bool
  | ⟨.steps _, steps⟩ => !steps.1.isEmpty
  | ⟨.events _, events⟩ => !events.1.isEmpty
  | _ => true

def loadStateFromWorkspace (files : Records) : Records where
  entries := files.entries.filter isLoaded
  nodupKeys := files.nodupKeys.sublist List.filter_sublist

inductive Action where
  | call (c : Call)
  | advance (i : Nat) (reading : Reading)
  | restart

def Action.onCache : Action → Option (Cache.Action Entry.Content Change Reading)
  | call c => c.action
  | advance i reading => some (.advance i reading)
  | restart => some .restart

def step (s : System) (a : Action) : Option System :=
  a.onCache.bind (Cache.step Change.apply loadStateFromWorkspace s)

end IronClaw.Store
