import IronClaw.Context.Manager
import IronClaw.Foundation.Log

/-!
# Self-repair of jobs

The repair looks for jobs that are stuck, or in progress for longer than a threshold. Each is looked
at again, marked and reported; then it is recovered, or failed if that has been done often enough.
Workers change states meanwhile.
-/

namespace IronClaw.Jobs

open Context (ContextManager JobContext JobState Uuid)
open Foundation (HashMap)

abbrev Nanos := Nat

def wholeSecs (n : Nanos) : Nat := n / 10 ^ 9

structure RepairConfig where
  stuckThreshold : Nanos
  maxRepairAttempts : Nat

def RepairConfig.exceeded (config : RepairConfig) : String :=
  s!"exceeded max repair attempts ({config.maxRepairAttempts})"

structure StuckJob where
  jobId : Uuid
  lastActivity : Nanos
  stuckDuration : Nat
  repairAttempts : Nat

/-- How far a cycle has come: jobs to look at, one to mark or measure, and reported jobs. -/
inductive RepairPhase where
  | idle
  | detecting (rest : List Uuid) (found : List StuckJob)
  | marking (jobId : Uuid) (rest : List Uuid) (found : List StuckJob)
  | measuring (jobId : Uuid) (justTransitioned : Bool) (rest : List Uuid) (found : List StuckJob)
  | repairing (found : List StuckJob)

inductive RepairEvent where
  | reported (jobId : Uuid)
  | recovered (jobId : Uuid) (now : Nanos)
  | markedStuck (jobId : Uuid) (now : Nanos)
  | markedFailed (jobId : Uuid) (now : Nanos) (fromState : JobState)
deriving DecidableEq

/-- The jobs and the repair, with what it did so far, the last event first. -/
structure RepairHost where
  now : Nanos
  manager : ContextManager
  phase : RepairPhase
  log : List RepairEvent

/-- A job is stuck, or in progress and started more than the threshold ago. -/
def looksStuck (config : RepairConfig) (now : Nanos) (c : JobContext) : Bool :=
  c.state == .stuck ||
    (c.state == .inProgress && c.startedAt.any fun started =>
      decide (wholeSecs config.stuckThreshold < wholeSecs (now - started)))

def findStuckJobsWithThreshold (config : RepairConfig) (now : Nanos) (m : ContextManager) :
    List Uuid :=
  HashMap.keysWhere m.contexts fun _ c => looksStuck config now c

/-- When a job was last marked stuck, as far as its transitions are remembered. -/
def stuckSince (c : JobContext) : Option Nanos :=
  (c.transitions.reverse.find? fun t => t.toState == .stuck).map fun t => t.timestamp

def stuckDuration (now : Nanos) (c : JobContext) : Nat :=
  (stuckSince c).elim 0 fun since => wholeSecs (now - since)

namespace RepairHost

variable (config : RepairConfig) (h : RepairHost)

def start (maxJobs : Nat) : RepairHost := ⟨0, .new maxJobs, .idle, []⟩

/-- A context is updated, and what was done is noted if it was possible. -/
def update (jobId : Uuid) (f : JobContext → Except String Unit × JobContext)
    (note : JobContext → List RepairEvent) : RepairHost × Bool :=
  match h.manager.updateContext jobId f with
  | .ok (.ok (), manager) =>
    let noted := (h.manager.contexts.lookup jobId).elim [] note
    ({ h with manager, log := noted ++ h.log }, true)
  | .ok (.error _, manager) => ({ h with manager }, false)
  | .error _ => (h, false)

def markFound (jobId : Uuid) : RepairHost × Bool :=
  h.update jobId (fun c => c.markStuck h.now "exceeded stuck_threshold")
    fun _ => [.markedStuck jobId h.now]

/-- The next step of the detection, from the scan of the jobs to the end of a cycle. -/
def goOn : Option RepairHost :=
  match h.phase with
  | .idle =>
    some { h with phase := .detecting (findStuckJobsWithThreshold config h.now h.manager) [] }
  | .detecting [] found => some { h with phase := .repairing found }
  | .detecting (jobId :: rest) found =>
    match (h.manager.contexts.lookup jobId).map JobContext.state with
    | some .stuck => some { h with phase := .measuring jobId false rest found }
    | some .inProgress => some { h with phase := .marking jobId rest found }
    | _ => some { h with phase := .detecting rest found }
  | .marking jobId rest found =>
    let marked := h.markFound jobId
    some { marked.1 with
      phase := if marked.2 then .measuring jobId true rest found else .detecting rest found }
  | .measuring jobId justTransitioned rest found =>
    match h.manager.contexts.lookup jobId with
    | none => some { h with phase := .detecting rest found }
    | some c =>
      let duration := stuckDuration h.now c
      -- a job that was in progress has been vetted by the scan
      if justTransitioned = false ∧ duration * 10 ^ 9 < config.stuckThreshold then
        some { h with phase := .detecting rest found }
      else
        let job : StuckJob :=
          ⟨jobId, (stuckSince c).getD c.createdAt, duration, c.repairAttempts⟩
        some { h with phase := .detecting rest (found ++ [job]), log := .reported jobId :: h.log }
  | .repairing [] => some { h with phase := .idle }
  | .repairing (_ :: _) => none

/-- A job in progress is marked stuck first, since only a stuck one can be recovered. -/
def recover (now : Nanos) (c : JobContext) : Except String Unit × JobContext :=
  if c.state = .inProgress then
    match c.transitionTo now .stuck (some "exceeded stuck_threshold") with
    | (.ok (), c) => c.attemptRecovery now
    | (.error e, c) => (.error e, c)
  else c.attemptRecovery now

def recoveryEvents (job : StuckJob) (c : JobContext) : List RepairEvent :=
  if c.state = .inProgress then
    [.recovered job.jobId h.now, .markedStuck job.jobId h.now]
  else [.recovered job.jobId h.now]

/-- A reported job is recovered, or failed. -/
def repairStuckJob (job : StuckJob) : RepairHost :=
  if config.maxRepairAttempts ≤ job.repairAttempts then
    (h.update job.jobId (fun c => c.transitionTo h.now .failed (some config.exceeded))
      fun c => [.markedFailed job.jobId h.now c.state]).1
  else (h.update job.jobId (recover h.now) (h.recoveryEvents job)).1

end RepairHost

def RepairEvent.recoveryOf (jobId : Uuid) : RepairEvent → Option Nanos
  | recovered jobId' now => if jobId' = jobId then some now else none
  | _ => none

def recoveriesOf (jobId : Uuid) (log : List RepairEvent) : Nat :=
  log.countP fun e => (e.recoveryOf jobId).isSome

def lastRecovery (jobId : Uuid) (log : List RepairEvent) : Option Nanos :=
  log.findSome? fun e => e.recoveryOf jobId

def reportsOf (jobId : Uuid) (log : List RepairEvent) : Nat :=
  log.countP fun e => decide (e = .reported jobId)

namespace RepairPhase

def waiting : RepairPhase → List Uuid
  | detecting rest _ | measuring _ _ rest _ => rest
  | marking jobId rest _ => jobId :: rest
  | idle | repairing _ => []

def measured : RepairPhase → List Uuid
  | measuring jobId _ _ _ => [jobId]
  | _ => []

def found : RepairPhase → List StuckJob
  | detecting _ found | marking _ _ found | measuring _ _ _ found | repairing found => found
  | idle => []

def jobs (phase : RepairPhase) : List Uuid :=
  phase.waiting ++ phase.measured ++ phase.found.map StuckJob.jobId

end RepairPhase

inductive RepairAction where
  /-- A new job, under an id that is in no use. -/
  | insert (context : JobContext)
  | remove (jobId : Uuid)
  | clock (now : Nanos)
  | worker (jobId : Uuid) (newState : JobState) (reason : Option String)
  | goOn
  | repair (k : Nat)

namespace RepairHost

def isUnused (jobId : Uuid) (h : RepairHost) : Bool :=
  (h.manager.contexts.lookup jobId).isNone && !h.phase.jobs.contains jobId &&
    recoveriesOf jobId h.log == 0 && reportsOf jobId h.log == 0

def setContexts (contexts : HashMap Uuid JobContext) (h : RepairHost) : RepairHost :=
  { h with manager := { h.manager with contexts } }

end RepairHost

def repairStep (config : RepairConfig) (h : RepairHost) : RepairAction → Option RepairHost
  | .insert context =>
    if h.isUnused context.jobId ∧ context.repairAttempts = 0 then
      some (h.setContexts (h.manager.contexts.insert context.jobId context))
    else none
  | .remove jobId => some (h.setContexts (h.manager.contexts.erase jobId))
  | .clock now => if h.now ≤ now then some { h with now } else none
  | .worker jobId newState reason =>
    some (h.update jobId (fun c => c.transitionTo h.now newState reason) fun _ => []).1
  | .goOn => h.goOn config
  | .repair k =>
    match h.phase with
    | .repairing found =>
      found[k]?.map fun job =>
        { h.repairStuckJob config job with phase := .repairing (found.eraseIdx k) }
    | _ => none

end IronClaw.Jobs
