import IronClaw.Foundation.HashMap
import IronClaw.Foundation.Interleaving
import IronClaw.Foundation.Queue
import IronClaw.Tools.Tool

/-!
# The history of file modifications

Before a tool modifies a file it takes a snapshot, and an undo writes the latest one back. A tool
goes on without a snapshot, and one stays when the modification fails.
-/

namespace IronClaw.Files

open Foundation (HashMap Pool popFrontWhileOver removeLast?)
open Tools (ToolError)

abbrev Uuid := Nat

abbrev Time := Nat

abbrev Path := String

abbrev Content := List UInt8

abbrev Files := HashMap Path Content

/-- Where paths lead: the canonical path of the file that a path names. -/
structure Resolution where
  target : Path → Path
  target_target : ∀ p, target (target p) = target p

/-- A path is canonicalized as far as it exists, if its file or its directory is there. -/
def Resolution.canonical (r : Resolution) (found : Bool) (path : Path) : Path :=
  if found then r.target path else path

def setFile (files : Files) (path : Path) : Option Content → Files
  | some content => files.insert path content
  | none => files.erase path

structure FileSnapshot where
  id : Uuid
  jobId : Uuid
  path : Path
  contentBefore : Option Content
  timestamp : Time
  toolName : String
  sequenceNumber : Nat
deriving DecidableEq

structure FileHistory where
  snapshots : List FileSnapshot
  maxSnapshots : Nat
  nextSequence : Nat
deriving DecidableEq

def defaultMaxSnapshots : Nat := 50

def maxSnapshotFileSize : Nat := 10 * 1024 * 1024

structure SnapshotAnswers where
  found : Bool
  metadata : Bool
  readable : Bool
  id : Uuid
  now : Time
deriving DecidableEq

/-- How the file system answers a restore. An operation that fails leaves the file as `left`. -/
structure RestoreAnswers where
  found : Bool
  succeeds : Bool
  left : Option Content
deriving DecidableEq

namespace FileHistory

def withMaxSnapshots (maxSnapshots : Nat) : FileHistory := ⟨[], maxSnapshots, 1⟩

/-- Snapshots over the capacity are evicted, the oldest first. -/
def push (h : FileHistory) (s : FileSnapshot) : FileHistory :=
  { h with
    snapshots := popFrontWhileOver h.maxSnapshots (h.snapshots ++ [s])
    nextSequence := h.nextSequence + 1 }

def drivenOut (h : FileHistory) (s : FileSnapshot) : List FileSnapshot :=
  (h.snapshots ++ [s]).take ((h.snapshots ++ [s]).length - h.maxSnapshots)

def snapshot (r : Resolution) (answers : SnapshotAnswers) (files : Files) (jobId : Uuid)
    (path : Path) (toolName : String) (h : FileHistory) :
    Except ToolError (Option FileSnapshot) :=
  let path := r.canonical answers.found path
  let file := files.lookup (r.target path)
  if answers.metadata && file.any (maxSnapshotFileSize < ·.length) then .ok none
  else if answers.readable then
    .ok (some ⟨answers.id, jobId, path, file, answers.now, toolName, h.nextSequence⟩)
  else .error (.executionFailed "Failed to snapshot file before modification")

def IsOf (jobId : Uuid) (path : Path) (s : FileSnapshot) : Bool :=
  s.jobId = jobId && s.path = path

def restoreLatest (r : Resolution) (answers : RestoreAnswers) (files : Files) (jobId : Uuid)
    (path : Path) (h : FileHistory) :
    Except ToolError (Option FileSnapshot) × Files × FileHistory :=
  match removeLast? (IsOf jobId (r.canonical answers.found path)) h.snapshots with
  | none => (.ok none, files, h)
  | some (s, rest) =>
    if answers.succeeds then
      (.ok (some s), setFile files (r.target s.path) s.contentBefore, { h with snapshots := rest })
    else
      (.error (.executionFailed (match s.contentBefore with
        | some _ => "Failed to restore file"
        | none => "Failed to remove file during restore")),
        setFile files (r.target s.path) answers.left, { h with snapshots := rest })

end FileHistory

/-- How the modification after a snapshot ends. One that fails may leave anything. -/
inductive EditOutcome where
  | done (content : Content)
  | failed (left : Option Content)
deriving DecidableEq

def EditOutcome.after : EditOutcome → Option Content
  | done content => some content
  | failed left => left

/-- The file was modified: as intended, or by an operation that failed halfway. -/
def EditOutcome.Modifies (before : Option Content) : EditOutcome → Prop
  | done _ => True
  | failed left => left ≠ before

instance (before : Option Content) (o : EditOutcome) : Decidable (o.Modifies before) := by
  cases o <;> simp only [EditOutcome.Modifies] <;> infer_instance

inductive EditTask where
  | snapshotting (jobId : Uuid) (path : Path) (toolName : String)
  | modifying (jobId : Uuid) (path : Path) (recorded : Option FileSnapshot)
deriving DecidableEq

abbrev FileKey := Uuid × Path

/-- A modification, whose snapshot is kept or not; an undo; or the eviction of a snapshot. -/
inductive FileEvent where
  | modified (before : Option Content) (kept : Bool)
  | restored (content : Option Content)
  | nothing
  | failed (historyKept : Bool)
  | evicted
deriving DecidableEq

structure FileHost where
  files : Files
  history : FileHistory
  log : List (FileKey × FileEvent)

def FileHost.note (host : FileHost) (key : FileKey) (e : FileEvent) : FileHost :=
  { host with log := host.log ++ [(key, e)] }

structure EditAnswers where
  snapshot : SnapshotAnswers
  outcome : EditOutcome
deriving DecidableEq

section Steps

variable (r : Resolution)

def EditTask.next (answers : EditAnswers) (host : FileHost) :
    EditTask → Option (FileHost × List EditTask)
  | snapshotting jobId path toolName =>
    match host.history.snapshot r answers.snapshot host.files jobId path toolName with
    | .ok (some s) =>
      some ({ host with
        history := host.history.push s
        log := host.log ++
          (host.history.drivenOut s).map fun s' => ((s'.jobId, s'.path), .evicted) },
        [.modifying jobId path (some s)])
    | .ok none | .error _ => some (host, [.modifying jobId path none])
  | modifying jobId path recorded =>
    let before := host.files.lookup (r.target path)
    let changed := { host with files := setFile host.files (r.target path) answers.outcome.after }
    if answers.outcome.Modifies before then
      some (changed.note (jobId, r.target path)
        (.modified before (recorded.any (· ∈ host.history.snapshots))), [])
    else some (changed, [])

def FileHost.undo (answers : RestoreAnswers) (jobId : Uuid) (path : Path) (host : FileHost) :
    FileHost :=
  let result := host.history.restoreLatest r answers host.files jobId path
  { host with files := result.2.1, history := result.2.2 }.note (jobId, r.target path)
    (match result.1 with
    | .ok (some s) => .restored s.contentBefore
    | .ok none => .nothing
    | .error _ => .failed (result.2.2 = host.history))

inductive FileAction where
  | edit (jobId : Uuid) (path : Path) (toolName : String)
  | step (i : Nat) (answers : EditAnswers)
  | undo (jobId : Uuid) (path : Path) (answers : RestoreAnswers)

def fileStep (p : Pool FileHost EditTask) : FileAction → Option (Pool FileHost EditTask)
  | .edit jobId path toolName => some (p.start (.snapshotting jobId path toolName))
  | .step i answers => p.advance (EditTask.next r) i answers
  | .undo jobId path answers => some { p with shared := p.shared.undo r answers jobId path }

def FileHost.start (files : Files) (maxSnapshots : Nat) : Pool FileHost EditTask :=
  ⟨⟨files, .withMaxSnapshots maxSnapshots, []⟩, []⟩

end Steps

end IronClaw.Files
