import Mathlib.Data.List.Infix
import IronClaw.Foundation.Log
import IronClaw.Files.History

/-!
# File undo is a stack

The contents of a file before the modifications not undone yet form a stack. The history keeps its
upper part, as long as no snapshot is of another content and no undo fails or takes the snapshot of
an edit under way.
-/

namespace IronClaw.Files

open Foundation (Along Pool popFrontWhileOver_eq_drop removeLast? removeLast?_eq_none_iff
  removeLast?_eq_some_iff run run_invariant)
open List (append_assoc append_cons length_cons map_cons mem_append mem_append_right mem_cons
  mem_singleton nil_append pairwise_append perm_middle prefix_append)

def eventsOf (key : FileKey) (log : List (FileKey × FileEvent)) : List FileEvent :=
  log.filterMap fun e => if e.1 = key then some e.2 else none

def pushEvent (stack : List (Option Content)) : FileEvent → List (Option Content)
  | .modified before _ => before :: stack
  | .restored _ => stack.tail
  | .nothing | .failed _ | .evicted => stack

/-- The contents before the modifications that are not undone yet, the latest first. -/
def notUndone (events : List FileEvent) : List (Option Content) := events.foldl pushEvent []

def countEvent (n : Nat) : FileEvent → Nat
  | .modified _ true => n + 1
  | .restored _ | .evicted => n - 1
  | .modified _ false | .nothing | .failed _ => n

/-- So many of the latest modifications can be undone, if no snapshot is lost. -/
def secured (events : List FileEvent) : Nat := events.foldl countEvent 0

theorem notUndone_snoc (events : List FileEvent) (e : FileEvent) :
    notUndone (events ++ [e]) = pushEvent (notUndone events) e := by
  rw [notUndone, List.foldl_append]
  rfl

theorem secured_snoc (events : List FileEvent) (e : FileEvent) :
    secured (events ++ [e]) = countEvent (secured events) e := by
  rw [secured, List.foldl_append]
  rfl

theorem eventsOf_append (key : FileKey) (log more : List (FileKey × FileEvent)) :
    eventsOf key (log ++ more) = eventsOf key log ++ eventsOf key more :=
  List.filterMap_append

theorem eventsOf_snoc_self (key : FileKey) (log : List (FileKey × FileEvent)) (e : FileEvent) :
    eventsOf key (log ++ [(key, e)]) = eventsOf key log ++ [e] := by
  rw [eventsOf_append]
  simp [eventsOf]

theorem eventsOf_snoc_of_ne {key key' : FileKey} (h : key' ≠ key)
    (log : List (FileKey × FileEvent)) (e : FileEvent) :
    eventsOf key (log ++ [(key', e)]) = eventsOf key log := by
  rw [eventsOf_append]
  simp [eventsOf, h]

def FileEvent.IsUndo : FileEvent → Prop
  | restored _ | nothing | failed _ => True
  | modified _ _ | evicted => False

/-- Undos of a file by a job take back its modifications by this job, the last one first. -/
structure UndoLaw (events : List FileEvent) : Prop where
  /-- As many undos as there were modifications with kept snapshots take them all back. -/
  stack : ∀ front (befores : List (Option Content)) undos,
    events = front ++ befores.map (.modified · true) ++ undos →
    undos.length = befores.length → (∀ e ∈ undos, e.IsUndo) →
      undos = befores.reverse.map .restored
  /-- What is restored was there before the latest modification that is not undone. -/
  latest : ∀ front content back, events = front ++ .restored content :: back →
    (notUndone front).head? = some content
  /-- An undo that fails leaves the history as it was. -/
  failed : .failed false ∉ events

structure Lawful (events : List FileEvent) : Prop where
  latest : ∀ front content back, events = front ++ .restored content :: back →
    (notUndone front).head? = some content
  nothing : ∀ front back, events = front ++ .nothing :: back → secured front = 0
  failed : ∀ historyKept, .failed historyKept ∉ events

theorem Lawful.snoc {events : List FileEvent} {e : FileEvent} (h : Lawful events)
    (hlatest : ∀ content, e = .restored content → (notUndone events).head? = some content)
    (hnothing : e = .nothing → secured events = 0)
    (hfailed : ∀ historyKept, e ≠ .failed historyKept) : Lawful (events ++ [e]) where
  latest := by
    intro front content back heq
    rcases Foundation.snoc_eq_append_cons heq with ⟨back', hold⟩ | ⟨rfl, hnew⟩
    · exact h.latest front content back' hold
    · exact hlatest content hnew.symm
  nothing := by
    intro front back heq
    rcases Foundation.snoc_eq_append_cons heq with ⟨back', hold⟩ | ⟨rfl, hnew⟩
    · exact h.nothing front back' hold
    · exact hnothing hnew.symm
  failed := by
    intro historyKept hmem
    rcases mem_append.mp hmem with hmem | hmem
    · exact h.failed historyKept hmem
    · exact hfailed historyKept (mem_singleton.mp hmem).symm

theorem notUndone_modified (front : List FileEvent) (befores : List (Option Content)) :
    notUndone (front ++ befores.map (.modified · true)) = befores.reverse ++ notUndone front := by
  induction befores generalizing front with
  | nil => simp
  | cons before befores ih =>
    rw [map_cons, append_cons, ih, notUndone_snoc, List.reverse_cons,
      append_assoc]
    rfl

theorem length_le_secured (front : List FileEvent) (befores : List (Option Content)) :
    secured (front ++ befores.map (.modified · true)) = secured front + befores.length := by
  induction befores generalizing front with
  | nil => simp
  | cons before befores ih =>
    rw [map_cons, append_cons, ih, secured_snoc, length_cons]
    show secured front + 1 + _ = _
    omega

theorem Lawful.undos_eq {events undos : List FileEvent} (front : List FileEvent) (h : Lawful events)
    (heq : events = front ++ undos) (hsecured : undos.length ≤ secured front)
    (hundo : ∀ e ∈ undos, e.IsUndo) :
    undos = ((notUndone front).take undos.length).map .restored := by
  induction undos generalizing front with
  | nil => simp
  | cons e undos ih =>
    have hrest := ih (front ++ [e]) (by rw [heq, append_cons])
    rw [List.forall_mem_cons] at hundo
    cases e with
    | restored content =>
      have htop := h.latest front content undos heq
      obtain ⟨rest, hstack⟩ : ∃ rest, notUndone front = content :: rest := by
        cases hs : notUndone front with
        | nil =>
          rw [hs] at htop
          cases htop
        | cons top rest =>
          rw [hs] at htop
          cases htop
          exact ⟨rest, rfl⟩
      rw [secured_snoc, notUndone_snoc, hstack] at hrest
      rw [hstack, length_cons, List.take_succ_cons, map_cons]
      congr 1
      refine hrest ?_ hundo.2
      show undos.length ≤ secured front - 1
      rw [length_cons] at hsecured
      omega
    | nothing =>
      have hzero := h.nothing front undos heq
      rw [length_cons] at hsecured
      omega
    | failed historyKept => exact absurd (heq ▸ by simp) (h.failed historyKept)
    | modified before kept => exact hundo.1.elim
    | evicted => exact hundo.1.elim

theorem undoLaw_of_lawful {events : List FileEvent} (h : Lawful events) : UndoLaw events where
  stack := by
    intro front befores undos heq hlength hundo
    have hundos := Lawful.undos_eq _ h heq (by rw [length_le_secured, hlength]; omega) hundo
    rw [notUndone_modified, hlength, ← List.length_reverse, List.take_left] at hundos
    exact hundos
  latest := h.latest
  failed := h.failed false

def pendingSnapshots (tasks : List EditTask) : List FileSnapshot :=
  tasks.filterMap fun
    | .modifying _ _ recorded => recorded
    | .snapshotting _ _ _ => none

section Conditions

variable (r : Resolution)

/-- The file is modified exactly if a snapshot was taken, as it is there and in later ones of ended
edits. -/
def EditTask.Careful (answers : EditAnswers) (host : FileHost) (others : List EditTask) :
    EditTask → Prop
  | snapshotting _ _ _ => True
  | modifying jobId path recorded =>
    (answers.outcome.Modifies (host.files.lookup (r.target path)) ↔ recorded.isSome) ∧
    ∀ s, recorded = some s →
      s.path = r.target path ∧ s.contentBefore = host.files.lookup (r.target path) ∧
      ∀ s' ∈ host.history.snapshots, FileHistory.IsOf jobId (r.target path) s' →
        s.sequenceNumber < s'.sequenceNumber → s' ∉ pendingSnapshots others →
          s'.contentBefore = s.contentBefore

/-- An undo looks under the canonical path; a snapshot found can be written back, and its edit has
ended. -/
def Careful (p : Pool FileHost EditTask) : FileAction → Prop
  | .edit _ _ _ => True
  | .step i answers => ∀ t, p.tasks[i]? = some t → t.Careful r answers p.shared (p.others i)
  | .undo jobId path answers =>
    r.canonical answers.found path = r.target path ∧
    ∀ found, removeLast? (FileHistory.IsOf jobId (r.target path)) p.shared.history.snapshots =
      some found → answers.succeeds ∧ found.1 ∉ pendingSnapshots p.tasks

instance (answers : EditAnswers) (host : FileHost) (others : List EditTask) (t : EditTask) :
    Decidable (t.Careful r answers host others) :=
  match t with
  | .snapshotting _ _ _ => .isTrue trivial
  | .modifying jobId path recorded => inferInstanceAs (Decidable
      ((answers.outcome.Modifies (host.files.lookup (r.target path)) ↔ recorded.isSome) ∧
      ∀ s ∈ recorded,
        s.path = r.target path ∧ s.contentBefore = host.files.lookup (r.target path) ∧
        ∀ s' ∈ host.history.snapshots, FileHistory.IsOf jobId (r.target path) s' →
          s.sequenceNumber < s'.sequenceNumber → s' ∉ pendingSnapshots others →
            s'.contentBefore = s.contentBefore))

instance (p : Pool FileHost EditTask) (action : FileAction) : Decidable (Careful r p action) :=
  match action with
  | .edit _ _ _ => .isTrue trivial
  | .step i answers => inferInstanceAs (Decidable
      (∀ t ∈ p.tasks[i]?, t.Careful r answers p.shared (p.others i)))
  | .undo jobId path answers => inferInstanceAs (Decidable
      (r.canonical answers.found path = r.target path ∧
      ∀ found ∈ removeLast? (FileHistory.IsOf jobId (r.target path)) p.shared.history.snapshots,
        answers.succeeds ∧ found.1 ∉ pendingSnapshots p.tasks))

end Conditions

/-- The snapshot is one of the file, by the job, and its edit is through. -/
def isDone (pending : List FileSnapshot) (key : FileKey) (s : FileSnapshot) : Bool :=
  FileHistory.IsOf key.1 key.2 s && s ∉ pending

/-- The snapshots taken for modifications of a file by a job, the latest first. -/
def contents (pending snapshots : List FileSnapshot) (key : FileKey) : List (Option Content) :=
  ((snapshots.filter (isDone pending key)).map FileSnapshot.contentBefore).reverse

theorem contents_append (pending snapshots more : List FileSnapshot) (key : FileKey) :
    contents pending (snapshots ++ more) key =
      contents pending more key ++ contents pending snapshots key := by
  simp [contents]

variable {key : FileKey}

theorem contents_eq_nil {pending snapshots : List FileSnapshot}
    (h : ∀ s ∈ snapshots, ¬ FileHistory.IsOf key.1 key.2 s) :
    contents pending snapshots key = [] := by
  have hnone : snapshots.filter (isDone pending key) = [] := by
    rw [List.filter_eq_nil_iff]
    intro s hs hdone
    exact h s hs (Bool.and_eq_true_iff.mp hdone).1
  rw [contents, hnone]
  rfl

theorem contents_congr {pending pending' snapshots : List FileSnapshot}
    (h : ∀ s ∈ snapshots, FileHistory.IsOf key.1 key.2 s → (s ∈ pending ↔ s ∈ pending')) :
    contents pending snapshots key = contents pending' snapshots key := by
  have hfilter :
      snapshots.filter (isDone pending key) = snapshots.filter (isDone pending' key) := by
    refine List.filter_congr fun s hs => ?_
    by_cases hof : FileHistory.IsOf key.1 key.2 s
    · simp only [isDone, hof, h s hs hof]
    · simp only [isDone, hof, Bool.false_and]
  rw [contents, contents, hfilter]

theorem contents_singleton {pending : List FileSnapshot} {s : FileSnapshot}
    (hof : FileHistory.IsOf key.1 key.2 s) (hs : s ∉ pending) :
    contents pending [s] key = [s.contentBefore] := by
  simp [contents, isDone, hof, hs]

theorem contents_eq_replicate {pending snapshots : List FileSnapshot} {content : Option Content}
    (h : ∀ s ∈ snapshots, FileHistory.IsOf key.1 key.2 s →
      s ∉ pending → s.contentBefore = content) : contents pending snapshots key =
      List.replicate (contents pending snapshots key).length content := by
  refine List.eq_replicate_iff.mpr ⟨rfl, fun c hc => ?_⟩
  simp only [contents, List.mem_reverse, List.mem_map, List.mem_filter, isDone,
    Bool.and_eq_true, decide_eq_true_eq] at hc
  obtain ⟨s, ⟨hs, hof, hpending⟩, rfl⟩ := hc
  exact h s hs hof hpending

theorem replicate_append_cons {α : Type} (n : Nat) (a : α) (rest : List α) :
    List.replicate n a ++ a :: rest = a :: (List.replicate n a ++ rest) := by
  rw [append_cons, ← List.replicate_succ', List.replicate_succ, List.cons_append]

theorem replicate_prefix_cons {α : Type} {n : Nat} {a : α} {rest : List α}
    (h : List.replicate n a <+: rest) : List.replicate n a <+: a :: rest := by
  cases n with
  | zero => exact List.nil_prefix
  | succ n =>
    rw [List.replicate_succ]
    refine List.cons_prefix_cons.mpr ⟨rfl, List.IsPrefix.trans ?_ h⟩
    rw [List.replicate_succ']
    exact prefix_append _ _

/-- Snapshots are numbered in order, and those evicted came before all that are left. -/
structure Numbered (p : Pool FileHost EditTask) : Prop where
  sorted : p.shared.history.snapshots.Pairwise (·.sequenceNumber < ·.sequenceNumber)
  fresh : ∀ s ∈ p.shared.history.snapshots, s.sequenceNumber < p.shared.history.nextSequence
  freshPending : ∀ s ∈ pendingSnapshots p.tasks,
    s.sequenceNumber < p.shared.history.nextSequence
  distinct : (pendingSnapshots p.tasks).Nodup
  evicted : ∀ s ∈ pendingSnapshots p.tasks, s ∉ p.shared.history.snapshots →
    ∀ s' ∈ p.shared.history.snapshots, s.sequenceNumber < s'.sequenceNumber
  own : ∀ jobId path s, .modifying jobId path (some s) ∈ p.tasks → s.jobId = jobId

/-- The history has the upper part of each stack, as much of it as is secured. -/
structure Tracked (p : Pool FileHost EditTask) : Prop where
  numbered : Numbered p
  lawful : ∀ key, Lawful (eventsOf key p.shared.log)
  top : ∀ key, contents (pendingSnapshots p.tasks) p.shared.history.snapshots key <+:
    notUndone (eventsOf key p.shared.log)
  secured : ∀ key, secured (eventsOf key p.shared.log) ≤
    (contents (pendingSnapshots p.tasks) p.shared.history.snapshots key).length

section Steps

variable {r : Resolution} {host : FileHost} {front back : List EditTask} {jobId : Uuid}
  {path : Path} {toolName : String} {s : FileSnapshot}

theorem pendingSnapshots_append (tasks more : List EditTask) :
    pendingSnapshots (tasks ++ more) = pendingSnapshots tasks ++ pendingSnapshots more :=
  List.filterMap_append

theorem pendingSnapshots_cons (t : EditTask) (tasks : List EditTask) :
    pendingSnapshots (t :: tasks) = pendingSnapshots [t] ++ pendingSnapshots tasks :=
  pendingSnapshots_append [t] tasks

variable {p : Pool FileHost EditTask} {files : Files}

theorem Tracked.of_tasks (h : Tracked p) {tasks : List EditTask}
    (hpending : pendingSnapshots tasks = pendingSnapshots p.tasks)
    (hown : ∀ jobId path s, .modifying jobId path (some s) ∈ tasks →
      .modifying jobId path (some s) ∈ p.tasks) :
    Tracked ⟨{ p.shared with files }, tasks⟩ := by
  obtain ⟨⟨sorted, fresh, freshPending, distinct, evicted, own⟩, lawful, top, secured⟩ := h
  rw [← hpending] at freshPending distinct evicted top secured
  exact ⟨⟨sorted, fresh, freshPending, distinct, evicted,
    fun jobId path s hmem => own jobId path s (hown jobId path s hmem)⟩, lawful, top, secured⟩

theorem Lawful.evicted {events : List FileEvent} (h : Lawful events) (n : Nat) :
    Lawful (events ++ List.replicate n .evicted) ∧
      notUndone (events ++ List.replicate n .evicted) = notUndone events ∧
      Files.secured (events ++ List.replicate n .evicted) = Files.secured events - n := by
  induction n with
  | zero => simpa using h
  | succ n ih =>
    obtain ⟨hlawful, hstack, hsecured⟩ := ih
    rw [List.replicate_succ', ← append_assoc, notUndone_snoc, secured_snoc, hsecured]
    exact ⟨hlawful.snoc nofun nofun
      nofun, hstack, Nat.sub_sub _ _ _⟩

theorem eventsOf_drivenOut (out : List FileSnapshot) (key : FileKey) :
    eventsOf key (out.map fun s => ((s.jobId, s.path), .evicted)) =
      List.replicate (out.countP (FileHistory.IsOf key.1 key.2)) .evicted := by
  induction out with
  | nil => rfl
  | cons s out ih =>
    simp only [eventsOf] at ih
    have hiff : ((s.jobId, s.path) = key) ↔ FileHistory.IsOf key.1 key.2 s = true := by
      simp [FileHistory.IsOf, Prod.ext_iff]
    by_cases hof : (s.jobId, s.path) = key
    · simp [eventsOf, hof, ih, hiff.mp hof, List.replicate_succ]
    · simp [eventsOf, hof, ih, mt hiff.mpr hof]

theorem length_contents_le (pending snapshots : List FileSnapshot) (key : FileKey) :
    (contents pending snapshots key).length ≤ snapshots.countP (FileHistory.IsOf key.1 key.2) := by
  rw [contents, List.length_reverse, List.length_map, ← List.countP_eq_length_filter]
  exact List.countP_mono_left fun s _ hs => (Bool.and_eq_true_iff.mp hs).1

theorem tracked_snapshot
    (h : Tracked ⟨host, front ++ .snapshotting jobId path toolName :: back⟩)
    (hjob : s.jobId = jobId) (hnumber : s.sequenceNumber = host.history.nextSequence) :
    Tracked ⟨{ host with
      history := host.history.push s
      log := host.log ++ (host.history.drivenOut s).map fun s' => ((s'.jobId, s'.path), .evicted) },
      front ++ [.modifying jobId path (some s)] ++ back⟩ := by
  obtain ⟨⟨sorted, fresh, freshPending, distinct, evicted, own⟩, lawful, top, secured⟩ := h
  dsimp only at *
  have hold : pendingSnapshots (front ++ .snapshotting jobId path toolName :: back) =
      pendingSnapshots front ++ pendingSnapshots back := by
    rw [pendingSnapshots_append, pendingSnapshots_cons]
    rfl
  have hnew : pendingSnapshots (front ++ [.modifying jobId path (some s)] ++ back) =
      pendingSnapshots front ++ s :: pendingSnapshots back := by
    rw [pendingSnapshots_append, pendingSnapshots_append, append_assoc]
    rfl
  rw [hold] at freshPending distinct evicted top secured
  have hmem : ∀ u, u ∈ pendingSnapshots front ++ s :: pendingSnapshots back ↔
      u = s ∨ u ∈ pendingSnapshots front ++ pendingSnapshots back :=
    fun u => perm_middle.mem_iff.trans mem_cons
  -- the history with the new snapshot falls into what is driven out and what stays
  generalize hout : host.history.drivenOut s = out
  have hpush : (host.history.push s).snapshots =
      (host.history.snapshots ++ [s]).drop
        ((host.history.snapshots ++ [s]).length - host.history.maxSnapshots) :=
    popFrontWhileOver_eq_drop _ _
  generalize hkept : (host.history.push s).snapshots = kept at hpush
  have hsplit : host.history.snapshots ++ [s] = out ++ kept := by
    rw [← hout, hpush]
    exact (List.take_append_drop _ _).symm
  have hsorted : (out ++ kept).Pairwise (·.sequenceNumber < ·.sequenceNumber) := by
    rw [← hsplit, pairwise_append]
    refine ⟨sorted, List.pairwise_singleton _ _, fun u hu v hv => ?_⟩
    rw [mem_singleton.mp hv, hnumber]
    exact fresh u hu
  have hmemKept : ∀ u, u ∈ out ++ kept ↔ u ∈ host.history.snapshots ∨ u = s := by
    intro u
    rw [← hsplit, mem_append, mem_singleton]
  have hkeptNumber : ∀ u ∈ kept, u.sequenceNumber ≤ host.history.nextSequence := by
    intro u hu
    rcases (hmemKept u).mp (mem_append_right _ hu) with hu | rfl
    · exact Nat.le_of_lt (fresh u hu)
    · exact Nat.le_of_eq hnumber
  have hcontents : ∀ key,
      contents (pendingSnapshots front ++ s :: pendingSnapshots back) kept key ++
      contents (pendingSnapshots front ++ s :: pendingSnapshots back) out key =
        contents (pendingSnapshots front ++ pendingSnapshots back) host.history.snapshots key := by
    intro key
    rw [← contents_append, ← hsplit, contents_append]
    have hnone : contents (pendingSnapshots front ++ s :: pendingSnapshots back) [s] key = [] := by
      simp [contents, isDone]
    rw [hnone, nil_append]
    refine contents_congr fun u hu _ => ?_
    rw [hmem u, or_iff_right]
    rintro rfl
    exact absurd (fresh u hu) (by omega)
  have hevents : ∀ key,
      eventsOf key (host.log ++ out.map fun s' => ((s'.jobId, s'.path), .evicted)) =
        eventsOf key host.log ++
          List.replicate (out.countP (FileHistory.IsOf key.1 key.2)) .evicted := by
    intro key
    rw [eventsOf_append, eventsOf_drivenOut]
  refine ⟨⟨?_, ?_, ?_, ?_, ?_, ?_⟩, fun key => ?_, fun key => ?_, fun key => ?_⟩ <;>
    simp only [hkept, hnew, hevents]
  · exact (pairwise_append.mp hsorted).2.1
  · exact fun u hu => Nat.lt_succ_of_le (hkeptNumber u hu)
  · intro u hu
    rcases (hmem u).mp hu with rfl | hu
    · exact Nat.lt_succ_of_le (Nat.le_of_eq hnumber)
    · exact Nat.lt_succ_of_lt (freshPending u hu)
  · have hs : s ∉ pendingSnapshots front ++ pendingSnapshots back := fun hs =>
      absurd (freshPending s hs) (by omega)
    refine List.nodup_middle.mpr (List.nodup_cons.mpr ⟨hs, distinct⟩)
  · intro u hu hgone v hv
    rcases (hmem u).mp hu with rfl | hearlier
    · -- the new snapshot is the last to be driven out
      have hout : u ∈ out := by
        rcases mem_append.mp ((hmemKept u).mpr (.inr rfl)) with hmem | hmem
        · exact hmem
        · exact absurd hmem hgone
      exact (pairwise_append.mp hsorted).2.2 u hout v hv
    · by_cases hin : u ∈ host.history.snapshots
      · have hout : u ∈ out := by
          rcases mem_append.mp ((hmemKept u).mpr (.inl hin)) with hmem | hmem
          · exact hmem
          · exact absurd hmem hgone
        exact (pairwise_append.mp hsorted).2.2 u hout v hv
      · rcases (hmemKept v).mp (mem_append_right _ hv) with hv | rfl
        · exact evicted u hearlier hin v hv
        · rw [hnumber]
          exact freshPending u hearlier
  · intro jobId' path' u hu
    simp only [mem_append, mem_singleton, EditTask.modifying.injEq,
      Option.some.injEq] at hu
    rcases hu with (hu | ⟨rfl, -, rfl⟩) | hu
    · exact own jobId' path' u (List.mem_append_left _ hu)
    · exact hjob
    · exact own jobId' path' u (mem_append_right _ (List.mem_cons_of_mem _ hu))
  · exact ((lawful key).evicted _).1
  · rw [((lawful key).evicted _).2.1]
    refine List.IsPrefix.trans ?_ (top key)
    rw [← hcontents key]
    exact prefix_append _ _
  · rw [((lawful key).evicted _).2.2]
    have hle := secured key
    have hlost := length_contents_le (pendingSnapshots front ++ s :: pendingSnapshots back) out key
    rw [← hcontents key, List.length_append] at hle
    omega

variable {target : Path}

theorem tracked_modified (h : Tracked ⟨host, front ++ .modifying jobId path (some s) :: back⟩)
    (hpath : s.path = target)
    (hlater : ∀ s' ∈ host.history.snapshots, FileHistory.IsOf jobId target s' →
      s.sequenceNumber < s'.sequenceNumber → s' ∉ pendingSnapshots (front ++ back) →
        s'.contentBefore = s.contentBefore) :
    Tracked ⟨{ host with files }.note (jobId, target)
      (.modified s.contentBefore (s ∈ host.history.snapshots)), front ++ back⟩ := by
  obtain ⟨⟨sorted, fresh, freshPending, distinct, evicted, own⟩, lawful, top, secured⟩ := h
  dsimp only at *
  have hof : FileHistory.IsOf jobId target s := by
    have hjob : s.jobId = jobId := own jobId path s (by simp)
    simp [FileHistory.IsOf, hjob, hpath]
  have hold : pendingSnapshots (front ++ .modifying jobId path (some s) :: back) =
      pendingSnapshots front ++ s :: pendingSnapshots back := by
    rw [pendingSnapshots_append, pendingSnapshots_cons]
    rfl
  rw [hold] at freshPending distinct evicted top secured
  rw [pendingSnapshots_append] at hlater
  obtain ⟨hs, hdistinct⟩ := List.nodup_cons.mp (List.nodup_middle.mp distinct)
  have hmem : ∀ u, u ∈ pendingSnapshots front ++ s :: pendingSnapshots back ↔
      u = s ∨ u ∈ pendingSnapshots front ++ pendingSnapshots back :=
    fun u => perm_middle.mem_iff.trans mem_cons
  -- the edit is through; for snapshots other than its own nothing changes
  have hothers : ∀ snapshots key, s ∉ snapshots →
      contents (pendingSnapshots front ++ s :: pendingSnapshots back) snapshots key =
        contents (pendingSnapshots front ++ pendingSnapshots back) snapshots key := by
    intro snapshots key hnot
    refine contents_congr fun u hu _ => ?_
    rw [hmem u, or_iff_right]
    rintro rfl
    exact hnot hu
  have hlaterSame : ∀ snapshots, (∀ u ∈ snapshots, u ∈ host.history.snapshots ∧
      s.sequenceNumber < u.sequenceNumber) →
        contents (pendingSnapshots front ++ pendingSnapshots back) snapshots (jobId, target) =
          List.replicate (contents (pendingSnapshots front ++ pendingSnapshots back) snapshots
            (jobId, target)).length s.contentBefore := by
    intro snapshots hin
    refine contents_eq_replicate fun u hu hof hpending => ?_
    exact hlater u (hin u hu).1 hof (hin u hu).2 hpending
  have hgain : s ∈ host.history.snapshots →
      contents (pendingSnapshots front ++ pendingSnapshots back) host.history.snapshots
          (jobId, target) =
        s.contentBefore :: contents (pendingSnapshots front ++ s :: pendingSnapshots back)
          host.history.snapshots (jobId, target) := by
    intro hin
    obtain ⟨earlier, later, hsplit⟩ := List.append_of_mem hin
    rw [hsplit] at sorted
    obtain ⟨-, hsorted, hbefore⟩ := pairwise_append.mp sorted
    have hafter := (List.pairwise_cons.mp hsorted).1
    have hearlier : s ∉ earlier := fun hmem =>
      absurd (hbefore s hmem s List.mem_cons_self) (Nat.lt_irrefl _)
    have hlast : s ∉ later := fun hmem => absurd (hafter s hmem) (Nat.lt_irrefl _)
    have hreplicate := hlaterSame later fun u hu => by
      rw [hsplit]
      exact ⟨mem_append_right _ (List.mem_cons_of_mem _ hu), hafter u hu⟩
    have hpendingOwn : contents (pendingSnapshots front ++ s :: pendingSnapshots back) [s]
        (jobId, target) = [] := by
      simp [contents, isDone]
    rw [hsplit, append_cons, contents_append, contents_append, contents_append,
      contents_append, contents_singleton hof hs, hpendingOwn, hothers earlier _ hearlier,
      hothers later _ hlast, hreplicate, nil_append, List.singleton_append]
    exact replicate_append_cons _ _ _
  have hotherKeys : ∀ key, (jobId, target) ≠ key →
      contents (pendingSnapshots front ++ pendingSnapshots back) host.history.snapshots key =
        contents (pendingSnapshots front ++ s :: pendingSnapshots back)
          host.history.snapshots key := by
    intro key hne
    refine contents_congr fun u _ hofKey => ?_
    rw [hmem u, or_iff_right]
    rintro rfl
    simp only [FileHistory.IsOf, Bool.and_eq_true, decide_eq_true_eq] at hof hofKey
    exact hne (Prod.ext (hof.1.symm.trans hofKey.1) (hof.2.symm.trans hofKey.2))
  refine ⟨⟨sorted, fresh, ?_, ?_, ?_, ?_⟩, fun key => ?_, fun key => ?_, fun key => ?_⟩
  · rw [pendingSnapshots_append]
    exact fun u hu => freshPending u ((hmem u).mpr (.inr hu))
  · rw [pendingSnapshots_append]
    exact hdistinct
  · rw [pendingSnapshots_append]
    exact fun u hu => evicted u ((hmem u).mpr (.inr hu))
  · intro jobId' path' u hu
    exact own jobId' path' u (perm_middle.mem_iff.mpr (List.mem_cons_of_mem _ hu))
  all_goals
    simp only [FileHost.note, pendingSnapshots_append]
    rcases eq_or_ne (jobId, target) key with rfl | hne
  · rw [eventsOf_snoc_self]
    exact (lawful _).snoc nofun nofun
      nofun
  · rw [eventsOf_snoc_of_ne hne]
    exact lawful key
  · rw [eventsOf_snoc_self, notUndone_snoc]
    by_cases hin : s ∈ host.history.snapshots
    · rw [hgain hin]
      exact List.cons_prefix_cons.mpr ⟨rfl, top _⟩
    · have hprefix := top (jobId, target)
      have hreplicate := hlaterSame host.history.snapshots fun u hu =>
        ⟨hu, evicted s ((hmem s).mpr (.inl rfl)) hin u hu⟩
      rw [hothers _ _ hin] at hprefix
      rw [hreplicate] at hprefix ⊢
      exact replicate_prefix_cons hprefix
  · rw [eventsOf_snoc_of_ne hne, hotherKeys key hne]
    exact top key
  · rw [eventsOf_snoc_self, secured_snoc]
    have hle := secured (jobId, target)
    by_cases hin : s ∈ host.history.snapshots
    · rw [hgain hin, length_cons]
      simp only [hin, decide_true, countEvent]
      omega
    · rw [hothers _ _ hin] at hle
      simpa only [hin, decide_false, countEvent] using hle
  · rw [eventsOf_snoc_of_ne hne, hotherKeys key hne]
    exact secured key

theorem tracked_restored {rest : List FileSnapshot} (h : Tracked p)
    (hfound : removeLast? (FileHistory.IsOf jobId target) p.shared.history.snapshots =
      some (s, rest)) (hs : s ∉ pendingSnapshots p.tasks) :
    Tracked ⟨{ p.shared with
      files, history := { p.shared.history with snapshots := rest } }.note (jobId, target)
        (.restored s.contentBefore), p.tasks⟩ := by
  obtain ⟨⟨sorted, fresh, freshPending, distinct, evicted, own⟩, lawful, top, secured⟩ := h
  obtain ⟨earlier, later, hsplit, hof, hlater, rfl⟩ := removeLast?_eq_some_iff.mp hfound
  have hsub : (earlier ++ later).Sublist p.shared.history.snapshots := by
    rw [hsplit]
    exact List.Sublist.append_left (List.sublist_cons_self _ _) _
  -- for the file, the snapshot is on top of the earlier ones
  have hown : contents (pendingSnapshots p.tasks) p.shared.history.snapshots (jobId, target) =
      s.contentBefore :: contents (pendingSnapshots p.tasks) earlier (jobId, target) := by
    rw [hsplit, append_cons, contents_append, contents_append,
      contents_eq_nil hlater, contents_singleton hof hs]
    rfl
  have hrest : contents (pendingSnapshots p.tasks) (earlier ++ later) (jobId, target) =
      contents (pendingSnapshots p.tasks) earlier (jobId, target) := by
    rw [contents_append, contents_eq_nil hlater, nil_append]
  have hotherKeys : ∀ key, (jobId, target) ≠ key →
      contents (pendingSnapshots p.tasks) (earlier ++ later) key =
        contents (pendingSnapshots p.tasks) p.shared.history.snapshots key := by
    intro key hne
    have hnone : contents (pendingSnapshots p.tasks) [s] key = [] := by
      refine contents_eq_nil fun u hu hofKey => ?_
      rw [mem_singleton.mp hu] at hofKey
      simp only [FileHistory.IsOf, Bool.and_eq_true, decide_eq_true_eq] at hof hofKey
      exact hne (Prod.ext (hof.1.symm.trans hofKey.1) (hof.2.symm.trans hofKey.2))
    rw [hsplit, append_cons, contents_append, contents_append, contents_append, hnone,
      nil_append]
  obtain ⟨tail, hstack⟩ : ∃ tail, notUndone (eventsOf (jobId, target) p.shared.log) =
      s.contentBefore :: tail ∧
        contents (pendingSnapshots p.tasks) earlier (jobId, target) <+: tail := by
    have hprefix := top (jobId, target)
    rw [hown] at hprefix
    obtain ⟨more, hmore⟩ := hprefix
    exact ⟨_, hmore.symm, prefix_append _ _⟩
  refine ⟨⟨sorted.sublist hsub, fun u hu => fresh u (hsub.subset hu), freshPending, distinct,
    fun u hu hgone v hv => ?_, own⟩, fun key => ?_, fun key => ?_, fun key => ?_⟩
  · refine evicted u hu (fun hin => ?_) v (hsub.subset hv)
    rw [hsplit, mem_append, mem_cons] at hin
    rcases hin with hin | rfl | hin
    · exact hgone (List.mem_append_left _ hin)
    · exact hs hu
    · exact hgone (mem_append_right _ hin)
  all_goals
    simp only [FileHost.note]
    rcases eq_or_ne (jobId, target) key with rfl | hne
  · rw [eventsOf_snoc_self]
    refine (lawful _).snoc (fun content heq => ?_) nofun
      nofun
    cases heq
    rw [hstack.1]
    rfl
  · rw [eventsOf_snoc_of_ne hne]
    exact lawful key
  · rw [eventsOf_snoc_self, notUndone_snoc, hrest, hstack.1]
    exact hstack.2
  · rw [eventsOf_snoc_of_ne hne, hotherKeys key hne]
    exact top key
  · rw [eventsOf_snoc_self, secured_snoc, hrest]
    have hle := secured (jobId, target)
    rw [hown, length_cons] at hle
    exact Nat.sub_le_of_le_add hle
  · rw [eventsOf_snoc_of_ne hne, hotherKeys key hne]
    exact secured key

theorem tracked_nothing (h : Tracked p)
    (hnone : removeLast? (FileHistory.IsOf jobId target) p.shared.history.snapshots = none) :
    Tracked ⟨p.shared.note (jobId, target) .nothing, p.tasks⟩ := by
  have hempty : contents (pendingSnapshots p.tasks) p.shared.history.snapshots (jobId, target) =
      [] := contents_eq_nil (removeLast?_eq_none_iff.mp hnone)
  have hzero : Files.secured (eventsOf (jobId, target) p.shared.log) = 0 := by
    have hle := h.secured (jobId, target)
    rw [hempty] at hle
    exact Nat.le_zero.mp hle
  refine ⟨⟨h.numbered.sorted, h.numbered.fresh, h.numbered.freshPending, h.numbered.distinct,
    h.numbered.evicted, h.numbered.own⟩, fun key => ?_, fun key => ?_, fun key => ?_⟩ <;>
    simp only [FileHost.note] <;> rcases eq_or_ne (jobId, target) key with rfl | hne
  · rw [eventsOf_snoc_self]
    exact (h.lawful _).snoc nofun (fun _ => hzero) nofun
  · rw [eventsOf_snoc_of_ne hne]
    exact h.lawful key
  · rw [eventsOf_snoc_self, notUndone_snoc]
    exact h.top _
  · rw [eventsOf_snoc_of_ne hne]
    exact h.top key
  · rw [eventsOf_snoc_self, secured_snoc]
    exact h.secured _
  · rw [eventsOf_snoc_of_ne hne]
    exact h.secured key

theorem snapshot_eq_ok_some {answers : SnapshotAnswers}
    (h : host.history.snapshot r answers host.files jobId path toolName = .ok (some s)) :
    s.jobId = jobId ∧ s.sequenceNumber = host.history.nextSequence := by
  simp only [FileHistory.snapshot] at h
  split_ifs at h
  all_goals cases h
  exact ⟨rfl, rfl⟩

theorem tracked_of_fileStep {p p' : Pool FileHost EditTask} {action : FileAction} (h : Tracked p)
    (hcareful : Careful r p action) (hs : fileStep r p action = some p') : Tracked p' := by
  cases action with
  | edit jobId path toolName =>
    cases hs
    refine h.of_tasks ?_ fun jobId' path' s hmem => ?_
    · rw [pendingSnapshots_append]
      exact List.append_nil _
    · rcases mem_append.mp hmem with hmem | hmem
      · exact hmem
      · exact nomatch mem_singleton.mp hmem
  | step i answers =>
    obtain ⟨front, t, back, host', ts, htasks, hi, hnext, rfl⟩ := Pool.advance_eq_some_iff.mp hs
    have hown : t.Careful r answers p.shared (front ++ back) := by
      rw [← Pool.others_eq htasks hi]
      exact hcareful t (by simp [htasks, ← hi])
    obtain ⟨host, tasks⟩ := p
    subst htasks
    -- a step that records nothing keeps what is pending
    have hskip : ∀ (t' : List EditTask) files, pendingSnapshots [t] = pendingSnapshots t' →
        (∀ jobId path s, .modifying jobId path (some s) ∉ t') →
          Tracked ⟨{ host with files }, front ++ t' ++ back⟩ := by
      intro t' files hsame hnone
      refine h.of_tasks ?_ fun jobId' path' s hmem => ?_
      · simp only [pendingSnapshots_append]
        rw [pendingSnapshots_cons t back, hsame, append_assoc]
      · simp only [mem_append, mem_cons] at hmem ⊢
        rcases hmem with (hmem | hmem) | hmem
        · exact .inl hmem
        · exact absurd hmem (hnone _ _ _)
        · exact .inr (.inr hmem)
    cases t with
    | snapshotting jobId path toolName =>
      simp only [EditTask.next] at hnext
      split at hnext
      · rename_i s hsnapshot
        cases hnext
        obtain ⟨hjob, hnumber⟩ := snapshot_eq_ok_some hsnapshot
        exact tracked_snapshot h hjob hnumber
      · cases hnext
        exact hskip [.modifying jobId path none] _ rfl (by simp)
      · cases hnext
        exact hskip [.modifying jobId path none] _ rfl (by simp)
    | modifying jobId path recorded =>
      simp only [EditTask.next] at hnext
      obtain ⟨hiff, hrecorded⟩ := hown
      cases recorded with
      | none =>
        have hnot : ¬ answers.outcome.Modifies (host.files.lookup (r.target path)) :=
          fun hmodifies => nomatch hiff.mp hmodifies
        rw [if_neg hnot] at hnext
        cases hnext
        exact hskip [] _ rfl (by simp)
      | some s =>
        obtain ⟨hpath, hbefore, hlater⟩ := hrecorded s rfl
        rw [if_pos (hiff.mpr rfl)] at hnext
        cases hnext
        rw [← hbefore, List.append_nil]
        exact tracked_modified h hpath hlater
  | undo jobId path answers =>
    obtain ⟨hcanonical, hfound⟩ := hcareful
    cases hs
    simp only [FileHost.undo, FileHistory.restoreLatest, hcanonical]
    cases hlast : removeLast? (FileHistory.IsOf jobId (r.target path))
        p.shared.history.snapshots with
    | none => exact tracked_nothing h hlast
    | some found =>
      obtain ⟨s, rest⟩ := found
      obtain ⟨hsucceeds, hdone⟩ := hfound (s, rest) hlast
      simp only [hsucceeds, if_true]
      exact tracked_restored h hlast hdone

end Steps

theorem tracked_start (files : Files) (maxSnapshots : Nat) :
    Tracked (FileHost.start files maxSnapshots) where
  numbered := ⟨List.Pairwise.nil, List.forall_mem_nil _, List.forall_mem_nil _, List.nodup_nil,
    List.forall_mem_nil _, fun _ _ _ hmem => absurd hmem List.not_mem_nil⟩
  lawful := fun _ => ⟨fun _ _ _ heq => by simp [eventsOf, FileHost.start] at heq,
    fun _ _ heq => by simp [eventsOf, FileHost.start] at heq, fun _ => List.not_mem_nil⟩
  top := fun _ => List.nil_prefix
  secured := fun _ => Nat.zero_le _

/-- **File undo is a stack.** In careful runs, undos take back modifications with snapshots, the
last first; a failed one leaves the history. -/
theorem undoLaw_of_careful {r : Resolution} {files : Files} {maxSnapshots : Nat}
    {actions : List FileAction} {p : Pool FileHost EditTask}
    (hrun : run (fileStep r) (FileHost.start files maxSnapshots) actions = some p)
    (hcareful : Along (fileStep r) (Careful r) (FileHost.start files maxSnapshots) actions)
    (key : FileKey) : UndoLaw (eventsOf key p.shared.log) := by
  have htracked : Tracked p :=
    run_invariant (fun _ _ _ => tracked_of_fileStep) (tracked_start files maxSnapshots)
      hcareful hrun
  exact undoLaw_of_lawful (htracked.lawful key)

def plain : Resolution := ⟨id, fun _ => rfl⟩

def answering (outcome : EditOutcome) : EditAnswers := ⟨⟨true, true, true, 0, 0⟩, outcome⟩

/-- A file is created and changed, and both is undone. -/
def twoEdits : List FileAction :=
  [.edit 1 "f" "write_file", .step 0 (answering (.done [1])), .step 0 (answering (.done [1])),
    .edit 1 "f" "apply_patch", .step 0 (answering (.done [2])), .step 0 (answering (.done [2])),
    .undo 1 "f" ⟨true, true, none⟩, .undo 1 "f" ⟨true, true, none⟩]

theorem undoLaw_of_twoEdits :
    ∃ p, run (fileStep plain) (FileHost.start ∅ defaultMaxSnapshots) twoEdits = some p ∧
      eventsOf (1, "f") p.shared.log = [.modified none true, .modified (some [1]) true,
        .restored (some [1]), .restored none] ∧ UndoLaw (eventsOf (1, "f") p.shared.log) := by
  obtain ⟨p, hrun, hevents⟩ : ∃ p,
      run (fileStep plain) (FileHost.start ∅ defaultMaxSnapshots) twoEdits = some p ∧
        eventsOf (1, "f") p.shared.log = [.modified none true, .modified (some [1]) true,
          .restored (some [1]), .restored none] := ⟨_, rfl, by decide⟩
  exact ⟨p, hrun, hevents, undoLaw_of_careful hrun (by decide) (1, "f")⟩

/-- A failed undo has lost its snapshot, and a failed modification leaves one to write back. -/
theorem lost_and_stale_snapshots :
    (∃ p, run (fileStep plain) (FileHost.start ∅ defaultMaxSnapshots)
        [.edit 1 "f" "write_file", .step 0 (answering (.done [1])),
          .step 0 (answering (.done [1])), .undo 1 "f" ⟨true, false, some [1]⟩] = some p ∧
      ¬ UndoLaw (eventsOf (1, "f") p.shared.log)) ∧
    ∃ p, run (fileStep plain) (FileHost.start ∅ defaultMaxSnapshots)
        [.edit 1 "f" "write_file", .step 0 (answering (.done [1])),
          .step 0 (answering (.done [1])), .edit 1 "f" "write_file",
          .step 0 (answering (.failed (some [1]))), .step 0 (answering (.failed (some [1]))),
          .undo 1 "f" ⟨true, true, none⟩] = some p ∧
      ¬ UndoLaw (eventsOf (1, "f") p.shared.log) := by
  refine ⟨⟨_, rfl, fun h => absurd h.failed (by decide)⟩, _, rfl, fun h => ?_⟩
  exact absurd (h.latest [.modified none true] (some [1]) [] rfl) (by decide)

end IronClaw.Files
