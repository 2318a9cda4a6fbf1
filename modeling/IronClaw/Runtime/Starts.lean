import IronClaw.Runtime.Manager

/-!
# Executions of a thread

Two calls that resume a thread can both find that it does not run. Where nobody acts between a
call's look at the table and its entry, a thread has one execution.
-/

namespace IronClaw.Runtime

open Foundation (HashMap Pool Along run run_invariant)
open Missions (ThreadId)
open List (mem_append mem_append_left mem_cons mem_singleton pairwise_cons)

def AtMostOne (tasks : List Task) : Prop :=
  ∀ id, (tasks.countP fun t => t.executes == some id) ≤ 1

/-- No thread starts after an execution of it that ended in a state that it cannot be resumed
from. -/
def NeverRestarted (history : List Occurrence) : Prop :=
  history.Pairwise fun a b =>
    ∀ id state, a = .finished id state → state.isResumable = false → b ≠ .started id

/-- Nobody else is about to act on what a step decides; a join takes out ended executions; new ids
are fresh. -/
def Orderly (p : Pool Runtime Task) : Action → Prop
  | .call _ => True
  | .step i input =>
    match p.tasks[i]?, input with
    | some (.resumeThread call), _ =>
      p.shared.isRunning call.id = false → ∀ u ∈ p.others i, u.prepares ≠ some call.id
    | some (.loadMetadata _ id _), _ =>
      p.shared.isRunning id = false ∧ ∀ u ∈ p.others i, u.prepares ≠ some id
    | some (.spawnThread _), .fresh id => ∀ u ∈ p.others i, u.prepares ≠ some id
    | some (.takeRunning id), _ => p.shared.isRunning id = false
    | _, _ => True

def Runtime.Closed (s : Runtime) (id : ThreadId) : Prop :=
  ∃ state, Occurrence.finished id state ∈ s.history ∧ state.isResumable = false

/-- Two tasks do not share a thread, unless one is the execution that the other one registers. -/
structure Compatible (t u : Task) : Prop where
  prepares : ∀ id, t.prepares = some id → u.prepares ≠ some id
  executes : ∀ id, t.executes = some id → u.executes ≠ some id
  number : ∀ e, t.number = some e → u.number ≠ some e
  left : ∀ id, t.prepares = some id → u.executes = some id →
    ∃ e, t.registering = some e ∧ u.number = some e
  right : ∀ id, u.prepares = some id → t.executes = some id →
    ∃ e, u.registering = some e ∧ t.number = some e

structure Consistent (s : Runtime) : Prop where
  closed : ∀ id, s.Closed id →
    ∃ thread, s.threads.loadThread id = some thread ∧ thread.state.isResumable = false
  history : NeverRestarted s.history

/-- A thread about to start or execute has not ended for good, its execution has a mailbox, and what
a task holds is stored. -/
def Sound (s : Runtime) : Task → Prop
  | .saveResumed _ thread => ¬ s.Closed thread.id
  | .startThread _ thread => ¬ s.Closed thread.id ∧ (s.threads.loadThread thread.id).isSome
  | .saveMetadata _ thread =>
    ∃ stored, s.threads.loadThread thread.id = some stored ∧ stored.state = thread.state
  | .execution x => ¬ s.Closed x.thread.id ∧ (s.threads.loadThread x.thread.id).isSome ∧
      s.isLive x.number = true ∧ x.number < s.nextExecution ∧
      (x.stage.isStored = true →
        ∃ stored, s.threads.loadThread x.thread.id = some stored ∧ stored.state = x.thread.state)
  | _ => True

def Reached (s : Runtime) (tasks : List Task) : Prop :=
  ∀ x, Task.execution x ∈ tasks → s.running.lookup x.thread.id = some x.number ∨
    ∃ origin, Task.register origin x.thread.id x.number ∈ tasks

structure Exclusive (p : Pool Runtime Task) : Prop where
  holds : Pool.Holds Consistent Sound Compatible p
  reached : Reached p.shared p.tasks

section Exclusive

variable {s s' : Runtime} {t t' u : Task} {ts : List Task} {front back : List Task}
  {p : Pool Runtime Task} {id : ThreadId} {thread : Thread} {history : List Occurrence}
  {o : Occurrence}

theorem Compatible.symm (t u : Task) (h : Compatible t u) : Compatible u t where
  prepares := fun id hu ht => h.prepares id ht hu
  executes := fun id hu ht => h.executes id ht hu
  number := fun e hu ht => h.number e ht hu
  left := h.right
  right := h.left

theorem compatible_of_none (hprepares : t.prepares = none) (hexecution : t.asExecution = none) :
    Compatible t u where
  prepares := fun id h => by simp [hprepares] at h
  executes := fun id h => by simp [Task.executes, hexecution] at h
  number := fun e h => by simp [Task.number, hexecution] at h
  left := fun id h => by simp [hprepares] at h
  right := fun id _ h => by simp [Task.executes, hexecution] at h

theorem Compatible.of_prepares (h : Compatible t u) (hexecution : t'.asExecution = none)
    (hprepares : t'.prepares = t.prepares) (hregistering : t.registering = none) :
    Compatible t' u where
  prepares := fun id ht' => h.prepares id (hprepares ▸ ht')
  executes := fun id h => by simp [Task.executes, hexecution] at h
  number := fun e h => by simp [Task.number, hexecution] at h
  left := fun id ht' hu => by
    obtain ⟨e, he, -⟩ := h.left id (hprepares ▸ ht') hu
    rw [hregistering] at he
    cases he
  right := fun id _ h => by simp [Task.executes, hexecution] at h

theorem Compatible.of_execution {x x' : Execution} (h : Compatible (.execution x) u)
    (hid : x'.thread.id = x.thread.id) (hnumber : x'.number = x.number) :
    Compatible (.execution x') u where
  prepares := fun id ht' => by cases ht'
  executes := fun id ht' => h.executes id (by rw [← ht']; exact congrArg some hid.symm)
  number := fun e ht' => h.number e (by rw [← ht']; exact congrArg some hnumber.symm)
  left := fun id ht' => by cases ht'
  right := fun id hu ht' => by
    obtain ⟨e, he, hx⟩ := h.right id hu (by rw [← ht']; exact congrArg some hid.symm)
    exact ⟨e, he, by rw [← hx]; exact congrArg some hnumber⟩

theorem Task.of_carries (h : t.carries = some thread) :
    t.registering = none ∧ (t.prepares = some thread.id ∨ t.executes = some thread.id) := by
  cases t <;> cases h
  · exact ⟨rfl, .inl rfl⟩
  · exact ⟨rfl, .inl rfl⟩
  · exact ⟨rfl, .inr rfl⟩
  · exact ⟨rfl, .inl rfl⟩

theorem Compatible.id_ne {thread' : Thread} (h : Compatible t u) (ht : t.carries = some thread)
    (hu : u.carries = some thread') : thread'.id ≠ thread.id := by
  intro hid
  obtain ⟨hnone, ht⟩ := Task.of_carries ht
  obtain ⟨hnone', hu⟩ := Task.of_carries hu
  rw [hid] at hu
  rcases ht with ht | ht <;> rcases hu with hu | hu
  · exact h.prepares _ ht hu
  · obtain ⟨e, he, -⟩ := h.left _ ht hu
    rw [hnone] at he
    cases he
  · obtain ⟨e, he, -⟩ := h.right _ hu ht
    rw [hnone'] at he
    cases he
  · exact h.executes _ ht hu

theorem closed_append_iff : (∃ state, Occurrence.finished id state ∈ history ++ [o] ∧
      state.isResumable = false) ↔
    (∃ state, Occurrence.finished id state ∈ history ∧ state.isResumable = false) ∨
      ∃ state, o = .finished id state ∧ state.isResumable = false := by
  simp only [mem_append, mem_singleton, or_and_right, exists_or, eq_comm]

theorem closed_iff_of_append (h : s'.history = s.history ++ [o])
    (ho : ∀ id state, o ≠ .finished id state) : s'.Closed id ↔ s.Closed id := by
  rw [Runtime.Closed, h, closed_append_iff]
  exact ⟨fun h => h.elim (fun h => h) fun ⟨state, hstate, _⟩ => absurd hstate (ho id state), .inl⟩

theorem closed_iff_of_eq (h : s'.history = s.history) : s'.Closed id ↔ s.Closed id := by
  rw [Runtime.Closed, Runtime.Closed, h]

theorem Quiet.closed_iff (h : Quiet s s') : s'.Closed id ↔ s.Closed id := by
  rcases h.history with heq | ⟨e, heq⟩
  · exact closed_iff_of_eq heq
  · exact closed_iff_of_append heq fun id state => by simp

theorem NeverRestarted.append (h : NeverRestarted history) (ho : ∀ id, o = .started id →
      ¬ ∃ state, Occurrence.finished id state ∈ history ∧ state.isResumable = false) :
    NeverRestarted (history ++ [o]) := by
  refine List.pairwise_append.mpr ⟨h, List.pairwise_singleton _ _, ?_⟩
  rintro a ha b hb id state rfl hstate
  rw [mem_singleton.mp hb]
  exact fun hstart => ho id hstart ⟨state, ha, hstate⟩

theorem Quiet.neverRestarted (h : Quiet s s') (hs : NeverRestarted s.history) :
    NeverRestarted s'.history := by
  rcases h.history with heq | ⟨e, heq⟩
  · rwa [heq]
  · rw [heq]
    exact hs.append fun id h => by cases h

theorem Consistent.of_loadThread (h : Consistent s) (hhistory : NeverRestarted s'.history)
    (hclosed : ∀ id, s'.Closed id → s.Closed id ∧
      (s'.threads.loadThread id).map Thread.state = (s.threads.loadThread id).map Thread.state) :
    Consistent s' where
  closed := by
    intro id hid
    obtain ⟨hold, hsame⟩ := hclosed id hid
    obtain ⟨thread, hload, hstate⟩ := h.closed id hold
    rw [hload, Option.map_some, Option.map_eq_some_iff] at hsame
    obtain ⟨thread', hload', hsame⟩ := hsame
    exact ⟨thread', hload', by rwa [hsame]⟩
  history := hhistory

/-- A step leaves alone what a task relies on: its record, its mailbox and its entry. -/
structure Spares (s s' : Runtime) (u : Task) : Prop where
  record : ∀ thread, u.carries = some thread →
    s'.threads.loadThread thread.id = s.threads.loadThread thread.id ∧
      (s'.Closed thread.id → s.Closed thread.id)
  mailbox : ∀ x, u = .execution x → s.isLive x.number = true → s'.isLive x.number = true
  entry : ∀ x, u = .execution x → s.running.lookup x.thread.id = some x.number →
    s'.running.lookup x.thread.id = some x.number

theorem Sound.of_spares (h : Sound s u) (hspares : Spares s s' u)
    (hnext : s.nextExecution ≤ s'.nextExecution) : Sound s' u := by
  cases u with
  | saveResumed origin thread =>
    exact fun hclosed => h ((hspares.record thread rfl).2 hclosed)
  | startThread origin thread =>
    obtain ⟨hload, hclosed⟩ := hspares.record thread rfl
    exact ⟨fun h' => h.1 (hclosed h'), by rw [hload]; exact h.2⟩
  | saveMetadata h' thread =>
    obtain ⟨hload, -⟩ := hspares.record thread rfl
    simpa only [Sound, hload] using h
  | execution x =>
    obtain ⟨hload, hclosed⟩ := hspares.record x.thread rfl
    obtain ⟨hopen, hstored, hlive, hlt, hstate⟩ := h
    refine ⟨fun h' => hopen (hclosed h'), by rwa [hload], hspares.mailbox x rfl hlive,
      hlt.trans_le hnext, ?_⟩
    rwa [hload]
  | _ => trivial

/-- **The rule for a step.** -/
theorem Exclusive.replace (h : Exclusive p) (htasks : p.tasks = front ++ t :: back)
    (hnext : p.shared.nextExecution ≤ s'.nextExecution) (hshared : Consistent s')
    (hown : ∀ t' ∈ ts, Sound s' t')
    (hspares : ∀ u ∈ front ++ back, Compatible t u → Spares p.shared s' u)
    (hapart : ∀ u ∈ front ++ back, Compatible t u → ∀ t' ∈ ts, Compatible t' u)
    (hnew : ts.Pairwise Compatible)
    (hregister : ∀ origin id e, t = .register origin id e → s'.running.lookup id = some e)
    (hreached : ∀ x, Task.execution x ∈ ts → s'.running.lookup x.thread.id = some x.number ∨
      ∃ origin, Task.register origin x.thread.id x.number ∈ front ++ ts ++ back) :
    Exclusive ⟨s', front ++ ts ++ back⟩ where
  holds := h.holds.replace Compatible.symm htasks hshared hown
    (fun u hu hsound hcompatible => hsound.of_spares (hspares u hu hcompatible) hnext) hapart hnew
  reached := by
    intro x hx
    simp only [mem_append, or_assoc] at hx
    have hother : Task.execution x ∈ front ++ back →
        s'.running.lookup x.thread.id = some x.number ∨
          ∃ origin, Task.register origin x.thread.id x.number ∈ front ++ ts ++ back := by
      intro hmem
      have hcompatible := h.holds.apart_of_mem Compatible.symm htasks hmem
      have hold : Task.execution x ∈ p.tasks := by
        rw [htasks]
        rcases mem_append.mp hmem with hmem | hmem
        · exact mem_append_left _ hmem
        · exact List.mem_append_right _ (List.mem_cons_of_mem t hmem)
      rcases h.reached x hold with hentry | ⟨origin, hregistering⟩
      · exact .inl ((hspares _ hmem hcompatible).entry x rfl hentry)
      · rw [htasks] at hregistering
        simp only [mem_append, mem_cons] at hregistering
        rcases hregistering with hfront | rfl | hback
        · exact .inr ⟨origin, by simp [hfront]⟩
        · exact .inl (hregister origin _ _ rfl)
        · exact .inr ⟨origin, by simp [hback]⟩
    rcases hx with hx | hx | hx
    · exact hother (mem_append_left _ hx)
    · exact hreached x hx
    · exact hother (List.mem_append_right _ hx)

theorem sound_of_none (hprepares : t.prepares = none) (hexecution : t.asExecution = none) :
    Sound s t := by
  cases t <;> trivial

theorem Exclusive.replace_none (h : Exclusive p) (htasks : p.tasks = front ++ t :: back)
    (hnext : p.shared.nextExecution ≤ s'.nextExecution) (hshared : Consistent s')
    (hts : ∀ t' ∈ ts, t'.prepares = none ∧ t'.asExecution = none)
    (hspares : ∀ u ∈ front ++ back, Compatible t u → Spares p.shared s' u)
    (hregister : ∀ origin id e, t = .register origin id e → s'.running.lookup id = some e) :
    Exclusive ⟨s', front ++ ts ++ back⟩ := by
  have hnone (t' : Task) (ht' : t' ∈ ts) (u : Task) : Compatible t' u :=
    compatible_of_none (hts t' ht').1 (hts t' ht').2
  refine h.replace htasks hnext hshared (fun t' ht' => sound_of_none (hts t' ht').1 (hts t' ht').2)
    hspares (fun u _ _ t' ht' => hnone t' ht' u)
    (List.pairwise_of_forall_mem_list fun t' ht' u _ => hnone t' ht' u) hregister ?_
  intro x hx
  cases (hts _ hx).2

theorem Exclusive.replace_one (h : Exclusive p) (htasks : p.tasks = front ++ t :: back)
    (hnext : p.shared.nextExecution ≤ s'.nextExecution) (hshared : Consistent s')
    (hown : Sound s' t') (hspares : ∀ u ∈ front ++ back, Compatible t u → Spares p.shared s' u)
    (hapart : ∀ u ∈ front ++ back, Compatible t u → Compatible t' u)
    (hregister : t.registering = none)
    (hreached : ∀ x, t' = .execution x → s'.running.lookup x.thread.id = some x.number ∨
      ∃ origin, Task.register origin x.thread.id x.number ∈ front ++ [t'] ++ back) :
    Exclusive ⟨s', front ++ [t'] ++ back⟩ := by
  refine h.replace htasks hnext hshared ?_ hspares ?_ (List.pairwise_singleton _ _) ?_ ?_
  · intro u hu
    rwa [mem_singleton.mp hu]
  · intro u hu hcompatible u' hu'
    rw [mem_singleton.mp hu']
    exact hapart u hu hcompatible
  · rintro origin id e rfl
    cases hregister
  · intro x hx
    exact hreached x (mem_singleton.mp hx).symm

theorem Spares.of_eq (hthreads : s'.threads = s.threads) (hclosed : ∀ id,
    s'.Closed id → s.Closed id)
    (hmailboxes : ∀ e, s.isLive e = true → s'.isLive e = true) (hrunning : s'.running = s.running) :
    Spares s s' u where
  record := fun thread _ => ⟨by rw [hthreads], hclosed _⟩
  mailbox := fun x _ h => hmailboxes _ h
  entry := fun x _ h => by rwa [hrunning]

theorem Quiet.spares (h : Quiet s s') : Spares s s' u :=
  .of_eq h.threads (fun _ => h.closed_iff.mp) (fun e he => by rwa [Runtime.isLive, h.mailboxes])
    h.running

theorem Spares.of_saveThread (h : ∀ thread', u.carries = some thread' → thread'.id ≠ thread.id) :
    Spares s (s.saveThread thread) u where
  record := fun thread' hu => by
    refine ⟨?_, fun h => h⟩
    rw [Runtime.saveThread, ThreadStore.loadThread_saveThread, if_neg (h thread' hu)]
  mailbox := fun x _ h => h
  entry := fun x _ h => h

theorem Consistent.quiet (h : Consistent s) (hs : Quiet s s') : Consistent s' := by
  refine h.of_loadThread (hs.neverRestarted h.history) fun id hid => ⟨hs.closed_iff.mp hid, ?_⟩
  rw [hs.threads]

theorem Consistent.saveThread (h : Consistent s) (hopen : ¬ s.Closed thread.id) :
    Consistent (s.saveThread thread) := by
  refine h.of_loadThread h.history fun id hid => ⟨hid, ?_⟩
  rw [Runtime.saveThread, ThreadStore.loadThread_saveThread, if_neg]
  rintro rfl
  exact hopen hid

theorem isLive_insert {e e' : ExecutionId} {queue : List ThreadSignal}
    {mailboxes : HashMap ExecutionId (List ThreadSignal)} (h :
      (mailboxes.lookup e').isSome = true) :
    ((mailboxes.insert e queue).lookup e').isSome = true := by
  rw [HashMap.lookup_insert]
  split_ifs
  · rfl
  · exact h

variable {n : Option MessageId}

@[simp] theorem noteDelivered_threads : (s.noteDelivered n id).threads = s.threads := by
  cases n <;> rfl

@[simp] theorem noteDelivered_running : (s.noteDelivered n id).running = s.running := by
  cases n <;> rfl

@[simp] theorem noteDelivered_mailboxes : (s.noteDelivered n id).mailboxes = s.mailboxes := by
  cases n <;> rfl

@[simp] theorem noteDelivered_nextExecution :
    (s.noteDelivered n id).nextExecution = s.nextExecution := by
  cases n <;> rfl

theorem closed_noteDelivered {id' : ThreadId} :
    (s.noteDelivered n id).Closed id' ↔ s.Closed id' := by
  cases n with
  | none => exact Iff.rfl
  | some n => exact closed_iff_of_append (s := s) rfl fun _ _ => by simp

theorem Consistent.noteDelivered (h : Consistent s) : Consistent (s.noteDelivered n id) := by
  refine h.of_loadThread ?_ fun id' hid => ⟨closed_noteDelivered.mp hid, by simp⟩
  cases n with
  | none => exact h.history
  | some n => exact h.history.append fun _ h => by cases h

theorem Exclusive.not_executed (h : Exclusive p) (htasks : p.tasks = front ++ t :: back)
    (ht : t.registering = none) (hfree : p.shared.isRunning id = false)
    (hprepares : ∀ u ∈ front ++ back, u.prepares ≠ some id) :
    ∀ u ∈ front ++ back, u.executes ≠ some id := by
  intro u hu hexecutes
  have hmem : u ∈ p.tasks := Pool.mem_of_split htasks hu
  cases u with
  | execution x =>
    obtain rfl : x.thread.id = id := Option.some.inj hexecutes
    rcases h.reached x hmem with hentry | ⟨origin, hregister⟩
    · have hlive := (h.holds.tasks _ hmem).2.2.1
      simp [Runtime.isRunning, hentry, hlive] at hfree
    · rw [htasks] at hregister
      simp only [mem_append, mem_cons] at hregister
      rcases hregister with hfront | rfl | hback
      · exact hprepares _ (mem_append_left _ hfront) rfl
      · cases ht
      · exact hprepares _ (List.mem_append_right _ hback) rfl
  | _ => cases hexecutes

theorem Exclusive.not_executed_of_fresh (h : Exclusive p) (htasks : p.tasks = front ++ t :: back)
    (hfresh : p.shared.threads.loadThread id = none) :
    ∀ u ∈ front ++ back, u.executes ≠ some id := by
  intro u hu hexecutes
  have hmem : u ∈ p.tasks := Pool.mem_of_split htasks hu
  cases u with
  | execution x =>
    have hstored := (h.holds.tasks _ hmem).2.1
    rw [show x.thread.id = id from Option.some.inj hexecutes, hfresh] at hstored
    cases hstored
  | _ => cases hexecutes

theorem compatible_of_free (hexecution : t.asExecution = none) (hprepares : t.prepares = some id)
    (hu : u.prepares ≠ some id) (hu' : u.executes ≠ some id) : Compatible t u where
  prepares := fun id' ht hu₀ => hu (hu₀.trans (ht.symm.trans hprepares))
  executes := fun id' h => by simp [Task.executes, hexecution] at h
  number := fun e h => by simp [Task.number, hexecution] at h
  left := fun id' ht hu₀ => absurd (hu₀.trans (ht.symm.trans hprepares)) hu'
  right := fun id' _ h => by simp [Task.executes, hexecution] at h

/-- The rule for a step after which one task prepares the same thread, and nothing else changes. -/
theorem Exclusive.replace_prepares (h : Exclusive p) (htasks : p.tasks = front ++ t :: back)
    (hnext : p.shared.nextExecution ≤ s'.nextExecution) (hshared : Consistent s')
    (hown : Sound s' t') (hspares : ∀ u ∈ front ++ back, Compatible t u → Spares p.shared s' u)
    (hexecution : t'.asExecution = none) (hprepares : t'.prepares = t.prepares)
    (hregister : t.registering = none) : Exclusive ⟨s', front ++ [t'] ++ back⟩ := by
  refine h.replace_one htasks hnext hshared hown hspares
    (fun u _ hcompatible => hcompatible.of_prepares hexecution hprepares hregister) hregister ?_
  rintro x rfl
  cases hexecution

theorem Exclusive.replace_execution {x : Execution} (x' : Execution) (h : Exclusive p)
    (htasks : p.tasks = front ++ .execution x :: back) (hid : x'.thread.id = x.thread.id)
    (hnumber : x'.number = x.number) (hnext : s'.nextExecution = p.shared.nextExecution)
    (hrunning : s'.running = p.shared.running) (hshared : Consistent s')
    (hown : Sound s' (.execution x'))
    (hspares : ∀ u ∈ front ++ back, Compatible (.execution x) u → Spares p.shared s' u) :
    Exclusive ⟨s', front ++ [.execution x'] ++ back⟩ := by
  refine h.replace_one htasks hnext.ge hshared hown hspares
    (fun u _ hcompatible => hcompatible.of_execution hid hnumber) rfl ?_
  rintro x₁ ⟨⟩
  have hmem : Task.execution x ∈ p.tasks := by simp [htasks]
  rw [hid, hnumber, hrunning]
  rcases h.reached x hmem with hentry | ⟨origin, hregister⟩
  · exact .inl hentry
  · refine .inr ⟨origin, ?_⟩
    rw [htasks] at hregister
    simpa using hregister

variable {origin : Origin}

theorem exclusive_of_launch (h : Exclusive p)
    (htasks : p.tasks = front ++ .startThread origin thread :: back) :
    Exclusive ⟨launch p.shared thread, front ++ [.register origin thread.id p.shared.nextExecution,
      .execution ⟨p.shared.nextExecution, thread, .begin⟩] ++ back⟩ := by
  obtain ⟨hopen, hstored⟩ : Sound p.shared (.startThread origin thread) :=
    h.holds.tasks _ (by simp [htasks])
  have hclosed (id : ThreadId) : (launch p.shared thread).Closed id ↔ p.shared.Closed id :=
    closed_iff_of_append rfl fun _ _ => by simp
  -- nobody else has the thread in hand
  have hfree : ∀ u ∈ front ++ back, Compatible (.startThread origin thread) u →
      u.prepares ≠ some thread.id ∧ u.executes ≠ some thread.id := by
    intro u hu hcompatible
    refine ⟨hcompatible.prepares _ rfl, fun hexecutes => ?_⟩
    obtain ⟨e, he, -⟩ := hcompatible.left _ rfl hexecutes
    cases he
  have hnumber : ∀ u ∈ front ++ back, u.number ≠ some p.shared.nextExecution := by
    intro u hu hnumber
    cases u with
    | execution x =>
      have hlt : x.number < p.shared.nextExecution :=
        (h.holds.tasks (.execution x) (Pool.mem_of_split htasks hu)).2.2.2.1
      exact hlt.ne (Option.some.inj hnumber)
    | _ => cases hnumber
  refine h.replace htasks (Nat.le_succ _) ?_ ?_ ?_ ?_ ?_ ?_ ?_
  · refine h.holds.shared.of_loadThread ?_ fun id hid => ⟨(hclosed id).mp hid, rfl⟩
    refine h.holds.shared.history.append ?_
    rintro id ⟨⟩
    exact hopen
  · intro t' ht'
    rcases mem_cons.mp ht' with rfl | ht'
    · trivial
    · rw [mem_singleton.mp ht']
      refine ⟨fun h => hopen ((hclosed _).mp h), hstored, ?_, Nat.lt_succ_self _,
        fun h => by cases h⟩
      simp [launch, Runtime.isLive]
  · intro u hu hcompatible
    exact .of_eq rfl (fun id => (hclosed id).mp) (fun e he => isLive_insert he) rfl
  · intro u hu hcompatible t' ht'
    obtain ⟨hprepares, hexecutes⟩ := hfree u hu hcompatible
    rcases mem_cons.mp ht' with rfl | ht'
    · exact compatible_of_free rfl rfl hprepares hexecutes
    · rw [mem_singleton.mp ht']
      exact {
        prepares := fun id h => by cases h
        executes := fun id hid => by
          cases hid
          exact hexecutes
        number := fun e he => by
          cases he
          exact hnumber u hu
        left := fun id h => by cases h
        right := fun id hid hid' => by
          cases hid'
          exact absurd hid hprepares }
  · refine List.pairwise_pair.mpr ⟨?_, ?_, ?_, ?_, ?_⟩
    · exact fun id _ h => by cases h
    · exact fun id h => by cases h
    · exact fun e h => by cases h
    · exact fun id _ _ => ⟨_, rfl, rfl⟩
    · exact fun id h => by cases h
  · rintro _ _ _ ⟨⟩
  · intro x hx
    refine .inr ⟨origin, ?_⟩
    rcases mem_cons.mp hx with hx | hx
    · cases hx
    · cases mem_singleton.mp hx
      simp

theorem exclusive_of_end {x : Execution} (h : Exclusive p)
    (htasks : p.tasks = front ++ .execution x :: back) (hstage : x.stage = .unregister) :
    Exclusive ⟨{ p.shared with
      running := p.shared.running.erase x.thread.id
      mailboxes := p.shared.mailboxes.erase x.number
      history := p.shared.history ++ [.finished x.thread.id x.thread.state] },
      front ++ [] ++ back⟩ := by
  obtain ⟨hopen, hstored, hlive, hlt, hstate⟩ : Sound p.shared (.execution x) :=
    h.holds.tasks _ (by simp [htasks])
  refine h.replace_none htasks le_rfl ?_ (fun t' ht' => by cases ht') ?_ (fun _ _ _ h => by cases h)
  · constructor
    · intro id hid
      rcases closed_append_iff.mp hid with hold | ⟨state, ho, hfinal⟩
      · exact h.holds.shared.closed id hold
      · cases ho
        obtain ⟨stored, hload, hsame⟩ := hstate (by rw [hstage]; rfl)
        exact ⟨stored, hload, by rwa [hsame]⟩
    · exact h.holds.shared.history.append fun id h => by cases h
  · intro u hu hcompatible
    constructor
    · intro thread hcarries
      refine ⟨rfl, fun hid => ?_⟩
      rcases closed_append_iff.mp hid with hold | ⟨state, ho, -⟩
      · exact hold
      · have hid := (Occurrence.finished.inj ho).1
        exact absurd hid.symm (hcompatible.id_ne (t := .execution x) rfl hcarries)
    · rintro x' rfl hlive'
      have hne : x'.number ≠ x.number := fun h => hcompatible.number _ rfl (congrArg some h)
      simpa [Runtime.isLive, HashMap.lookup_erase, hne] using hlive'
    · rintro x' rfl hentry
      have hne : x'.thread.id ≠ x.thread.id := fun h => hcompatible.executes _ rfl (congrArg some h)
      rwa [HashMap.lookup_erase, if_neg hne]

theorem exclusive_of_register {e : ExecutionId} (h : Exclusive p)
    (htasks : p.tasks = front ++ .register origin id e :: back)
    (hts : ∀ t' ∈ ts, t'.prepares = none ∧ t'.asExecution = none) :
    Exclusive ⟨{ p.shared with running := p.shared.running.insert id e }, front ++ ts ++ back⟩ := by
  refine h.replace_none htasks le_rfl
    (h.holds.shared.of_loadThread h.holds.shared.history fun _ hid => ⟨hid, rfl⟩) hts ?_ ?_
  · intro u hu hcompatible
    refine ⟨fun thread _ => ⟨rfl, fun h => h⟩, fun _ _ h => h, ?_⟩
    rintro x rfl hentry
    rw [HashMap.lookup_insert]
    split_ifs with hid
    · obtain ⟨e', he, hx⟩ := hcompatible.left id rfl (congrArg some hid)
      exact he.trans hx.symm
    · exact hentry
  · rintro origin' id' e' ⟨⟩
    exact AList.lookup_insert _

theorem Origin.mem_answer (h : t ∈ origin.answer id) :
    t.prepares = none ∧ t.asExecution = none := by
  cases origin with
  | direct => cases h
  | handling h' active =>
    rw [mem_singleton.mp h]
    exact ⟨rfl, rfl⟩

theorem exclusive_of_moves {i : Nat} {input : Input} (h : Exclusive p)
    (htasks : p.tasks = front ++ t :: back) (hi : front.length = i)
    (ho : Orderly p (.step i input)) (hmoves : Moves input p.shared t s' ts) :
    Exclusive ⟨s', front ++ ts ++ back⟩ := by
  have hget : p.tasks[i]? = some t := by simp [htasks, ← hi]
  have hsound : Sound p.shared t := h.holds.tasks t (by simp [htasks])
  have hothers : p.others i = front ++ back := Pool.others_eq htasks hi
  cases hmoves with
  | quiet next hs hregistering hexecution hrecord hplain hcoherent =>
    refine h.replace_none htasks hs.nextExecution.ge (h.holds.shared.quiet hs) ?_
      (fun u _ _ => hs.spares) ?_
    · intro t' ht'
      have hplain := (hplain t' (Option.mem_toList.mp ht')).1
      exact ⟨hplain.prepares, hplain.asExecution⟩
    · rintro origin id e rfl
      cases hregistering
  | @checked call hfree =>
    simp only [Orderly, hget, hothers] at ho
    have hexecuted := h.not_executed htasks rfl hfree (ho hfree)
    refine h.replace_one htasks le_rfl h.holds.shared trivial
      (fun u _ _ => (Quiet.refl _).spares) ?_ rfl fun x hx => by cases hx
    exact fun u hu _ => compatible_of_free rfl rfl (ho hfree u hu) (hexecuted u hu)
  | @loaded call thread hload hstate =>
    have hid := ThreadStore.id_of_loadThread hload
    refine h.replace_prepares htasks (by simp) h.holds.shared.noteDelivered ?_ ?_ rfl ?_ rfl
    · intro hclosed
      rw [closed_noteDelivered, Thread.id_resumed, hid] at hclosed
      obtain ⟨stored, hstored, hfinal⟩ := h.holds.shared.closed _ hclosed
      rw [hload] at hstored
      cases hstored
      rw [hstate] at hfinal
      cases hfinal
    · exact fun u _ _ => .of_eq (by simp) (fun _ => closed_noteDelivered.mp)
        (fun e he => by simpa [Runtime.isLive] using he) (by simp)
    · exact congrArg some ((Thread.id_resumed).trans hid)
  | @saved origin thread =>
    refine h.replace_prepares htasks le_rfl (h.holds.shared.saveThread hsound) ?_ ?_ rfl rfl rfl
    · refine ⟨hsound, ?_⟩
      simp [Runtime.saveThread, ThreadStore.loadThread_saveThread]
    · exact fun u _ hcompatible => .of_saveThread fun thread' hu => hcompatible.id_ne rfl hu
  | @spawned call id hinput hfresh =>
    subst hinput
    simp only [Orderly, hget, hothers] at ho
    have hopen : ¬ p.shared.Closed id := by
      intro hclosed
      obtain ⟨thread, hload, -⟩ := h.holds.shared.closed id hclosed
      rw [hfresh] at hload
      cases hload
    have hexecuted := h.not_executed_of_fresh htasks hfresh
    refine h.replace_one htasks (by simp [Runtime.saveThread])
      (h.holds.shared.saveThread hopen).noteDelivered ?_ ?_ ?_ rfl
      fun x hx => by cases hx
    · refine ⟨fun hclosed => ?_, ?_⟩
      · rw [closed_noteDelivered] at hclosed
        exact hopen hclosed
      · simp [Runtime.saveThread, ThreadStore.loadThread_saveThread]
    · intro u hu _
      have hsaved : Spares p.shared (p.shared.saveThread (call.thread id)) u := by
        refine .of_saveThread fun thread' hcarries hid => ?_
        rcases (Task.of_carries hcarries).2 with hprepares | hexecutes
        · exact ho u hu (hprepares.trans (congrArg some hid))
        · exact hexecuted u hu (hexecutes.trans (congrArg some hid))
      refine ⟨fun thread hu => ?_, fun x hx hlive => ?_, fun x hx hentry => ?_⟩
      · rw [noteDelivered_threads, closed_noteDelivered]
        exact hsaved.record thread hu
      · simpa [Runtime.isLive] using hsaved.mailbox x hx hlive
      · simpa using hsaved.entry x hx hentry
    · exact fun u hu _ => compatible_of_free rfl rfl (ho u hu) (hexecuted u hu)
  | started => exact exclusive_of_launch h htasks
  | registered => exact exclusive_of_register h htasks fun t' ht' => Origin.mem_answer ht'
  | @worked x x' _ hs hnumber hsame hreads hleaves hstored =>
    refine h.replace_execution x' htasks hsame.id hnumber hs.nextExecution hs.running
      (h.holds.shared.quiet hs) ?_ fun u _ _ => hs.spares
    obtain ⟨hopen, hload, hlive, hlt, hstate⟩ := hsound
    refine ⟨fun hclosed => hopen ?_, ?_, ?_, ?_, fun hstage => ?_⟩
    · rw [← hsame.id]
      exact hs.closed_iff.mp hclosed
    · rwa [hs.threads, hsame.id]
    · rwa [hnumber, Runtime.isLive, hs.mailboxes]
    · rwa [hnumber, hs.nextExecution]
    · obtain ⟨hold, hthread⟩ := hstored hstage
      rw [hs.threads, hthread]
      exact hstate hold
  | @heard x signal rest hstage hmail =>
    have hid : (x.thread.hear signal).id = x.thread.id := by cases signal <;> rfl
    obtain ⟨hopen, hload, hlive, hlt, -⟩ := hsound
    refine h.replace_execution { x with thread := x.thread.hear signal } htasks hid rfl rfl rfl
      (h.holds.shared.of_loadThread h.holds.shared.history fun _ hid => ⟨hid, rfl⟩) ?_ ?_
    · refine ⟨?_, ?_, isLive_insert hlive, hlt, fun h => ?_⟩
      · rwa [hid]
      · rwa [hid]
      · rw [hstage] at h
        cases h
    · exact fun u _ _ => .of_eq rfl (fun _ h => h) (fun e he => isLive_insert he) rfl
  | @stored x x' hnumber hsame hreads =>
    obtain ⟨hopen, hload, hlive, hlt, -⟩ := hsound
    rw [← hsame.id] at hopen
    refine h.replace_execution x' htasks hsame.id hnumber rfl rfl
      (h.holds.shared.saveThread hopen) ?_ ?_
    · refine ⟨hopen, ?_, ?_, ?_, fun _ => ⟨x'.thread, ?_, rfl⟩⟩
      · simp [Runtime.saveThread, ThreadStore.loadThread_saveThread]
      · rwa [hnumber]
      · rwa [hnumber]
      · simp [Runtime.saveThread, ThreadStore.loadThread_saveThread]
    · refine fun u _ hcompatible => .of_saveThread fun thread' hu => ?_
      rw [hsame.id]
      exact hcompatible.id_ne rfl hu
  | ended hstage => exact exclusive_of_end h htasks hstage
  | sent hrunning hmail =>
    refine h.replace_none htasks (by simp) ?_ (fun t' ht' => Origin.mem_answer ht') ?_
      fun _ _ _ h => by cases h
    · exact Consistent.noteDelivered
        (h.holds.shared.of_loadThread h.holds.shared.history fun _ hid => ⟨hid, rfl⟩)
    · refine fun u _ _ => .of_eq (by simp) (fun id hclosed => ?_) (fun e he => ?_) (by simp)
      · rw [closed_noteDelivered] at hclosed
        exact hclosed
      · simpa [Runtime.isLive] using isLive_insert he
  | lost hrunning hmail =>
    exact h.replace_none htasks le_rfl h.holds.shared (fun t' ht' => Origin.mem_answer ht')
      (fun u _ _ => (Quiet.refl _).spares) fun _ _ _ h => by cases h
  | @taken id number hrunning =>
    simp only [Orderly, hget] at ho
    refine h.replace_none htasks le_rfl
      (h.holds.shared.of_loadThread h.holds.shared.history fun _ hid => ⟨hid, rfl⟩) ?_ ?_
      fun _ _ _ h => by cases h
    · intro t' ht'
      rw [mem_singleton.mp ht']
      exact ⟨rfl, rfl⟩
    · intro u hu _
      refine ⟨fun thread _ => ⟨rfl, fun h => h⟩, fun _ _ h => h, ?_⟩
      rintro x rfl hentry
      have hlive := (h.holds.tasks (.execution x)
        (Pool.mem_of_mem_others (i := i) (by rwa [hothers]))).2.2.1
      -- the entry of an execution that has not ended stays
      have hne : x.thread.id ≠ id := by
        rintro rfl
        simp [Runtime.isRunning, hentry, hlive] at ho
      rwa [HashMap.lookup_erase, if_neg hne]
  | swept =>
    refine h.replace_none htasks le_rfl
      (h.holds.shared.of_loadThread h.holds.shared.history fun _ hid => ⟨hid, rfl⟩)
      (fun t' ht' => by cases ht') ?_ fun _ _ _ h => by cases h
    intro u hu _
    refine ⟨fun thread _ => ⟨rfl, fun h => h⟩, fun _ _ h => h, ?_⟩
    rintro x rfl hentry
    have hlive := (h.holds.tasks (.execution x)
      (Pool.mem_of_mem_others (i := i) (by rwa [hothers]))).2.2.1
    rw [HashMap.lookup_retain, hentry, Option.filter_some, if_pos hlive]
  | @locked conversationId content userId userTimezone h' ids conversations hmessage =>
    refine h.replace_none htasks le_rfl
      (h.holds.shared.of_loadThread h.holds.shared.history fun _ hid => ⟨hid, rfl⟩) ?_
      (fun u _ _ => .of_eq rfl (fun _ h => h) (fun _ h => h) rfl) fun _ _ _ h => by cases h
    intro t' ht'
    rw [mem_singleton.mp ht']
    have hplain := (isPlain_search h' ids).1
    exact ⟨hplain.prepares, hplain.asExecution⟩
  | @patching h' id userTimezone thread metadata hload =>
    simp only [Orderly, hget, hothers] at ho
    have hid := ThreadStore.id_of_loadThread hload
    have hexecuted := h.not_executed htasks rfl ho.1 ho.2
    refine h.replace_one htasks le_rfl h.holds.shared ⟨thread, ?_, rfl⟩
      (fun u _ _ => (Quiet.refl _).spares) ?_ rfl fun x hx => by cases hx
    · exact (congrArg _ hid).trans hload
    · exact fun u hu _ => compatible_of_free rfl (congrArg some hid) (ho.2 u hu) (hexecuted u hu)
  | @patched h' thread =>
    obtain ⟨stored, hload, hstate⟩ := hsound
    refine h.replace_none htasks le_rfl ?_ ?_ ?_ fun _ _ _ h => by cases h
    · refine h.holds.shared.of_loadThread h.holds.shared.history fun id hid => ⟨hid, ?_⟩
      rw [Runtime.saveThread, ThreadStore.loadThread_saveThread]
      split_ifs with heq
      · rw [heq, hload, Option.map_some, Option.map_some, hstate]
      · rfl
    · intro t' ht'
      rw [mem_singleton.mp ht']
      exact ⟨rfl, rfl⟩
    · exact fun u _ hcompatible => .of_saveThread fun thread' hu => hcompatible.id_ne rfl hu
  | @answered h' active id conversations =>
    have hclosed (id' : ThreadId) : Runtime.Closed { p.shared with
        conversations := conversations
        history := p.shared.history ++ [.answered h'.message id] } id' ↔ p.shared.Closed id' :=
      closed_iff_of_append rfl fun _ _ => by simp
    refine h.replace_none htasks le_rfl ?_ (fun t' ht' => by cases ht') ?_ fun _ _ _ h => by cases h
    · refine h.holds.shared.of_loadThread ?_ fun id' hid => ⟨(hclosed id').mp hid, rfl⟩
      exact h.holds.shared.history.append fun id h => by cases h
    · exact fun u _ _ => .of_eq rfl (fun id' => (hclosed id').mp) (fun _ h => h) rfl

theorem Call.task_eq (call : Call) : call.task.prepares = none ∧ call.task.asExecution = none := by
  cases call <;> exact ⟨rfl, rfl⟩

theorem exclusive_start (h : Exclusive p) (call : Call) : Exclusive (p.start call.task) where
  holds := by
    obtain ⟨hprepares, hexecution⟩ := call.task_eq
    exact h.holds.start (sound_of_none hprepares hexecution)
      fun u _ => (compatible_of_none hprepares hexecution).symm
  reached := by
    intro x hx
    rcases mem_append.mp hx with hx | hx
    · rcases h.reached x hx with hentry | ⟨origin, hregister⟩
      · exact .inl hentry
      · exact .inr ⟨origin, mem_append_left _ hregister⟩
    · have hnone := call.task_eq.2
      rw [← mem_singleton.mp hx] at hnone
      cases hnone

theorem exclusive_of_step {config : RuntimeConfig} {a : Action} {p' : Pool Runtime Task}
    (h : Exclusive p) (ho : Orderly p a) (hstep : step config p a = some p') : Exclusive p' := by
  cases a with
  | call call =>
    cases hstep
    exact exclusive_start h call
  | step i input =>
    obtain ⟨front, t, back, s', ts, htasks, hi, hnext, rfl⟩ := Pool.advance_eq_some_iff.mp hstep
    exact exclusive_of_moves h htasks hi ho (moves_of_next hnext)

theorem exclusive_of_rest (htasks : p.tasks = []) (hhistory : p.shared.history = []) :
    Exclusive p := by
  obtain ⟨s, tasks⟩ := p
  cases htasks
  refine ⟨.empty ⟨fun id hid => ?_, ?_⟩, fun x hx => by cases hx⟩
  · obtain ⟨state, hmem, -⟩ := hid
    simp_all
  · rw [NeverRestarted, hhistory]
    exact List.Pairwise.nil

theorem countP_le_one {α : Type*} {P : α → Bool} {l : List α}
    (h : l.Pairwise fun a b => P a = true → ¬ P b = true) : l.countP P ≤ 1 := by
  induction l with
  | nil => exact Nat.zero_le 1
  | cons a l ih =>
    obtain ⟨hhead, htail⟩ := pairwise_cons.mp h
    rw [List.countP_cons]
    split_ifs with ha
    · have hzero : l.countP P = 0 := List.countP_eq_zero.mpr fun b hb => hhead b hb ha
      omega
    · exact ih htail

theorem Exclusive.atMostOne (h : Exclusive p) : AtMostOne p.tasks := by
  intro id
  refine countP_le_one (h.holds.apart.imp fun hcompatible ha hb => ?_)
  exact hcompatible.executes id (beq_iff_eq.mp ha) (beq_iff_eq.mp hb)

theorem exclusive_of_run {config : RuntimeConfig} {p₀ : Pool Runtime Task} {actions : List Action}
    (h₀ : Exclusive p₀) (hc : Along (step config) Orderly p₀ actions)
    (hr : run (step config) p₀ actions = some p) : Exclusive p :=
  run_invariant (fun _ _ _ => exclusive_of_step) h₀ hc hr

/-- **At most one execution**, and none after the end for good, in a run whose steps are orderly. -/
theorem exclusive_of_orderly {config : RuntimeConfig} {p₀ : Pool Runtime Task}
    {actions : List Action} (htasks : p₀.tasks = []) (hhistory : p₀.shared.history = [])
    (hc : Along (step config) Orderly p₀ actions) (hr : run (step config) p₀ actions = some p) :
    AtMostOne p.tasks ∧ NeverRestarted p.shared.history := by
  have h := exclusive_of_run (exclusive_of_rest htasks hhistory) hc hr
  exact ⟨h.atMostOne, h.holds.shared.history⟩

end Exclusive

def sampleConfig : RuntimeConfig := ⟨fun _ => [], ⟨fun _ => false, fun _ prompt => prompt⟩⟩

def sampleThread : Thread := ⟨1, ['u'], .foreground, .waiting, [], ∅⟩

def sampleRuntime : Runtime where
  threads := ThreadStore.empty.saveThread sampleThread
  running := ∅
  completed := ∅
  mailboxes := ∅
  conversations := ∅
  nextExecution := 0
  nextMessage := 0
  history := []

def resumeSample : Action := .call (.resumeThread 1 ['u'] none none)

def completing (i : Nat) : List Action :=
  [.prompt none, .transitionTo .completed, .finish (.completed none), .proceed, .proceed, .proceed,
    .proceed].map (.step i)

theorem exclusive_of_lone_resume :
    ∃ p, run (step sampleConfig) ⟨sampleRuntime, []⟩
        (resumeSample :: [0, 0, 0, 0, 0].map (.step · .proceed) ++ completing 0) = some p ∧
      AtMostOne p.tasks ∧ NeverRestarted p.shared.history := by
  have hrun : run (step sampleConfig) ⟨sampleRuntime, []⟩
      (resumeSample :: [0, 0, 0, 0, 0].map (.step · .proceed) ++ completing 0) = some _ := rfl
  refine ⟨_, hrun, exclusive_of_orderly rfl rfl ?_ hrun⟩
  refine .of_step rfl trivial (.of_step rfl (fun _ u hu => by cases hu) ?_)
  repeat refine .of_step rfl trivial ?_
  trivial

/-- **Two resumes start a thread twice**, beside the first execution or after it. -/
theorem thread_started_twice :
    (∃ p, run (step sampleConfig) ⟨sampleRuntime, []⟩
        (resumeSample :: resumeSample :: [0, 1, 0, 1, 0, 1, 0, 2].map (.step · .proceed)) = some p ∧
      ¬ AtMostOne p.tasks) ∧
    ∃ p, run (step sampleConfig) ⟨sampleRuntime, []⟩
        (resumeSample :: resumeSample :: [0, 1, 0, 1, 0, 0, 0].map (.step · .proceed) ++
          completing 0 ++ [0, 0].map (.step · .proceed)) = some p ∧
      ¬ NeverRestarted p.shared.history := by
  refine ⟨⟨_, rfl, fun h => absurd (h 1) (by decide)⟩, ⟨_, rfl, fun h => ?_⟩⟩
  obtain ⟨-, h⟩ := pairwise_cons.mp h
  exact (pairwise_cons.mp h).1 (.started 1) (List.mem_singleton_self _) 1 .done rfl rfl rfl

end IronClaw.Runtime
