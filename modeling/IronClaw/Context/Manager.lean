import IronClaw.Context.Job
import IronClaw.Foundation.HashMap
import IronClaw.Foundation.Interleaving

/-!
# The context manager

The manager has a context and a memory for each job, under two locks. Operations on the same job can
come in between, and a job can be registered under an id that is in use.
-/

namespace IronClaw.Context

open Foundation (Along HashMap Pool Throughout run throughout_iff_along)
open List (mem_append mem_append_left mem_append_right mem_cons mem_singleton not_mem_nil)

/-- What a job remembers, as far as the manager looks at it. -/
structure Memory where
  jobId : Uuid
deriving DecidableEq

inductive JobError where
  | notFound (id : Uuid)
  | maxJobsExceeded (max : Nat)
  | failed (id : Uuid) (reason : String)
  | contextError (id : Uuid) (reason : String)
deriving DecidableEq

structure ContextManager where
  contexts : HashMap Uuid JobContext
  memories : HashMap Uuid Memory
  maxJobs : Nat

namespace ContextManager

def new (maxJobs : Nat) : ContextManager := ⟨∅, ∅, maxJobs⟩

def parallelCount (m : ContextManager) : Nat :=
  (HashMap.values m.contexts).countP (·.state.isParallelBlocking)

def parallelBlockingCountFor (m : ContextManager) (userId : String) : Nat :=
  (HashMap.values m.contexts).countP fun c => c.userId == userId && c.state.isParallelBlocking

def insertContext (m : ContextManager) (context : JobContext) : Except JobError ContextManager :=
  if m.maxJobs ≤ m.parallelCount then .error (.maxJobsExceeded m.maxJobs)
  else .ok { m with contexts := m.contexts.insert context.jobId context }

def allocateMemory (m : ContextManager) (jobId : Uuid) : ContextManager :=
  { m with memories := m.memories.insert jobId ⟨jobId⟩ }

def removeContext (m : ContextManager) (jobId : Uuid) :
    Except JobError (JobContext × ContextManager) :=
  match m.contexts.lookup jobId with
  | none => .error (.notFound jobId)
  | some context => .ok (context, { m with contexts := m.contexts.erase jobId })

def removeMemory (m : ContextManager) (jobId : Uuid) : Except JobError (Memory × ContextManager) :=
  match m.memories.lookup jobId with
  | none => .error (.notFound jobId)
  | some memory => .ok (memory, { m with memories := m.memories.erase jobId })

def updateContext {R : Type} (m : ContextManager) (jobId : Uuid) (f : JobContext → R × JobContext) :
    Except JobError (R × ContextManager) :=
  match m.contexts.lookup jobId with
  | none => .error (.notFound jobId)
  | some context =>
    .ok ((f context).1, { m with contexts := HashMap.adjust m.contexts jobId fun c => (f c).2 })

/-- **The slots.** After an insertion, no more jobs than allowed take a slot. -/
theorem parallelCount_insertContext_le {m m' : ContextManager} {context : JobContext}
    (h : m.insertContext context = .ok m') : m'.parallelCount ≤ m.maxJobs := by
  unfold insertContext at h
  split at h
  · cases h
  · cases h
    have hcount := HashMap.countP_values_insert_le m.contexts context.jobId context
      (·.state.isParallelBlocking)
    simp only [parallelCount] at *
    omega

theorem parallelCount_erase_le (m : ContextManager) (jobId : Uuid) :
    { m with contexts := m.contexts.erase jobId }.parallelCount ≤ m.parallelCount :=
  HashMap.countP_values_erase_le m.contexts jobId _

theorem parallelCount_adjust_le (m : ContextManager) (jobId : Uuid) (now : Time)
    (change : JobChange) :
    { m with
      contexts := HashMap.adjust m.contexts jobId fun c => (change.apply now c).2
    }.parallelCount ≤ m.parallelCount :=
  HashMap.countP_values_adjust_le m.contexts jobId _ fun _ =>
    JobChange.isParallelBlocking_of_apply

end ContextManager

inductive JobCall where
  | createJobForUser (jobId : Uuid) (now : Time) (userId title description : String)
  | registerSandboxJob (jobId : Uuid) (now : Time) (userId title description : String)
  | removeJob (jobId : Uuid)
  | changeState (jobId : Uuid) (change : JobChange)

inductive JobTask where
  | inserting (context : JobContext)
  | allocating (jobId : Uuid)
  | removing (jobId : Uuid)
  | removingMemory (jobId : Uuid)
  | changing (jobId : Uuid) (change : JobChange)

/-- The sandbox job is in progress at once, as its container is about to be created. -/
def JobCall.task : JobCall → JobTask
  | createJobForUser jobId now userId title description =>
    .inserting (.withUser jobId now userId title description)
  | registerSandboxJob jobId now userId title description =>
    .inserting { JobContext.withUser jobId now userId title description with
      state := .inProgress, startedAt := some now }
  | removeJob jobId => .removing jobId
  | changeState jobId change => .changing jobId change

/-- The manager, and every state that a job has been in so far. -/
structure JobHost where
  manager : ContextManager
  states : List (Uuid × JobState)

def JobHost.record (host : JobHost) (manager : ContextManager) (jobId : Uuid) : JobHost where
  manager := manager
  states := host.states ++
    ((manager.contexts.lookup jobId).map fun c => (jobId, c.state)).toList

def JobTask.next (now : Time) (host : JobHost) : JobTask → Option (JobHost × List JobTask)
  | inserting context =>
    match host.manager.insertContext context with
    | .error _ => some (host, [])
    | .ok manager => some (host.record manager context.jobId, [.allocating context.jobId])
  | allocating jobId => some ({ host with manager := host.manager.allocateMemory jobId }, [])
  | removing jobId =>
    match host.manager.removeContext jobId with
    | .error _ => some (host, [])
    | .ok (_, manager) => some ({ host with manager }, [.removingMemory jobId])
  | removingMemory jobId =>
    match host.manager.removeMemory jobId with
    | .error _ => some (host, [])
    | .ok (_, manager) => some ({ host with manager }, [])
  | changing jobId change =>
    match host.manager.updateContext jobId fun c => change.apply now c with
    | .error _ => some (host, [])
    | .ok (_, manager) => some (host.record manager jobId, [])

inductive JobAction where
  | call (c : JobCall)
  | step (i : Nat) (now : Time)

def jobStep (p : Pool JobHost JobTask) : JobAction → Option (Pool JobHost JobTask)
  | .call c => some (p.start c.task)
  | .step i now => p.advance JobTask.next i now

def JobHost.start (maxJobs : Nat) : Pool JobHost JobTask := ⟨⟨.new maxJobs, []⟩, []⟩

def JobTask.between : JobTask → Option Uuid
  | allocating jobId | removingMemory jobId => some jobId
  | _ => none

def Settled (tasks : List JobTask) (jobId : Uuid) : Prop := ∀ t ∈ tasks, t.between ≠ some jobId

/-- A job has both a context and a memory, or neither, unless a call is between them. -/
def Paired (p : Pool JobHost JobTask) : Prop :=
  ∀ jobId, Settled p.tasks jobId →
    (jobId ∈ p.shared.manager.contexts ↔ jobId ∈ p.shared.manager.memories)

/-- No job is in a state that a job cannot come to from one that it has been in. -/
structure Progressed (host : JobHost) : Prop where
  blocking : ∀ jobId state, (jobId, state) ∈ host.states → ¬ state.isParallelBlocking →
    ∀ c, host.manager.contexts.lookup jobId = some c → ¬ c.state.isParallelBlocking
  terminal : ∀ jobId state, (jobId, state) ∈ host.states → state.isTerminal →
    ∀ c, host.manager.contexts.lookup jobId = some c → c.state = state

structure Sound (maxJobs : Nat) (p : Pool JobHost JobTask) : Prop where
  slots : p.shared.manager.parallelCount ≤ maxJobs
  progressed : Progressed p.shared
  paired : Paired p

/-- A new job has a new id. A job's last call to take its second lock finds its context if it
allocates, and none if it removes. -/
def JobTask.Orderly (host : JobHost) (others : List JobTask) : JobTask → Prop
  | inserting context => host.manager.parallelCount < host.manager.maxJobs →
      ∀ state, (context.jobId, state) ∈ host.states → state.isParallelBlocking
  | allocating jobId => Settled others jobId → jobId ∈ host.manager.contexts
  | removingMemory jobId => Settled others jobId → jobId ∉ host.manager.contexts
  | _ => True

def Orderly (p : Pool JobHost JobTask) : JobAction → Prop
  | .step i _ => ∀ t, p.tasks[i]? = some t → t.Orderly p.shared (p.others i)
  | .call _ => True

/-- The limit is that of the start, states are recorded, and a job about to be inserted takes a
slot. -/
structure Recorded (maxJobs : Nat) (p : Pool JobHost JobTask) : Prop where
  limit : p.shared.manager.maxJobs = maxJobs
  slots : p.shared.manager.parallelCount ≤ maxJobs
  states : ∀ jobId c, p.shared.manager.contexts.lookup jobId = some c →
    (jobId, c.state) ∈ p.shared.states
  inserting : ∀ context, .inserting context ∈ p.tasks → context.state.isParallelBlocking

inductive JobTask.Step (now : Time) (host : JobHost) : JobTask → JobHost → List JobTask → Prop
  | refused (context : JobContext) (h : host.manager.maxJobs ≤ host.manager.parallelCount) :
      Step now host (.inserting context) host []
  | inserted (context : JobContext) (h : host.manager.parallelCount < host.manager.maxJobs) :
      Step now host (.inserting context)
        ⟨{ host.manager with contexts := host.manager.contexts.insert context.jobId context },
          host.states ++ [(context.jobId, context.state)]⟩ [.allocating context.jobId]
  | allocated (jobId : Uuid) :
      Step now host (.allocating jobId)
        { host with manager := host.manager.allocateMemory jobId } []
  | noContext (jobId : Uuid) : Step now host (.removing jobId) host []
  | contextRemoved (jobId : Uuid) :
      Step now host (.removing jobId)
        { host with manager :=
            { host.manager with contexts := host.manager.contexts.erase jobId } }
        [.removingMemory jobId]
  | noMemory (jobId : Uuid) (h : jobId ∉ host.manager.memories) :
      Step now host (.removingMemory jobId) host []
  | memoryRemoved (jobId : Uuid) :
      Step now host (.removingMemory jobId)
        { host with manager :=
            { host.manager with memories := host.manager.memories.erase jobId } } []
  | unknown (jobId : Uuid) (change : JobChange) : Step now host (.changing jobId change) host []
  | changed (jobId : Uuid) (change : JobChange) (c : JobContext)
      (h : host.manager.contexts.lookup jobId = some c) :
      Step now host (.changing jobId change)
        ⟨{ host.manager with
            contexts := HashMap.adjust host.manager.contexts jobId fun c =>
              (change.apply now c).2 },
          host.states ++ [(jobId, (change.apply now c).2.state)]⟩ []

theorem JobTask.next_cases {now : Time} {host host' : JobHost} {t : JobTask} {ts : List JobTask}
    (h : t.next now host = some (host', ts)) : t.Step now host host' ts := by
  cases t with
  | inserting context =>
    simp only [next, ContextManager.insertContext] at h
    split at h
    · rename_i hfull
      split at hfull
      · cases h
        exact .refused context ‹_›
      · cases hfull
    · rename_i hroom
      split at hroom
      · cases hroom
      · cases hroom
        cases h
        simp only [JobHost.record, AList.lookup_insert]
        exact .inserted context (by omega)
  | allocating jobId =>
    cases h
    exact .allocated jobId
  | removing jobId =>
    simp only [next, ContextManager.removeContext] at h
    cases hc : host.manager.contexts.lookup jobId with
    | none =>
      rw [hc] at h
      cases h
      exact .noContext jobId
    | some c =>
      rw [hc] at h
      cases h
      exact .contextRemoved jobId
  | removingMemory jobId =>
    simp only [next, ContextManager.removeMemory] at h
    cases hm : host.manager.memories.lookup jobId with
    | none =>
      rw [hm] at h
      cases h
      exact .noMemory jobId (AList.lookup_eq_none.mp hm)
    | some memory =>
      rw [hm] at h
      cases h
      exact .memoryRemoved jobId
  | changing jobId change =>
    simp only [next, ContextManager.updateContext] at h
    cases hc : host.manager.contexts.lookup jobId with
    | none =>
      rw [hc] at h
      cases h
      exact .unknown jobId change
    | some c =>
      rw [hc] at h
      cases h
      simp only [JobHost.record, HashMap.lookup_adjust, if_pos, hc, Option.map_some]
      exact .changed jobId change c hc

section Steps

variable {maxJobs : Nat} {p p' : Pool JobHost JobTask} {action : JobAction}
  {host host' : JobHost} {front back ts : List JobTask} {t : JobTask} {now : Time}

theorem recorded_call (h : Recorded maxJobs p) (c : JobCall) :
    Recorded maxJobs (p.start c.task) where
  limit := h.limit
  slots := h.slots
  states := h.states
  inserting := by
    intro context hmem
    rcases mem_append.mp hmem with hmem | hmem
    · exact h.inserting context hmem
    · have htask := mem_singleton.mp hmem
      cases c <;> cases htask <;> rfl

theorem JobTask.Step.tasks_cases (h : t.Step now host host' ts) : ts = [] ∨
    ∃ jobId, ts = [.allocating jobId] ∨ ts = [.removingMemory jobId] := by
  cases h with
  | inserted context => exact .inr ⟨context.jobId, .inl rfl⟩
  | contextRemoved jobId => exact .inr ⟨jobId, .inr rfl⟩
  | _ => exact .inl rfl

theorem recorded_step (h : Recorded maxJobs ⟨host, front ++ t :: back⟩)
    (hs : t.Step now host host' ts) : Recorded maxJobs ⟨host', front ++ ts ++ back⟩ := by
  have hinserting : ∀ context, .inserting context ∈ front ++ ts ++ back →
      context.state.isParallelBlocking := by
    intro context hmem
    refine h.inserting context ?_
    have hts : .inserting context ∉ ts := by
      rcases hs.tasks_cases with rfl | ⟨jobId, rfl | rfl⟩ <;> simp
    simp only [mem_append, mem_cons] at hmem ⊢
    tauto
  obtain ⟨hlimit, hslots, hstates, -⟩ := h
  cases hs with
  | refused context hfull => exact ⟨hlimit, hslots, hstates, hinserting⟩
  | inserted context hroom =>
    refine ⟨hlimit, ?_, fun jobId c hc => ?_, hinserting⟩
    · have hinsert : host.manager.insertContext context = .ok
          { host.manager with
            contexts := host.manager.contexts.insert context.jobId context } :=
        if_neg (by omega)
      exact Nat.le_trans (ContextManager.parallelCount_insertContext_le hinsert)
        (Nat.le_of_eq hlimit)
    · simp only [HashMap.lookup_insert] at hc
      apply mem_append.mpr
      split_ifs at hc with hid
      · cases hc
        exact .inr (mem_singleton.mpr (by rw [hid]))
      · exact .inl (hstates jobId c hc)
  | allocated jobId => exact ⟨hlimit, hslots, hstates, hinserting⟩
  | noContext jobId => exact ⟨hlimit, hslots, hstates, hinserting⟩
  | contextRemoved jobId =>
    refine ⟨hlimit, Nat.le_trans (host.manager.parallelCount_erase_le jobId) hslots,
      fun jobId' c hc => ?_, hinserting⟩
    simp only [HashMap.lookup_erase] at hc
    split_ifs at hc
    exact hstates jobId' c hc
  | noMemory jobId => exact ⟨hlimit, hslots, hstates, hinserting⟩
  | memoryRemoved jobId => exact ⟨hlimit, hslots, hstates, hinserting⟩
  | unknown jobId change => exact ⟨hlimit, hslots, hstates, hinserting⟩
  | changed jobId change c hc =>
    refine ⟨hlimit, Nat.le_trans (host.manager.parallelCount_adjust_le jobId now change) hslots,
      fun jobId' c' hc' => ?_, hinserting⟩
    simp only [HashMap.lookup_adjust] at hc'
    apply mem_append.mpr
    split_ifs at hc' with hid
    · subst hid
      rw [hc, Option.map_some] at hc'
      cases hc'
      exact .inr (mem_singleton.mpr rfl)
    · exact .inl (hstates jobId' c' hc')

theorem recorded_of_jobStep (h : Recorded maxJobs p) (hs : jobStep p action = some p') :
    Recorded maxJobs p' := by
  cases action with
  | call c =>
    cases hs
    exact recorded_call h c
  | step i now =>
    obtain ⟨front, t, back, host', ts, htasks, -, hnext, rfl⟩ := Pool.advance_eq_some_iff.mp hs
    refine recorded_step ?_ (JobTask.next_cases hnext)
    rw [← htasks]
    exact h

theorem paired_between {id : Uuid} (h : Paired ⟨host, front ++ t :: back⟩)
    (hts : ∃ t' ∈ ts, t'.between = some id) (hown : t.between = none)
    (hmemories : host'.manager.memories = host.manager.memories)
    (hcontexts : ∀ jobId, jobId ≠ id →
      (jobId ∈ host'.manager.contexts ↔ jobId ∈ host.manager.contexts)) :
    Paired ⟨host', front ++ ts ++ back⟩ := by
  intro jobId hsettled
  obtain ⟨t', ht', hid⟩ := hts
  have hne : jobId ≠ id := by
    rintro rfl
    exact hsettled t' (mem_append_left _ (mem_append_right _ ht')) hid
  show jobId ∈ host'.manager.contexts ↔ jobId ∈ host'.manager.memories
  rw [hcontexts jobId hne, hmemories]
  refine h jobId fun u hu => ?_
  rcases mem_append.mp hu with hu | hu
  · exact hsettled u (mem_append_left _ (mem_append_left _ hu))
  · rcases mem_cons.mp hu with rfl | hu
    · rw [hown]
      exact nofun
    · exact hsettled u (mem_append_right _ hu)

theorem paired_iff_of_memory {id : Uuid} (memories : HashMap Uuid Memory)
    (h : Paired ⟨host, front ++ t :: back⟩) (hbetween : t.between = some id)
    (hmemories : ∀ jobId, jobId ≠ id → (jobId ∈ memories ↔ jobId ∈ host.manager.memories)) :
    Paired ⟨{ host with manager := { host.manager with memories } }, front ++ [] ++ back⟩ ↔
      (Settled (front ++ back) id → (id ∈ host.manager.contexts ↔ id ∈ memories)) := by
  simp only [Paired, List.append_nil]
  constructor
  · exact fun hpaired => hpaired id
  · intro hid jobId hsettled
    rcases eq_or_ne jobId id with rfl | hne
    · exact hid hsettled
    · rw [hmemories jobId hne]
      refine h jobId fun u hu => ?_
      rcases mem_append.mp hu with hu | hu
      · exact hsettled u (mem_append_left _ hu)
      · rcases mem_cons.mp hu with rfl | hu
        · rw [hbetween]
          exact fun heq => hne (Option.some.inj heq).symm
        · exact hsettled u (mem_append_right _ hu)

theorem paired_done (h : Paired ⟨host, front ++ t :: back⟩) (hown : t.between = none)
    (hcontexts : ∀ jobId, jobId ∈ host'.manager.contexts ↔ jobId ∈ host.manager.contexts)
    (hmemories : host'.manager.memories = host.manager.memories) :
    Paired ⟨host', front ++ [] ++ back⟩ := by
  intro jobId hsettled
  show jobId ∈ host'.manager.contexts ↔ jobId ∈ host'.manager.memories
  rw [hcontexts jobId, hmemories]
  refine h jobId fun u hu => ?_
  rw [List.append_nil] at hsettled
  rcases mem_append.mp hu with hu | hu
  · exact hsettled u (mem_append_left _ hu)
  · rcases mem_cons.mp hu with rfl | hu
    · rw [hown]
      exact nofun
    · exact hsettled u (mem_append_right _ hu)

theorem progressed_insert_iff {context : JobContext} (h : Progressed host)
    (hblocking : context.state.isParallelBlocking) :
    Progressed ⟨{ host.manager with
        contexts := host.manager.contexts.insert context.jobId context },
      host.states ++ [(context.jobId, context.state)]⟩ ↔
      ∀ state, (context.jobId, state) ∈ host.states → state.isParallelBlocking := by
  constructor
  · intro hprogressed state hstate
    by_contra hleft
    exact hprogressed.blocking context.jobId state (mem_append_left _ hstate) hleft context
      (AList.lookup_insert _) hblocking
  · intro hnew
    refine ⟨fun jobId state hstate hleft c hc => ?_, fun jobId state hstate hend c hc => ?_⟩
    · simp only [HashMap.lookup_insert] at hc
      rcases mem_append.mp hstate with hstate | hstate
      · split_ifs at hc with hid
        · subst hid
          exact absurd (hnew state hstate) hleft
        · exact h.blocking jobId state hstate hleft c hc
      · cases mem_singleton.mp hstate
        exact absurd hblocking hleft
    · have hleft := JobState.not_isParallelBlocking_of_isTerminal hend
      simp only [HashMap.lookup_insert] at hc
      rcases mem_append.mp hstate with hstate | hstate
      · split_ifs at hc with hid
        · subst hid
          exact absurd (hnew state hstate) hleft
        · exact h.terminal jobId state hstate hend c hc
      · cases mem_singleton.mp hstate
        exact absurd hblocking hleft

theorem lookup_change_cases {contexts : HashMap Uuid JobContext} {jobId jobId' : Uuid}
    {change : JobChange} {c c' : JobContext} (hc : contexts.lookup jobId = some c)
    (hc' : (HashMap.adjust contexts jobId fun c => (change.apply now c).2).lookup jobId' =
      some c') : jobId' = jobId ∧ c' = (change.apply now c).2 ∨
      jobId' ≠ jobId ∧ contexts.lookup jobId' = some c' := by
  rw [HashMap.lookup_adjust] at hc'
  split_ifs at hc' with hid
  · rw [hid, hc, Option.map_some] at hc'
    exact .inl ⟨hid, (Option.some.inj hc').symm⟩
  · exact .inr ⟨hid, hc'⟩

theorem progressed_change {jobId : Uuid} {change : JobChange} {c : JobContext} (h : Progressed host)
    (hc : host.manager.contexts.lookup jobId = some c) :
    Progressed ⟨{ host.manager with
        contexts := HashMap.adjust host.manager.contexts jobId fun c =>
          (change.apply now c).2 },
      host.states ++ [(jobId, (change.apply now c).2.state)]⟩ := by
  refine ⟨fun jobId' state hstate hleft c' hc' => ?_, fun jobId' state hstate hend c' hc' => ?_⟩
  · rcases lookup_change_cases hc hc' with ⟨rfl, rfl⟩ | ⟨hne, hother⟩
    · rcases mem_append.mp hstate with hold | hnew
      · exact fun hback => h.blocking jobId' state hold hleft c hc
          (JobChange.isParallelBlocking_of_apply hback)
      · cases mem_singleton.mp hnew
        exact hleft
    · rcases mem_append.mp hstate with hold | hnew
      · exact h.blocking jobId' state hold hleft c' hother
      · exact absurd (congrArg Prod.fst (mem_singleton.mp hnew)) hne
  · rcases lookup_change_cases hc hc' with ⟨rfl, rfl⟩ | ⟨hne, hother⟩
    · rcases mem_append.mp hstate with hold | hnew
      · have hsame := h.terminal jobId' state hold hend c hc
        rw [← hsame] at hend ⊢
        exact JobChange.state_apply_of_isTerminal hend
      · cases mem_singleton.mp hnew
        rfl
    · rcases mem_append.mp hstate with hold | hnew
      · exact h.terminal jobId' state hold hend c' hother
      · exact absurd (congrArg Prod.fst (mem_singleton.mp hnew)) hne

theorem sound_of_jobStep (hp : Recorded maxJobs p) (h : Sound maxJobs p)
    (hs : jobStep p action = some p') : Sound maxJobs p' ↔ Orderly p action := by
  have hslots := (recorded_of_jobStep hp hs).slots
  cases action with
  | call c =>
    cases hs
    refine iff_of_true ⟨hslots, h.progressed, fun jobId hsettled => ?_⟩ trivial
    exact h.paired jobId fun t ht => hsettled t (mem_append_left _ ht)
  | step i now =>
    obtain ⟨front, t, back, host', ts, htasks, hi, hnext, rfl⟩ := Pool.advance_eq_some_iff.mp hs
    -- whether a step is orderly is a matter of the task at its place
    have horderly : Orderly p (.step i now) ↔ t.Orderly p.shared (front ++ back) := by
      have hget : p.tasks[i]? = some t := by simp [htasks, ← hi]
      rw [← Pool.others_eq htasks hi]
      refine ⟨fun hall => hall t hget, fun ht u hu => ?_⟩
      rw [hget] at hu
      cases hu
      exact ht
    rw [horderly]
    obtain ⟨host, tasks⟩ := p
    subst htasks
    obtain ⟨-, hprogressed, hpaired⟩ := h
    cases JobTask.next_cases hnext with
    | refused context hfull =>
      refine iff_of_true ⟨hslots, hprogressed, ?_⟩ fun hroom => absurd hroom (by omega)
      exact paired_done hpaired rfl (fun _ => Iff.rfl) rfl
    | inserted context hroom =>
      have hblocking := hp.inserting context (mem_append_right _ List.mem_cons_self)
      have hiff := progressed_insert_iff hprogressed hblocking
      refine ⟨fun hsound _ => hiff.mp hsound.progressed, fun hnew => ?_⟩
      refine ⟨hslots, hiff.mpr (hnew hroom),
        paired_between hpaired ⟨_, List.mem_singleton_self _, rfl⟩ rfl rfl fun jobId hne => ?_⟩
      simp only [AList.mem_insert, hne, false_or]
    | allocated jobId =>
      -- the task is done, and from now on the memory needs its context
      have hiff := paired_iff_of_memory (host.manager.memories.insert jobId ⟨jobId⟩) hpaired rfl
        fun id hne => by simp only [AList.mem_insert, hne, false_or]
      simp only [AList.mem_insert, true_or, iff_true] at hiff
      exact ⟨fun hsound => hiff.mp hsound.paired, fun hcontext =>
        ⟨hslots, ⟨hprogressed.blocking, hprogressed.terminal⟩, hiff.mpr hcontext⟩⟩
    | noContext jobId =>
      exact iff_of_true
        ⟨hslots, hprogressed, paired_done hpaired rfl (fun _ => Iff.rfl) rfl⟩ trivial
    | contextRemoved jobId =>
      refine iff_of_true ⟨hslots, ?_, ?_⟩ trivial
      · have hlookup : ∀ id c, (host.manager.contexts.erase jobId).lookup id = some c →
            host.manager.contexts.lookup id = some c := by
          intro id c hc
          rw [HashMap.lookup_erase] at hc
          split_ifs at hc
          exact hc
        exact ⟨fun id state hstate hleft c hc =>
            hprogressed.blocking id state hstate hleft c (hlookup id c hc),
          fun id state hstate hend c hc =>
            hprogressed.terminal id state hstate hend c (hlookup id c hc)⟩
      · refine paired_between hpaired ⟨_, List.mem_singleton_self _, rfl⟩ rfl rfl fun id hne => ?_
        simp only [AList.mem_erase, ne_eq, hne, not_false_iff, true_and]
    | noMemory jobId hmemory =>
      -- without a memory, the context has to be gone as well
      have hiff := paired_iff_of_memory host.manager.memories hpaired rfl fun _ _ => Iff.rfl
      simp only [hmemory, iff_false] at hiff
      exact ⟨fun hsound => hiff.mp hsound.paired,
        fun hcontext => ⟨hslots, hprogressed, hiff.mpr hcontext⟩⟩
    | memoryRemoved jobId =>
      have hiff := paired_iff_of_memory (host.manager.memories.erase jobId) hpaired rfl
        fun id hne => by simp only [AList.mem_erase, ne_eq, hne, not_false_iff, true_and]
      simp only [AList.mem_erase, ne_eq, not_true, false_and, iff_false] at hiff
      exact ⟨fun hsound => hiff.mp hsound.paired, fun hcontext =>
        ⟨hslots, ⟨hprogressed.blocking, hprogressed.terminal⟩, hiff.mpr hcontext⟩⟩
    | unknown jobId change =>
      exact iff_of_true
        ⟨hslots, hprogressed, paired_done hpaired rfl (fun _ => Iff.rfl) rfl⟩ trivial
    | changed jobId change c hc =>
      refine iff_of_true ⟨hslots, progressed_change hprogressed hc, ?_⟩ trivial
      refine paired_done hpaired rfl (fun id => ?_) rfl
      simp only [HashMap.mem_iff_exists_lookup, HashMap.lookup_adjust]
      split_ifs <;> simp

end Steps

theorem recorded_start (maxJobs : Nat) : Recorded maxJobs (JobHost.start maxJobs) where
  limit := rfl
  slots := Nat.zero_le _
  states := nofun
  inserting := fun _ hmem => absurd hmem not_mem_nil

theorem sound_start (maxJobs : Nat) : Sound maxJobs (JobHost.start maxJobs) where
  slots := Nat.zero_le _
  progressed := ⟨fun _ _ hmem => absurd hmem not_mem_nil,
    fun _ _ hmem => absurd hmem not_mem_nil⟩
  paired := fun _ _ => Iff.rfl

/-- **What keeps the promises.** Slots, progress and memories hold throughout exactly if every step
is orderly. -/
theorem sound_iff_orderly {maxJobs : Nat} {p : Pool JobHost JobTask} {actions : List JobAction}
    (hrun : run jobStep (JobHost.start maxJobs) actions = some p) :
    Throughout jobStep (Sound maxJobs) (JobHost.start maxJobs) actions ↔
      Along jobStep Orderly (JobHost.start maxJobs) actions :=
  throughout_iff_along (fun _ _ _ => recorded_of_jobStep) (fun _ _ _ => sound_of_jobStep)
    (recorded_start maxJobs) (sound_start maxJobs) hrun

theorem sound_of_completed_job : Throughout jobStep (Sound 1) (JobHost.start 1)
    [.call (.registerSandboxJob 7 0 "user" "build" ""), .step 0 0, .step 0 0,
      .call (.changeState 7 (.transitionTo .completed none)), .step 0 5,
      .call (.removeJob 7), .step 0 6, .step 0 6] := by
  obtain ⟨p, hrun⟩ : ∃ p, run jobStep (JobHost.start 1)
    [.call (.registerSandboxJob 7 0 "user" "build" ""), .step 0 0, .step 0 0,
      .call (.changeState 7 (.transitionTo .completed none)), .step 0 5,
      .call (.removeJob 7), .step 0 6, .step 0 6] = some p := ⟨_, rfl⟩
  refine (sound_iff_orderly hrun).mpr ?_
  refine .of_step rfl trivial (.of_step rfl ?_ (.of_step rfl ?_ (.of_step rfl trivial
    (.of_step rfl ?_ (.of_step rfl trivial (.of_step rfl ?_ (.of_step rfl ?_ trivial)))))))
  · rintro t ⟨rfl⟩ - state hmem
    exact absurd hmem not_mem_nil
  · rintro t ⟨rfl⟩ -
    decide
  · rintro t ⟨rfl⟩
    trivial
  · rintro t ⟨rfl⟩
    trivial
  · rintro t ⟨rfl⟩ -
    decide

/-- A removal comes between the parts of a registration, and a registration revives a job. -/
theorem orphaned_memory_and_revived_job : (∃ p, run jobStep (JobHost.start 1)
        [.call (.registerSandboxJob 7 0 "user" "build" ""), .step 0 0, .call (.removeJob 7),
          .step 1 1, .step 1 1, .step 0 2] = some p ∧
      p.tasks.length = 0 ∧ 7 ∈ p.shared.manager.memories ∧ 7 ∉ p.shared.manager.contexts) ∧
    ∃ p, run jobStep (JobHost.start 1)
        [.call (.registerSandboxJob 7 0 "user" "build" ""), .step 0 0, .step 0 0,
          .call (.changeState 7 (.transitionTo .failed none)), .step 0 1,
          .call (.registerSandboxJob 7 2 "user" "build" ""), .step 0 2, .step 0 2] = some p ∧
      (7, .failed) ∈ p.shared.states ∧
      (p.shared.manager.contexts.lookup 7).map JobContext.state = some .inProgress := by
  refine ⟨⟨_, rfl, ?_⟩, ⟨_, rfl, ?_⟩⟩ <;> decide

end IronClaw.Context
