import IronClaw.Context.Manager
import IronClaw.Foundation.Effect

/-!
# Admission of jobs

A dispatch makes a context for a job, saves it, and schedules the job. The context takes a slot
before the limits are looked at, and no error takes it back.
-/

namespace IronClaw.Jobs

open Context (ContextManager JobChange JobContext JobError JobState Time Uuid)
open Foundation (Along Effect HashMap Json along_congr run)
open Foundation.Effect (exec exec_bind exec_bind_ok exec_get require)
open Tools (ApprovalContext)

structure AgentConfig where
  maxParallelJobs : Nat
  maxJobsPerUser : Option Nat
  /-- No limit if it is 0. -/
  maxTokensPerJob : Nat

structure ScheduledJob where
  approvalContext : Option ApprovalContext

structure Scheduler where
  config : AgentConfig
  contextManager : ContextManager
  hasStore : Bool
  jobs : HashMap Uuid ScheduledJob

/-- A dispatch: what is asked for, the new job's id and time, and an error of saving. -/
structure Dispatch where
  jobId : Uuid
  now : Time
  userId : String
  title : String
  description : String
  metadata : Option Json
  approvalContext : Option ApprovalContext
  saveError : JobContext → Option String

def AgentConfig.maxTokens (config : AgentConfig) (metadata : Option Json) : Nat :=
  match (metadata.bind (Json.get "max_tokens".toList)).bind Json.asU64 with
  | some userVal =>
    if config.maxTokensPerJob = 0 then userVal else min userVal config.maxTokensPerJob
  | none => config.maxTokensPerJob

/-- The context with metadata, token limit and approval context, as far as there are any. -/
def Dispatch.applied (d : Dispatch) (maxTokens : Nat) (ctx : JobContext) : JobContext :=
  { ctx with
    metadata := d.metadata.getD ctx.metadata
    maxTokens := if 0 < maxTokens then maxTokens else ctx.maxTokens
    approvalContext := d.approvalContext.orElse fun _ => ctx.approvalContext }

def createJobForUser (d : Dispatch) : Effect Scheduler JobError Unit := do
  let s ← get
  let manager ← Effect.ofExcept (s.contextManager.insertContext
    (.withUser d.jobId d.now d.userId d.title d.description))
  set { s with contextManager := manager.allocateMemory d.jobId }

def updateContext {R : Type} (jobId : Uuid) (f : JobContext → R × JobContext) :
    Effect Scheduler JobError R := do
  let s ← get
  let (result, manager) ← Effect.ofExcept (s.contextManager.updateContext jobId f)
  set { s with contextManager := manager }
  pure result

def updateContextAndGet (jobId : Uuid) (f : JobContext → JobContext) :
    Effect Scheduler JobError JobContext :=
  updateContext jobId fun ctx => (f ctx, f ctx)

def getContext (jobId : Uuid) : Effect Scheduler JobError JobContext := do
  let s ← get
  match s.contextManager.contexts.lookup jobId with
  | some ctx => pure ctx
  | none => throw (.notFound jobId)

def saveJob (d : Dispatch) (ctx : JobContext) : Effect Scheduler JobError Unit := do
  let s ← get
  if s.hasStore then
    match d.saveError ctx with
    | some e => throw (.failed d.jobId ("failed to persist job: " ++ e))
    | none => pure ()

def checkUserLimit (jobId : Uuid) : Effect Scheduler JobError Unit := do
  let s ← get
  match s.config.maxJobsPerUser, s.contextManager.contexts.lookup jobId with
  | some maxPerUser, some ctx =>
    require (s.contextManager.parallelBlockingCountFor ctx.userId < maxPerUser)
      (.maxJobsExceeded maxPerUser)
  | _, _ => pure ()

def scheduleWithContext (jobId : Uuid) (now : Time) (approvalContext : Option ApprovalContext) :
    Effect Scheduler JobError Unit := do
  let s ← get
  if jobId ∈ s.jobs then pure ()
  else
    require (s.jobs.keys.length < s.config.maxParallelJobs)
      (.maxJobsExceeded s.config.maxParallelJobs)
    checkUserLimit jobId
    let result ← updateContext jobId fun ctx =>
      ctx.transitionTo now .inProgress (some "Scheduled for execution")
    match result with
    | .error reason => throw (.contextError jobId reason)
    | .ok () => modify fun s => { s with jobs := s.jobs.insert jobId ⟨approvalContext⟩ }

def applyDispatch (d : Dispatch) : Effect Scheduler JobError JobContext := do
  let s ← get
  let maxTokens := s.config.maxTokens d.metadata
  let needsUpdate := d.metadata.isSome || 0 < maxTokens || d.approvalContext.isSome
  if needsUpdate then updateContextAndGet d.jobId (d.applied maxTokens) else getContext d.jobId

def dispatchJobInner (d : Dispatch) : Effect Scheduler JobError Uuid := do
  createJobForUser d
  let ctx ← applyDispatch d
  saveJob d ctx
  scheduleWithContext d.jobId d.now d.approvalContext
  pure d.jobId

def Dispatch.context (d : Dispatch) (config : AgentConfig) : JobContext :=
  d.applied (config.maxTokens d.metadata) (.withUser d.jobId d.now d.userId d.title d.description)

namespace Scheduler

variable (s : Scheduler) (d : Dispatch)

def blocking : Nat := s.contextManager.parallelCount

def blockingFor (userId : String) : Nat := s.contextManager.parallelBlockingCountFor userId

def Saves : Prop := s.hasStore = true → d.saveError (d.context s.config) = none

/-- User, scheduler and manager all have a slot left, and the job can be saved. -/
structure Admits : Prop where
  user : ∀ max ∈ s.config.maxJobsPerUser, s.blockingFor d.userId < max
  parallel : s.jobs.keys.length < s.config.maxParallelJobs
  contexts : s.blocking < s.contextManager.maxJobs
  saves : s.Saves d

/-- A dispatch is accepted exactly if there is a slot for it, and else takes none. -/
structure Exact : Prop where
  admission : (exec (dispatchJobInner d) s).1.isOk = true ↔ s.Admits d
  atomic : (exec (dispatchJobInner d) s).1.isOk = false →
    (exec (dispatchJobInner d) s).2.blocking = s.blocking ∧
      (exec (dispatchJobInner d) s).2.blockingFor d.userId = s.blockingFor d.userId

/-- Nothing is in the way of the context, and the limit leaves room for another job. -/
structure Clear : Prop where
  user : ∀ max ∈ s.config.maxJobsPerUser, s.blockingFor d.userId + 1 < max
  parallel : s.jobs.keys.length < s.config.maxParallelJobs
  saves : s.Saves d

/-- The dispatch is refused before a context is made, or nothing is in its way. -/
def Roomy : Prop := s.contextManager.maxJobs ≤ s.blocking ∨ s.Clear d

def withContext (ctx : JobContext) : Scheduler :=
  { s with contextManager := { s.contextManager with
      contexts := s.contextManager.contexts.insert ctx.jobId ctx
      memories := s.contextManager.memories.insert ctx.jobId ⟨ctx.jobId⟩ } }

end Scheduler

section Dispatches

variable {s : Scheduler} {d : Dispatch} {ctx : JobContext}

theorem blocking_withContext (h : ctx.jobId ∉ s.contextManager.contexts)
    (hblocking : ctx.state.isParallelBlocking = true) :
    (s.withContext ctx).blocking = s.blocking + 1 := by
  simp only [Scheduler.blocking, ContextManager.parallelCount, Scheduler.withContext]
  rw [HashMap.countP_values_insert_of_not_mem h, hblocking]
  rfl

theorem blockingFor_withContext (h : ctx.jobId ∉ s.contextManager.contexts)
    (hblocking : ctx.state.isParallelBlocking = true) :
    (s.withContext ctx).blockingFor ctx.userId = s.blockingFor ctx.userId + 1 := by
  simp only [Scheduler.blockingFor, ContextManager.parallelBlockingCountFor, Scheduler.withContext]
  rw [HashMap.countP_values_insert_of_not_mem h, hblocking, beq_self_eq_true]
  rfl

theorem exec_createJobForUser : exec (createJobForUser d) s =
    if s.contextManager.maxJobs ≤ s.blocking then
      (.error (.maxJobsExceeded s.contextManager.maxJobs), s)
    else (.ok (), s.withContext (.withUser d.jobId d.now d.userId d.title d.description)) := by
  rw [createJobForUser, exec_bind, exec_get]
  dsimp only
  rw [exec_bind, Effect.exec_ofExcept, ContextManager.insertContext, Scheduler.blocking]
  split_ifs <;> rfl

theorem exec_updateContext {R : Type} {f : JobContext → R × JobContext} {jobId : Uuid}
    (hid : ctx.jobId = jobId) (hf : (f ctx).2.jobId = jobId) :
    exec (updateContext jobId f) (s.withContext ctx) =
      (.ok (f ctx).1, s.withContext (f ctx).2) := by
  subst hid
  have hupdate : (s.withContext ctx).contextManager.updateContext ctx.jobId f =
      .ok ((f ctx).1, (s.withContext (f ctx).2).contextManager) := by
    simp only [ContextManager.updateContext, Scheduler.withContext, AList.lookup_insert,
      HashMap.adjust_insert, hf]
  rw [updateContext, exec_bind, exec_get]
  dsimp only
  rw [exec_bind, Effect.exec_ofExcept, hupdate]
  rfl

theorem exec_checkUserLimit (hid : ctx.jobId = d.jobId) (huser : ctx.userId = d.userId)
    (hfresh : d.jobId ∉ s.contextManager.contexts)
    (hblocking : ctx.state.isParallelBlocking = true) :
    (exec (checkUserLimit d.jobId) (s.withContext ctx)).2 = s.withContext ctx ∧
      ((exec (checkUserLimit d.jobId) (s.withContext ctx)).1.isOk = true ↔
        ∀ max ∈ s.config.maxJobsPerUser, s.blockingFor d.userId + 1 < max) := by
  have hlookup : (s.withContext ctx).contextManager.contexts.lookup d.jobId = some ctx := by
    rw [← hid]
    exact AList.lookup_insert _
  have hcount : (s.withContext ctx).contextManager.parallelBlockingCountFor ctx.userId =
      s.blockingFor d.userId + 1 := by
    rw [← huser]
    exact blockingFor_withContext (hid ▸ hfresh) hblocking
  have hconfig : (s.withContext ctx).config = s.config := rfl
  rw [checkUserLimit, exec_bind, exec_get]
  dsimp only
  rw [hlookup, hconfig]
  cases s.config.maxJobsPerUser with
  | none => exact ⟨rfl, iff_of_true rfl nofun⟩
  | some max =>
    dsimp only
    rw [hcount, require]
    by_cases hroom : s.blockingFor d.userId + 1 < max
    · simp [hroom, Except.isOk, Except.toBool]
    · simp [hroom, Except.isOk, Except.toBool]

theorem exec_scheduleWithContext {now : Time} {approvalContext : Option ApprovalContext}
    (hid : ctx.jobId = d.jobId) (huser : ctx.userId = d.userId) (hpending : ctx.state = .pending)
    (hfresh : d.jobId ∉ s.contextManager.contexts) (hjob : d.jobId ∉ s.jobs) :
    let r := exec (scheduleWithContext d.jobId now approvalContext) (s.withContext ctx)
    (r.1.isOk = true ↔ s.jobs.keys.length < s.config.maxParallelJobs ∧
        ∀ max ∈ s.config.maxJobsPerUser, s.blockingFor d.userId + 1 < max) ∧
      (r.1.isOk = false → r.2 = s.withContext ctx) := by
  have hblocking : ctx.state.isParallelBlocking = true := by rw [hpending]; rfl
  obtain ⟨hstate, hlimit⟩ := exec_checkUserLimit hid huser hfresh hblocking
  have hunscheduled : d.jobId ∉ (s.withContext ctx).jobs := hjob
  rw [scheduleWithContext, exec_bind, exec_get]
  dsimp only
  rw [if_neg hunscheduled, exec_bind, require]
  by_cases hparallel : s.jobs.keys.length < s.config.maxParallelJobs
  swap
  · have hfull : ¬ (s.withContext ctx).jobs.keys.length <
      (s.withContext ctx).config.maxParallelJobs := hparallel
    simp [hfull, hparallel, Except.isOk, Except.toBool]
  have hroom : (s.withContext ctx).jobs.keys.length <
    (s.withContext ctx).config.maxParallelJobs := hparallel
  simp only [hroom, decide_true, if_true, Effect.exec_pure, hparallel, true_and]
  rw [exec_bind]
  rcases hcheck : exec (checkUserLimit d.jobId) (s.withContext ctx) with ⟨r, s'⟩
  rw [hcheck] at hstate hlimit
  have hs' : s' = s.withContext ctx := hstate
  subst hs'
  cases r with
  | error e => exact ⟨hlimit, fun _ => rfl⟩
  | ok u =>
    -- the transition from pending succeeds, and what follows it cannot fail
    have htransition : ctx.transitionTo now .inProgress (some "Scheduled for execution") =
        (.ok (), (ctx.transitionTo now .inProgress (some "Scheduled for execution")).2) := by
      simp [JobContext.transitionTo, hpending, JobState.canTransitionTo]
    have hjobId : (ctx.transitionTo now .inProgress (some "Scheduled for execution")).2.jobId =
        d.jobId := by
      simp [JobContext.transitionTo, hpending, JobState.canTransitionTo, JobContext.stamped, hid]
    dsimp only
    rw [exec_bind, exec_updateContext hid hjobId, htransition]
    exact ⟨iff_of_true rfl (hlimit.mp rfl), fun h => by cases h⟩

inductive Outcome (s : Scheduler) (d : Dispatch) : Except JobError Uuid × Scheduler → Prop where
  | full (hfull : s.contextManager.maxJobs ≤ s.blocking) (e : JobError) : Outcome s d (.error e, s)
  | refused (hroom : s.blocking < s.contextManager.maxJobs) (hclear : ¬ s.Clear d) (e : JobError) :
      Outcome s d (.error e, s.withContext (d.context s.config))
  | accepted (hroom : s.blocking < s.contextManager.maxJobs) (hclear : s.Clear d) (s' : Scheduler) :
      Outcome s d (.ok d.jobId, s')

theorem exec_saveJob : exec (saveJob d ctx) s =
    if s.hasStore = true then
      match d.saveError ctx with
      | some e => (.error (.failed d.jobId ("failed to persist job: " ++ e)), s)
      | none => (.ok (), s)
    else (.ok (), s) := by
  rw [saveJob, exec_bind, exec_get]
  dsimp only
  split_ifs
  · cases d.saveError ctx <;> rfl
  · rfl

theorem outcome_scheduled (hroom : s.blocking < s.contextManager.maxJobs) (hsaves : s.Saves d)
    {x : Effect Scheduler JobError Unit}
    (hscheduled : (exec x (s.withContext (d.context s.config))).1.isOk = true ↔
      s.jobs.keys.length < s.config.maxParallelJobs ∧
        ∀ max ∈ s.config.maxJobsPerUser, s.blockingFor d.userId + 1 < max)
    (hkept : (exec x (s.withContext (d.context s.config))).1.isOk = false →
      (exec x (s.withContext (d.context s.config))).2 = s.withContext (d.context s.config)) :
    Outcome s d (exec (x >>= fun _ => pure d.jobId) (s.withContext (d.context s.config))) := by
  rw [exec_bind]
  rcases hx : exec x (s.withContext (d.context s.config)) with ⟨r, s'⟩
  rw [hx] at hscheduled hkept
  cases r with
  | error e =>
    have hs' : s' = s.withContext (d.context s.config) := hkept rfl
    rw [hs']
    refine .refused hroom (fun hclear => ?_) e
    cases hscheduled.mpr ⟨hclear.parallel, hclear.user⟩
  | ok u =>
    obtain ⟨hparallel, huser⟩ := hscheduled.mp rfl
    exact .accepted hroom ⟨huser, hparallel, hsaves⟩ s'

theorem exec_applyDispatch : exec (applyDispatch d)
        (s.withContext (.withUser d.jobId d.now d.userId d.title d.description)) =
      (.ok (d.context s.config), s.withContext (d.context s.config)) := by
  have hconfig : ∀ ctx, (s.withContext ctx).config = s.config := fun _ => rfl
  rw [applyDispatch, exec_bind, exec_get]
  dsimp only
  rw [hconfig]
  split_ifs with hneeded
  · exact exec_updateContext rfl rfl
  · have hsame : d.context s.config = .withUser d.jobId d.now d.userId d.title d.description := by
      simp only [Bool.or_eq_true, not_or, Bool.not_eq_true, Option.isSome_eq_false_iff,
        Option.isNone_iff_eq_none, decide_eq_true_eq] at hneeded
      obtain ⟨⟨hmetadata, htokens⟩, happroval⟩ := hneeded
      rw [hmetadata] at htokens
      simp only [Dispatch.context, Dispatch.applied, hmetadata, happroval, if_neg htokens]
      rfl
    have hlookup : (s.withContext (d.context s.config)).contextManager.contexts.lookup d.jobId =
        some (d.context s.config) := AList.lookup_insert _
    rw [← hsame, getContext, exec_bind, exec_get]
    dsimp only
    rw [hlookup]
    rfl

theorem outcome_dispatchJobInner (hfresh : d.jobId ∉ s.contextManager.contexts)
    (hjob : d.jobId ∉ s.jobs) : Outcome s d (exec (dispatchJobInner d) s) := by
  rw [dispatchJobInner, exec_bind, exec_createJobForUser]
  split_ifs with hfull
  · exact .full hfull _
  have hroom : s.blocking < s.contextManager.maxJobs := by omega
  have hsaved : (s.withContext (d.context s.config)).hasStore = s.hasStore := rfl
  obtain ⟨hscheduled, hkept⟩ := @exec_scheduleWithContext s d (d.context s.config) d.now
    d.approvalContext rfl rfl rfl hfresh hjob
  dsimp only
  rw [exec_bind_ok exec_applyDispatch, exec_bind, exec_saveJob, hsaved]
  split_ifs with hstore
  · cases herror : d.saveError (d.context s.config) with
    | some e =>
      refine .refused hroom (fun hclear => ?_) _
      exact absurd (hclear.saves hstore) (by rw [herror]; exact nofun)
    | none => exact outcome_scheduled hroom (fun _ => herror) hscheduled hkept
  · exact outcome_scheduled hroom (fun h => absurd h hstore) hscheduled hkept

theorem exact_iff (hfresh : d.jobId ∉ s.contextManager.contexts) (hjob : d.jobId ∉ s.jobs) :
    s.Exact d ↔ s.Roomy d := by
  have houtcome := outcome_dispatchJobInner hfresh hjob
  have hkept : s.Exact d ↔ (∀ r, exec (dispatchJobInner d) s = r →
      (r.1.isOk = true ↔ s.Admits d) ∧ (r.1.isOk = false → r.2.blocking = s.blocking ∧
        r.2.blockingFor d.userId = s.blockingFor d.userId)) := by
    constructor
    · rintro ⟨hadmission, hatomic⟩ r rfl
      exact ⟨hadmission, hatomic⟩
    · intro h
      exact ⟨(h _ rfl).1, (h _ rfl).2⟩
  rw [hkept, forall_eq']
  generalize exec (dispatchJobInner d) s = r at houtcome
  cases houtcome with
  | full hfull e =>
    have hnone : ¬ s.Admits d := fun h => absurd h.contexts (by omega)
    exact iff_of_true ⟨iff_of_false nofun hnone, fun _ => ⟨rfl, rfl⟩⟩ (.inl hfull)
  | refused hroom hclear e =>
    -- the context of the refused job is still there
    have hmore := @blocking_withContext s (d.context s.config) hfresh rfl
    refine iff_of_false (fun h => ?_) (fun h => ?_)
    · have hsame : (s.withContext (d.context s.config)).blocking = s.blocking := (h.2 rfl).1
      omega
    · rcases h with h | h
      · omega
      · exact hclear h
  | accepted hroom hclear s' =>
    refine iff_of_true ⟨iff_of_true rfl ⟨fun max hmax => ?_, hclear.parallel, hroom,
      hclear.saves⟩, nofun⟩ (.inr hclear)
    have := hclear.user max hmax
    omega

end Dispatches

/-- Jobs are dispatched, registered, removed, change states, and leave the scheduler. -/
inductive SchedulerAction where
  | dispatch (d : Dispatch)
  | changeState (jobId : Uuid) (now : Time) (change : JobChange)
  | registerSandboxJob (jobId : Uuid) (now : Time) (userId title description : String)
  | removeJob (jobId : Uuid)
  | cleanup (jobId : Uuid)

/-- One action. A new job gets an id that no other job has. -/
def schedulerStep (s : Scheduler) : SchedulerAction → Option Scheduler
  | .dispatch d =>
    if d.jobId ∈ s.contextManager.contexts ∨ d.jobId ∈ s.jobs then none
    else some (exec (dispatchJobInner d) s).2
  | .changeState jobId now change =>
    match s.contextManager.updateContext jobId fun c => change.apply now c with
    | .error _ => some s
    | .ok (_, manager) => some { s with contextManager := manager }
  | .registerSandboxJob jobId now userId title description =>
    match s.contextManager.insertContext { JobContext.withUser jobId now userId title description
      with state := .inProgress, startedAt := some now } with
    | .error _ => some s
    | .ok manager => some { s with contextManager := manager.allocateMemory jobId }
  | .removeJob jobId =>
    match s.contextManager.removeContext jobId with
    | .error _ => some s
    | .ok (_, manager) => some { s with contextManager := manager }
  | .cleanup jobId => some { s with jobs := s.jobs.erase jobId }

/-- The promises of a step: a dispatch keeps its own. -/
def Exact (s : Scheduler) : SchedulerAction → Prop
  | .dispatch d => s.Exact d
  | _ => True

def Roomy (s : Scheduler) : SchedulerAction → Prop
  | .dispatch d => s.Roomy d
  | _ => True

def Scheduler.new (config : AgentConfig) (maxJobs : Nat) (hasStore : Bool) : Scheduler :=
  ⟨config, .new maxJobs, hasStore, ∅⟩

/-- **Exact admission.** Dispatches are decided as promised exactly if they find room. -/
theorem exact_iff_roomy {config : AgentConfig} {maxJobs : Nat} {hasStore : Bool}
    {actions : List SchedulerAction} {s : Scheduler}
    (hrun : run schedulerStep (.new config maxJobs hasStore) actions = some s) :
    Along schedulerStep Exact (.new config maxJobs hasStore) actions ↔
      Along schedulerStep Roomy (.new config maxJobs hasStore) actions := by
  refine along_congr (fun s a s' hs => ?_) hrun
  cases a with
  | dispatch d =>
    rw [schedulerStep] at hs
    split_ifs at hs with hnew
    obtain ⟨hfresh, hjob⟩ := not_or.mp hnew
    exact exact_iff hfresh hjob
  | _ => exact Iff.rfl

instance (s : Scheduler) (d : Dispatch) : Decidable (s.Saves d) :=
  inferInstanceAs (Decidable (s.hasStore = true → d.saveError (d.context s.config) = none))

instance (s : Scheduler) (d : Dispatch) : Decidable (s.Clear d) :=
  decidable_of_iff ((∀ max ∈ s.config.maxJobsPerUser, s.blockingFor d.userId + 1 < max) ∧
    s.jobs.keys.length < s.config.maxParallelJobs ∧ s.Saves d)
    ⟨fun h => ⟨h.1, h.2.1, h.2.2⟩, fun h => ⟨h.user, h.parallel, h.saves⟩⟩

instance (s : Scheduler) (a : SchedulerAction) : Decidable (Roomy s a) :=
  match a with
  | .dispatch d => inferInstanceAs (Decidable (s.contextManager.maxJobs ≤ s.blocking ∨ s.Clear d))
  | .changeState _ _ _ => isTrue trivial
  | .registerSandboxJob _ _ _ _ _ => isTrue trivial
  | .removeJob _ => isTrue trivial
  | .cleanup _ => isTrue trivial

def sampleConfig : AgentConfig := ⟨4, some 2, 1000⟩

def sampleDispatch (jobId : Uuid) : Dispatch :=
  ⟨jobId, 0, "user", "build", "", none, some (.autonomous []), fun _ => none⟩

/-- One job after the other, with the first one cancelled before the second. -/
theorem exact_one_by_one : Along schedulerStep Exact (.new sampleConfig 4 true)
    [.dispatch (sampleDispatch 1), .changeState 1 5 (.transitionTo .cancelled none), .cleanup 1,
      .dispatch (sampleDispatch 2)] := by
  obtain ⟨s, hrun⟩ : ∃ s, run schedulerStep (.new sampleConfig 4 true)
    [.dispatch (sampleDispatch 1), .changeState 1 5 (.transitionTo .cancelled none), .cleanup 1,
      .dispatch (sampleDispatch 2)] = some s := ⟨_, rfl⟩
  apply (exact_iff_roomy hrun).mpr
  decide +kernel

/-- Of a user who may have two jobs at once, the second one is refused, and keeps its slot. -/
theorem second_job_refused : ¬ Along schedulerStep Exact (.new sampleConfig 4 true)
        [.dispatch (sampleDispatch 1), .dispatch (sampleDispatch 2)] ∧
      ∃ s s', run schedulerStep (.new sampleConfig 4 true) [.dispatch (sampleDispatch 1)] =
          some s ∧ s.Admits (sampleDispatch 2) ∧
        exec (dispatchJobInner (sampleDispatch 2)) s = (.error (.maxJobsExceeded 2), s') ∧
        s.blocking = 1 ∧ s'.blocking = 2 := by
  constructor
  · intro h
    have hsecond := (h.2 _ rfl).1
    have hok := hsecond.admission.mpr ⟨by decide, by decide, by decide, by decide⟩
    cases hok
  · exact ⟨_, _, rfl, ⟨by decide, by decide, by decide, by decide⟩, rfl, rfl, rfl⟩

end IronClaw.Jobs
