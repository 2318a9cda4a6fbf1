import IronClaw.Jobs.Stopping

/-!
# No work after the end of a job

The loop of a worker looks at its job when it checks its signals, and a tool call looks whether it
is cancelled. A job that ends during a call of the model goes on with the reply, a plan until it is
done.
-/

namespace IronClaw.Jobs

open Context (JobChange JobContext JobState Time)
open Foundation (Along run)
open Llm (ToolCall)
open Tools (ToolRegistry executed_executeToolInner)

/-- No tool is executed of a batch taken up after the end, and the budget is exceeded by one call at
most. -/
structure NoWorkAfterEnd (h : JobHost) : Prop where
  executed : ∀ e ∈ h.executed, stopsLoop e.takenUp = false
  tokens : h.context.maxTokens = 0 ∨ h.context.totalTokensUsed ≤ h.context.maxTokens ∨
    ∃ usage ∈ h.usages, h.context.totalTokensUsed ≤ h.context.maxTokens + usage

def endsUnseen : JobState → Bool
  | .failed | .completed | .submitted | .accepted => true
  | _ => false

namespace JobHost

variable (h : JobHost)

def takesUp : Bool :=
  match h.position with
  | .handling _ (.toolCalls (_ :: _) false) => true
  | .plan (_ :: _) => (drainForPlan h.channel).2.isNone
  | _ => false

/-- The next step puts a follow-up message in front of a call of the model. -/
def injects : Bool :=
  match h.position with
  | .checking _ =>
    !h.channel.contains .stop && (h.channel.findSome? WorkerMessage.userText?).isSome
  | _ => false

def WithinBudget : Prop :=
  h.context.maxTokens = 0 ∨ h.context.totalTokensUsed ≤ h.context.maxTokens

end JobHost

/-- A batch is taken up before the end, or when cancelled, and within the budget. -/
def Orderly (h : JobHost) : HostEvent → Prop
  | .work _ _ => (h.takesUp = true → endsUnseen h.context.state = false) ∧
    (h.injects = true → h.WithinBudget)
  | _ => True

namespace Position

/-- Where the worker can be after it has marked the job. -/
def isRest : Position → Bool
  | handling _ _ | planned | ended _ | finished => true
  | _ => false

def isStarted : Position → Bool
  | waiting => false
  | marking _ onOk onError => onOk.isRest && onError.isRest
  | _ => true

def isProper : Position → Bool
  | waiting => true
  | position => position.isStarted

def batch? : Position → Option Batch
  | executingAction batch _ | executing _ batch => some batch
  | _ => none

def isCalling : Position → Bool
  | calling _ => true
  | _ => false

def isEnd : Position → Bool
  | ended _ | finished => true
  | _ => false

def isOver : Position → Bool
  | marking _ onOk onError => onOk.isEnd && onError.isEnd
  | position => position.isEnd

variable {position : Position}

theorem batch?_of_isRest (h : position.isRest = true) : position.batch? = none := by
  cases position <;> first | rfl | cases h

theorem isCalling_of_isRest (h : position.isRest = true) : position.isCalling = false := by
  cases position <;> first | rfl | cases h

theorem isStarted_of_isRest (h : position.isRest = true) : position.isStarted = true := by
  cases position <;> first | rfl | cases h

theorem isProper_of_isStarted (h : position.isStarted = true) : position.isProper = true := by
  cases position <;> first | exact h | cases h

theorem isOver_of_isEnd (h : position.isEnd = true) : position.isOver = true := by
  cases position <;> first | rfl | cases h

theorem isCalling_of_isOver (h : position.isOver = true) : position.isCalling = false := by
  cases position <;> first | rfl | cases h

end Position

variable {cfg : WorkerConfig} {now : Time} {h h' : JobHost}

theorem nextIteration_cases (cfg : WorkerConfig) (iteration : Nat) :
    nextIteration cfg iteration = .checking (iteration + 1) ∨
      ∃ reason, nextIteration cfg iteration =
        .marking (markFailed reason) (.ended true) (.ended false) := by
  unfold nextIteration
  split_ifs
  · exact .inl rfl
  · exact .inr ⟨_, rfl⟩

variable (iteration : Nat)

@[simp] theorem isStarted_nextIteration : (nextIteration cfg iteration).isStarted = true := by
  rcases nextIteration_cases cfg iteration with heq | ⟨reason, heq⟩ <;> rw [heq] <;> rfl

@[simp] theorem batch?_nextIteration : (nextIteration cfg iteration).batch? = none := by
  rcases nextIteration_cases cfg iteration with heq | ⟨reason, heq⟩ <;> rw [heq] <;> rfl

@[simp] theorem isCalling_nextIteration : (nextIteration cfg iteration).isCalling = false := by
  rcases nextIteration_cases cfg iteration with heq | ⟨reason, heq⟩ <;> rw [heq] <;> rfl

structure Plain (h h' : JobHost) : Prop where
  executed : h'.executed = h.executed
  batch : h'.position.batch? = none
  started : h'.position.isStarted = true

variable {position : Position}

theorem plain_goTo (hbatch : position.batch? = none) (hstarted : position.isStarted = true) :
    Plain h (h.goTo position) := ⟨rfl, hbatch, hstarted⟩

theorem plain_callLlm (outcome : CallOutcome) : Plain h (h.callLlm iteration outcome) ∧
      (h.callLlm iteration outcome).position.isCalling = false := by
  cases outcome with
  | selected first rest => exact ⟨⟨rfl, rfl, rfl⟩, rfl⟩
  | responded response tokens =>
    rw [callLlm_responded]
    rcases countTokens_cases (h := { h.logCall with rateLimits := 0 }) tokens iteration
      response with ⟨-, heq⟩ | ⟨position, heq, ⟨rfl, -⟩ | ⟨reason, rfl⟩⟩ <;> rw [heq]
    · exact ⟨⟨rfl, rfl, rfl⟩, rfl⟩
    · exact ⟨⟨rfl, rfl, rfl⟩, rfl⟩
    · exact ⟨⟨rfl, rfl, rfl⟩, rfl⟩
  | rateLimited =>
    unfold JobHost.callLlm JobHost.goTo
    dsimp only
    split_ifs <;> exact ⟨⟨rfl, rfl, rfl⟩, rfl⟩
  | emptyResponse =>
    unfold JobHost.callLlm JobHost.goTo
    dsimp only
    split_ifs <;> exact ⟨⟨rfl, rfl, rfl⟩, rfl⟩
  | failed => exact ⟨⟨rfl, rfl, rfl⟩, rfl⟩

theorem plain_handleText (text : Foundation.Text) (reading : TextReading) :
    Plain h (h.handleText cfg iteration text reading) ∧
      (h.handleText cfg iteration text reading).position.isCalling = false := by
  cases reading with
  | nudge => exact ⟨plain_goTo (by simp) (by simp), isCalling_nextIteration _⟩
  | fail reason => exact ⟨⟨rfl, rfl, rfl⟩, rfl⟩
  | accept =>
    unfold JobHost.handleText
    split_ifs
    · exact ⟨plain_goTo (by simp) (by simp), isCalling_nextIteration _⟩
    · exact ⟨⟨rfl, rfl, rfl⟩, rfl⟩

theorem plain_checkSignals : Plain h (h.checkSignals iteration) := by
  unfold JobHost.checkSignals
  dsimp only
  split_ifs
  · exact ⟨rfl, rfl, rfl⟩
  · split <;> exact ⟨rfl, rfl, rfl⟩

theorem plain_mark {change : JobChange} {onOk onError : Position} (hok : onOk.isRest = true)
    (herror : onError.isRest = true) : Plain h (h.mark cfg now change onOk onError) := by
  obtain ⟨position, writes, heq, hresult⟩ := mark_eq cfg now h change onOk onError
  rw [heq]
  rcases hresult with ⟨-, rfl⟩ | ⟨-, rfl, -⟩
  · exact ⟨rfl, Position.batch?_of_isRest hok, Position.isStarted_of_isRest hok⟩
  · exact ⟨rfl, Position.batch?_of_isRest herror, Position.isStarted_of_isRest herror⟩

theorem Works.batch_cases (hproper : h.position.isProper = true) (hw : Works cfg now h h') :
    Plain h h' ∨
      (∃ calls position, h' = { h with channel := h'.channel, position } ∧
        position.batch? = some (h.takeUp calls) ∧ position.isStarted = true ∧
        (calls ≠ [] → h.takesUp = true)) ∨
      ∃ batch i env place, h.position.batch? = some batch ∧
        h.stepTool cfg batch i env place = some h' ∧
        ∀ b, (place b).batch? = some b ∧ (place b).isStarted = true := by
  cases hw with
  | waitForStart hpos hs =>
    left
    unfold JobHost.waitForStart at hs
    split at hs <;> cases hs <;> exact ⟨rfl, rfl, rfl⟩
  | createPlan plan hpos =>
    left
    unfold JobHost.createPlan
    split_ifs
    · cases plan with
      | none => exact ⟨rfl, batch?_nextIteration _, isStarted_nextIteration _⟩
      | some actions => exact ⟨rfl, rfl, rfl⟩
    · exact plain_goTo (by simp) (by simp)
  | nextAction actions hpos =>
    cases actions with
    | nil => exact .inl ⟨rfl, rfl, rfl⟩
    | cons action rest =>
      cases hdrain : (drainForPlan h.channel).2 with
      | none =>
        refine .inr (.inl ⟨[action], .executingAction (h.takeUp [action]) rest, ?_, rfl, rfl, ?_⟩)
        · simp [JobHost.nextAction, hdrain, JobHost.goTo, JobHost.takeUp]
        · intro _
          rw [JobHost.takesUp, hpos]
          simp [hdrain]
      | some message =>
        left
        simp only [JobHost.nextAction, hdrain]
        cases message <;> exact ⟨rfl, rfl, rfl⟩
  | stepAction batch rest i env hpos hs =>
    exact .inr (.inr ⟨batch, i, env, _, by rw [hpos]; rfl, hs, fun _ => ⟨rfl, rfl⟩⟩)
  | stepTool iteration batch i env hpos hs =>
    exact .inr (.inr ⟨batch, i, env, _, by rw [hpos]; rfl, hs, fun _ => ⟨rfl, rfl⟩⟩)
  | takeUp iteration calls hpos =>
    refine .inr (.inl ⟨calls, .executing iteration (h.takeUp calls), rfl, rfl, rfl, ?_⟩)
    intro hcalls
    obtain ⟨first, rest, rfl⟩ := List.exists_cons_of_ne_nil hcalls
    rw [JobHost.takesUp, hpos]
  | actionDone batch rest hpos => exact .inl ⟨rfl, rfl, rfl⟩
  | assess complete hpos =>
    left
    cases complete with
    | none => exact ⟨rfl, rfl, rfl⟩
    | some isComplete => cases isComplete <;> exact ⟨rfl, rfl, rfl⟩
  | afterPlan hpos =>
    left
    unfold JobHost.afterPlan
    split_ifs
    · exact ⟨rfl, rfl, rfl⟩
    · exact plain_goTo (by simp) (by simp)
  | checkSignals iteration hpos => exact .inl (plain_checkSignals iteration)
  | lookAtState iteration hpos =>
    left
    unfold JobHost.lookAtState
    split_ifs <;> exact ⟨rfl, rfl, rfl⟩
  | callLlm iteration outcome hpos => exact .inl (plain_callLlm iteration outcome).1
  | handleText iteration text reading hpos => exact .inl (plain_handleText iteration text reading).1
  | discard iteration calls hpos => exact .inl (plain_goTo (by simp) (by simp))
  | batchDone iteration batch hpos => exact .inl (plain_goTo (by simp) (by simp))
  | mark change onOk onError hpos =>
    rw [hpos] at hproper
    obtain ⟨hok, herror⟩ := Bool.and_eq_true_iff.mp hproper
    exact .inl (plain_mark hok herror)
  | wrapUp hpos =>
    left
    unfold JobHost.wrapUp
    split_ifs <;> exact ⟨rfl, rfl, rfl⟩
  | failed reason hpos => exact .inl ⟨rfl, rfl, rfl⟩

theorem Works.isStarted (hproper : h.position.isProper = true) (hw : Works cfg now h h') :
    h'.position.isStarted = true := by
  rcases hw.batch_cases hproper with hplain | ⟨calls, position, heq, -, hstarted, -⟩ |
    ⟨batch, i, env, place, -, hs, hplace⟩
  · exact hplain.started
  · rw [heq]
    exact hstarted
  · obtain ⟨task, executed, rfl, -⟩ := stepTool_cases hs
    exact (hplace _).2

/-- A batch taken up after the end has no calls, or the job was cancelled. -/
def Harmless (h : JobHost) : Prop :=
  ∀ batch ∈ h.position.batch?, stopsLoop batch.takenUp = true → batch.tools = [] ∨
    h.context.state = .cancelled ∧
      ∀ call view, .fetched call view ∈ batch.tools → view.cancelled = true

theorem harmless_of_batch (h : h'.position.batch? = none) : Harmless h' := by
  intro batch hbatch
  rw [h] at hbatch
  cases hbatch

theorem cancelled_of_stopsLoop {state : JobState} (hstops : stopsLoop state = true)
    (hseen : endsUnseen state = false) : state = .cancelled := by
  revert hstops hseen
  cases state <;> decide

theorem harmless_takeUp {calls : List ToolCall} {channel : List WorkerMessage}
    (hbatch : position.batch? = some (h.takeUp calls))
    (hseen : calls ≠ [] → endsUnseen h.context.state = false) :
    Harmless { h with channel, position } := by
  intro batch hmem hstops
  cases hbatch.symm.trans hmem
  by_cases hnil : calls = []
  · exact .inl (by rw [hnil]; rfl)
  · refine .inr ⟨cancelled_of_stopsLoop hstops (hseen hnil), fun call view hfetched => ?_⟩
    obtain ⟨_, -, htaken⟩ := List.mem_map.mp hfetched
    cases htaken

section StepTool

variable {batch : Batch} {i : Nat} {env : ToolEnv} {place : Batch → Position}

theorem harmless_stepTool (hbatch : h.position.batch? = some batch)
    (hplace : ∀ b, (place b).batch? = some b) (hharmless : Harmless h)
    (hs : h.stepTool cfg batch i env place = some h') : Harmless h' := by
  obtain ⟨task, executed, rfl, hcases⟩ := stepTool_cases hs
  intro next hnext hstops
  cases (hplace _).symm.trans hnext
  rcases hharmless batch hbatch hstops with hnil | ⟨hstate, hviews⟩
  · -- there is no call that could take a step
    rcases hcases with ⟨call, hget, -⟩ | ⟨call, view, hget, -⟩ <;>
      · rw [hnil] at hget
        cases hget
  · refine .inr ⟨hstate, fun call view hfetched => ?_⟩
    rcases List.mem_or_eq_of_mem_set hfetched with hold | hnew
    · exact hviews call view hold
    · rcases hcases with ⟨_, -, htask, -⟩ | ⟨_, _, -, htask, -⟩ <;>
        rw [htask] at hnew <;> cases hnew
      show (h.context.state == .cancelled) = true
      rw [hstate]
      rfl

theorem executed_stepTool (hbatch : h.position.batch? = some batch) (hharmless : Harmless h)
    (hexecuted : ∀ e ∈ h.executed, stopsLoop e.takenUp = false)
    (hs : h.stepTool cfg batch i env place = some h') :
    ∀ e ∈ h'.executed, stopsLoop e.takenUp = false := by
  obtain ⟨task, executed, rfl, hcases⟩ := stepTool_cases hs
  intro e he
  rcases List.mem_append.mp he with hold | hnew
  · exact hexecuted e hold
  · rcases hcases with ⟨_, -, -, hnil⟩ | ⟨call, view, hget, -, hrun⟩
    · rw [hnil] at hnew
      cases hnew
    · rw [hrun] at hnew
      obtain ⟨params, hparams, rfl⟩ := List.mem_map.mp hnew
      by_contra hstops
      have hmem : .fetched call view ∈ batch.tools := List.mem_of_getElem? hget
      rcases hharmless batch hbatch (by simpa using hstops) with hnil | ⟨-, hviews⟩
      · rw [hnil] at hmem
        cases hmem
      · -- a call that finds the job cancelled executes nothing
        obtain ⟨_, _, -, hview, -, -, -, -, hnot, -⟩ :=
          executed_executeToolInner.mp (Option.mem_toList.mp hparams)
        cases hview
        rw [hviews call view hmem] at hnot
        cases hnot

end StepTool

/-- Of a batch that was taken up after the end nothing is executed. -/
structure Idle (h : JobHost) : Prop where
  proper : h.position.isProper = true
  harmless : Harmless h
  executed : ∀ e ∈ h.executed, stopsLoop e.takenUp = false

theorem idle_works (hidle : Idle h) (hw : Works cfg now h h')
    (hseen : h.takesUp = true → endsUnseen h.context.state = false) : Idle h' := by
  have hproper : h'.position.isProper = true :=
    Position.isProper_of_isStarted (hw.isStarted hidle.proper)
  rcases hw.batch_cases hidle.proper with hplain | ⟨calls, position, heq, hbatch, -, hcalls⟩ |
    ⟨batch, i, env, place, hbatch, hs, hplace⟩
  · refine ⟨hproper, harmless_of_batch hplain.batch, ?_⟩
    rw [hplain.executed]
    exact hidle.executed
  · refine ⟨hproper, ?_, ?_⟩ <;> rw [heq]
    · exact harmless_takeUp hbatch fun hne => hseen (hcalls hne)
    · exact hidle.executed
  · exact ⟨hproper, harmless_stepTool hbatch (fun b => (hplace b).1) hidle.harmless hs,
      executed_stepTool hbatch hidle.harmless hidle.executed hs⟩

theorem idle_of_same (hidle : Idle h) (hexecuted : h'.executed = h.executed)
    (hproper : h'.position.isProper = true)
    (hsame : h'.position.batch? = none ∨ h'.position = h.position ∧
      (h.context.state = .cancelled → h'.context.state = .cancelled)) : Idle h' := by
  refine ⟨hproper, ?_, by rw [hexecuted]; exact hidle.executed⟩
  rcases hsame with hnone | ⟨hposition, hstate⟩
  · exact harmless_of_batch hnone
  · intro batch hbatch hstops
    rw [hposition] at hbatch
    exact (hidle.harmless batch hbatch hstops).imp_right fun h => ⟨hstate h.1, h.2⟩

theorem state_of_failing {reason : String} {context : JobContext}
    (hok : ((markFailed reason).apply now context).1 = .ok ()) :
    ((markFailed reason).apply now context).2.state = .failed := by
  change (context.transitionTo now .failed (some reason)).1 = _ at hok
  show (context.transitionTo now .failed (some reason)).2.state = _
  unfold JobContext.transitionTo at hok ⊢
  split_ifs at hok ⊢ with hcan hsame
  · exact hsame
  · exact JobContext.stamped_state _ _ _

/-- The budget is exceeded: the job has failed or is about to, or the loop is over. -/
inductive Spent (h : JobHost) : Prop where
  | failed (hstate : h.context.state = .failed) (hcalling : h.position.isCalling = false)
  | failing (reason : String) (iteration : Nat) (response : Response)
      (hpos : h.position = .marking (markFailed reason) (.handling iteration response)
        (.ended false))
  | atEnd (hend : h.position.isOver = true)

theorem isCalling_of_spent (hs : Spent h) : h.position.isCalling = false := by
  cases hs with
  | failed hstate hcalling => exact hcalling
  | failing reason iteration response hpos => rw [hpos]; rfl
  | atEnd hend => exact Position.isCalling_of_isOver hend

/-- Each job keeps its budget of tokens, or one call has gone beyond, and no other. -/
structure Thrifty (h : JobHost) : Prop where
  proper : h.position.isProper = true
  tokens : h.WithinBudget ∨ (∃ usage ∈ h.usages,
    h.context.totalTokensUsed ≤ h.context.maxTokens + usage) ∧ Spent h

structure SameTokens (h h' : JobHost) : Prop where
  used : h'.context.totalTokensUsed = h.context.totalTokensUsed
  limit : h'.context.maxTokens = h.context.maxTokens
  usages : h'.usages = h.usages

theorem sameTokens_goTo (position : Position) : SameTokens h (h.goTo position) := ⟨rfl, rfl, rfl⟩

theorem thrifty_of_same (ht : Thrifty h) (hsame : SameTokens h h')
    (hproper : h'.position.isProper = true) (hspent : Spent h → Spent h') : Thrifty h' := by
  refine ⟨hproper, ?_⟩
  rw [JobHost.WithinBudget, hsame.used, hsame.limit, hsame.usages]
  exact ht.tokens.imp_right fun h => ⟨h.1, hspent h.2⟩

theorem sameTokens_change (now : Time) (h : JobHost) (change : JobChange) :
    SameTokens h { h with context := (change.apply now h.context).2 } :=
  ⟨(change.tokens_apply now h.context).1, (change.tokens_apply now h.context).2, rfl⟩

theorem sameTokens_mark (change : JobChange) (onOk onError : Position) :
    SameTokens h (h.mark cfg now change onOk onError) := by
  obtain ⟨position, writes, heq, -⟩ := mark_eq cfg now h change onOk onError
  rw [heq]
  exact ⟨(change.tokens_apply now h.context).1, (change.tokens_apply now h.context).2, rfl⟩

theorem Works.isOver (hover : h.position.isOver = true) (hw : Works cfg now h h') :
    h'.position.isOver = true := by
  cases hw with
  | mark change onOk onError hpos =>
    rw [hpos] at hover
    obtain ⟨hok, herror⟩ := Bool.and_eq_true_iff.mp hover
    obtain ⟨position, writes, heq, hresult⟩ := mark_eq cfg now h change onOk onError
    rw [heq]
    rcases hresult with ⟨-, rfl⟩ | ⟨-, rfl, -⟩
    · exact Position.isOver_of_isEnd hok
    · exact Position.isOver_of_isEnd herror
  | wrapUp hpos =>
    unfold JobHost.wrapUp
    split_ifs <;> rfl
  | failed reason hpos => rfl
  | waitForStart hpos hs | stepAction _ _ _ _ hpos hs | stepTool _ _ _ _ hpos hs =>
    rw [hpos] at hover
    cases hover
  | _ =>
    rename_i hpos
    rw [hpos] at hover
    cases hover

theorem Works.isCalling (hproper : h.position.isProper = true)
    (hfailed : h.context.state = .failed) (hinjects : h.injects = false)
    (hw : Works cfg now h h') : h'.position.isCalling = false := by
  cases hw with
  | mark change onOk onError hpos =>
    rw [hpos] at hproper
    obtain ⟨hok, herror⟩ := Bool.and_eq_true_iff.mp hproper
    obtain ⟨position, writes, heq, hresult⟩ := mark_eq cfg now h change onOk onError
    rw [heq]
    rcases hresult with ⟨-, rfl⟩ | ⟨-, rfl, -⟩
    · exact Position.isCalling_of_isRest hok
    · exact Position.isCalling_of_isRest herror
  | waitForStart hpos hs =>
    unfold JobHost.waitForStart at hs
    split at hs <;> cases hs <;> rfl
  | createPlan plan hpos =>
    unfold JobHost.createPlan
    split_ifs
    · cases plan with
      | none => exact isCalling_nextIteration 0
      | some actions => rfl
    · exact isCalling_nextIteration 0
  | nextAction actions hpos =>
    cases actions with
    | nil => rfl
    | cons action rest =>
      unfold JobHost.nextAction
      dsimp only
      split <;> rfl
  | stepAction batch rest i env hpos hs =>
    obtain ⟨task, executed, rfl, -⟩ := stepTool_cases hs
    rfl
  | stepTool iteration batch i env hpos hs =>
    obtain ⟨task, executed, rfl, -⟩ := stepTool_cases hs
    rfl
  | assess complete hpos =>
    cases complete with
    | none => rfl
    | some isComplete => cases isComplete <;> rfl
  | afterPlan hpos =>
    unfold JobHost.afterPlan
    rw [hfailed]
    rfl
  | checkSignals iteration hpos =>
    rw [JobHost.injects, hpos] at hinjects
    unfold JobHost.checkSignals
    dsimp only at hinjects ⊢
    split_ifs with hstop
    · rfl
    · rw [Bool.eq_false_iff.mpr hstop] at hinjects
      split
      · rename_i hsome
        rw [hsome] at hinjects
        cases hinjects
      · rfl
  | lookAtState iteration hpos =>
    unfold JobHost.lookAtState
    rw [hfailed]
    rfl
  | callLlm iteration outcome hpos => exact (plain_callLlm iteration outcome).2
  | handleText iteration text reading hpos => exact (plain_handleText iteration text reading).2
  | wrapUp hpos =>
    unfold JobHost.wrapUp
    split_ifs <;> rfl
  | discard iteration calls hpos => exact isCalling_nextIteration iteration
  | batchDone iteration batch hpos => exact isCalling_nextIteration iteration
  | actionDone | takeUp | failed => rfl

theorem spent_failing {reason : String} {iteration : Nat} {response : Response} :
    Spent (h.mark cfg now (markFailed reason) (.handling iteration response) (.ended false)) := by
  obtain ⟨position, writes, heq, hresult⟩ := mark_eq cfg now h (markFailed reason)
    (.handling iteration response) (.ended false)
  rw [heq]
  rcases hresult with ⟨hok, rfl⟩ | ⟨-, rfl, -⟩
  · exact .failed (state_of_failing hok) rfl
  · exact .atEnd rfl

theorem Works.of_marking {change : JobChange} {onOk onError : Position}
    (hpos : h.position = .marking change onOk onError) (hw : Works cfg now h h') :
    h' = h.mark cfg now change onOk onError := by
  cases hw with
  | mark _ _ _ hpos' =>
    rw [hpos] at hpos'
    cases hpos'
    rfl
  | waitForStart hpos' hs | stepAction _ _ _ _ hpos' hs | stepTool _ _ _ _ hpos' hs =>
    rw [hpos] at hpos'
    cases hpos'
  | _ =>
    rename_i hpos'
    rw [hpos] at hpos'
    cases hpos'

theorem spent_works (hspent : Spent h) (hproper : h.position.isProper = true)
    (hinjects : h.injects = false) (hw : Works cfg now h h') : Spent h' := by
  cases hspent with
  | failed hstate hcalling =>
    refine .failed ?_ (hw.isCalling hproper hstate hinjects)
    rcases hw.quiet_or_mark with hquiet | ⟨change, onOk, onError, -, rfl⟩
    · rw [hquiet.state, hstate]
    · obtain ⟨position, writes, heq, -⟩ := mark_eq cfg now h change onOk onError
      rw [heq]
      exact (change.state_apply_of_isTerminal (by rw [hstate]; rfl)).trans hstate
  | failing reason iteration response hpos =>
    rw [hw.of_marking hpos]
    exact spent_failing
  | atEnd hend => exact .atEnd (hw.isOver hend)

theorem tokens_of_uses {iteration tokens : Nat} {response : Response}
    (huses : Uses h h' iteration tokens response position) (hwithin : h.WithinBudget) :
    h'.WithinBudget ∨ (∃ usage ∈ h'.usages,
      h'.context.totalTokensUsed ≤ h'.context.maxTokens + usage) ∧ Spent h' := by
  rw [huses.eq]
  rcases huses.next with ⟨-, hbound⟩ | ⟨reason, rfl⟩
  · exact .inl hbound
  · rcases hwithin with hzero | hle
    · exact .inl (.inl hzero)
    · refine .inr ⟨⟨tokens, List.mem_concat_self, ?_⟩, .failing reason iteration response rfl⟩
      show h.context.totalTokensUsed + tokens ≤ h.context.maxTokens + tokens
      omega

theorem Works.sameTokens_or_uses (hw : Works cfg now h h') : SameTokens h h' ∨
    ∃ iteration tokens response position, Uses h h' iteration tokens response position := by
  rcases hw.effect with hmoves | huses | ⟨change, onOk, onError, -, rfl⟩
  · cases hmoves
    exact .inl ⟨rfl, rfl, rfl⟩
  · exact .inr huses
  · exact .inl (sameTokens_mark change onOk onError)

theorem thrifty_works (ht : Thrifty h) (hw : Works cfg now h h')
    (hproper : h'.position.isProper = true) (hinjects : h.injects = true → h.WithinBudget) :
    Thrifty h' := by
  by_cases hwithin : h.WithinBudget
  · refine ⟨hproper, ?_⟩
    rcases hw.sameTokens_or_uses with hsame | ⟨iteration, tokens, response, position, huses⟩
    · left
      rw [JobHost.WithinBudget, hsame.used, hsame.limit]
      exact hwithin
    · exact tokens_of_uses huses hwithin
  · have hspent : Spent h := (ht.tokens.resolve_left hwithin).2
    -- a worker that has spent its budget is not about to call the model
    have hsame : SameTokens h h' := by
      refine hw.sameTokens_or_uses.resolve_right ?_
      rintro ⟨iteration, tokens, response, position, huses⟩
      have hnot := isCalling_of_spent hspent
      rw [huses.calling] at hnot
      cases hnot
    refine thrifty_of_same ht hsame hproper fun _ => spent_works hspent ht.proper ?_ hw
    exact Bool.eq_false_iff.mpr fun hinj => hwithin (hinjects hinj)

structure Ending (h : JobHost) : Prop where
  idle : Idle h
  thrifty : Thrifty h

theorem noWorkAfterEnd_of_ending (he : Ending h) : NoWorkAfterEnd h where
  executed := he.idle.executed
  tokens := by
    rcases he.thrifty.tokens with (hzero | hle) | ⟨husage, -⟩
    · exact .inl hzero
    · exact .inr (.inl hle)
    · exact .inr (.inr husage)

theorem ending_start {context : JobContext} (hwithin : (JobHost.start context).WithinBudget) :
    Ending (.start context) where
  idle := ⟨rfl, harmless_of_batch rfl, by simp [JobHost.start]⟩
  thrifty := ⟨rfl, .inl hwithin⟩

theorem ending_of_stay (he : Ending h) (hexecuted : h'.executed = h.executed)
    (hposition : h'.position = h.position) (hsame : SameTokens h h')
    (hstate : h.context.state.isTerminal = true → h'.context.state = h.context.state) :
    Ending h' where
  idle := idle_of_same he.idle hexecuted (by rw [hposition]; exact he.idle.proper) <|
    .inr ⟨hposition, fun h => (hstate (by rw [h]; rfl)).trans h⟩
  thrifty := thrifty_of_same he.thrifty hsame (by rw [hposition]; exact he.idle.proper) fun hs => by
    cases hs with
    | failed h hcalling =>
      exact .failed ((hstate (by rw [h]; rfl)).trans h) (by rw [hposition]; exact hcalling)
    | failing reason iteration response hpos =>
      exact .failing reason iteration response (by rw [hposition]; exact hpos)
    | atEnd hend => exact .atEnd (by rw [hposition]; exact hend)

theorem ending_goTo (he : Ending h) (hproper : position.isProper = true)
    (hover : position.isOver = true) (hbatch : position.batch? = none) :
    Ending (h.goTo position) where
  idle := idle_of_same he.idle rfl hproper (.inl hbatch)
  thrifty := thrifty_of_same he.thrifty (sameTokens_goTo _) hproper fun _ => .atEnd hover

theorem ending_stops (he : Ending h) (hstops : Stops cfg now h h') : Ending h' := by
  cases hstops with
  | cancel hstop =>
    have hsame := sameTokens_change now h
      (.transitionTo .cancelled (some "Stopped by scheduler"))
    exact ending_of_stay he rfl rfl ⟨hsame.used, hsame.limit, rfl⟩
      fun hterminal => JobChange.state_apply_of_isTerminal hterminal
  | call | send | abort => exact ending_of_stay he rfl rfl ⟨rfl, rfl, rfl⟩ fun _ => rfl

theorem ending_hostStep {e : HostEvent} (he : Ending h) (horderly : Orderly h e)
    (hstep : hostStep cfg h e = some h') : Ending h' := by
  cases happens_of_hostStep hstep with
  | work now e hw =>
    have hidle : Idle h' := idle_works he.idle hw horderly.1
    exact ⟨hidle, thrifty_works he.thrifty hw hidle.proper horderly.2⟩
  | timeOut => exact ending_goTo he rfl rfl rfl
  | die => exact ending_goTo he rfl rfl rfl
  | stop now hstops => exact ending_stops he hstops
  | change now change =>
    exact ending_of_stay he rfl rfl (sameTokens_change _ _ change)
      fun hterminal => change.state_apply_of_isTerminal hterminal
  | sendMessage | cleanUp | land => exact ending_of_stay he rfl rfl ⟨rfl, rfl, rfl⟩ fun _ => rfl

/-- **There is no work after the end** if batches are taken up before it, or when the job is
cancelled, and within the budget. -/
theorem noWorkAfterEnd_of_orderly {cfg : WorkerConfig} {context : JobContext}
    {events : List HostEvent} {h : JobHost} (hwithin : (JobHost.start context).WithinBudget)
    (hrun : run (hostStep cfg) (.start context) events = some h)
    (horderly : Along (hostStep cfg) Orderly (.start context) events) : NoWorkAfterEnd h := by
  have hstep : ∀ s e s', Ending s → Orderly s e → hostStep cfg s e = some s' → Ending s' :=
    fun s e s' hs ho => ending_hostStep hs ho
  exact noWorkAfterEnd_of_ending
    (Foundation.run_invariant hstep (ending_start hwithin) horderly hrun)

def echoEnv : ToolEnv where
  deps := {
    host := ⟨(∅ : ToolRegistry).insert "echo".toList
      ⟨⟨"echo".toList, [], fun params => params⟩, fun _ => .never, none, none⟩, fun _ => ⟨true, []⟩⟩
    codec := ⟨fun _ => none, fun _ => []⟩
    hooks := []
    approvalContext := none
    rateLimiter := ∅ }
  now := 0
  run := fun _ => .output []

def echoCalls : List ToolCall := [⟨[], "echo".toList, .null, none⟩]

def callsTool (tokens : Nat) : List HostEvent :=
  [.work 0 .proceed, .work 0 .proceed,
    .work 0 (.called (.responded (.toolCalls echoCalls false) tokens))]

def executesTool : List HostEvent :=
  [.work 0 .proceed, .work 0 (.tool 0 echoEnv), .work 0 (.tool 0 echoEnv), .work 0 .proceed]

def answerBeyond : List HostEvent :=
  untilCheck ++ callsTool 60 ++ executesTool ++
    [.work 0 .proceed, .work 0 .proceed, .work 0 (.called (.responded (.text "done".toList) 60)),
      .work 0 .proceed, .work 0 (.read .accept), .work 0 .proceed]

instance (h : JobHost) : Decidable h.WithinBudget := by
  unfold JobHost.WithinBudget
  infer_instance

instance (h : JobHost) (e : HostEvent) : Decidable (Orderly h e) :=
  match e with
  | .work _ _ => inferInstanceAs (Decidable (_ ∧ _))
  | .timeOut | .die | .stop _ | .sendMessage _ | .cleanUp | .change _ _ | .land _ => isTrue trivial

theorem answerBeyond_noWorkAfterEnd :
    ∃ h, run (hostStep sampleWorker) (.start sampleJob) answerBeyond = some h ∧
      h.executed.map (·.takenUp) = [.inProgress] ∧ h.context.totalTokensUsed = 120 ∧
      h.context.state = .failed ∧ NoWorkAfterEnd h := by
  obtain ⟨h, hrun⟩ : ∃ h, run (hostStep sampleWorker) (.start sampleJob) answerBeyond = some h :=
    ⟨_, rfl⟩
  have hworks := noWorkAfterEnd_of_orderly (by decide) hrun (by decide +kernel)
  cases hrun
  exact ⟨_, rfl, rfl, rfl, rfl, hworks⟩

/-- The first call of the model exceeds the budget and asks for a tool. -/
def toolBeyond : List HostEvent :=
  untilCheck ++ callsTool 120 ++ [.work 0 .proceed] ++ executesTool

/-- Then a follow-up message goes in front of another call. -/
def callBeyond : List HostEvent :=
  toolBeyond ++ [.sendMessage "go on".toList, .work 0 .proceed,
    .work 0 (.called (.responded (.text "on it".toList) 110))]

/-- A tool is executed for a failed job; and one goes beyond its budget by more than any call used.
-/
theorem beyond_works : (∃ h, run (hostStep sampleWorker) (.start sampleJob) toolBeyond = some h ∧
      h.executed.map (·.takenUp) = [.failed] ∧ ¬ NoWorkAfterEnd h) ∧
    ∃ h, run (hostStep sampleWorker) (.start sampleJob) callBeyond = some h ∧
      h.context.totalTokensUsed = 230 ∧ h.context.maxTokens = 100 ∧ h.usages = [120, 110] ∧
      ¬ NoWorkAfterEnd h := by
  refine ⟨⟨_, rfl, rfl, fun h => ?_⟩, ⟨_, rfl, rfl, rfl, rfl, fun h => ?_⟩⟩
  · have hfailed := h.executed _ List.mem_cons_self
    cases hfailed
  · revert h
    rintro ⟨-, htokens⟩
    revert htokens
    decide

end IronClaw.Jobs
