import IronClaw.Context.Job
import IronClaw.Foundation.Run
import IronClaw.Tools.Execution

/-!
# The worker of a job

The worker waits for the start signal, may execute a plan, and calls the model until it gives a
final answer. A step is what happens between two looks at what is shared; what the model, the tools
and other tasks do is given by the events.
-/

namespace IronClaw.Jobs

open Context (JobChange JobContext JobState Time)
open Foundation (Json Text)
open Llm (ToolCall)
open Tools (JobView MonotonicTime ToolRun WorkerDeps executeToolInner)

inductive WorkerMessage where
  | start
  | stop
  | ping
  | userMessage (content : Text)
deriving DecidableEq

def WorkerMessage.userText? : WorkerMessage → Option Text
  | userMessage content => some content
  | _ => none

def channelCapacity : Nat := 16

structure WorkerConfig where
  jobId : Text
  usePlanning : Bool
  maxIterations : Nat
  hasStore : Bool

def maxConsecutiveRateLimits : Nat := 10

inductive Response where
  | text (text : Text)
  | toolCalls (calls : List ToolCall) (truncated : Bool)

/-- A tool call of a batch: first the context of the job is fetched. -/
inductive ToolTask where
  | taken (call : ToolCall)
  | fetched (call : ToolCall) (view : JobView)
  | done

def ToolTask.isDone : ToolTask → Bool
  | done => true
  | _ => false

/-- Tool calls executed side by side, with the job's state when they were taken up. -/
structure Batch where
  takenUp : JobState
  tools : List ToolTask

inductive Position where
  | waiting
  | planning
  /-- Check the channel, and take up the next action of the plan. -/
  | plan (actions : List ToolCall)
  | executingAction (batch : Batch) (rest : List ToolCall)
  | assessing
  /-- The plan is over. See what has become of the job. -/
  | planned
  | checking (iteration : Nat)
  | looking (iteration : Nat)
  | calling (iteration : Nat)
  | handling (iteration : Nat) (response : Response)
  | executing (iteration : Nat) (batch : Batch)
  /-- Change the state of the job, and go on as that succeeds or fails. -/
  | marking (change : JobChange) (onOk onError : Position)
  /-- The loop is over, with an error or without. -/
  | ended (isOk : Bool)
  | finished

/-- A tool that was executed, and the state of the job when its batch was taken up. -/
structure Executed where
  call : ToolCall
  params : Json
  takenUp : JobState

inductive StopPhase where
  | notCalled
  | sending
  | sleeping
  | aborted
  | returned
deriving DecidableEq

structure JobHost where
  context : JobContext
  channel : List WorkerMessage
  position : Position
  rateLimits : Nat
  hasTextResponse : Bool
  scheduled : Bool
  stop : StopPhase
  aborting : Bool
  writes : List JobState
  status : Option JobState
  /-- The tokens of the model calls that were counted. -/
  usages : List Nat
  executed : List Executed
  /-- The iterations of the loop that were begun. -/
  iterations : Nat
  /-- The follow-up messages that were accepted, each with the iterations begun before. -/
  sent : List (Text × Nat)
  /-- The follow-up messages in the reasoning context. -/
  heard : List Text
  /-- For each call of the model, the iterations begun and the follow-ups in the context. -/
  calls : List (Nat × Nat)
  /-- The job was still open when it was stopped. -/
  stoppedOpen : Bool

inductive CallOutcome where
  | selected (first : ToolCall) (rest : List ToolCall)
  | responded (response : Response) (tokens : Nat)
  | rateLimited
  | emptyResponse
  | failed

/-- What is made of a text: it is taken for no answer, or for a failure, or it is the answer. -/
inductive TextReading where
  | nudge
  | fail (reason : String)
  | accept

structure ToolEnv where
  deps : WorkerDeps
  now : MonotonicTime
  run : Json → ToolRun

/-- What is not given by the state when the worker takes its next step. -/
inductive WorkerEvent where
  | proceed
  | planned (plan : Option (List ToolCall))
  | assessed (complete : Option Bool)
  | called (outcome : CallOutcome)
  | read (reading : TextReading)
  | tool (i : Nat) (env : ToolEnv)
  /-- The error that the loop has ended with. -/
  | failed (reason : String)

/-- What the channel holds before the next action of a plan. Only one message is handled. -/
def drainForPlan : List WorkerMessage → List WorkerMessage × Option WorkerMessage
  | [] => ([], none)
  | .stop :: rest => (rest, some .stop)
  | .userMessage content :: rest => (rest, some (.userMessage content))
  | .start :: rest | .ping :: rest => drainForPlan rest

def stopsLoop : JobState → Bool
  | .cancelled | .failed | .completed | .submitted | .accepted => true
  | _ => false

def viewOf (context : JobContext) : JobView :=
  ⟨context.userId.toList, context.state == .cancelled, context.approvalContext⟩

def markCompleted : JobChange := .transitionTo .completed (some "Job completed successfully")

def markFailed (reason : String) : JobChange := .transitionTo .failed (some reason)

def budgetExceeded (used limit : Nat) : String :=
  "Token budget exceeded: used " ++ toString used ++ " of " ++ toString limit ++ " allowed tokens"

def nextIteration (cfg : WorkerConfig) (iteration : Nat) : Position :=
  if iteration < cfg.maxIterations then .checking (iteration + 1)
  else .marking (markFailed "Maximum iterations exceeded: job hit the iteration cap")
    (.ended true) (.ended false)

namespace JobHost

variable (cfg : WorkerConfig) (h : JobHost)

def goTo (position : Position) : JobHost := { h with position }

def persistStatus (status : JobState) : JobHost :=
  if cfg.hasStore then { h with writes := h.writes ++ [status] } else h

def mark (now : Time) (change : JobChange) (onOk onError : Position) : JobHost :=
  match change.apply now h.context with
  | (.ok (), context) =>
    ({ h with context, position := onOk }).persistStatus cfg context.state
  | (.error _, context) => { h with context, position := onError }

def hear (content : Text) : JobHost := { h with heard := h.heard ++ [content] }

def logCall : JobHost := { h with calls := h.calls ++ [(h.iterations, h.heard.length)] }

def takeUp (calls : List ToolCall) : Batch := ⟨h.context.state, calls.map .taken⟩

def waitForStart : Option JobHost :=
  match h.channel with
  | [] => none
  | .stop :: rest => some { h with channel := rest, position := .finished }
  | _ :: rest => some { h with channel := rest, position := .planning }

def createPlan (plan : Option (List ToolCall)) : JobHost :=
  if cfg.usePlanning then
    h.logCall.goTo (plan.elim (nextIteration cfg 0) .plan)
  else h.goTo (nextIteration cfg 0)

def nextAction : List ToolCall → JobHost
  | [] => h.goTo .assessing
  | action :: rest =>
    let r := drainForPlan h.channel
    let h := { h with channel := r.1 }
    match r.2 with
    | none => h.goTo (.executingAction (h.takeUp [action]) rest)
    | some (.userMessage content) => (h.hear content).goTo .planned
    | some _ => h.goTo .planned

def assess (complete : Option Bool) : JobHost :=
  h.logCall.goTo <|
    match complete with
    | none => .ended false
    | some true => .marking markCompleted .planned (.ended false)
    | some false => .planned

def afterPlan : JobHost :=
  h.goTo <|
    if h.context.state.isTerminal || h.context.state == .stuck || h.context.state == .completed then
      .ended true
    else nextIteration cfg 0

/-- The channel is emptied. A stop goes first, and only the first message is kept. -/
def checkSignals (iteration : Nat) : JobHost :=
  let h' := { h with channel := [], iterations := h.iterations + 1 }
  if h.channel.contains .stop then h'.goTo (.ended true)
  else
    match h.channel.findSome? WorkerMessage.userText? with
    | some content => (h'.hear content).goTo (.calling iteration)
    | none => h'.goTo (.looking iteration)

def lookAtState (iteration : Nat) : JobHost :=
  h.goTo (if stopsLoop h.context.state then .ended true else .calling iteration)

def countTokens (tokens iteration : Nat) (response : Response) : JobHost :=
  if tokens = 0 then h.goTo (.handling iteration response)
  else
    match h.context.addTokens tokens with
    | (.ok (), context) =>
      { h with context, usages := h.usages ++ [tokens], position := .handling iteration response }
    | (.error e, context) => { h with
        context
        usages := h.usages ++ [tokens]
        position := .marking (markFailed (budgetExceeded e.1 e.2)) (.handling iteration response)
          (.ended false) }

def callLlm (iteration : Nat) : CallOutcome → JobHost
  | .selected first rest =>
    { h.logCall with rateLimits := 0 }.goTo
      (.handling iteration (.toolCalls (first :: rest) false))
  | .responded response tokens =>
    { h.logCall with rateLimits := 0 }.countTokens tokens iteration response
  | .rateLimited =>
    let count := h.rateLimits + 1
    { h.logCall with rateLimits := count }.goTo <|
      if maxConsecutiveRateLimits ≤ count then
        .marking (markFailed "Persistent rate limiting: exceeded retry limit") (.ended false)
          (.ended false)
      else .handling iteration (.text [])
  | .emptyResponse =>
    h.logCall.goTo <|
      if h.hasTextResponse then
        .marking markCompleted (.handling iteration (.text [])) (.handling iteration (.text []))
      else .ended false
  | .failed => h.logCall.goTo (.ended false)

def handleText (iteration : Nat) (text : Text) : TextReading → JobHost
  | .nudge => h.goTo (nextIteration cfg iteration)
  | .fail reason => h.goTo (.marking (markFailed reason) (.ended true) (.ended false))
  | .accept =>
    if text.isEmpty && !h.hasTextResponse then h.goTo (nextIteration cfg iteration)
    else
      { h with hasTextResponse := true }.goTo (.marking markCompleted (.ended true) (.ended true))

def toolNext (batch : Batch) (env : ToolEnv) : ToolTask → Option (JobHost × ToolTask)
  | .taken call => some (h, .fetched call (viewOf h.context))
  | .fetched call view =>
    let invocation := executeToolInner env.deps cfg.jobId (some view) env.now env.run call.name
      call.arguments
    some ({ h with
      executed := h.executed ++ invocation.executed.toList.map (⟨call, ·, batch.takenUp⟩) }, .done)
  | .done => none

def stepTool (batch : Batch) (i : Nat) (env : ToolEnv) (place : Batch → Position) :
    Option JobHost := do
  let task ← batch.tools[i]?
  let r ← h.toolNext cfg batch env task
  some (r.1.goTo (place { batch with tools := batch.tools.set i r.2 }))

/-- The loop is over without an error. The final state depends on what is found. -/
def wrapUp : JobHost :=
  if h.context.state.isTerminal || h.context.state == .completed || h.context.state == .stuck then
    h.goTo .finished
  else h.goTo (.marking markCompleted .finished .finished)

def work (now : Time) : WorkerEvent → Option JobHost
  | .proceed =>
    match h.position with
    | .waiting => h.waitForStart
    | .plan actions => some (h.nextAction actions)
    | .executingAction batch rest =>
      if batch.tools.all ToolTask.isDone then some (h.goTo (.plan rest)) else none
    | .planned => some (h.afterPlan cfg)
    | .checking iteration => some (h.checkSignals iteration)
    | .looking iteration => some (h.lookAtState iteration)
    | .handling iteration (.toolCalls calls truncated) =>
      some (h.goTo (if truncated then nextIteration cfg iteration
        else .executing iteration (h.takeUp calls)))
    | .executing iteration batch =>
      if batch.tools.all ToolTask.isDone then some (h.goTo (nextIteration cfg iteration)) else none
    | .marking change onOk onError => some (h.mark cfg now change onOk onError)
    | .ended true => some h.wrapUp
    | _ => none
  | .planned plan =>
    match h.position with
    | .planning => some (h.createPlan cfg plan)
    | _ => none
  | .assessed complete =>
    match h.position with
    | .assessing => some (h.assess complete)
    | _ => none
  | .called outcome =>
    match h.position with
    | .calling iteration => some (h.callLlm iteration outcome)
    | _ => none
  | .read reading =>
    match h.position with
    | .handling iteration (.text text) => some (h.handleText cfg iteration text reading)
    | _ => none
  | .tool i env =>
    match h.position with
    | .executingAction batch rest => h.stepTool cfg batch i env (.executingAction · rest)
    | .executing iteration batch => h.stepTool cfg batch i env (.executing iteration)
    | _ => none
  | .failed reason =>
    match h.position with
    | .ended false => some (h.goTo (.marking (markFailed reason) .finished .finished))
    | _ => none

end JobHost

def Position.isTimed : Position → Bool
  | waiting | ended _ | finished | marking _ .finished _ => false
  | _ => true

def Position.isFinished : Position → Bool
  | finished => true
  | _ => false

namespace JobHost

variable (cfg : WorkerConfig) (h : JobHost)

def timeOut : Option JobHost :=
  if h.position.isTimed then
    some (h.goTo (.marking (.markStuck "Execution timeout") .finished .finished))
  else none

def die : Option JobHost :=
  if h.aborting && !h.position.isFinished then some (h.goTo .finished) else none

def deliver (message : WorkerMessage) : Option JobHost :=
  if !h.position.isFinished && h.channel.length < channelCapacity then
    some { h with channel := h.channel ++ [message] }
  else none

def sendMessage (content : Text) : Option JobHost :=
  (h.deliver (.userMessage content)).map fun h =>
    { h with sent := h.sent ++ [(content, h.iterations)] }

/-- The next step of a stop. What keeps the state from being changed is not reported. -/
def stopNext (now : Time) : Option JobHost :=
  match h.stop with
  | .notCalled =>
    if h.scheduled then
      some { h with
        scheduled := false
        stop := .sending
        stoppedOpen := h.context.state.isParallelBlocking }
    else none
  | .sending =>
    if h.position.isFinished then some { h with stop := .sleeping }
    else (h.deliver .stop).map fun h => { h with stop := .sleeping }
  | .sleeping =>
    some { h with aborting := h.aborting || !h.position.isFinished, stop := .aborted }
  | .aborted =>
    let change := JobChange.transitionTo .cancelled (some "Stopped by scheduler")
    let context := (change.apply now h.context).2
    some ({ h with context, stop := .returned }.persistStatus cfg .cancelled)
  | .returned => none

def land (i : Nat) : Option JobHost :=
  (h.writes[i]?).map fun status => { h with writes := h.writes.eraseIdx i, status := some status }

def cleanUp : Option JobHost :=
  if h.position.isFinished then some { h with scheduled := false } else none

def start (context : JobContext) : JobHost where
  context := context
  channel := [.start]
  position := .waiting
  rateLimits := 0
  hasTextResponse := false
  scheduled := true
  stop := .notCalled
  aborting := false
  writes := []
  status := none
  usages := []
  executed := []
  iterations := 0
  sent := []
  heard := []
  calls := []
  stoppedOpen := false

end JobHost

inductive HostEvent where
  | work (now : Time) (e : WorkerEvent)
  | timeOut
  | die
  | stop (now : Time)
  | sendMessage (content : Text)
  | cleanUp
  /-- Another task changes the state of the job. -/
  | change (now : Time) (change : JobChange)
  | land (i : Nat)

def hostStep (cfg : WorkerConfig) (h : JobHost) : HostEvent → Option JobHost
  | .work now e => h.work cfg now e
  | .timeOut => h.timeOut
  | .die => h.die
  | .stop now => h.stopNext cfg now
  | .sendMessage content => h.sendMessage content
  | .cleanUp => h.cleanUp
  | .change now change => some { h with context := (change.apply now h.context).2 }
  | .land i => h.land i

inductive Works (cfg : WorkerConfig) (now : Time) (h : JobHost) : JobHost → Prop where
  | waitForStart {h' : JobHost} (hpos : h.position = .waiting) (hs : h.waitForStart = some h') :
      Works cfg now h h'
  | createPlan (plan : Option (List ToolCall)) (hpos : h.position = .planning) :
      Works cfg now h (h.createPlan cfg plan)
  | nextAction (actions : List ToolCall) (hpos : h.position = .plan actions) :
      Works cfg now h (h.nextAction actions)
  | stepAction {h' : JobHost} (batch : Batch) (rest : List ToolCall) (i : Nat) (env : ToolEnv)
      (hpos : h.position = .executingAction batch rest)
      (hs : h.stepTool cfg batch i env (.executingAction · rest) = some h') : Works cfg now h h'
  | actionDone (batch : Batch) (rest : List ToolCall)
      (hpos : h.position = .executingAction batch rest) : Works cfg now h (h.goTo (.plan rest))
  | assess (complete : Option Bool) (hpos : h.position = .assessing) :
      Works cfg now h (h.assess complete)
  | afterPlan (hpos : h.position = .planned) : Works cfg now h (h.afterPlan cfg)
  | checkSignals (iteration : Nat) (hpos : h.position = .checking iteration) :
      Works cfg now h (h.checkSignals iteration)
  | lookAtState (iteration : Nat) (hpos : h.position = .looking iteration) :
      Works cfg now h (h.lookAtState iteration)
  | callLlm (iteration : Nat) (outcome : CallOutcome) (hpos : h.position = .calling iteration) :
      Works cfg now h (h.callLlm iteration outcome)
  | handleText (iteration : Nat) (text : Text) (reading : TextReading)
      (hpos : h.position = .handling iteration (.text text)) :
      Works cfg now h (h.handleText cfg iteration text reading)
  | discard (iteration : Nat) (calls : List ToolCall)
      (hpos : h.position = .handling iteration (.toolCalls calls true)) :
      Works cfg now h (h.goTo (nextIteration cfg iteration))
  | takeUp (iteration : Nat) (calls : List ToolCall)
      (hpos : h.position = .handling iteration (.toolCalls calls false)) :
      Works cfg now h (h.goTo (.executing iteration (h.takeUp calls)))
  | stepTool {h' : JobHost} (iteration : Nat) (batch : Batch) (i : Nat) (env : ToolEnv)
      (hpos : h.position = .executing iteration batch)
      (hs : h.stepTool cfg batch i env (.executing iteration) = some h') : Works cfg now h h'
  | batchDone (iteration : Nat) (batch : Batch) (hpos : h.position = .executing iteration batch) :
      Works cfg now h (h.goTo (nextIteration cfg iteration))
  | mark (change : JobChange) (onOk onError : Position)
      (hpos : h.position = .marking change onOk onError) :
      Works cfg now h (h.mark cfg now change onOk onError)
  | wrapUp (hpos : h.position = .ended true) : Works cfg now h h.wrapUp
  | failed (reason : String) (hpos : h.position = .ended false) :
      Works cfg now h (h.goTo (.marking (markFailed reason) .finished .finished))

variable {cfg : WorkerConfig} {now : Time} {h h' : JobHost}

theorem works_of_work {e : WorkerEvent} (hw : h.work cfg now e = some h') : Works cfg now h h' := by
  cases e with
  | proceed =>
    simp only [JobHost.work] at hw
    split at hw
    case h_1 hpos => exact .waitForStart hpos hw
    case h_2 actions hpos =>
      cases hw
      exact .nextAction actions hpos
    case h_3 batch rest hpos =>
      split_ifs at hw
      cases hw
      exact .actionDone batch rest hpos
    case h_4 hpos =>
      cases hw
      exact .afterPlan hpos
    case h_5 iteration hpos =>
      cases hw
      exact .checkSignals iteration hpos
    case h_6 iteration hpos =>
      cases hw
      exact .lookAtState iteration hpos
    case h_7 iteration calls truncated hpos =>
      cases hw
      cases truncated with
      | true => exact .discard iteration calls hpos
      | false => exact .takeUp iteration calls hpos
    case h_8 iteration batch hpos =>
      split_ifs at hw
      cases hw
      exact .batchDone iteration batch hpos
    case h_9 change onOk onError hpos =>
      cases hw
      exact .mark change onOk onError hpos
    case h_10 hpos =>
      cases hw
      exact .wrapUp hpos
    case h_11 => cases hw
  | planned plan =>
    simp only [JobHost.work] at hw
    split at hw <;> cases hw
    rename_i hpos
    exact .createPlan plan hpos
  | assessed complete =>
    simp only [JobHost.work] at hw
    split at hw <;> cases hw
    rename_i hpos
    exact .assess complete hpos
  | called outcome =>
    simp only [JobHost.work] at hw
    split at hw <;> cases hw
    rename_i iteration hpos
    exact .callLlm iteration outcome hpos
  | read reading =>
    simp only [JobHost.work] at hw
    split at hw <;> cases hw
    rename_i iteration text hpos
    exact .handleText iteration text reading hpos
  | tool i env =>
    simp only [JobHost.work] at hw
    split at hw
    case h_1 batch rest hpos => exact .stepAction batch rest i env hpos hw
    case h_2 iteration batch hpos => exact .stepTool iteration batch i env hpos hw
    case h_3 => cases hw
  | failed reason =>
    simp only [JobHost.work] at hw
    split at hw <;> cases hw
    rename_i hpos
    exact .failed reason hpos

theorem stepTool_cases {batch : Batch} {i : Nat} {env : ToolEnv} {place : Batch → Position}
    (hs : h.stepTool cfg batch i env place = some h') :
    ∃ task executed, h' = { h with
        executed := h.executed ++ executed
        position := place { batch with tools := batch.tools.set i task } } ∧
      ((∃ call, batch.tools[i]? = some (.taken call) ∧ task = .fetched call (viewOf h.context) ∧
          executed = []) ∨
        ∃ call view, batch.tools[i]? = some (.fetched call view) ∧ task = .done ∧
          executed = (executeToolInner env.deps cfg.jobId (some view) env.now env.run call.name
            call.arguments).executed.toList.map (⟨call, ·, batch.takenUp⟩)) := by
  obtain ⟨task, htask, hs⟩ := Option.bind_eq_some_iff.mp hs
  obtain ⟨r, hr, hs⟩ := Option.bind_eq_some_iff.mp hs
  cases hs
  cases task with
  | taken call =>
    cases hr
    refine ⟨_, [], ?_, .inl ⟨call, htask, rfl, rfl⟩⟩
    rw [List.append_nil]
    rfl
  | fetched call view =>
    cases hr
    exact ⟨_, _, rfl, .inr ⟨call, view, htask, rfl, rfl⟩⟩
  | done => cases hr

structure Outside (h h' : JobHost) : Prop where
  scheduled : h'.scheduled = h.scheduled
  stop : h'.stop = h.stop
  aborting : h'.aborting = h.aborting
  status : h'.status = h.status
  sent : h'.sent = h.sent
  stoppedOpen : h'.stoppedOpen = h.stoppedOpen

theorem persistStatus_eq (status : JobState) : h.persistStatus cfg status =
    { h with writes := if cfg.hasStore then h.writes ++ [status] else h.writes } := by
  unfold JobHost.persistStatus
  split_ifs <;> rfl

theorem mark_eq (cfg : WorkerConfig) (now : Time) (h : JobHost) (change : JobChange)
    (onOk onError : Position) :
    ∃ position writes, h.mark cfg now change onOk onError = { h with
        context := (change.apply now h.context).2
        position
        writes } ∧
      ((change.apply now h.context).1 = .ok () ∧ position = onOk ∨
        (∃ error, (change.apply now h.context).1 = .error error) ∧ position = onError ∧
          writes = h.writes) := by
  unfold JobHost.mark
  split <;> rename_i hresult
  · rw [persistStatus_eq, hresult]
    exact ⟨_, _, rfl, .inl ⟨rfl, rfl⟩⟩
  · rw [hresult]
    exact ⟨_, _, rfl, .inr ⟨⟨_, rfl⟩, rfl, rfl⟩⟩

theorem callLlm_responded (iteration tokens : Nat) (response : Response) :
    h.callLlm iteration (.responded response tokens) =
      JobHost.countTokens { h.logCall with rateLimits := 0 } tokens iteration response := rfl

theorem countTokens_cases (tokens iteration : Nat) (response : Response) :
    (tokens = 0 ∧ h.countTokens tokens iteration response = h.goTo (.handling iteration response)) ∨
      ∃ position, h.countTokens tokens iteration response = { h with
          context := { h.context with totalTokensUsed := h.context.totalTokensUsed + tokens }
          usages := h.usages ++ [tokens]
          position } ∧
        (position = .handling iteration response ∧
            (h.context.maxTokens = 0 ∨
              h.context.totalTokensUsed + tokens ≤ h.context.maxTokens) ∨
          ∃ reason, position = .marking (markFailed reason) (.handling iteration response)
            (.ended false)) := by
  unfold JobHost.countTokens
  by_cases hzero : tokens = 0
  · rw [if_pos hzero]
    exact .inl ⟨hzero, rfl⟩
  · rw [if_neg hzero]
    right
    unfold JobContext.addTokens
    dsimp only
    by_cases hover : 0 < h.context.maxTokens ∧
        h.context.maxTokens < h.context.totalTokensUsed + tokens
    · rw [if_pos hover]
      exact ⟨_, rfl, .inr ⟨_, rfl⟩⟩
    · rw [if_neg hover]
      exact ⟨_, rfl, .inl ⟨rfl, by omega⟩⟩

/-- A step of the worker leaves most of the job alone: it moves on, it counts a call, or it
marks. -/
inductive Moves (h : JobHost) : JobHost → Prop where
  | mk (channel : List WorkerMessage) (position : Position) (rateLimits : Nat)
      (hasTextResponse : Bool) (executed : List Executed) (iterations : Nat) (heard : List Text)
      (calls : List (Nat × Nat)) : Moves h { h with
        channel, position, rateLimits, hasTextResponse, executed, iterations, heard, calls }

/-- A call has used tokens. The job is to fail if its budget is exceeded. -/
structure Uses (h h' : JobHost) (iteration tokens : Nat) (response : Response)
    (position : Position) : Prop where
  calling : h.position = .calling iteration
  eq : h' = { h.logCall with
    rateLimits := 0
    context := { h.context with totalTokensUsed := h.context.totalTokensUsed + tokens }
    usages := h.usages ++ [tokens]
    position }
  next : position = .handling iteration response ∧ (h.context.maxTokens = 0 ∨
      h.context.totalTokensUsed + tokens ≤ h.context.maxTokens) ∨
    ∃ reason, position =
      .marking (markFailed reason) (.handling iteration response) (.ended false)

theorem Works.effect (hw : Works cfg now h h') : Moves h h' ∨
    (∃ iteration tokens response position, Uses h h' iteration tokens response position) ∨
    ∃ change onOk onError, h.position = .marking change onOk onError ∧
      h' = h.mark cfg now change onOk onError := by
  cases hw with
  | mark change onOk onError hpos => exact .inr (.inr ⟨change, onOk, onError, hpos, rfl⟩)
  | waitForStart hpos hs =>
    left
    unfold JobHost.waitForStart at hs
    split at hs <;> cases hs <;> exact ⟨_, _, _, _, _, _, _, _⟩
  | createPlan plan hpos =>
    left
    unfold JobHost.createPlan
    split_ifs <;> exact ⟨_, _, _, _, _, _, _, _⟩
  | nextAction actions hpos =>
    left
    cases actions with
    | nil => exact ⟨_, _, _, _, _, _, _, _⟩
    | cons action rest =>
      unfold JobHost.nextAction
      dsimp only
      split <;> exact ⟨_, _, _, _, _, _, _, _⟩
  | stepAction batch rest i env hpos hs =>
    obtain ⟨task, executed, rfl, -⟩ := stepTool_cases hs
    exact .inl ⟨_, _, _, _, _, _, _, _⟩
  | stepTool iteration batch i env hpos hs =>
    obtain ⟨task, executed, rfl, -⟩ := stepTool_cases hs
    exact .inl ⟨_, _, _, _, _, _, _, _⟩
  | checkSignals iteration hpos =>
    left
    unfold JobHost.checkSignals
    dsimp only
    split_ifs
    · exact ⟨_, _, _, _, _, _, _, _⟩
    · split <;> exact ⟨_, _, _, _, _, _, _, _⟩
  | callLlm iteration outcome hpos =>
    cases outcome with
    | responded response tokens =>
      rw [callLlm_responded]
      rcases countTokens_cases (h := { h.logCall with rateLimits := 0 }) tokens iteration
        response with ⟨-, heq⟩ | ⟨position, heq, hnext⟩
      · rw [heq]
        exact .inl ⟨_, _, _, _, _, _, _, _⟩
      · exact .inr (.inl ⟨iteration, tokens, response, position, hpos, heq, hnext⟩)
    | selected first rest => exact .inl ⟨_, _, _, _, _, _, _, _⟩
    | rateLimited => exact .inl ⟨_, _, _, _, _, _, _, _⟩
    | emptyResponse => exact .inl ⟨_, _, _, _, _, _, _, _⟩
    | failed => exact .inl ⟨_, _, _, _, _, _, _, _⟩
  | handleText iteration text reading hpos =>
    left
    cases reading with
    | nudge => exact ⟨_, _, _, _, _, _, _, _⟩
    | fail reason => exact ⟨_, _, _, _, _, _, _, _⟩
    | accept =>
      unfold JobHost.handleText
      split_ifs <;> exact ⟨_, _, _, _, _, _, _, _⟩
  | wrapUp hpos =>
    left
    unfold JobHost.wrapUp
    split_ifs <;> exact ⟨_, _, _, _, _, _, _, _⟩
  | assess | actionDone | afterPlan | lookAtState | discard | takeUp | batchDone | failed =>
    exact .inl ⟨_, _, _, _, _, _, _, _⟩

/-- Only marking changes the state of the job, and has a status written. -/
structure Quiet (h h' : JobHost) : Prop where
  outside : Outside h h'
  state : h'.context.state = h.context.state
  writes : h'.writes = h.writes

theorem Works.quiet_or_mark (hw : Works cfg now h h') : Quiet h h' ∨
    ∃ change onOk onError, h.position = .marking change onOk onError ∧
      h' = h.mark cfg now change onOk onError := by
  rcases hw.effect with hmoves | ⟨iteration, tokens, response, position, huses⟩ | hmark
  · cases hmoves
    exact .inl ⟨⟨rfl, rfl, rfl, rfl, rfl, rfl⟩, rfl, rfl⟩
  · rw [huses.eq]
    exact .inl ⟨⟨rfl, rfl, rfl, rfl, rfl, rfl⟩, rfl, rfl⟩
  · exact .inr hmark

inductive Stops (cfg : WorkerConfig) (now : Time) (h : JobHost) : JobHost → Prop where
  | call (hstop : h.stop = .notCalled) : Stops cfg now h { h with
      scheduled := false, stop := .sending, stoppedOpen := h.context.state.isParallelBlocking }
  /-- A worker that is finished takes no message. -/
  | send (channel : List WorkerMessage) (hstop : h.stop = .sending) :
      Stops cfg now h { h with channel, stop := .sleeping }
  | abort (hstop : h.stop = .sleeping) : Stops cfg now h { h with
      aborting := h.aborting || !h.position.isFinished, stop := .aborted }
  | cancel (hstop : h.stop = .aborted) : Stops cfg now h { h with
      context := ((JobChange.transitionTo .cancelled (some "Stopped by scheduler")).apply now
        h.context).2
      stop := .returned
      writes := if cfg.hasStore then h.writes ++ [.cancelled] else h.writes }

theorem deliver_eq {message : WorkerMessage} (hd : h.deliver message = some h') :
    h' = { h with channel := h.channel ++ [message] } := by
  unfold JobHost.deliver at hd
  split_ifs at hd
  cases hd
  rfl

theorem stops_of_stopNext (hs : h.stopNext cfg now = some h') : Stops cfg now h h' := by
  unfold JobHost.stopNext at hs
  split at hs
  case h_1 hstop =>
    split_ifs at hs
    cases hs
    exact .call hstop
  case h_2 hstop =>
    split_ifs at hs
    · cases hs
      exact .send h.channel hstop
    · obtain ⟨h₁, hdeliver, rfl⟩ := Option.map_eq_some_iff.mp hs
      rw [deliver_eq hdeliver]
      exact .send _ hstop
  case h_3 hstop =>
    cases hs
    exact .abort hstop
  case h_4 hstop =>
    cases hs
    rw [persistStatus_eq]
    exact .cancel hstop
  case h_5 => cases hs

inductive Happens (cfg : WorkerConfig) (h : JobHost) : HostEvent → JobHost → Prop where
  | work {h' : JobHost} (now : Time) (e : WorkerEvent) (hw : Works cfg now h h') :
      Happens cfg h (.work now e) h'
  | timeOut (htimed : h.position.isTimed = true) :
      Happens cfg h .timeOut
        (h.goTo (.marking (.markStuck "Execution timeout") .finished .finished))
  | die (haborting : h.aborting = true) : Happens cfg h .die (h.goTo .finished)
  | stop {h' : JobHost} (now : Time) (hs : Stops cfg now h h') : Happens cfg h (.stop now) h'
  | sendMessage (content : Text) : Happens cfg h (.sendMessage content) { h with
      channel := h.channel ++ [.userMessage content], sent := h.sent ++ [(content, h.iterations)] }
  | cleanUp : Happens cfg h .cleanUp { h with scheduled := false }
  | change (now : Time) (change : JobChange) :
      Happens cfg h (.change now change) { h with context := (change.apply now h.context).2 }
  | land (i : Nat) (status : JobState) (hstatus : h.writes[i]? = some status) :
      Happens cfg h (.land i) { h with writes := h.writes.eraseIdx i, status := some status }

theorem happens_of_hostStep {e : HostEvent} (hstep : hostStep cfg h e = some h') :
    Happens cfg h e h' := by
  cases e with
  | work now e => exact .work now e (works_of_work hstep)
  | timeOut =>
    simp only [hostStep, JobHost.timeOut] at hstep
    split_ifs at hstep with htimed
    cases hstep
    exact .timeOut htimed
  | die =>
    simp only [hostStep, JobHost.die] at hstep
    split_ifs at hstep with haborting
    cases hstep
    exact .die (Bool.and_eq_true_iff.mp haborting).1
  | stop now => exact .stop now (stops_of_stopNext hstep)
  | sendMessage content =>
    obtain ⟨h₁, hdeliver, rfl⟩ := Option.map_eq_some_iff.mp hstep
    rw [deliver_eq hdeliver]
    exact .sendMessage content
  | cleanUp =>
    simp only [hostStep, JobHost.cleanUp] at hstep
    split_ifs at hstep
    cases hstep
    exact .cleanUp
  | change now change =>
    cases hstep
    exact .change now change
  | land i =>
    obtain ⟨status, hstatus, rfl⟩ := Option.map_eq_some_iff.mp hstep
    exact .land i status hstatus

end IronClaw.Jobs
