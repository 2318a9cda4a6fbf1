import IronClaw.Foundation.Interleaving
import IronClaw.Runtime.Threads

/-!
# The thread manager

Calls resume threads, send them signals and wait for their end, also for what a user says to a
conversation. A step of a call or an execution is what it does between two accesses to what is
shared. The store never fails and nothing panics.
-/

namespace IronClaw.Runtime

open Foundation (Text Json HashMap Pool)
open Missions (ThreadId ThreadState ThreadType ThreadOutcome)

abbrev ExecutionId := Nat

inductive RuntimeError where
  | alreadyRunning (id : ThreadId)
  | threadNotFound (id : ThreadId)
  | accessDenied (userId entity : Text)
  | invalidTransition (source target : ThreadState)
  | store (reason : Text)
  | lease (text : Text)

def RuntimeError.text (uuidText : Nat → Text) : RuntimeError → Text
  | alreadyRunning id => "thread error: thread already running: ".toList ++ uuidText id
  | threadNotFound id => "thread not found: ".toList ++ uuidText id
  | accessDenied userId entity =>
    "access denied: user '".toList ++ userId ++ "' cannot access ".toList ++ entity
  | invalidTransition source target =>
    "invalid state transition: ".toList ++ source.debug ++ " -> ".toList ++ target.debug
  | store reason => "store error: ".toList ++ reason
  | lease text => text

inductive ThreadSignal where
  | stop
  | suspend
  | resume
  | injectMessage (message : ThreadMessage)
  | childCompleted (childId : ThreadId) (outcome : ThreadOutcome)

def ThreadSignal.received : ThreadSignal → Option MessageId
  | injectMessage message => message.received
  | _ => none

/-- A message is added to the transcript. Any other signal is left to the program of the
execution. -/
def Thread.hear (thread : Thread) : ThreadSignal → Thread
  | .injectMessage message => thread.addMessage message
  | _ => thread

/-- An execution starts or ends; a message reaches a thread; a call is answered, or ends with an
error. -/
inductive Occurrence where
  | started (id : ThreadId)
  | finished (id : ThreadId) (state : ThreadState)
  | delivered (message : MessageId) (id : ThreadId)
  | answered (message : MessageId) (id : ThreadId)
  | refused (error : RuntimeError)

/-- The stored threads, executions, outcomes, mailboxes, conversations, and what has happened. -/
structure Runtime where
  threads : ThreadStore
  running : HashMap ThreadId ExecutionId
  completed : HashMap ThreadId ThreadOutcome
  mailboxes : HashMap ExecutionId (List ThreadSignal)
  conversations : HashMap ConversationId Conversation
  nextExecution : ExecutionId
  nextMessage : MessageId
  history : List Occurrence

namespace Runtime

variable (s : Runtime)

def isLive (e : ExecutionId) : Bool := (s.mailboxes.lookup e).isSome

def isRunning (id : ThreadId) : Bool := (s.running.lookup id).any s.isLive

def note (o : Occurrence) : Runtime := { s with history := s.history ++ [o] }

def saveThread (thread : Thread) : Runtime := { s with threads := s.threads.saveThread thread }

def setConversation (id : ConversationId) (f : Conversation → Conversation) : Runtime :=
  { s with conversations := HashMap.adjust s.conversations id f }

/-- A message has reached a thread, if it is one that a user has just said. -/
def noteDelivered (message : Option MessageId) (id : ThreadId) : Runtime :=
  message.elim s fun n => s.note (.delivered n id)

end Runtime

/-- The thread that a message goes to: one that runs, or one that is resumed for it. -/
inductive ActiveForeground where
  | running (id : ThreadId)
  | resumable (id : ThreadId)

/-- A message of a user that is being handled. Its call has the lock of the conversation. -/
structure Handling where
  conversationId : ConversationId
  conversation : Conversation
  userId : Text
  content : Text
  message : MessageId
  userTimezone : Option Text

def Handling.spoken (h : Handling) : ThreadMessage := .spoken h.content h.message

/-- Who made a call: somebody outside, or the handling of a message that found some thread for
it. -/
inductive Origin where
  | direct
  | handling (h : Handling) (active : Option ActiveForeground)

structure ResumeCall where
  id : ThreadId
  userId : Text
  injectedMessage : Option ThreadMessage
  resolvedCallId : Option Text
  origin : Origin

structure SpawnCall where
  goal : ThreadMessage
  threadType : ThreadType
  userId : Text
  initialMessages : List ThreadMessage
  initialMetadata : HashMap Text Json
  origin : Origin

/-- How far an execution is. It has an outcome once it has left its loop. -/
inductive Stage where
  | begin
  | loop
  | persist (outcome : ThreadOutcome)
  | saveFinal (outcome : ThreadOutcome)
  | complete (outcome : ThreadOutcome)
  | unregister

structure Execution where
  number : ExecutionId
  thread : Thread
  stage : Stage

/-- A task, named after the step that comes next. -/
inductive Task where
  | resumeThread (call : ResumeCall)
  | loadResumed (call : ResumeCall)
  | saveResumed (origin : Origin) (thread : Thread)
  | spawnThread (call : SpawnCall)
  | startThread (origin : Origin) (thread : Thread)
  | register (origin : Origin) (id : ThreadId) (number : ExecutionId)
  | execution (x : Execution)
  | injectMessage (origin : Origin) (id : ThreadId) (userId : Text) (message : ThreadMessage)
  | stopThread (id : ThreadId) (userId : Text)
  | sendSignal (origin : Origin) (id : ThreadId) (signal : ThreadSignal)
  | joinThread (id : ThreadId)
  | takeRunning (id : ThreadId)
  | awaitEnd (id : ThreadId) (number : ExecutionId)
  | cleanupFinished
  | handleUserMessage (conversationId : ConversationId) (content userId : Text)
      (userTimezone : Option Text)
  | checkRunning (h : Handling) (id : ThreadId) (rest : List ThreadId)
  | loadForeground (h : Handling) (id : ThreadId) (rest : List ThreadId)
  | loadMetadata (h : Handling) (id : ThreadId) (userTimezone : Text)
  | saveMetadata (h : Handling) (thread : Thread)
  | finishMessage (h : Handling) (active : Option ActiveForeground) (id : ThreadId)
  | recordThreadOutcome (conversationId : ConversationId) (id : ThreadId) (outcome : ThreadOutcome)
      (gateName actionName : Text)

/-- What a step takes from outside: an id, an error of a lease, a prompt, or what an execution does.
-/
inductive Input where
  | proceed
  | fresh (id : ThreadId)
  | refuse (error : RuntimeError)
  | prompt (prompt : Option Text)
  | checkSignals
  | transitionTo (state : ThreadState)
  | finish (outcome : ThreadOutcome)
  | fail (error : Text)

structure RuntimeConfig where
  uuidText : Nat → Text
  format : PromptFormat

section Steps

variable (config : RuntimeConfig)

/-- What remains to be done once a call has succeeded: the handling that made it goes on. -/
def Origin.answer (id : ThreadId) : Origin → List Task
  | .direct => []
  | .handling h active => [.finishMessage h active id]

/-- A call has failed. The handling that made it fails as well, and gives its lock back. -/
def Origin.refuse (s : Runtime) (e : RuntimeError) : Origin → Runtime × List Task
  | .direct => (s.note (.refused e), [])
  | .handling h _ =>
    ((s.setConversation h.conversationId fun c => { c with locked := false }).note (.refused e), [])

def threadDenied (id : ThreadId) (userId : Text) : RuntimeError :=
  .accessDenied userId ("thread ".toList ++ config.uuidText id)

def resumeError (call : ResumeCall) (thread : Thread) : Option RuntimeError :=
  if !thread.isOwnedBy call.userId then some (threadDenied config call.id call.userId)
  else if !thread.state.isResumable then
    some (.store ("thread ".toList ++ config.uuidText call.id ++
      " is not resumable from ".toList ++ thread.state.debug))
  else none

def SpawnCall.thread (call : SpawnCall) (id : ThreadId) : Thread where
  id := id
  userId := call.userId
  threadType := call.threadType
  state := .created
  messages := call.initialMessages ++ [call.goal]
  metadata := call.initialMetadata

/-- An execution of the thread starts, with an empty mailbox. -/
def launch (s : Runtime) (thread : Thread) : Runtime :=
  { s with
    mailboxes := s.mailboxes.insert s.nextExecution []
    nextExecution := s.nextExecution + 1
    history := s.history ++ [.started thread.id] }

namespace Execution

variable (x : Execution)

/-- The execution begins: the thread runs, with its system prompt, and is saved. -/
def begun (prompt : Option Text) (s : Runtime) : Runtime × List Task :=
  match if x.thread.state = .running then some x.thread else x.thread.transitionTo .running with
  | none =>
    let error := RuntimeError.invalidTransition x.thread.state .running
    (s, [.execution { x with stage := .saveFinal (.failed (error.text config.uuidText)) }])
  | some thread =>
    let thread := thread.withPrompt config.format prompt
    (s.saveThread thread, [.execution { x with thread := thread, stage := .loop }])

/-- The program takes out one signal. -/
def checkedSignals (s : Runtime) : Runtime × List Task :=
  match s.mailboxes.lookup x.number with
  | some (signal :: rest) =>
    ({ s with mailboxes := s.mailboxes.insert x.number rest },
      [.execution { x with thread := x.thread.hear signal }])
  | _ => (s, [.execution x])

def broken (error : Text) : Execution :=
  { x with
    thread := x.thread.failedUnlessEnded
    stage := .persist (.failed ("Orchestrator error: ".toList ++ error)) }

def finished (outcome : ThreadOutcome) : Execution :=
  let thread := x.thread.syncVisibleOutcome outcome
  match thread.normalizePauseOutcome outcome with
  | some thread => { x with thread := thread, stage := .persist outcome }
  | none => { x with thread := thread }.broken
      ((RuntimeError.invalidTransition thread.state .waiting).text config.uuidText)

def next (input : Input) (s : Runtime) : Option (Runtime × List Task) :=
  match x.stage, input with
  | .begin, .prompt prompt => some (x.begun config prompt s)
  | .loop, .checkSignals => some (x.checkedSignals s)
  | .loop, .transitionTo state =>
    if state = .created ∨ state = .done then none
    else some (s, [.execution { x with thread := (x.thread.transitionTo state).getD x.thread }])
  | .loop, .finish outcome => some (s, [.execution (x.finished config outcome)])
  | .loop, .fail error => some (s, [.execution (x.broken error)])
  | .persist outcome, .proceed =>
    some (s.saveThread x.thread, [.execution { x with stage := .saveFinal outcome }])
  | .saveFinal outcome, .proceed =>
    some (s.saveThread x.thread.closed,
      [.execution { x with thread := x.thread.closed, stage := .complete outcome }])
  | .complete outcome, .proceed =>
    some ({ s with completed := s.completed.insert x.thread.id outcome },
      [.execution { x with stage := .unregister }])
  | .unregister, .proceed =>
    some ({ s with
      running := s.running.erase x.thread.id
      mailboxes := s.mailboxes.erase x.number
      history := s.history ++ [.finished x.thread.id x.thread.state] }, [])
  | _, _ => none

end Execution

/-- A signal goes into the mailbox of the execution in the table, waits while that is full, and is
lost at its end. -/
def sent (s : Runtime) (origin : Origin) (id : ThreadId) (signal : ThreadSignal) :
    Option (Runtime × List Task) :=
  match s.running.lookup id with
  | none => some (origin.refuse s (.threadNotFound id))
  | some number =>
    match s.mailboxes.lookup number with
    | none => some (s, origin.answer id)
    | some queue =>
      if queue.length < 32 then
        some ({ s with mailboxes := s.mailboxes.insert number (queue ++ [signal]) }
          |>.noteDelivered signal.received id, origin.answer id)
      else none

def maySignal (s : Runtime) (id : ThreadId) (userId : Text) : Bool :=
  (s.threads.loadThread id).all fun thread => thread.isOwnedBy userId

namespace Handling

variable (h : Handling)

def resume (id : ThreadId) : Task :=
  .resumeThread ⟨id, h.userId, some h.spoken, none, .handling h (some (.resumable id))⟩

def initialMetadata : HashMap Text Json :=
  let base := (∅ : HashMap Text Json).insert "source_channel".toList
    (.str (h.conversation.channel.takeWhile fun c => c != ':'))
  h.userTimezone.elim base fun tz => base.insert "user_timezone".toList (.str tz)

/-- Go on with the next active thread. Without one, a new thread takes the message. -/
def search : List ThreadId → Task
  | id :: rest => .checkRunning h id rest
  | [] => .spawnThread
    { goal := h.spoken
      threadType := .foreground
      userId := h.userId
      initialMessages := buildHistoryFromEntries h.conversation.entries
      initialMetadata := h.initialMetadata
      origin := .handling h none }

def concluded (active : Option ActiveForeground) (id : ThreadId) (conversation : Conversation) :
    Conversation :=
  let conversation := conversation.addEntry (.user h.content)
  let conversation := match active with
    | some (.running _) => conversation
    | some (.resumable _) =>
      conversation.addEntry (.systemForThread id "Thread resumed".toList)
    | none =>
      (conversation.trackThread id).addEntry (.systemForThread id "Thread started".toList)
  { conversation with locked := false }

end Handling

/-- A call about a message takes the lock of the conversation, which has to be the user's. -/
def lockConversation (s : Runtime) (conversationId : ConversationId) (content userId : Text)
    (userTimezone : Option Text) : Option (Runtime × List Task) :=
  match s.conversations.lookup conversationId with
  | none => some (s.note (.refused (.store
      ("conversation ".toList ++ config.uuidText conversationId ++ " not found".toList))), [])
  | some conversation =>
    if conversation.locked then none
    else if conversation.userId != userId then
      some (s.note (.refused (.accessDenied userId
        ("conversation ".toList ++ config.uuidText conversationId))), [])
    else
      let h : Handling :=
        ⟨conversationId, conversation, userId, content, s.nextMessage, userTimezone⟩
      some ({ s.setConversation conversationId fun c => { c with locked := true } with
        nextMessage := s.nextMessage + 1 }, [h.search conversation.activeThreads])

def isResumableForeground (thread : Thread) : Bool :=
  thread.threadType == .foreground && thread.state == .suspended

def next (input : Input) (s : Runtime) : Task → Option (Runtime × List Task)
  | .resumeThread call =>
    some (if s.isRunning call.id then call.origin.refuse s (.alreadyRunning call.id)
      else (s, [.loadResumed call]))
  | .loadResumed call =>
    match s.threads.loadThread call.id with
    | none => some (call.origin.refuse s (.threadNotFound call.id))
    | some thread =>
      match resumeError config call thread with
      | some e => some (call.origin.refuse s e)
      | none => some (s.noteDelivered (call.injectedMessage.bind ThreadMessage.received) call.id,
          [.saveResumed call.origin (thread.resumed call.injectedMessage call.resolvedCallId)])
  | .saveResumed origin thread => some (s.saveThread thread, [.startThread origin thread])
  | .spawnThread call =>
    match input with
    | .fresh id =>
      if (s.threads.loadThread id).isSome then none
      else some ((s.saveThread (call.thread id)).noteDelivered call.goal.received id,
        [.startThread call.origin (call.thread id)])
    | .refuse e => some (call.origin.refuse s e)
    | _ => none
  | .startThread origin thread =>
    match input with
    | .proceed => some (launch s thread, [.register origin thread.id s.nextExecution,
        .execution ⟨s.nextExecution, thread, .begin⟩])
    | .refuse e => some (origin.refuse s e)
    | _ => none
  | .register origin id number =>
    some ({ s with running := s.running.insert id number }, origin.answer id)
  | .execution x => x.next config input s
  | .injectMessage origin id userId message =>
    some (if maySignal s id userId then (s, [.sendSignal origin id (.injectMessage message)])
      else origin.refuse s (threadDenied config id userId))
  | .stopThread id userId =>
    some (if maySignal s id userId then (s, [.sendSignal .direct id .stop])
      else Origin.direct.refuse s (threadDenied config id userId))
  | .sendSignal origin id signal => sent s origin id signal
  | .joinThread id =>
    some (if (s.completed.lookup id).isSome then ({ s with completed := s.completed.erase id }, [])
      else (s, [.takeRunning id]))
  | .takeRunning id =>
    match s.running.lookup id with
    | none => some (s.note (.refused (.threadNotFound id)), [])
    | some number => some ({ s with running := s.running.erase id }, [.awaitEnd id number])
  | .awaitEnd id number =>
    if s.isLive number then none else some ({ s with completed := s.completed.erase id }, [])
  | .cleanupFinished =>
    some ({ s with running := HashMap.retain s.running fun _ number => s.isLive number }, [])
  | .handleUserMessage conversationId content userId userTimezone =>
    lockConversation config s conversationId content userId userTimezone
  | .checkRunning h id rest =>
    some (s, [if s.isRunning id then
      .injectMessage (.handling h (some (.running id))) id h.userId h.spoken
      else .loadForeground h id rest])
  | .loadForeground h id rest =>
    some (s, [if (s.threads.loadThread id).any isResumableForeground then
      h.userTimezone.elim (h.resume id) (.loadMetadata h id) else h.search rest])
  | .loadMetadata h id userTimezone =>
    some (s, [(s.threads.loadThread id).elim (h.resume id) fun thread => .saveMetadata h
      { thread with
        metadata := thread.metadata.insert "user_timezone".toList (.str userTimezone) }])
  | .saveMetadata h thread => some (s.saveThread thread, [h.resume thread.id])
  | .finishMessage h active id =>
    some ((s.setConversation h.conversationId (h.concluded active id)).note
      (.answered h.message id), [])
  | .recordThreadOutcome conversationId id outcome gateName actionName =>
    match s.conversations.lookup conversationId with
    | none => some (s.note (.refused (.store
        ("conversation ".toList ++ config.uuidText conversationId ++ " not found".toList))), [])
    | some conversation =>
      if conversation.locked then none
      else some (s.setConversation conversationId fun c =>
        c.withOutcome id outcome gateName actionName, [])

end Steps

/-- What somebody outside can call. Its messages are no messages of a user. -/
inductive Call where
  | resumeThread (id : ThreadId) (userId : Text) (injectedMessage : Option ThreadMessage)
      (resolvedCallId : Option Text)
  | injectMessage (id : ThreadId) (userId : Text) (message : ThreadMessage)
  | stopThread (id : ThreadId) (userId : Text)
  | joinThread (id : ThreadId)
  | cleanupFinished
  | spawnThread (goal : Text) (threadType : ThreadType) (userId : Text)
      (initialMessages : List ThreadMessage) (initialMetadata : HashMap Text Json)
  | handleUserMessage (conversationId : ConversationId) (content userId : Text)
      (userTimezone : Option Text)
  | recordThreadOutcome (conversationId : ConversationId) (id : ThreadId) (outcome : ThreadOutcome)
      (gateName actionName : Text)

def Call.task : Call → Task
  | resumeThread id userId injectedMessage resolvedCallId =>
    .resumeThread ⟨id, userId, injectedMessage.map ThreadMessage.copied, resolvedCallId, .direct⟩
  | injectMessage id userId message => .injectMessage .direct id userId message.copied
  | stopThread id userId => .stopThread id userId
  | joinThread id => .joinThread id
  | cleanupFinished => .cleanupFinished
  | spawnThread goal threadType userId initialMessages initialMetadata =>
    .spawnThread ⟨.user goal, threadType, userId, initialMessages.map ThreadMessage.copied,
      initialMetadata, .direct⟩
  | handleUserMessage conversationId content userId userTimezone =>
    .handleUserMessage conversationId content userId userTimezone
  | recordThreadOutcome conversationId id outcome gateName actionName =>
    .recordThreadOutcome conversationId id outcome gateName actionName

inductive Action where
  | call (call : Call)
  | step (i : Nat) (input : Input)

def step (config : RuntimeConfig) (p : Pool Runtime Task) : Action → Option (Pool Runtime Task)
  | .call call => some (p.start call.task)
  | .step i input => p.advance (next config) i input

namespace Stage

/-- The execution may still look into its mailbox. -/
def reads : Stage → Bool
  | begin => true
  | loop => true
  | _ => false

def isStored : Stage → Bool
  | complete _ => true
  | unregister => true
  | _ => false

end Stage

/-- An execution leaves its loop, or does not get to it: its program ends, or it cannot begin. -/
def Execution.leaves (x : Execution) : Input → Bool
  | .finish _ => true
  | .fail _ => true
  | .prompt _ => x.thread.state != .running && !x.thread.state.canTransitionTo .running
  | _ => false

namespace Task

/-- The thread that a task is about to start, or has loaded and will save. -/
def prepares : Task → Option ThreadId
  | loadResumed call => some call.id
  | saveResumed _ thread => some thread.id
  | startThread _ thread => some thread.id
  | register _ id _ => some id
  | saveMetadata _ thread => some thread.id
  | _ => none

def asExecution : Task → Option Execution
  | execution x => some x
  | _ => none

def executes (t : Task) : Option ThreadId := t.asExecution.map fun x => x.thread.id

def number (t : Task) : Option ExecutionId := t.asExecution.map Execution.number

/-- The record of a thread that a task will save, or has saved. -/
def carries : Task → Option Thread
  | saveResumed _ thread => some thread
  | startThread _ thread => some thread
  | saveMetadata _ thread => some thread
  | execution x => some x.thread
  | _ => none

def registering : Task → Option ExecutionId
  | register _ _ number => some number
  | _ => none

end Task

def Origin.message : Origin → Option MessageId
  | direct => none
  | handling h _ => some h.message

namespace Task

/-- The message that a task still has to bring to a thread. -/
def bears : Task → Option MessageId
  | resumeThread call => call.injectedMessage.bind ThreadMessage.received
  | loadResumed call => call.injectedMessage.bind ThreadMessage.received
  | spawnThread call => call.goal.received
  | injectMessage _ _ _ message => message.received
  | sendSignal _ _ signal => signal.received
  | checkRunning h _ _ => some h.message
  | loadForeground h _ _ => some h.message
  | loadMetadata h _ _ => some h.message
  | saveMetadata h _ => some h.message
  | _ => none

/-- The message that a task has brought to a thread, and will be answered with it. -/
def promises : Task → Option (MessageId × ThreadId)
  | saveResumed origin thread => origin.message.map fun n => (n, thread.id)
  | startThread origin thread => origin.message.map fun n => (n, thread.id)
  | register origin id _ => origin.message.map fun n => (n, id)
  | finishMessage h _ id => some (h.message, id)
  | _ => none

/-- A task that is not about to change any thread, and has no message with one yet. -/
structure IsPlain (t : Task) : Prop where
  prepares : t.prepares = none
  asExecution : t.asExecution = none
  promises : t.promises = none

/-- A message that a call brings in is the one that is being handled, and comes from a user. -/
def Coherent : Task → Prop
  | resumeThread call => call.injectedMessage.bind ThreadMessage.received = call.origin.message ∧
      ∀ m, call.injectedMessage = some m → m.received ≠ none → m.role = .user
  | loadResumed call => call.injectedMessage.bind ThreadMessage.received = call.origin.message ∧
      ∀ m, call.injectedMessage = some m → m.received ≠ none → m.role = .user
  | spawnThread call => call.goal.received = call.origin.message ∧ call.goal.role = .user ∧
      ∀ m ∈ call.initialMessages, m.received = none
  | injectMessage origin _ _ message => message.received = origin.message ∧
      (message.received ≠ none → message.role = .user)
  | sendSignal origin _ signal => signal.received = origin.message ∧
      ∀ m, signal = .injectMessage m → m.received ≠ none → m.role = .user
  | _ => True

end Task

/-- Nothing changes that has to do with executions and messages. An error may be noted. -/
structure Quiet (s s' : Runtime) : Prop where
  threads : s'.threads = s.threads
  running : s'.running = s.running
  mailboxes : s'.mailboxes = s.mailboxes
  nextExecution : s'.nextExecution = s.nextExecution
  nextMessage : s'.nextMessage = s.nextMessage
  history : s'.history = s.history ∨ ∃ e, s'.history = s.history ++ [.refused e]

/-- What a step does to the shared state, and what it leaves to be done. -/
inductive Moves (input : Input) (s : Runtime) : Task → Runtime → List Task → Prop
  | quiet {t : Task} {s' : Runtime} (next : Option Task) (hs : Quiet s s')
    (hregistering : t.registering = none) (hexecution : t.asExecution = none)
    (hrecord : ∀ thread, t.carries = some thread → ∃ origin, t = .startThread origin thread)
    (hplain : ∀ u ∈ next, u.IsPlain ∧ (u.bears = t.bears ∨ u.bears = none))
    (hcoherent : t.Coherent → ∀ u ∈ next, u.Coherent) : Moves input s t s' next.toList
  | checked {call : ResumeCall} (hfree : s.isRunning call.id = false) :
    Moves input s (.resumeThread call) s [.loadResumed call]
  | loaded {call : ResumeCall} {thread : Thread}
    (hload : s.threads.loadThread call.id = some thread)
    (hstate : thread.state.isResumable = true) :
    Moves input s (.loadResumed call)
      (s.noteDelivered (call.injectedMessage.bind ThreadMessage.received) call.id)
      [.saveResumed call.origin (thread.resumed call.injectedMessage call.resolvedCallId)]
  | saved {origin : Origin} {thread : Thread} :
    Moves input s (.saveResumed origin thread) (s.saveThread thread) [.startThread origin thread]
  | spawned {call : SpawnCall} {id : ThreadId} (hinput : input = .fresh id)
    (hfresh : s.threads.loadThread id = none) :
    Moves input s (.spawnThread call) ((s.saveThread (call.thread id)).noteDelivered
      call.goal.received id)
      [.startThread call.origin (call.thread id)]
  | started {origin : Origin} {thread : Thread} :
    Moves input s (.startThread origin thread) (launch s thread)
      [.register origin thread.id s.nextExecution, .execution ⟨s.nextExecution, thread, .begin⟩]
  | registered {origin : Origin} {id : ThreadId} {number : ExecutionId} :
    Moves input s (.register origin id number) { s with running := s.running.insert id number }
      (origin.answer id)
  | worked {x x' : Execution} {s' : Runtime} (hs : Quiet s s') (hnumber : x'.number = x.number)
    (hsame : x.thread.SameReceived x'.thread) (hreads : x'.stage.reads = true →
      x.stage.reads = true)
    (hleaves : x.stage.reads = true → x'.stage.reads = true ∨ x.leaves input = true)
    (hstored : x'.stage.isStored = true → x.stage.isStored = true ∧ x'.thread = x.thread) :
    Moves input s (.execution x) s' [.execution x']
  | heard {x : Execution} {signal : ThreadSignal} {rest : List ThreadSignal}
    (hstage : x.stage = .loop) (hmail : s.mailboxes.lookup x.number = some (signal :: rest)) :
    Moves input s (.execution x) { s with mailboxes := s.mailboxes.insert x.number rest }
      [.execution { x with thread := x.thread.hear signal }]
  | stored {x : Execution} (x' : Execution) (hnumber : x'.number = x.number)
    (hsame : x.thread.SameReceived x'.thread) (hreads : x'.stage.reads = x.stage.reads) :
    Moves input s (.execution x) (s.saveThread x'.thread) [.execution x']
  | ended {x : Execution} (hstage : x.stage = .unregister) :
    Moves input s (.execution x) { s with
      running := s.running.erase x.thread.id
      mailboxes := s.mailboxes.erase x.number
      history := s.history ++ [.finished x.thread.id x.thread.state] } []
  | sent {origin : Origin} {id : ThreadId} {signal : ThreadSignal} {number : ExecutionId}
    {queue : List ThreadSignal} (hrunning : s.running.lookup id = some number)
    (hmail : s.mailboxes.lookup number = some queue) :
    Moves input s (.sendSignal origin id signal)
      ({ s with mailboxes := s.mailboxes.insert number (queue ++ [signal]) }
        |>.noteDelivered signal.received id) (origin.answer id)
  | lost {origin : Origin} {id : ThreadId} {signal : ThreadSignal} {number : ExecutionId}
    (hrunning : s.running.lookup id = some number) (hmail : s.mailboxes.lookup number = none) :
    Moves input s (.sendSignal origin id signal) s (origin.answer id)
  | taken {id : ThreadId} {number : ExecutionId} (hrunning : s.running.lookup id = some number) :
    Moves input s (.takeRunning id) { s with running := s.running.erase id } [.awaitEnd id number]
  | swept : Moves input s .cleanupFinished
    { s with running := HashMap.retain s.running fun _ number => s.isLive number } []
  | locked {conversationId : ConversationId} {content userId : Text} {userTimezone : Option Text}
    {h : Handling} {ids : List ThreadId} {conversations : HashMap ConversationId Conversation}
    (hmessage : h.message = s.nextMessage) :
    Moves input s (.handleUserMessage conversationId content userId userTimezone)
      { s with conversations := conversations, nextMessage := s.nextMessage + 1 } [h.search ids]
  | patching {h : Handling} {id : ThreadId} {userTimezone : Text} {thread : Thread}
    {metadata : HashMap Text Json} (hload : s.threads.loadThread id = some thread) :
    Moves input s (.loadMetadata h id userTimezone) s [.saveMetadata h
      { thread with metadata := metadata }]
  | patched {h : Handling} {thread : Thread} :
    Moves input s (.saveMetadata h thread) (s.saveThread thread) [h.resume thread.id]
  | answered {h : Handling} {active : Option ActiveForeground} {id : ThreadId}
    {conversations : HashMap ConversationId Conversation} :
    Moves input s (.finishMessage h active id)
      { s with
        conversations := conversations
        history := s.history ++ [.answered h.message id] } []

section Moves

variable {config : RuntimeConfig} {input : Input} {s s' : Runtime} {t : Task} {ts : List Task}

namespace Quiet

theorem refl (s : Runtime) : Quiet s s := ⟨rfl, rfl, rfl, rfl, rfl, .inl rfl⟩

theorem note (s : Runtime) (e : RuntimeError) : Quiet s (s.note (.refused e)) :=
  ⟨rfl, rfl, rfl, rfl, rfl, .inr ⟨e, rfl⟩⟩

end Quiet

theorem Origin.quiet_refuse (origin : Origin) (e : RuntimeError) :
    Quiet s (origin.refuse s e).1 ∧ (origin.refuse s e).2 = [] := by
  cases origin with
  | direct => exact ⟨.note s e, rfl⟩
  | handling h active => exact ⟨⟨rfl, rfl, rfl, rfl, rfl, .inr ⟨e, rfl⟩⟩, rfl⟩

theorem moves_of_quiet (hs : Quiet s s') (hregistering : t.registering = none)
    (hexecution : t.asExecution = none)
    (hrecord : ∀ thread, t.carries = some thread → ∃ origin, t = .startThread origin thread) :
    Moves input s t s' [] :=
  .quiet none hs hregistering hexecution hrecord (fun u hu => by cases hu) fun _ u hu => by cases hu

theorem moves_of_refuse {origin : Origin} {e : RuntimeError} (hregistering : t.registering = none)
    (hexecution : t.asExecution = none)
    (hrecord : ∀ thread, t.carries = some thread → ∃ origin, t = .startThread origin thread)
    (h : origin.refuse s e = (s', ts)) : Moves input s t s' ts := by
  obtain ⟨hs, hts⟩ := origin.quiet_refuse e (s := s)
  rw [h] at hs hts
  rw [show ts = [] from hts]
  exact moves_of_quiet hs hregistering hexecution hrecord

theorem isPlain_search (h : Handling) (ids : List ThreadId) :
    (h.search ids).IsPlain ∧ (h.search ids).bears = some h.message ∧ (h.search ids).Coherent := by
  cases ids with
  | nil => exact ⟨⟨rfl, rfl, rfl⟩, rfl, rfl, rfl, received_buildHistoryFromEntries _⟩
  | cons id rest => exact ⟨⟨rfl, rfl, rfl⟩, rfl, trivial⟩

theorem isPlain_resume (h : Handling) (id : ThreadId) :
    (h.resume id).IsPlain ∧ (h.resume id).bears = some h.message ∧ (h.resume id).Coherent := by
  refine ⟨⟨rfl, rfl, rfl⟩, rfl, rfl, fun m hm _ => ?_⟩
  cases hm
  rfl

theorem moves_on {u : Task} (hregistering : t.registering = none)
    (hexecution : t.asExecution = none)
    (hrecord : t.carries = none) (hplain : u.IsPlain) (hbears : u.bears = t.bears ∨ u.bears = none)
    (hcoherent : t.Coherent → u.Coherent) : Moves input s t s [u] := by
  refine .quiet (some u) (.refl s) hregistering hexecution (fun _ h => ?_) ?_ ?_
  · rw [hrecord] at h
    cases h
  · rintro u' ⟨⟩
    exact ⟨hplain, hbears⟩
  · rintro h u' ⟨⟩
    exact hcoherent h

theorem moves_of_begun {x : Execution} {prompt : Option Text}
    (h : x.begun config prompt s = (s', ts)) (hstage : x.stage = .begin) :
    Moves (.prompt prompt) s (.execution x) s' ts := by
  unfold Execution.begun at h
  split at h
  · rename_i hnone
    cases h
    refine .worked (.refl s) rfl (.refl x.thread) nofun (fun _ => .inr ?_)
      nofun
    split_ifs at hnone with hrunning
    unfold Thread.transitionTo at hnone
    split_ifs at hnone with hmay
    simp [Execution.leaves, hrunning, hmay]
  · rename_i thread hthread
    cases h
    refine .stored { x with thread := thread.withPrompt config.format prompt, stage := .loop }
      rfl ?_ (by rw [hstage]; rfl)
    have hbegun : x.thread.SameReceived thread := by
      split_ifs at hthread
      · cases hthread
        exact .refl x.thread
      · exact Thread.sameReceived_of_transitionTo hthread
    exact hbegun.trans Thread.sameReceived_withPrompt

theorem moves_of_checkedSignals {x : Execution} (h : x.checkedSignals s = (s', ts))
    (hstage : x.stage = .loop) : Moves input s (.execution x) s' ts := by
  unfold Execution.checkedSignals at h
  split at h
  · rename_i signal rest hmail
    cases h
    exact .heard hstage hmail
  · cases h
    exact .worked (.refl s) rfl (.refl x.thread) (fun h => h) .inl fun h => ⟨h, rfl⟩

theorem Execution.broken_eq (x : Execution) (error : Text) :
    (x.broken error).number = x.number ∧ x.thread.SameReceived (x.broken error).thread ∧
      ∃ outcome, (x.broken error).stage = .persist outcome :=
  ⟨rfl, Thread.sameReceived_failedUnlessEnded, _, rfl⟩

variable (config) in
theorem Execution.finished_eq (x : Execution) (outcome : ThreadOutcome) :
    (x.finished config outcome).number = x.number ∧
      x.thread.SameReceived (x.finished config outcome).thread ∧
      ∃ outcome', (x.finished config outcome).stage = .persist outcome' := by
  unfold Execution.finished
  dsimp only
  split
  · rename_i thread hthread
    exact ⟨rfl, Thread.sameReceived_syncVisibleOutcome.trans
      (Thread.sameReceived_of_normalizePauseOutcome hthread), _, rfl⟩
  · obtain ⟨hnumber, hsame, hstage⟩ := Execution.broken_eq
      { x with thread := x.thread.syncVisibleOutcome outcome }
      ((RuntimeError.invalidTransition (x.thread.syncVisibleOutcome outcome).state .waiting).text
        config.uuidText)
    exact ⟨hnumber, Thread.sameReceived_syncVisibleOutcome.trans hsame, hstage⟩

theorem moves_of_execution {x : Execution} (h : x.next config input s = some (s', ts)) :
    Moves input s (.execution x) s' ts := by
  unfold Execution.next at h
  split at h <;> rename_i hstage
  · exact moves_of_begun (Option.some.inj h) hstage
  · exact moves_of_checkedSignals (Option.some.inj h) hstage
  · split_ifs at h
    cases h
    exact .worked (.refl s) rfl Thread.sameReceived_getD_transitionTo (fun h => h) .inl
      fun h => by rw [hstage] at h; cases h
  · rename_i outcome
    cases h
    obtain ⟨hnumber, hsame, outcome', hpersist⟩ := x.finished_eq config outcome
    exact .worked (.refl s) hnumber hsame (fun _ => by rw [hstage]; rfl) (fun _ => .inr rfl)
      fun h => by rw [hpersist] at h; cases h
  · rename_i error
    cases h
    obtain ⟨hnumber, hsame, outcome', hpersist⟩ := x.broken_eq error
    exact .worked (.refl s) hnumber hsame (fun _ => by rw [hstage]; rfl) (fun _ => .inr rfl)
      fun h => by rw [hpersist] at h; cases h
  · cases h
    exact .stored { x with stage := .saveFinal _ } rfl (.refl x.thread) (by rw [hstage]; rfl)
  · cases h
    exact .stored { x with thread := x.thread.closed, stage := .complete _ } rfl
      Thread.sameReceived_closed (by rw [hstage]; rfl)
  · cases h
    exact .worked ⟨rfl, rfl, rfl, rfl, rfl, .inl rfl⟩ rfl (.refl x.thread) nofun
      (fun h => by rw [hstage] at h; cases h) fun _ => ⟨by rw [hstage]; rfl, rfl⟩
  · cases h
    exact .ended hstage
  · cases h

theorem moves_of_sent {origin : Origin} {id : ThreadId} {signal : ThreadSignal}
    (h : sent s origin id signal = some (s', ts)) :
      Moves input s (.sendSignal origin id signal) s' ts := by
  unfold sent at h
  split at h
  · exact moves_of_refuse rfl rfl nofun (Option.some.inj h)
  · rename_i number hrunning
    split at h
    · rename_i hmail
      cases h
      exact .lost hrunning hmail
    · rename_i queue hmail
      split_ifs at h
      cases h
      exact .sent hrunning hmail

theorem moves_of_lockConversation {conversationId : ConversationId} {content userId : Text}
    {userTimezone : Option Text}
    (h : lockConversation config s conversationId content userId userTimezone = some (s', ts)) :
    Moves input s (.handleUserMessage conversationId content userId userTimezone) s' ts := by
  unfold lockConversation at h
  split at h
  · cases h
    exact moves_of_quiet (.note s _) rfl rfl nofun
  · split_ifs at h
    · cases h
      exact moves_of_quiet (.note s _) rfl rfl nofun
    · cases h
      exact .locked rfl

/-- **What the steps do.** Each step of a task is one of the moves. -/
theorem moves_of_next (h : next config input s t = some (s', ts)) : Moves input s t s' ts := by
  cases t with
  | resumeThread call =>
    simp only [next, Option.some.injEq] at h
    split_ifs at h with hfree
    · exact moves_of_refuse rfl rfl nofun h
    · cases h
      exact .checked (by simpa using hfree)
  | loadResumed call =>
    simp only [next] at h
    split at h
    · exact moves_of_refuse rfl rfl nofun (Option.some.inj h)
    · rename_i thread hload
      split at h
      · exact moves_of_refuse rfl rfl nofun (Option.some.inj h)
      · rename_i hnone
        cases h
        refine .loaded hload ?_
        unfold resumeError at hnone
        split_ifs at hnone with howned hstate
        simpa using hstate
  | saveResumed origin thread =>
    cases h
    exact .saved
  | spawnThread call =>
    simp only [next] at h
    split at h
    · split_ifs at h with hfresh
      cases h
      exact .spawned rfl (by simpa using hfresh)
    · exact moves_of_refuse rfl rfl nofun (Option.some.inj h)
    · cases h
  | startThread origin thread =>
    simp only [next] at h
    split at h
    · cases h
      exact .started
    · refine moves_of_refuse rfl rfl (fun thread' h' => ?_) (Option.some.inj h)
      cases h'
      exact ⟨origin, rfl⟩
    · cases h
  | register origin id number =>
    cases h
    exact .registered
  | execution x => exact moves_of_execution h
  | injectMessage origin id userId message =>
    simp only [next, Option.some.injEq] at h
    split_ifs at h
    · cases h
      refine moves_on rfl rfl rfl ⟨rfl, rfl, rfl⟩ (.inl rfl) fun hcoherent => ⟨hcoherent.1, ?_⟩
      rintro m ⟨⟩ hm
      exact hcoherent.2 hm
    · exact moves_of_refuse rfl rfl nofun h
  | stopThread id userId =>
    simp only [next, Option.some.injEq] at h
    split_ifs at h
    · cases h
      refine moves_on rfl rfl rfl ⟨rfl, rfl, rfl⟩ (.inl rfl) fun _ => ⟨rfl, ?_⟩
      rintro m ⟨⟩
    · exact moves_of_refuse rfl rfl nofun h
  | sendSignal origin id signal => exact moves_of_sent h
  | joinThread id =>
    simp only [next, Option.some.injEq] at h
    split_ifs at h
    · cases h
      exact moves_of_quiet ⟨rfl, rfl, rfl, rfl, rfl, .inl rfl⟩ rfl rfl nofun
    · cases h
      exact moves_on rfl rfl rfl ⟨rfl, rfl, rfl⟩ (.inl rfl) fun _ => trivial
  | takeRunning id =>
    simp only [next] at h
    split at h
    · cases h
      exact moves_of_quiet (.note s _) rfl rfl nofun
    · rename_i number hrunning
      cases h
      exact .taken hrunning
  | awaitEnd id number =>
    simp only [next] at h
    split_ifs at h
    cases h
    exact moves_of_quiet ⟨rfl, rfl, rfl, rfl, rfl, .inl rfl⟩ rfl rfl nofun
  | cleanupFinished =>
    cases h
    exact .swept
  | handleUserMessage conversationId content userId userTimezone =>
    exact moves_of_lockConversation h
  | checkRunning h' id rest =>
    cases h
    split_ifs
    · exact moves_on rfl rfl rfl ⟨rfl, rfl, rfl⟩ (.inl rfl) fun _ => ⟨rfl, fun _ => rfl⟩
    · exact moves_on rfl rfl rfl ⟨rfl, rfl, rfl⟩ (.inl rfl) fun _ => trivial
  | loadForeground h' id rest =>
    cases h
    split_ifs
    · cases htz : h'.userTimezone with
      | none =>
        obtain ⟨hplain, hbears, hcoherent⟩ := isPlain_resume h' id
        exact moves_on rfl rfl rfl hplain (.inl hbears) fun _ => hcoherent
      | some tz => exact moves_on rfl rfl rfl ⟨rfl, rfl, rfl⟩ (.inl rfl) fun _ => trivial
    · obtain ⟨hplain, hbears, hcoherent⟩ := isPlain_search h' rest
      exact moves_on rfl rfl rfl hplain (.inl hbears) fun _ => hcoherent
  | loadMetadata h' id userTimezone =>
    cases h
    cases hload : s.threads.loadThread id with
    | none =>
      obtain ⟨hplain, hbears, hcoherent⟩ := isPlain_resume h' id
      exact moves_on rfl rfl rfl hplain (.inl hbears) fun _ => hcoherent
    | some thread => exact .patching hload
  | saveMetadata h' thread =>
    cases h
    exact .patched
  | finishMessage h' active id =>
    cases h
    exact .answered
  | recordThreadOutcome conversationId id outcome gateName actionName =>
    simp only [next] at h
    split at h
    · cases h
      exact moves_of_quiet (.note s _) rfl rfl nofun
    · split_ifs at h
      cases h
      exact moves_of_quiet ⟨rfl, rfl, rfl, rfl, rfl, .inl rfl⟩ rfl rfl nofun

end Moves

end IronClaw.Runtime
