import IronClaw.Agent.Session
import IronClaw.Agent.Undo
import IronClaw.Foundation.Interleaving

/-!
# The turns of a thread under concurrent messages

Messages, approvals and commands are handled side by side. Each locks the thread for a moment, and
what it saw may be out of date later. A message that finds a turn in progress is queued. A log and a
ledger are kept beside the state.
-/

namespace IronClaw.Agent

open Foundation (Json Pool Text)
open Hooks (JsonCodec)
open Llm (ChatMessage)

inductive CompactionStrategy where
  | summarize
  | truncate
  | moveToWorkspace

structure TurnConfig where
  codec : JsonCodec
  /-- The validation, the policy and the search for secrets let a text pass. -/
  accepts : Text → Bool
  isCommand : Text → Bool
  augment : Text → List Text → Text
  suggestCompaction : List ChatMessage → Option CompactionStrategy
  hasWorkspace : Bool

def CompactionStrategy.keepRecent (hasWorkspace : Bool) : CompactionStrategy → Nat
  | summarize => 5
  | truncate => 3
  | moveToWorkspace => if hasWorkspace then 10 else 5

/-- A message that was accepted, under its place in the order of acceptance. -/
structure Part where
  index : Nat
  text : Text
deriving DecidableEq

def merged (parts : List Part) : Text := Text.joinWith ['\n'] (parts.map Part.text)

/-- What a turn can start with: a message of the user, or messages out of the queue. -/
structure Input where
  content : Text
  attachments : List Text
  drained : Option (List Part)
deriving DecidableEq

def Input.effective (cfg : TurnConfig) (input : Input) : Text :=
  if input.attachments.isEmpty then input.content
  else cfg.augment input.content input.attachments

abbrev TurnId := Nat

/-- The turns by identities, the interrupted ones, and the one of the pending approval. -/
structure TurnLog where
  ids : List TurnId
  next : TurnId
  interrupted : List TurnId
  pending : TurnId

namespace TurnLog

def start (log : TurnLog) : TurnLog :=
  { log with ids := log.ids ++ [log.next], next := log.next + 1 }

def interrupt (log : TurnLog) : TurnLog :=
  { log with interrupted := log.ids.getLast?.toList ++ log.interrupted }

/-- The turns of a thread that is rebuilt are new ones. -/
def restore (n : Nat) (log : TurnLog) : TurnLog :=
  { log with ids := List.range' log.next n, next := log.next + n }

def truncate (keep : Nat) (log : TurnLog) : TurnLog :=
  { log with ids := log.ids.drop (log.ids.length - keep) }

def clear (log : TurnLog) : TurnLog := { log with ids := [] }

end TurnLog

/-- Handled messages: the turn that they entered with a text, if it was no command. -/
structure Handled where
  parts : List Part
  text : Text
  turn : Option TurnId

/-- The messages: accepted, handled in order, taken out of the queue, in it, discarded. -/
structure Ledger where
  accepted : List Text
  handled : List Handled
  hands : List (List Part)
  queue : List (List Part)
  discarded : List Nat

namespace Ledger

def accept (text : Text) (l : Ledger) : Part × Ledger :=
  (⟨l.accepted.length, text⟩, { l with accepted := l.accepted ++ [text] })

def enqueue (input : Input) (l : Ledger) : Ledger :=
  match input.drained with
  | some parts => { l with queue := l.queue ++ [parts] }
  | none =>
    let r := l.accept input.content
    { r.2 with queue := r.2.queue ++ [[r.1]] }

def enter (input : Input) (text : Text) (turn : TurnId) (l : Ledger) : Ledger :=
  match input.drained with
  | some parts => { l with
      handled := l.handled ++ [⟨parts, text, some turn⟩]
      hands := l.hands.erase parts }
  | none =>
    let r := l.accept text
    { r.2 with handled := r.2.handled ++ [⟨[r.1], text, some turn⟩] }

def command (input : Input) (l : Ledger) : Ledger :=
  match input.drained with
  | some parts => { l with
      handled := l.handled ++ [⟨parts, input.content, none⟩]
      hands := l.hands.erase parts }
  | none => l

def drain (l : Ledger) : Ledger :=
  { l with hands := l.hands ++ [l.queue.flatten], queue := [] }

def requeue (parts : List Part) (l : Ledger) : Ledger :=
  { l with hands := l.hands.erase parts, queue := parts :: l.queue }

def discard (l : Ledger) : Ledger :=
  { l with discarded := l.discarded ++ l.queue.flatten.map Part.index, queue := [] }

end Ledger

structure Shared where
  thread : Thread
  undoManager : UndoManager ChatMessage
  log : TurnLog
  ledger : Ledger

/-- What a run is for: an input that has started a turn, or an approval that resumes one. -/
inductive Origin where
  | message (input : Input)
  | approval
deriving DecidableEq

inductive Task where
  | arrived (input : Input)
  | busy (input : Input)
  /-- Make the context smaller, if it is nearly full. -/
  | checked (input : Input)
  | compacted (input : Input)
  | begun (input : Input)
  /-- Record what a tool call came to, or end. -/
  | running (turn : TurnId) (origin : Origin)
  | responded
  /-- Put the messages back, as there was no response. They may have been handed on before. -/
  | unanswered (input : Input) (handedOn : Bool)
  | approved (turn : TurnId)
  | rejected (turn : TurnId) (toolName : Text)
  | cleared
deriving DecidableEq

/-- What a run records: the calls of an assistant message, or what one of them came to. -/
inductive Recording where
  | calls (narrative : Option Text) (calls : List TurnToolCall)
  | result (toolCallId : Text) (result : Json)
  | error (toolCallId error : Text)

def Recording.apply (turn : Turn) : Recording → Turn
  | calls narrative added => { turn with
      narrative := turn.narrative.orElse fun _ => narrative
      toolCalls := turn.toolCalls ++ added }
  | result toolCallId value => turn.recordToolResultFor toolCallId value
  | error toolCallId text => turn.recordToolErrorFor toolCallId text

inductive RunOutcome where
  | response (text : Text)
  | needApproval (pending : ApprovalRequest)
  | authPending
  | failed (error : Text)

/-- What is not given by the state when a task takes its next step. -/
inductive Event where
  /-- If the input is a command, whether it is answered with a response. -/
  | look (responds : Bool)
  | compact (succeeds : Bool)
  | checkpoint (id : CheckpointId)
  | record (recording : Recording)
  | finish (outcome : RunOutcome)
  | proceed

namespace Shared

def new (sourceChannel : Option Text) (maxCheckpoints : Nat) : Shared :=
  ⟨.new sourceChannel, .new maxCheckpoints, ⟨[], 0, [], 0⟩, ⟨[], [], [], [], []⟩⟩

def noResponse (input : Input) (handedOn : Bool) : List Task :=
  if input.drained.isSome then [.unanswered input handedOn] else []

/-- Nothing is in progress: check the text, and see whether it is a command. -/
def examine (cfg : TurnConfig) (s : Shared) (input : Input) (responds : Bool) :
    Shared × List Task :=
  if cfg.accepts (input.effective cfg) then
    if cfg.isCommand input.content then
      ({ s with ledger := s.ledger.command input },
        if responds then [.responded] else noResponse input true)
    else (s, [.checked input])
  else (s, noResponse input false)

def lookAt (cfg : TurnConfig) (s : Shared) (input : Input) (responds : Bool) :
    Shared × List Task :=
  match s.thread.state with
  | .processing => (s, [.busy input])
  | .awaitingApproval | .completed => (s, noResponse input false)
  | .idle | .interrupted => examine cfg s input responds

/-- A turn was in progress. If it still is, the message is queued. -/
def lookAgain (cfg : TurnConfig) (s : Shared) (input : Input) (responds : Bool) :
    Shared × List Task :=
  if s.thread.state = .processing then
    if input.attachments.isEmpty && cfg.accepts input.content then
      match s.thread.queueMessage input.content with
      | some thread => ({ s with thread, ledger := s.ledger.enqueue input }, noResponse input true)
      | none => (s, noResponse input false)
    else (s, noResponse input false)
  else examine cfg s input responds

def compact (cfg : TurnConfig) (s : Shared) (succeeds : Bool) : Shared :=
  match cfg.suggestCompaction (s.thread.messages cfg.codec) with
  | none => s
  | some .truncate =>
    let keep := CompactionStrategy.truncate.keepRecent cfg.hasWorkspace
    { s with thread := s.thread.truncateTurns keep, log := s.log.truncate keep }
  | some strategy =>
    let keep := strategy.keepRecent cfg.hasWorkspace
    if succeeds then { s with thread := s.thread.truncateTurns keep, log := s.log.truncate keep }
    else s

def checkpoint (cfg : TurnConfig) (s : Shared) (id : CheckpointId) : Shared :=
  let description := "Before turn " ++ toString s.thread.turnNumber
  { s with undoManager :=
      s.undoManager.checkpoint id s.thread.turnNumber (s.thread.messages cfg.codec) description }

def startTurn (cfg : TurnConfig) (s : Shared) (input : Input) : Shared :=
  { s with
    thread := s.thread.startTurn (input.effective cfg)
    log := s.log.start
    ledger := s.ledger.enter input (input.effective cfg) s.log.next }

def record (s : Shared) (recording : Recording) : Shared :=
  { s with thread := s.thread.modifyLast (recording.apply ·) }

def conclude (s : Shared) (turn : TurnId) : RunOutcome → Shared
  | .response text => { s with thread := s.thread.concludeTurn (.completed text) }
  | .needApproval pending => { s with
      thread := s.thread.awaitApproval pending
      log := { s.log with pending := turn } }
  | .authPending => { s with thread := s.thread.concludeTurn .completedSilently }
  | .failed error => { s with thread := s.thread.concludeTurn (.failed error) }

/-- A run ends. Only one that a message has started looks whether it was interrupted. -/
def finish (s : Shared) (turn : TurnId) (outcome : RunOutcome) : Origin → Shared × List Task
  | .approval => (s.conclude turn outcome, [])
  | .message input =>
    if s.thread.state = .interrupted then (s, noResponse input true)
    else
      (s.conclude turn outcome,
        match outcome with
        | .response _ => [.responded]
        | _ => noResponse input true)

def drain (s : Shared) : Shared × List Task :=
  match s.thread.drainPendingMessages with
  | none => (s, [])
  | some (content, thread) =>
    ({ s with thread, ledger := s.ledger.drain },
      [.arrived ⟨content, [], some s.ledger.queue.flatten⟩])

def requeue (s : Shared) (input : Input) : Shared :=
  { s with
    thread := s.thread.requeueDrained input.content
    ledger := s.ledger.requeue (input.drained.getD []) }

def rejection (toolName : Text) : Text :=
  "Tool '".toList ++ toolName ++
    "' was rejected. The agent will not execute this tool.\n\n".toList ++
    "You can continue the conversation or try a different approach.".toList

/-- The user's decision about the pending approval, if there is one and it is the one that is meant.
-/
def decide (s : Shared) (requestId : Option Uuid) (approved : Bool) : Shared × List Task :=
  match s.thread.state, s.thread.pendingApproval with
  | .awaitingApproval, some pending =>
    if requestId.all (· == pending.requestId) then
      ({ s with thread := { s.thread with pendingApproval := none } },
        [if approved then .approved s.log.pending
        else .rejected s.log.pending pending.approval.call.name])
    else ({ s with thread := s.thread.awaitApproval pending }, [])
  | _, _ => (s, [])

def resumeTurn (s : Shared) : Shared := { s with thread := { s.thread with state := .processing } }

def reject (s : Shared) (toolName : Text) : Shared :=
  { s with thread :=
      s.thread.clearPendingApproval.concludeTurn (.completed (rejection toolName)) }

def interrupt (s : Shared) : Shared :=
  match s.thread.state with
  | .processing | .awaitingApproval => { s with
      thread := s.thread.interrupt
      log := s.log.interrupt
      ledger := s.ledger.discard }
  | _ => s

def adopt (s : Shared) (r : Checkpoint ChatMessage × UndoManager ChatMessage) : Shared :=
  let thread := s.thread.restoreFromMessages r.1.messages
  { s with thread, undoManager := r.2, log := s.log.restore thread.turns.length }

def undo (cfg : TurnConfig) (s : Shared) (id : CheckpointId) : Shared :=
  ((s.undoManager.undo id s.thread.turnNumber (s.thread.messages cfg.codec)).map s.adopt).getD s

def redo (cfg : TurnConfig) (s : Shared) (id : CheckpointId) : Shared :=
  ((s.undoManager.redo id s.thread.turnNumber (s.thread.messages cfg.codec)).map s.adopt).getD s

def resume (s : Shared) (checkpointId : CheckpointId) : Shared :=
  ((s.undoManager.restore checkpointId).map s.adopt).getD s

def clear (s : Shared) : Shared :=
  { s with
    thread := { s.thread with turns := [], pendingMessages := [], state := .idle }
    log := s.log.clear
    ledger := s.ledger.discard }

def clearHistory (s : Shared) : Shared := { s with undoManager := s.undoManager.clear }

end Shared

def next (cfg : TurnConfig) : Event → Shared → Task → Option (Shared × List Task)
  | .look responds, s, .arrived input => some (s.lookAt cfg input responds)
  | .look responds, s, .busy input => some (s.lookAgain cfg input responds)
  | .compact succeeds, s, .checked input => some (s.compact cfg succeeds, [.compacted input])
  | .checkpoint id, s, .compacted input => some (s.checkpoint cfg id, [.begun input])
  | .proceed, s, .begun input =>
    some (s.startTurn cfg input, [.running s.log.next (.message input)])
  | .record recording, s, .running turn origin => some (s.record recording, [.running turn origin])
  | .finish outcome, s, .running turn origin => some (s.finish turn outcome origin)
  | .proceed, s, .responded => some s.drain
  | .proceed, s, .unanswered input _ => some (s.requeue input, [])
  | .proceed, s, .approved turn => some (s.resumeTurn, [.running turn .approval])
  | .proceed, s, .rejected _ toolName => some (s.reject toolName, [])
  | .proceed, s, .cleared => some (s.clearHistory, [])
  | _, _, _ => none

/-- Everything that can happen to the thread. A new checkpoint gets the id of the action. -/
inductive Action where
  | receive (content : Text) (attachments : List Text)
  | decide (requestId : Option Uuid) (approved : Bool)
  | interrupt
  | undo (id : CheckpointId)
  | redo (id : CheckpointId)
  | resume (checkpointId : CheckpointId)
  | clear
  | advance (i : Nat) (e : Event)

abbrev TurnPool := Pool Shared Task

def Pool.act (p : TurnPool) (r : Shared × List Task) : TurnPool := ⟨r.1, p.tasks ++ r.2⟩

def turnStep (cfg : TurnConfig) (p : TurnPool) : Action → Option TurnPool
  | .receive content attachments => some (p.start (.arrived ⟨content, attachments, none⟩))
  | .decide requestId approved => some (Pool.act p (p.shared.decide requestId approved))
  | .interrupt => some (Pool.act p (p.shared.interrupt, []))
  | .undo id => some (Pool.act p (p.shared.undo cfg id, []))
  | .redo id => some (Pool.act p (p.shared.redo cfg id, []))
  | .resume checkpointId => some (Pool.act p (p.shared.resume checkpointId, []))
  | .clear => some (Pool.act p (p.shared.clear, [.cleared]))
  | .advance i e => p.advance (next cfg) i e

def TurnPool.new (sourceChannel : Option Text) (maxCheckpoints : Nat) : TurnPool :=
  ⟨.new sourceChannel maxCheckpoints, []⟩

def sampleTurnConfig : TurnConfig where
  codec := ⟨fun _ => none, fun _ => []⟩
  accepts := fun _ => true
  isCommand := fun _ => false
  augment := fun text _ => text
  suggestCompaction := fun _ => none
  hasWorkspace := false

/-- The handling of a message up to the start of its turn, by the place of its task. -/
def startOf (i : Nat) (text : String) : List Action :=
  [.receive text.toList [], .advance i (.look false), .advance i (.compact true),
    .advance i (.checkpoint i), .advance i .proceed]

def sampleRequest : ApprovalRequest :=
  ⟨7, ⟨⟨"call".toList, "http".toList, .null, none⟩, true, [], [], none⟩⟩

end IronClaw.Agent
