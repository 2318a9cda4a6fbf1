import IronClaw.Agent.ToolCalls
import IronClaw.Safety.Layer

/-!
# Threads of a conversation

A thread is a sequence of turns, which record what the user says, tool calls and a response. It can
be written as messages, and rebuilt from them.
-/

namespace IronClaw.Agent

open Foundation (Json Text)
open Hooks (JsonCodec)
open Llm (ChatMessage ToolCall)
open Safety (takeBytes)

abbrev Uuid := Nat

/-- A text cut to a number of bytes. A delimiter that the cut took away is closed again. -/
def truncatePreview (maxBytes : Nat) (s : Text) : Text :=
  if Text.byteLength s ≤ maxBytes then s
  else
    let result := takeBytes maxBytes s ++ "...".toList
    if "<tool_output".toList.isPrefixOf s && !"</tool_output>".toList.isSuffixOf result then
      result ++ "\n</tool_output>".toList
    else result

def base62Digit (d : Nat) : Char :=
  if d < 10 then Char.ofNat ('0'.toNat + d)
  else if d < 36 then Char.ofNat ('a'.toNat + (d - 10))
  else Char.ofNat ('A'.toNat + (d - 36))

def base62 : Nat → Nat → Text
  | 0, _ => []
  | k + 1, v => base62 k (v / 62) ++ [base62Digit (v % 62)]

def generateToolCallId (seedA seedB : Nat) : Text :=
  base62 9 ((seedA * 6364136223846793005 + seedB) % 2 ^ 64)

structure TurnToolCall where
  name : Text
  parameters : Json
  result : Option Json
  error : Option Text
  rationale : Option Text
  toolCallId : Option Text

inductive TurnState where
  | processing
  | completed
  | failed
  | interrupted
deriving DecidableEq

inductive TurnOutcome where
  | completed (response : Text)
  | completedSilently
  | failed (error : Text)
  | interrupted

structure Turn where
  turnNumber : Nat
  userInput : Text
  response : Option Text
  toolCalls : List TurnToolCall
  state : TurnState
  error : Option Text
  narrative : Option Text

def modifyFirst {α : Type} (p : α → Bool) (f : α → α) : List α → List α
  | [] => []
  | x :: xs => if p x then f x :: xs else x :: modifyFirst p f xs

namespace Turn

def new (turnNumber : Nat) (userInput : Text) : Turn :=
  ⟨turnNumber, userInput, none, [], .processing, none, none⟩

def conclude (turn : Turn) : TurnOutcome → Turn
  | .completed response => { turn with response := some response, state := .completed }
  | .completedSilently => { turn with state := .completed }
  | .failed error => { turn with error := some error, state := .failed }
  | .interrupted => { turn with state := .interrupted }

def recordToolCall (turn : Turn) (name : Text) (parameters : Json) (rationale : Option Text)
    (toolCallId : Option Text) : Turn :=
  { turn with
    toolCalls := turn.toolCalls ++ [⟨name, parameters, none, none, rationale, toolCallId⟩] }

/-- Record what a call came to, with the call of that id, or else with the first open one. -/
def recordFor (turn : Turn) (toolCallId : Text) (record : TurnToolCall → TurnToolCall) : Turn :=
  let named := fun (c : TurnToolCall) => c.toolCallId == some toolCallId
  let isOpen := fun (c : TurnToolCall) => c.result.isNone && c.error.isNone
  let wanted := if turn.toolCalls.any named then named else isOpen
  { turn with toolCalls := modifyFirst wanted record turn.toolCalls }

def recordToolResultFor (turn : Turn) (toolCallId : Text) (result : Json) : Turn :=
  turn.recordFor toolCallId fun c => { c with result := some result }

def recordToolErrorFor (turn : Turn) (toolCallId error : Text) : Turn :=
  turn.recordFor toolCallId fun c => { c with error := some error }

end Turn

inductive ThreadState where
  | idle
  | processing
  | awaitingApproval
  | completed
  | interrupted
deriving DecidableEq

structure ApprovalRequest where
  requestId : Uuid
  approval : PendingApproval

structure Thread where
  state : ThreadState
  turns : List Turn
  pendingApproval : Option ApprovalRequest
  pendingMessages : List Text
  sourceChannel : Option Text

def maxPendingMessages : Nat := 10

namespace Thread

def new (sourceChannel : Option Text) : Thread := ⟨.idle, [], none, [], sourceChannel⟩

def turnNumber (thread : Thread) : Nat := thread.turns.length + 1

def modifyLast (f : Turn → Turn) (thread : Thread) : Thread :=
  { thread with turns := thread.turns.dropLast ++ (thread.turns.getLast?.map f).toList }

def queueMessage (content : Text) (thread : Thread) : Option Thread :=
  if maxPendingMessages ≤ thread.pendingMessages.length then none
  else some { thread with pendingMessages := thread.pendingMessages ++ [content] }

def drainPendingMessages (thread : Thread) : Option (Text × Thread) :=
  if thread.pendingMessages.isEmpty then none
  else some (Text.joinWith ['\n'] thread.pendingMessages, { thread with pendingMessages := [] })

def requeueDrained (content : Text) (thread : Thread) : Thread :=
  { thread with pendingMessages := content :: thread.pendingMessages }

def startTurn (userInput : Text) (thread : Thread) : Thread :=
  { thread with
    turns := thread.turns ++ [.new thread.turns.length userInput]
    state := .processing }

def concludeTurn (outcome : TurnOutcome) (thread : Thread) : Thread :=
  { thread.modifyLast (·.conclude outcome) with state := .idle }

def awaitApproval (pending : ApprovalRequest) (thread : Thread) : Thread :=
  { thread with state := .awaitingApproval, pendingApproval := some pending }

def clearPendingApproval (thread : Thread) : Thread :=
  { thread with pendingApproval := none, state := .idle }

def interrupt (thread : Thread) : Thread :=
  { thread.modifyLast (·.conclude .interrupted) with
    pendingMessages := []
    state := .interrupted }

def truncateTurns (keep : Nat) (thread : Thread) : Thread :=
  if keep < thread.turns.length then
    { thread with turns := (thread.turns.drop (thread.turns.length - keep)).mapIdx fun i turn =>
        { turn with turnNumber := i } }
  else thread

end Thread

def TurnToolCall.outcomeText (codec : JsonCodec) (call : TurnToolCall) : Text :=
  match call.error, call.result with
  | some error, _ => truncatePreview 1000 error
  | none, some result =>
    match GeneratedImageSentinel.fromValue codec result with
    | some sentinel => sentinel.summaryForContext
    | none =>
      truncatePreview 1000
        (match result with
        | .str s => s
        | other => codec.render other)
  | none, none => "OK".toList

def Turn.messages (codec : JsonCodec) (turnIdx : Nat) (turn : Turn) : List ChatMessage :=
  let calls := turn.toolCalls.mapIdx fun i call => (generateToolCallId turnIdx i, call)
  [.user turn.userInput] ++
    (if calls.isEmpty then []
    else
      .assistantWithToolCalls none
          (calls.map fun c => ⟨c.1, c.2.name, c.2.parameters, none⟩) ::
        calls.map fun c => .toolResult c.1 c.2.name (c.2.outcomeText codec)) ++
    (turn.response.map ChatMessage.assistant).toList

def Thread.messages (codec : JsonCodec) (thread : Thread) : List ChatMessage :=
  (thread.turns.mapIdx fun i turn => turn.messages codec i).flatten

/-- A turn that is being rebuilt, with the place of the next result if calls came last. -/
structure Restoring where
  turn : Turn
  nextResult : Option Nat

def Turn.recordToolCalls (turn : Turn) (calls : List ToolCall) : Turn :=
  calls.foldl (fun turn call =>
    turn.recordToolCall call.name call.arguments call.reasoning (some call.id)) turn

def Turn.setResult (turn : Turn) (i : Nat) (content : Text) : Turn :=
  { turn with
    toolCalls := turn.toolCalls.modify i fun c => { c with result := some (.str content) } }

def restoreTurns : Nat → Option Restoring → List ChatMessage → List Turn
  | _, none, [] => []
  | _, some r, [] => [r.turn]
  | n, none, .user content :: rest => restoreTurns n (some ⟨.new n content, none⟩) rest
  | n, none, _ :: rest => restoreTurns n none rest
  | n, some r, .user content :: rest =>
    r.turn :: restoreTurns (n + 1) (some ⟨.new (n + 1) content, none⟩) rest
  | n, some r, .assistantWithToolCalls _ calls :: rest =>
    restoreTurns n (some ⟨r.turn.recordToolCalls calls, some r.turn.toolCalls.length⟩) rest
  | n, some r, .toolResult _ _ content :: rest =>
    match r.nextResult with
    | some i => restoreTurns n (some ⟨r.turn.setResult i content, some (i + 1)⟩) rest
    | none => r.turn :: restoreTurns (n + 1) none rest
  | n, some r, .assistant response :: rest =>
    r.turn.conclude (.completed response) :: restoreTurns (n + 1) none rest
  | n, some r, .system _ :: rest => r.turn :: restoreTurns (n + 1) none rest

def Thread.restoreFromMessages (messages : List ChatMessage) (thread : Thread) : Thread :=
  { thread with turns := restoreTurns 0 none messages, state := .idle }

def bootstrapSourceChannel : Text := "__bootstrap__".toList

def trustedApprovalChannels : List Text := ["web".toList, "gateway".toList]

/-- Whether a channel may approve the calls of a thread. Nobody may where its source is unknown. -/
def isApprovalAuthorized (source : Option Text) (requesting : Text) : Bool :=
  match source with
  | none => false
  | some src =>
    if src = bootstrapSourceChannel then true
    else src == requesting || trustedApprovalChannels.contains requesting

end IronClaw.Agent
