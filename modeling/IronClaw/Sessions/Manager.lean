import IronClaw.Agent.Turns

/-!
# The sessions of the users

A message may name a conversation of its channel, which is mapped to a thread of the user's session.
A name that is a UUID may stand for the thread with this id. The agent handles messages one by one.
-/

namespace IronClaw.Sessions

open Agent (TurnPool Uuid)
open Foundation (HashMap Json Text)
open Llm (ChatMessage)

/-- How a UUID is written. Reading takes other forms, too. -/
structure UuidText where
  parse : Text → Option Uuid
  render : Uuid → Text
  parse_render : ∀ id, parse (render id) = some id

def maxCheckpoints : Nat := 20

structure Session where
  threads : HashMap Uuid TurnPool
  activeThread : Option Uuid

namespace Session

def new : Session := ⟨∅, none⟩

def createThread (channel : Text) (fresh : Uuid) (s : Session) : Option Session :=
  if fresh ∈ s.threads then none
  else some ⟨s.threads.insert fresh (.new (some channel) maxCheckpoints), some fresh⟩

def createThreadWithId (channel : Text) (id : Uuid) (s : Session) : Session :=
  if id ∈ s.threads then s
  else ⟨s.threads.insert id (.new (some channel) maxCheckpoints), some id⟩

def switchThread (id : Uuid) (s : Session) : Session :=
  if id ∈ s.threads then { s with activeThread := some id } else s

end Session

structure ThreadKey where
  userId : Text
  channel : Text
  externalThreadId : Option Text
deriving DecidableEq

structure SessionManager where
  sessions : HashMap Text Session
  threadMap : HashMap ThreadKey Uuid

namespace SessionManager

variable (uuids : UuidText) (m : SessionManager)

def new : SessionManager := ⟨∅, ∅⟩

def session (userId : Text) : Session := (m.sessions.lookup userId).getD .new

def thread? (userId : Text) (id : Uuid) : Option TurnPool := (m.session userId).threads.lookup id

def getOrCreateSession (userId : Text) : SessionManager :=
  { m with sessions := m.sessions.insert userId (m.session userId) }

def putSession (userId : Text) (s : Session) : SessionManager :=
  { m with sessions := m.sessions.insert userId s }

def putThread (userId : Text) (id : Uuid) (pool : TurnPool) : SessionManager :=
  let s := m.session userId
  m.putSession userId { s with threads := s.threads.insert id pool }

def mapThread (key : ThreadKey) (id : Uuid) : SessionManager :=
  { m with threadMap := m.threadMap.insert key id }

def isMapped (id : Uuid) : Bool := (HashMap.values m.threadMap).contains id

/-- The thread that a name stands for, one of the session with the id that it is read as, or a new
one. -/
def resolveThreadWithParsedUuid (userId channel : Text) (externalThreadId : Option Text)
    (parsedUuid : Option Uuid) (fresh : Uuid) : Option (SessionManager × Uuid) :=
  let m := m.getOrCreateSession userId
  let key : ThreadKey := ⟨userId, channel, externalThreadId⟩
  let extUuid := parsedUuid.or (externalThreadId.bind uuids.parse)
  let inSession := fun id => (m.thread? userId id).isSome
  match (m.threadMap.lookup key).filter inSession with
  | some id => some (m, id)
  | none =>
    let unmapped := extUuid.filter fun id => !m.isMapped id
    match (if externalThreadId.isSome then unmapped else none).filter inSession with
    | some id => some (m.mapThread key id, id)
    | none =>
      match unmapped with
      | some id =>
        let s := (m.session userId).createThreadWithId channel id
        some ((m.putSession userId s).mapThread key id, id)
      | none => do
        let s ← (m.session userId).createThread channel fresh
        some ((m.putSession userId s).mapThread key fresh, fresh)

def resolveThread (userId channel : Text) (externalThreadId : Option Text) (fresh : Uuid) :
    Option (SessionManager × Uuid) :=
  m.resolveThreadWithParsedUuid uuids userId channel externalThreadId none fresh

def registerThread (userId channel : Text) (id : Uuid) : SessionManager :=
  (m.getOrCreateSession userId).mapThread ⟨userId, channel, some (uuids.render id)⟩ id

def pruneStaleSessions (stale : List Text) : SessionManager where
  sessions := HashMap.retain m.sessions fun userId _ => !stale.contains userId
  threadMap := HashMap.retain m.threadMap fun key _ => !stale.contains key.userId

end SessionManager

/-- What takes back, stops or empties a thread. -/
inductive Control where
  | undo (id : Agent.CheckpointId)
  | redo (id : Agent.CheckpointId)
  | resume (checkpointId : Agent.CheckpointId)
  | interrupt
  | clear

def Control.toAction : Control → Agent.Action
  | undo id => .undo id
  | redo id => .redo id
  | resume checkpointId => .resume checkpointId
  | interrupt => .interrupt
  | clear => .clear

inductive Submission where
  | userInput (content : Text)
  | plan (content : Text)
  | execApproval (requestId : Uuid) (approved always : Bool)
  | approvalResponse (approved always : Bool)
  | externalCallback
  | gateAuthResolution
  | control (control : Control)
  | newThread
  | switchThread (id : Uuid)
  | other

structure IncomingMessage where
  userId : Text
  channel : Text
  content : Text
  conversationScope : Option Text
  metadata : Json
  attachments : List Text
  isInternal : Bool
  submission : Submission

/-- What the database has of a conversation. A reading that fails gives nothing. -/
structure Conversation where
  belongsToUser : Option Bool
  found : Option Bool
  sourceChannel : Option Text
  messages : List ChatMessage

def requiresPreexistingUuidThread (channel : Text) : Bool :=
  channel == "gateway".toList || channel == "test".toList

def IncomingMessage.isResponsesApi (message : IncomingMessage) : Bool :=
  message.channel == "gateway".toList &&
    (message.metadata.get "source".toList).bind Json.asStr == some "responses_api".toList

/-- A thread as it was stored. -/
def hydrated (sourceChannel : Option Text) (messages : List ChatMessage) : TurnPool :=
  let shared := Agent.Shared.new sourceChannel maxCheckpoints
  let thread := if messages.isEmpty then shared.thread
    else shared.thread.restoreFromMessages messages
  ⟨{ shared with thread, log := shared.log.restore thread.turns.length }, []⟩

namespace SessionManager

variable (uuids : UuidText) (m : SessionManager)

def hydrate (userId channel : Text) (id : Uuid) (sourceChannel : Option Text)
    (messages : List ChatMessage) : SessionManager :=
  let s := m.session userId
  let m := m.putSession userId
    ⟨s.threads.insert id (hydrated sourceChannel messages), some id⟩
  m.registerThread uuids userId channel id

def maybeHydrateThread (message : IncomingMessage) (store : Option (Uuid → Conversation))
    (externalThreadId : Text) : SessionManager × Bool :=
  match uuids.parse externalThreadId with
  | none => (m, false)
  | some id =>
    let m := m.getOrCreateSession message.userId
    let mustExist := requiresPreexistingUuidThread message.channel
    if (m.thread? message.userId id).isSome then (m, false)
    else
      match store with
      | none => (m.hydrate uuids message.userId message.channel id none [], false)
      | some conversations =>
        let stored := conversations id
        match stored.belongsToUser with
        | none => (m, mustExist)
        | some false =>
          match stored.found with
          | none => (m, mustExist)
          | some found => (m, mustExist && (found || !message.isResponsesApi))
        | some true =>
          (m.hydrate uuids message.userId message.channel id stored.sourceChannel stored.messages,
            false)

end SessionManager

end IronClaw.Sessions
