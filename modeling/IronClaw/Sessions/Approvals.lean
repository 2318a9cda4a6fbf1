import IronClaw.Sessions.Manager

/-!
# No approval across channels

An approval may name a thread of the user by its UUID, if its channel may approve. Under another
name it gets only to threads that were started from its own channel.
-/

namespace IronClaw.Sessions

open Agent (Thread TurnConfig TurnPool Uuid isApprovalAuthorized turnStep)
open Foundation (Along HashMap Text)
open Llm (ChatMessage)
open Option (filter_eq_some_iff map_eq_some_iff)

structure AgentConfig where
  turn : TurnConfig
  uuids : UuidText
  engineV2 : Bool
  /-- What the hooks make of a text; nothing if they reject it. -/
  inbound : Text → Option Text

namespace Submission

def isForEngine : Submission → Bool
  | userInput _ | execApproval _ _ _ | approvalResponse _ _ | externalCallback
  | gateAuthResolution | newThread => true
  | control .interrupt | control .clear => true
  | plan _ | control _ | switchThread _ | other => false

def needsEngine : Submission → Bool
  | externalCallback | gateAuthResolution => true
  | _ => false

def namesApproval : Submission → Bool
  | execApproval _ _ _ | approvalResponse _ _ | externalCallback | gateAuthResolution => true
  | _ => false

def isExecApproval : Submission → Bool
  | execApproval _ _ _ => true
  | _ => false

end Submission

def shouldRouteAsApproval (state : Agent.ThreadState) (content : Text) : Bool :=
  state == .awaitingApproval || ['/'].isPrefixOf (Text.trim content)

inductive Handling where
  | input (content : Text)
  | approval (requestId : Option Uuid) (approved : Bool)
  | control (control : Control)
  | newThread
  | switchThread (id : Uuid)
  | nothing

namespace SessionManager

variable (cfg : AgentConfig) (m : SessionManager)

def isAnswered (message : IncomingMessage) : Bool :=
  message.isInternal ||
    (match message.submission with
    | .userInput content => (cfg.inbound content).isNone
    | _ => false) ||
    (if cfg.engineV2 then message.submission.isForEngine else message.submission.needsEngine)

def routeApproval (message : IncomingMessage) (id : Uuid) (pool : TurnPool) :
    SessionManager × Option Uuid :=
  let thread := pool.shared.thread
  if thread.pendingApproval.isNone && message.submission.isExecApproval then (m, none)
  else if thread.pendingApproval.isSome &&
      !isApprovalAuthorized thread.sourceChannel message.channel then (m, none)
  else
    let s := m.session message.userId
    let m := m.putSession message.userId { s with activeThread := some id }
    (m.registerThread cfg.uuids message.userId message.channel id, some id)

def resolveMessage (message : IncomingMessage) (store : Option (Uuid → Conversation))
    (fresh : Uuid) : Option (SessionManager × Option Uuid) :=
  let hydration := match message.conversationScope with
    | some scope => m.maybeHydrateThread cfg.uuids message store scope
    | none => (m, false)
  let m := hydration.1
  if hydration.2 then some (m, none)
  else
    let approvalThread := if message.submission.namesApproval then
        message.conversationScope.bind cfg.uuids.parse
      else none
    let resolve := (m.resolveThreadWithParsedUuid cfg.uuids message.userId message.channel
      message.conversationScope approvalThread fresh).map fun r => (r.1, some r.2)
    match approvalThread with
    | some id =>
      let m := m.getOrCreateSession message.userId
      match m.thread? message.userId id with
      | some pool => some (m.routeApproval cfg message id pool)
      | none => resolve
    | none => resolve

def handling (message : IncomingMessage) (id : Uuid) : Handling :=
  match message.submission with
  | .userInput content => (cfg.inbound content).elim .nothing .input
  | .plan content => .input content
  | .execApproval requestId approved _ => .approval (some requestId) approved
  | .approvalResponse approved _ =>
    let state := ((m.thread? message.userId id).map (·.shared.thread.state)).getD .idle
    if shouldRouteAsApproval state message.content then .approval none approved
    else (cfg.inbound message.content).elim .nothing .input
  | .control control => .control control
  | .newThread => .newThread
  | .switchThread id => .switchThread id
  | .externalCallback | .gateAuthResolution | .other => .nothing

def act (userId : Text) (id : Uuid) (action : Agent.Action) : Option SessionManager :=
  match m.thread? userId id with
  | none => some m
  | some pool => (turnStep cfg.turn pool action).map (m.putThread userId id)

def createThread (userId channel : Text) (fresh : Uuid) : Option SessionManager :=
  ((m.session userId).createThread channel fresh).map (m.putSession userId)

def switchThread (message : IncomingMessage) (store : Option (Uuid → Conversation)) (id : Uuid) :
    SessionManager :=
  let hydration := m.maybeHydrateThread cfg.uuids message store (cfg.uuids.render id)
  let m := hydration.1
  if hydration.2 then m
  else m.putSession message.userId ((m.session message.userId).switchThread id)

def handleMessage (message : IncomingMessage) (store : Option (Uuid → Conversation))
    (fresh fresh' : Uuid) : Option SessionManager := do
  if isAnswered cfg message then return m
  let r ← m.resolveMessage cfg message store fresh
  match r with
  | (m, none) => m
  | (m, some id) =>
    match m.handling cfg message id with
    | .input content => m.act cfg message.userId id (.receive content message.attachments)
    | .approval requestId approved => m.act cfg message.userId id (.decide requestId approved)
    | .control control => m.act cfg message.userId id control.toAction
    | .newThread => m.createThread message.userId message.channel fresh'
    | .switchThread target => m.switchThread cfg message store target
    | .nothing => m

end SessionManager

inductive SessionEvent where
  | message (message : IncomingMessage) (store : Option (Uuid → Conversation))
      (fresh fresh' : Uuid)
  | work (userId : Text) (id : Uuid) (i : Nat) (e : Agent.Event)
  | chatNewThread (userId : Text) (fresh : Uuid)
  | prune (stale : List Text)

def sessionStep (cfg : AgentConfig) (m : SessionManager) : SessionEvent → Option SessionManager
  | .message message store fresh fresh' => m.handleMessage cfg message store fresh fresh'
  | .work userId id i e => m.act cfg userId id (.advance i e)
  | .chatNewThread userId fresh =>
    (m.getOrCreateSession userId).createThread userId "gateway".toList fresh
  | .prune stale => m.pruneStaleSessions stale

def SessionManager.approves (cfg : AgentConfig) (m : SessionManager) (message : IncomingMessage)
    (store : Option (Uuid → Conversation)) (fresh : Uuid) : Option TurnPool :=
  if isAnswered cfg message then none
  else
    match m.resolveMessage cfg message store fresh with
    | some (m, some id) =>
      match m.handling cfg message id with
      | .approval _ _ => m.thread? message.userId id
      | _ => none
    | _ => none

/-- An approval is executed only if its channel may approve the calls of the thread. -/
def ApprovalsAuthorized (cfg : AgentConfig) (m : SessionManager) : SessionEvent → Prop
  | .message message store fresh _ => ∀ pool ∈ m.approves cfg message store fresh,
    pool.shared.thread.pendingApproval.isSome = true →
      isApprovalAuthorized pool.shared.thread.sourceChannel message.channel = true
  | _ => True

def sourceChannel (pool : TurnPool) : Option Text := pool.shared.thread.sourceChannel

section Channel

variable {turn : TurnConfig} {s : Agent.Shared}

theorem sourceChannel_truncateTurns (keep : Nat) (thread : Thread) :
    (thread.truncateTurns keep).sourceChannel = thread.sourceChannel := by
  unfold Thread.truncateTurns
  split_ifs <;> rfl

theorem sourceChannel_queueMessage {content : Text} {thread thread' : Thread}
    (h : thread.queueMessage content = some thread') :
    thread'.sourceChannel = thread.sourceChannel := by
  unfold Thread.queueMessage at h
  split_ifs at h
  cases h
  rfl

theorem sourceChannel_examine (input : Agent.Input) (responds : Bool) :
    (s.examine turn input responds).1.thread = s.thread := by
  unfold Agent.Shared.examine
  split_ifs <;> rfl

theorem sourceChannel_lookAgain (input : Agent.Input) (responds : Bool) :
    (s.lookAgain turn input responds).1.thread.sourceChannel = s.thread.sourceChannel := by
  unfold Agent.Shared.lookAgain
  split_ifs
  · cases hqueue : s.thread.queueMessage input.content with
    | none => rfl
    | some thread => exact sourceChannel_queueMessage hqueue
  · rfl
  · rw [sourceChannel_examine]

theorem sourceChannel_compact (succeeds : Bool) :
    (s.compact turn succeeds).thread.sourceChannel = s.thread.sourceChannel := by
  unfold Agent.Shared.compact
  split
  · rfl
  · exact sourceChannel_truncateTurns _ _
  · split_ifs
    · exact sourceChannel_truncateTurns _ _
    · rfl

theorem sourceChannel_finish (id : Agent.TurnId) (outcome : Agent.RunOutcome)
    (origin : Agent.Origin) :
    (s.finish id outcome origin).1.thread.sourceChannel = s.thread.sourceChannel := by
  have hconclude : (s.conclude id outcome).thread.sourceChannel = s.thread.sourceChannel := by
    cases outcome <;> rfl
  cases origin with
  | approval => exact hconclude
  | message input =>
    unfold Agent.Shared.finish
    split_ifs
    · rfl
    · exact hconclude

theorem sourceChannel_drain : s.drain.1.thread.sourceChannel = s.thread.sourceChannel := by
  unfold Agent.Shared.drain
  cases hdrain : s.thread.drainPendingMessages with
  | none => rfl
  | some r =>
    unfold Thread.drainPendingMessages at hdrain
    split_ifs at hdrain
    cases hdrain
    rfl

theorem sourceChannel_next {e : Agent.Event} {t : Agent.Task} {r : Agent.Shared × List Agent.Task}
    (h : Agent.next turn e s t = some r) : r.1.thread.sourceChannel = s.thread.sourceChannel := by
  unfold Agent.next at h
  split at h <;> cases h
  case h_1 input =>
    unfold Agent.Shared.lookAt
    split <;> first | rfl | rw [sourceChannel_examine]
  case h_2 => exact sourceChannel_lookAgain _ _
  case h_3 => exact sourceChannel_compact _
  case h_7 => exact sourceChannel_finish _ _ _
  case h_8 => exact sourceChannel_drain
  all_goals rfl

theorem sourceChannel_adopt
    (o : Option (Agent.Checkpoint ChatMessage × Agent.UndoManager ChatMessage)) :
    ((o.map s.adopt).getD s).thread.sourceChannel = s.thread.sourceChannel := by
  cases o <;> rfl

theorem sourceChannel_turnStep {pool pool' : TurnPool} {action : Agent.Action}
    (h : turnStep turn pool action = some pool') : sourceChannel pool' = sourceChannel pool := by
  cases action with
  | receive content attachments =>
    cases h
    rfl
  | decide requestId approved =>
    cases h
    show (pool.shared.decide requestId approved).1.thread.sourceChannel = _
    unfold Agent.Shared.decide
    split
    · split_ifs <;> rfl
    · rfl
  | interrupt =>
    cases h
    show pool.shared.interrupt.thread.sourceChannel = _
    unfold Agent.Shared.interrupt
    split <;> rfl
  | undo id =>
    cases h
    exact sourceChannel_adopt _
  | redo id =>
    cases h
    exact sourceChannel_adopt _
  | resume checkpointId =>
    cases h
    exact sourceChannel_adopt _
  | clear =>
    cases h
    rfl
  | advance i e =>
    obtain ⟨front, t, back, s', ts, -, -, hnext, rfl⟩ := Foundation.Pool.advance_eq_some_iff.mp h
    exact sourceChannel_next hnext

end Channel

variable {uuids : UuidText} {cfg : AgentConfig} {m m' : SessionManager} {userId channel : Text}
  {id fresh : Uuid}

def ThreadKey.uuid? (uuids : UuidText) (key : ThreadKey) : Option Uuid :=
  key.externalThreadId.bind uuids.parse

/-- A thread that a name may stand for: the name is its UUID, or its channel has started the
thread. -/
def Stands (uuids : UuidText) (key : ThreadKey) (id : Uuid) (pool : TurnPool) : Prop :=
  key.uuid? uuids = some id ∨ sourceChannel pool = some key.channel

/-- Every name stands for a thread in the session of its user. -/
def Mapped (uuids : UuidText) (m : SessionManager) : Prop :=
  ∀ key id, m.threadMap.lookup key = some id →
    ∃ pool, m.thread? key.userId id = some pool ∧ Stands uuids key id pool

def Keeps (m m' : SessionManager) : Prop :=
  ∀ userId id pool, m.thread? userId id = some pool →
    ∃ pool', m'.thread? userId id = some pool' ∧ sourceChannel pool' = sourceChannel pool

theorem Mapped.of_keeps (h : Mapped uuids m) (hmap : m'.threadMap = m.threadMap)
    (hkeeps : Keeps m m') : Mapped uuids m' := by
  intro key id hkey
  rw [hmap] at hkey
  obtain ⟨pool, hpool, hstands⟩ := h key id hkey
  obtain ⟨pool', hpool', hchannel⟩ := hkeeps key.userId id pool hpool
  refine ⟨pool', hpool', ?_⟩
  rw [Stands, hchannel]
  exact hstands

variable {pool : TurnPool}

theorem Mapped.mapThread (h : Mapped uuids m) {key : ThreadKey}
    (hpool : m.thread? key.userId id = some pool) (hstands : Stands uuids key id pool) :
    Mapped uuids (m.mapThread key id) := by
  intro key' id' hkey
  rw [SessionManager.mapThread, HashMap.lookup_insert] at hkey
  split_ifs at hkey with heq
  · cases hkey
    subst heq
    exact ⟨pool, hpool, hstands⟩
  · exact h key' id' hkey

theorem session_putSession (s : Session) (userId' : Text) :
    (m.putSession userId s).session userId' =
      if userId' = userId then s else m.session userId' := by
  unfold SessionManager.session SessionManager.putSession
  rw [HashMap.lookup_insert]
  split_ifs <;> rfl

@[simp] theorem session_getOrCreateSession (userId' : Text) :
    (m.getOrCreateSession userId).session userId' = m.session userId' := by
  unfold SessionManager.getOrCreateSession
  rw [show ({ m with sessions := m.sessions.insert userId (m.session userId) } : SessionManager) =
    m.putSession userId (m.session userId) from rfl, session_putSession]
  split_ifs with h
  · rw [h]
  · rfl

@[simp] theorem thread?_getOrCreateSession (userId' : Text) :
    (m.getOrCreateSession userId).thread? userId' id = m.thread? userId' id := by
  rw [SessionManager.thread?, session_getOrCreateSession]
  rfl

theorem thread?_putSession_self (s : Session) :
    (m.putSession userId s).thread? userId id = s.threads.lookup id := by
  rw [SessionManager.thread?, session_putSession, if_pos rfl]

theorem keeps_getOrCreateSession : Keeps m (m.getOrCreateSession userId) := by
  intro userId' id pool hpool
  exact ⟨pool, by simpa using hpool, rfl⟩

theorem keeps_putSession {s : Session}
    (h : ∀ id pool, (m.session userId).threads.lookup id = some pool →
      ∃ pool', s.threads.lookup id = some pool' ∧ sourceChannel pool' = sourceChannel pool) :
    Keeps m (m.putSession userId s) := by
  intro userId' id pool hpool
  rw [SessionManager.thread?, session_putSession]
  split_ifs with heq
  · subst heq
    exact h id pool hpool
  · exact ⟨pool, hpool, rfl⟩

theorem keeps_insert {s : Session} {new : TurnPool} {threads : HashMap Uuid TurnPool}
    (hthreads : s.threads = threads.insert id new) (hold : threads = (m.session userId).threads)
    (hnew : id ∉ threads) : Keeps m (m.putSession userId s) := by
  refine keeps_putSession fun id' pool hpool => ?_
  rw [hthreads, HashMap.lookup_insert]
  split_ifs with heq
  · subst heq
    refine absurd (HashMap.mem_iff_exists_lookup.mpr ⟨pool, ?_⟩) hnew
    rw [hold]
    exact hpool
  · rw [hold]
    exact ⟨pool, hpool, rfl⟩

theorem keeps_createThread {s : Session}
    (h : (m.session userId).createThread channel fresh = some s) : Keeps m (m.putSession userId s) ∧
      s.threads.lookup fresh = some (.new (some channel) maxCheckpoints) := by
  unfold Session.createThread at h
  split_ifs at h with hnew
  cases h
  exact ⟨keeps_insert rfl rfl hnew, AList.lookup_insert _⟩

theorem keeps_createThreadWithId :
    Keeps m (m.putSession userId ((m.session userId).createThreadWithId channel id)) ∧
      (((m.session userId).createThreadWithId channel id).threads.lookup id =
          some (.new (some channel) maxCheckpoints) ∨ ∃ pool, m.thread? userId id = some pool ∧
          ((m.session userId).createThreadWithId channel id).threads.lookup id = some pool) := by
  unfold Session.createThreadWithId
  split_ifs with hmem
  · obtain ⟨pool, hpool⟩ := HashMap.mem_iff_exists_lookup.mp hmem
    exact ⟨keeps_putSession fun id' pool' hpool' => ⟨pool', hpool', rfl⟩,
      .inr ⟨pool, hpool, hpool⟩⟩
  · exact ⟨keeps_insert rfl rfl hmem, .inl (AList.lookup_insert _)⟩

theorem keeps_putThread {pool pool' : TurnPool} (hpool : m.thread? userId id = some pool)
    (hchannel : sourceChannel pool' = sourceChannel pool) :
    Keeps m (m.putThread userId id pool') := by
  refine keeps_putSession fun id' old hold => ?_
  show ∃ new, ((m.session userId).threads.insert id pool').lookup id' = some new ∧ _
  rw [HashMap.lookup_insert]
  split_ifs with heq
  · subst heq
    rw [SessionManager.thread?, hold] at hpool
    cases hpool
    exact ⟨pool', rfl, hchannel⟩
  · exact ⟨old, hold, rfl⟩

theorem mapped_putSession {s : Session} (h : Mapped uuids m)
    (hkeeps : Keeps m (m.putSession userId s)) : Mapped uuids (m.putSession userId s) :=
  h.of_keeps rfl hkeeps

theorem mapped_getOrCreateSession (h : Mapped uuids m) (userId : Text) :
    Mapped uuids (m.getOrCreateSession userId) := h.of_keeps rfl keeps_getOrCreateSession

theorem mapped_registerThread (h : Mapped uuids m) (hpool : m.thread? userId id = some pool) :
    Mapped uuids (m.registerThread uuids userId channel id) := by
  have hthread : (m.getOrCreateSession userId).thread? userId id = some pool := by
    rwa [thread?_getOrCreateSession]
  exact (mapped_getOrCreateSession h userId).mapThread hthread (.inl (uuids.parse_render id))

theorem mapped_act {action : Agent.Action} (h : Mapped uuids m)
    (hact : m.act cfg userId id action = some m') : Mapped uuids m' := by
  unfold SessionManager.act at hact
  split at hact
  · cases hact
    exact h
  · rename_i pool hpool
    obtain ⟨pool', hstep, rfl⟩ := map_eq_some_iff.mp hact
    exact mapped_putSession h (keeps_putThread hpool (sourceChannel_turnStep hstep))

theorem mapped_hydrate (h : Mapped uuids m) (hnew : m.thread? userId id = none)
    (sourceChannel : Option Text) (messages : List ChatMessage) :
    Mapped uuids (m.hydrate uuids userId channel id sourceChannel messages) := by
  have hnot : id ∉ (m.session userId).threads := by
    intro hmem
    obtain ⟨pool, hpool⟩ := HashMap.mem_iff_exists_lookup.mp hmem
    rw [SessionManager.thread?, hpool] at hnew
    cases hnew
  have hthread : (m.putSession userId
      { threads := (m.session userId).threads.insert id (hydrated sourceChannel messages)
        activeThread := some id }).thread? userId id = some (hydrated sourceChannel messages) := by
    rw [thread?_putSession_self]
    exact AList.lookup_insert _
  exact mapped_registerThread (mapped_putSession h (keeps_insert rfl rfl hnot)) hthread

theorem mapped_maybeHydrateThread (h : Mapped uuids m) (message : IncomingMessage)
    (store : Option (Uuid → Conversation)) (scope : Text) :
    Mapped uuids (m.maybeHydrateThread uuids message store scope).1 := by
  have hcreated := mapped_getOrCreateSession h message.userId
  unfold SessionManager.maybeHydrateThread
  split
  · exact h
  · dsimp only
    split_ifs with hthere
    · exact hcreated
    · have hnew := Option.not_isSome_iff_eq_none.mp hthere
      split
      · exact mapped_hydrate hcreated hnew _ _
      · split
        · exact hcreated
        · split <;> exact hcreated
        · exact mapped_hydrate hcreated hnew _ _

/-- A resolved thread has the name's channel, or waits for no approval, or was in the session under
its UUID. -/
def Resolved (uuids : UuidText) (m : SessionManager) (key : ThreadKey) (id : Uuid)
    (pool : TurnPool) : Prop :=
  sourceChannel pool = some key.channel ∨ pool.shared.thread.pendingApproval = none ∨
    key.uuid? uuids = some id ∧ (m.thread? key.userId id).isSome = true

theorem resolve_spec {externalThreadId : Option Text} {parsedUuid : Option Uuid}
    {r : SessionManager × Uuid} (h : Mapped uuids m)
    (hparsed : ∀ u ∈ parsedUuid, externalThreadId.bind uuids.parse = some u)
    (hr : m.resolveThreadWithParsedUuid uuids userId channel externalThreadId parsedUuid fresh =
      some r) :
    Mapped uuids r.1 ∧ ∃ pool, r.1.thread? userId r.2 = some pool ∧
      Resolved uuids m ⟨userId, channel, externalThreadId⟩ r.2 pool := by
  have hcreated := mapped_getOrCreateSession h userId
  -- a UUID that was read before is the one that the name is read as
  have huuid : ∀ u, parsedUuid.or (externalThreadId.bind uuids.parse) = some u →
      externalThreadId.bind uuids.parse = some u := by
    intro u hu
    cases parsedUuid with
    | none => exact hu
    | some u' =>
      cases hu
      exact hparsed u rfl
  unfold SessionManager.resolveThreadWithParsedUuid at hr
  dsimp only at hr
  split at hr
  · rename_i id hfound
    cases hr
    obtain ⟨hlookup, hthere⟩ := filter_eq_some_iff.mp hfound
    obtain ⟨pool, hpool, hstands⟩ := hcreated _ _ hlookup
    refine ⟨hcreated, pool, hpool, ?_⟩
    rcases hstands with hname | hchannel
    · exact .inr (.inr ⟨hname, by simpa using hthere⟩)
    · exact .inl hchannel
  · split at hr
    · rename_i id hadopted
      cases hr
      obtain ⟨hunmapped, hthere⟩ := filter_eq_some_iff.mp hadopted
      split_ifs at hunmapped
      have hname := huuid id (filter_eq_some_iff.mp hunmapped).1
      obtain ⟨pool, hpool⟩ := Option.isSome_iff_exists.mp hthere
      exact ⟨hcreated.mapThread hpool (.inl hname), pool, hpool,
        .inr (.inr ⟨hname, by simpa using hthere⟩)⟩
    · split at hr
      · rename_i id hunmapped
        cases hr
        have hname := huuid id (filter_eq_some_iff.mp hunmapped).1
        have hcreate := @keeps_createThreadWithId (m.getOrCreateSession userId) userId channel id
        obtain ⟨hkeeps, hthread⟩ := hcreate
        have hmapped := mapped_putSession hcreated hkeeps
        rw [← @thread?_putSession_self (m.getOrCreateSession userId) userId] at hthread
        rcases hthread with hnew | ⟨pool, hold, hkept⟩
        · exact ⟨hmapped.mapThread hnew (.inl hname), _, hnew, .inl rfl⟩
        · refine ⟨hmapped.mapThread hkept (.inl hname), pool, hkept, .inr (.inr ⟨hname, ?_⟩)⟩
          rw [thread?_getOrCreateSession] at hold
          rw [hold]
          rfl
      · obtain ⟨s, hcreate, hr⟩ := Option.bind_eq_some_iff.mp hr
        cases hr
        obtain ⟨hkeeps, hnew⟩ := keeps_createThread hcreate
        rw [← thread?_putSession_self] at hnew
        exact ⟨(mapped_putSession hcreated hkeeps).mapThread hnew (.inr rfl), _, hnew, .inl rfl⟩

theorem isApprovalAuthorized_self (channel : Text) :
    isApprovalAuthorized (some channel) channel = true := by
  show (if channel = Agent.bootstrapSourceChannel then true else
    channel == channel || Agent.trustedApprovalChannels.contains channel) = true
  split_ifs
  · rfl
  · simp

/-- The thread of a message. An approval for a waiting thread comes from a channel that may approve.
-/
def Routed (cfg : AgentConfig) (message : IncomingMessage) (r : SessionManager × Option Uuid) :
    Prop :=
  Mapped cfg.uuids r.1 ∧ ∀ id ∈ r.2, ∃ pool, r.1.thread? message.userId id = some pool ∧
    (message.submission.namesApproval = true →
      pool.shared.thread.pendingApproval.isSome = true →
        isApprovalAuthorized (sourceChannel pool) message.channel = true)

variable {message : IncomingMessage}

theorem routed_resolve {parsedUuid : Option Uuid} {r : SessionManager × Uuid}
    (h : Mapped cfg.uuids m)
    (hparsed : ∀ u ∈ parsedUuid, message.conversationScope.bind cfg.uuids.parse = some u)
    (hunnamed : message.submission.namesApproval = true →
      ∀ id, message.conversationScope.bind cfg.uuids.parse = some id →
        m.thread? message.userId id = none)
    (hr : m.resolveThreadWithParsedUuid cfg.uuids message.userId message.channel
      message.conversationScope parsedUuid fresh = some r) :
    Routed cfg message (r.1, some r.2) := by
  obtain ⟨hmapped, pool, hpool, hresolved⟩ := resolve_spec h hparsed hr
  refine ⟨hmapped, fun id hid => ?_⟩
  cases hid
  refine ⟨pool, hpool, fun hnames hpending => ?_⟩
  rcases hresolved with hchannel | hnone | ⟨hname, hthere⟩
  · rw [hchannel]
    exact isApprovalAuthorized_self _
  · rw [hnone] at hpending
    cases hpending
  · rw [hunnamed hnames r.2 hname] at hthere
    cases hthere

theorem routed_routeApproval (h : Mapped cfg.uuids m)
    (hpool : m.thread? message.userId id = some pool) :
    Routed cfg message (m.routeApproval cfg message id pool) := by
  unfold SessionManager.routeApproval
  dsimp only
  split_ifs with hexec hrefused
  · exact ⟨h, nofun⟩
  · exact ⟨h, nofun⟩
  · have hkeeps : Keeps m (m.putSession message.userId
        { m.session message.userId with activeThread := some id }) :=
      keeps_putSession fun _ pool' hpool' => ⟨pool', hpool', rfl⟩
    have hthere : (m.putSession message.userId
        { m.session message.userId with activeThread := some id }).thread? message.userId id =
          some pool := by
      rw [thread?_putSession_self]
      exact hpool
    refine ⟨mapped_registerThread (mapped_putSession h hkeeps) hthere, fun id' hid => ?_⟩
    cases hid
    refine ⟨pool, ?_, fun _ hpending => ?_⟩
    · show ((SessionManager.getOrCreateSession _ _).thread? _ _) = _
      rw [thread?_getOrCreateSession]
      exact hthere
    · simpa [hpending, sourceChannel] using hrefused

theorem routed_resolveMessage {store : Option (Uuid → Conversation)}
    {r : SessionManager × Option Uuid} (h : Mapped cfg.uuids m)
    (hr : m.resolveMessage cfg message store fresh = some r) : Routed cfg message r := by
  unfold SessionManager.resolveMessage at hr
  dsimp only at hr
  -- the names after the hydration, if there was one
  obtain ⟨m₁, rejected, hhydrated, hm₁⟩ : ∃ m₁ rejected,
      (match message.conversationScope with
      | some scope => m.maybeHydrateThread cfg.uuids message store scope
      | none => (m, false)) = (m₁, rejected) ∧ Mapped cfg.uuids m₁ := by
    split
    · rename_i scope _
      exact ⟨_, _, rfl, mapped_maybeHydrateThread h message store scope⟩
    · exact ⟨_, _, rfl, h⟩
  rw [hhydrated] at hr
  dsimp only at hr
  by_cases hrejected : rejected = true
  · rw [if_pos hrejected] at hr
    cases hr
    exact ⟨hm₁, by rintro _ ⟨⟩⟩
  rw [if_neg hrejected] at hr
  by_cases hnames : message.submission.namesApproval = true
  · simp only [if_pos hnames] at hr
    cases hscope : message.conversationScope.bind cfg.uuids.parse with
    | none =>
      rw [hscope] at hr
      obtain ⟨r', hr', rfl⟩ := map_eq_some_iff.mp hr
      refine routed_resolve hm₁ (by simp) (fun _ id hid => ?_) hr'
      rw [hscope] at hid
      cases hid
    | some id =>
      rw [hscope] at hr
      dsimp only at hr
      split at hr
      · rename_i pool hpool
        cases hr
        exact routed_routeApproval (mapped_getOrCreateSession hm₁ _) hpool
      · rename_i hnone
        obtain ⟨r', hr', rfl⟩ := map_eq_some_iff.mp hr
        refine routed_resolve hm₁ (fun u hu => ?_) (fun _ id' hid => ?_) hr'
        · cases hu
          exact hscope
        · rw [hscope] at hid
          cases hid
          rwa [thread?_getOrCreateSession] at hnone
  · simp only [if_neg hnames] at hr
    obtain ⟨r', hr', rfl⟩ := map_eq_some_iff.mp hr
    exact routed_resolve hm₁ (by simp) (fun h => absurd h hnames) hr'

theorem mapped_createThread (h : Mapped uuids m)
    (hcreate : m.createThread userId channel fresh = some m') : Mapped uuids m' := by
  obtain ⟨s, hs, rfl⟩ := map_eq_some_iff.mp hcreate
  exact mapped_putSession h (keeps_createThread hs).1

theorem mapped_switchThread (h : Mapped cfg.uuids m) (message : IncomingMessage)
    (store : Option (Uuid → Conversation)) (id : Uuid) :
    Mapped cfg.uuids (m.switchThread cfg message store id) := by
  have hhydrated := mapped_maybeHydrateThread h message store (cfg.uuids.render id)
  unfold SessionManager.switchThread
  dsimp only
  split_ifs
  · exact hhydrated
  · refine mapped_putSession hhydrated (keeps_putSession fun id' pool hpool => ⟨pool, ?_, rfl⟩)
    unfold Session.switchThread
    split_ifs <;> exact hpool

theorem mapped_handleMessage {store : Option (Uuid → Conversation)} {fresh' : Uuid}
    (h : Mapped cfg.uuids m) (hm : m.handleMessage cfg message store fresh fresh' = some m') :
    Mapped cfg.uuids m' := by
  unfold SessionManager.handleMessage at hm
  by_cases hanswered : SessionManager.isAnswered cfg message = true
  · rw [if_pos hanswered] at hm
    cases hm
    exact h
  rw [if_neg hanswered] at hm
  obtain ⟨r, hr, hm⟩ := Option.bind_eq_some_iff.mp hm
  have hrouted := (routed_resolveMessage h hr).1
  split at hm
  · cases hm
    exact hrouted
  · split at hm
    · exact mapped_act hrouted hm
    · exact mapped_act hrouted hm
    · exact mapped_act hrouted hm
    · exact mapped_createThread hrouted hm
    · cases hm
      exact mapped_switchThread hrouted message store _
    · cases hm
      exact hrouted

theorem mapped_prune (h : Mapped uuids m) (stale : List Text) :
    Mapped uuids (m.pruneStaleSessions stale) := by
  intro key id hkey
  unfold SessionManager.pruneStaleSessions at hkey
  dsimp only at hkey
  rw [HashMap.lookup_retain] at hkey
  obtain ⟨hlookup, hkept⟩ := filter_eq_some_iff.mp hkey
  obtain ⟨pool, hpool, hstands⟩ := h key id hlookup
  refine ⟨pool, ?_, hstands⟩
  rw [← hpool]
  show (((HashMap.retain m.sessions _).lookup key.userId).getD .new).threads.lookup id = _
  rw [HashMap.lookup_retain]
  cases hsession : m.sessions.lookup key.userId with
  | none => simp [SessionManager.thread?, SessionManager.session, hsession]
  | some s => simp only [Option.filter_some, hkept, if_true, SessionManager.thread?,
      SessionManager.session, hsession]

theorem mapped_sessionStep {e : SessionEvent} (h : Mapped cfg.uuids m)
    (hstep : sessionStep cfg m e = some m') : Mapped cfg.uuids m' := by
  cases e with
  | message message store fresh fresh' => exact mapped_handleMessage h hstep
  | work userId id i e => exact mapped_act h hstep
  | chatNewThread userId fresh => exact mapped_createThread (mapped_getOrCreateSession h _) hstep
  | prune stale =>
    cases hstep
    exact mapped_prune h stale

theorem approvalsAuthorized_of_mapped (h : Mapped cfg.uuids m) (e : SessionEvent) :
    ApprovalsAuthorized cfg m e := by
  cases e with
  | message message store fresh fresh' =>
    intro pool hpool hpending
    unfold SessionManager.approves at hpool
    split_ifs at hpool
    · cases hpool
    split at hpool
    · rename_i m₁ id hresolve
      split at hpool
      · rename_i requestId approved hhandling
        obtain ⟨-, hthread⟩ := routed_resolveMessage h hresolve
        obtain ⟨pool', hpool', hauthorized⟩ := hthread id rfl
        rw [hpool'] at hpool
        cases hpool
        refine hauthorized ?_ hpending
        -- only approvals are handled as approvals
        unfold SessionManager.handling at hhandling
        cases hsubmission : message.submission with
        | execApproval | approvalResponse | externalCallback | gateAuthResolution => rfl
        | userInput content =>
          rw [hsubmission] at hhandling
          dsimp only at hhandling
          cases hinbound : cfg.inbound content <;> rw [hinbound] at hhandling <;> cases hhandling
        | _ =>
          rw [hsubmission] at hhandling
          cases hhandling
      · cases hpool
    · cases hpool
  | _ => trivial

theorem mapped_new : Mapped uuids .new := by
  intro key id hkey
  cases hkey

/-- **No approval across channels**, in any run of messages, steps of threads, new threads and
removals. -/
theorem approvals_authorized (cfg : AgentConfig) (events : List SessionEvent) :
    Along (sessionStep cfg) (ApprovalsAuthorized cfg) .new events := by
  have hall : Along (sessionStep cfg) (fun _ _ => True) .new events :=
    .of_forall_mem (fun _ _ _ => trivial) _
  exact hall.of_invariant (fun _ _ _ h _ hstep => mapped_sessionStep h hstep)
    (fun _ e h _ => approvalsAuthorized_of_mapped h e) mapped_new

end IronClaw.Sessions
