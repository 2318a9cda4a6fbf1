import IronClaw.Sessions.Manager

/-!
# The session manager under concurrent calls

The session manager keeps three maps, each behind a lock. Calls take turns wherever one takes or
releases a lock. A removed session stays with the calls that have it.
-/

namespace IronClaw.Sessions

open Agent (Uuid)
open Foundation (HashMap Pool Text)

abbrev SessionId := Nat

abbrev UndoId := Nat

abbrev Time := Nat

structure SharedSession where
  userId : Text
  threads : List Uuid
  lastActiveAt : Time

/-- What a name stands for, with the session that the caller had who stored it. -/
structure Mapping where
  thread : Uuid
  session : SessionId

/-- What a name was resolved to, with the removals of the user's session before call and answer. -/
structure Answer where
  key : ThreadKey
  session : SessionId
  thread : Uuid
  askedIn : Nat
  answeredIn : Nat

structure Removal where
  userId : Text
  session : SessionId
  lastActiveAt : Time
  cutoff : Time

/-- The maps of the session manager, and the sessions. `scanners` hold the read lock; lists are
logs. -/
structure SessionHost where
  now : Time
  sessions : HashMap Text SessionId
  objects : SessionId → SharedSession
  nextSession : SessionId
  scanners : Nat
  threadMap : HashMap ThreadKey Mapping
  undoManagers : HashMap Uuid UndoId
  nextUndo : UndoId
  resolved : List ThreadKey
  removals : List Removal
  cleaned : List SessionId
  lost : List Uuid
  answers : List Answer

namespace SessionHost

variable (h : SessionHost)

def start : SessionHost := ⟨0, ∅, fun _ => ⟨[], [], 0⟩, 0, 0, ∅, ∅, 0, [], [], [], [], []⟩

def removalsOf (userId : Text) : Nat := h.removals.countP fun r => decide (r.userId = userId)

def isLive (thread : Uuid) : Bool :=
  (HashMap.values h.sessions).any fun s => (h.objects s).threads.contains thread

def isMapped (thread : Uuid) : Bool :=
  (HashMap.values h.threadMap).any fun m => m.thread == thread

def modify (s : SessionId) (f : SharedSession → SharedSession) : SessionHost :=
  { h with objects := Function.update h.objects s (f (h.objects s)) }

def addThread (s : SessionId) (thread : Uuid) : SessionHost :=
  h.modify s fun o =>
    { o with threads := if thread ∈ o.threads then o.threads else thread :: o.threads,
             lastActiveAt := h.now }

def createThreadWithId (s : SessionId) (thread : Uuid) : SessionHost :=
  if thread ∈ (h.objects s).threads then h else h.addThread s thread

def createSession (userId : Text) : SessionHost × SessionId :=
  match h.sessions.lookup userId with
  | some s => (h, s)
  | none =>
    ({ h with
      sessions := h.sessions.insert userId h.nextSession
      objects := Function.update h.objects h.nextSession ⟨userId, [], h.now⟩
      nextSession := h.nextSession + 1 }, h.nextSession)

def trackSession (userId : Text) (s : SessionId) : SessionHost :=
  match h.sessions.lookup userId with
  | some _ => h
  | none => { h with sessions := h.sessions.insert userId s }

def storeKey (key : ThreadKey) (thread : Uuid) (s : SessionId) : SessionHost :=
  { h with threadMap := h.threadMap.insert key ⟨thread, s⟩ }

def noteResolved (key : ThreadKey) : SessionHost := { h with resolved := key :: h.resolved }

def ensureUndo (thread : Uuid) : SessionHost :=
  match h.undoManagers.lookup thread with
  | some _ => h
  | none =>
    { h with
      undoManagers := h.undoManagers.insert thread h.nextUndo, nextUndo := h.nextUndo + 1 }

def hasLiveUndo (thread : Uuid) : Bool :=
  h.isLive thread && (h.undoManagers.lookup thread).isSome

def installUndo (thread : Uuid) : SessionHost :=
  { h with
    undoManagers := h.undoManagers.insert thread h.nextUndo
    nextUndo := h.nextUndo + 1
    lost := if h.hasLiveUndo thread then thread :: h.lost else h.lost }

def dropUndo (threads : List Uuid) : SessionHost :=
  { h with
    undoManagers := threads.foldl (fun m t => m.erase t) h.undoManagers
    lost := threads.filter h.hasLiveUndo ++ h.lost }

def removeSession (cutoff : Time) (userId : Text) : SessionHost :=
  match h.sessions.lookup userId with
  | none => h
  | some s =>
    { h with
      sessions := h.sessions.erase userId
      removals := ⟨userId, s, (h.objects s).lastActiveAt, cutoff⟩ :: h.removals }

def removeSessions (cutoff : Time) : List Text → SessionHost → SessionHost
  | [], host => host
  | userId :: users, host => removeSessions cutoff users (host.removeSession cutoff userId)

def forgetNames (users : List Text) (removed : List SessionId) : SessionHost :=
  { h with
    threadMap := HashMap.retain h.threadMap fun key _ => !users.contains key.userId
    cleaned := removed ++ h.cleaned }

end SessionHost

structure ResolveCall where
  userId : Text
  channel : Text
  externalThreadId : Option Text
  parsedUuid : Option Uuid
  askedIn : Nat

namespace ResolveCall

def key (c : ResolveCall) : ThreadKey := ⟨c.userId, c.channel, c.externalThreadId⟩

def extUuid (uuids : UuidText) (c : ResolveCall) : Option Uuid :=
  c.parsedUuid.or (c.externalThreadId.bind uuids.parse)

end ResolveCall

def SessionHost.answer (c : ResolveCall) (s : SessionId) (thread : Uuid) (h : SessionHost) :
    SessionHost :=
  { h with answers := ⟨c.key, s, thread, c.askedIn, h.removalsOf c.userId⟩ :: h.answers }

inductive SessionTask where
  | gettingSession (c : ResolveCall)
  | creatingSession (c : ResolveCall)
  | lookingUp (c : ResolveCall) (s : SessionId)
  /-- A thread of the session with the id that the name is read as is taken over. -/
  | adoptChecking (c : ResolveCall) (s : SessionId) (thread : Uuid)
  | adopting (c : ResolveCall) (s : SessionId) (thread : Uuid)
  | ensuringUndo (c : ResolveCall) (s : SessionId) (thread : Uuid)
  /-- A thread is created, with this id if no name stands for it. -/
  | choosing (c : ResolveCall) (s : SessionId)
  | creating (c : ResolveCall) (s : SessionId) (safeExtUuid : Option Uuid)
  | storing (c : ResolveCall) (s : SessionId) (thread : Uuid)
  | installingUndo (c : ResolveCall) (s : SessionId) (thread : Uuid)
  | registering (userId channel : Text) (thread : Uuid) (s : SessionId)
  | registeringUndo (userId : Text) (thread : Uuid) (s : SessionId)
  | tracking (userId : Text) (s : SessionId)
  | findingUndo (thread : Uuid)
  | addingUndo (thread : Uuid)
  /-- Idle sessions are looked for, and their threads, both with the read lock of the sessions. -/
  | pruning (cutoff : Time)
  | scanning (cutoff : Time) (rest : List (Text × SessionId)) (stale : List Text)
  | rescanning (cutoff : Time) (stale : List Text)
  | collecting (cutoff : Time) (stale rest : List Text) (threads : List Uuid)
  | removing (cutoff : Time) (stale : List Text) (threads : List Uuid)
  | cleaning (stale : List Text) (threads : List Uuid) (removed : List SessionId)
  | dropping (threads : List Uuid)

inductive SessionTurn where
  | go
  | contended
  | fresh (id : Uuid)

namespace SessionTask

variable (uuids : UuidText)

def lookUp (h : SessionHost) (c : ResolveCall) (s : SessionId) :
    SessionHost × List SessionTask :=
  match h.threadMap.lookup c.key |>.filter fun m => (h.objects s).threads.contains m.thread with
  | some m => (h.answer c s m.thread, [])
  | none =>
    let unmapped := (c.extUuid uuids).filter fun id => !h.isMapped id
    match if c.externalThreadId.isSome then unmapped else none with
    | some id => (h, [.adoptChecking c s id])
    | none => (h, [.choosing c s])

def goNext (h : SessionHost) : SessionTask → Option (SessionHost × List SessionTask)
  | gettingSession c =>
    match h.sessions.lookup c.userId with
    | some s => some (h, [.lookingUp c s])
    | none => some (h, [.creatingSession c])
  | creatingSession c =>
    if h.scanners = 0 then
      let created := h.createSession c.userId
      some (created.1, [.lookingUp c created.2])
    else none
  | lookingUp c s => some (lookUp uuids h c s)
  | adoptChecking c s id =>
    some (h, [if id ∈ (h.objects s).threads then .adopting c s id else .choosing c s])
  | adopting c s id =>
    if h.isMapped id then some (h, [.choosing c s])
    else some ((h.storeKey c.key id s).noteResolved c.key, [.ensuringUndo c s id])
  | ensuringUndo c s id => some ((h.ensureUndo id).answer c s id, [])
  | choosing c s =>
    some (h, [.creating c s ((c.extUuid uuids).filter fun id => !h.isMapped id)])
  | creating c s (some id) => some (h.createThreadWithId s id, [.storing c s id])
  | storing c s id =>
    some ((h.storeKey c.key id s).noteResolved c.key, [.installingUndo c s id])
  | installingUndo c s id => some ((h.installUndo id).answer c s id, [])
  | registering userId channel id s =>
    some (h.storeKey ⟨userId, channel, some (uuids.render id)⟩ id s, [.registeringUndo userId id s])
  | registeringUndo userId id s => some (h.ensureUndo id, [.tracking userId s])
  | tracking userId s => if h.scanners = 0 then some (h.trackSession userId s, []) else none
  | findingUndo id =>
    some (h, if (h.undoManagers.lookup id).isSome then [] else [.addingUndo id])
  | addingUndo id => some (h.ensureUndo id, [])
  | pruning cutoff =>
    some ({ h with scanners := h.scanners + 1 },
      [.scanning cutoff (h.sessions.entries.map fun e => (e.1, e.2)) []])
  | scanning cutoff (e :: rest) stale =>
    some (h, [.scanning cutoff rest
      (if (h.objects e.2).lastActiveAt < cutoff then stale ++ [e.1] else stale)])
  | scanning cutoff [] stale =>
    some ({ h with scanners := h.scanners - 1 },
      if stale.isEmpty then [] else [.rescanning cutoff stale])
  | rescanning cutoff stale =>
    some ({ h with scanners := h.scanners + 1 }, [.collecting cutoff stale stale []])
  | collecting cutoff stale (userId :: rest) threads =>
    let found := (h.sessions.lookup userId).elim [] fun s => (h.objects s).threads
    some (h, [.collecting cutoff stale rest (threads ++ found)])
  | collecting cutoff stale [] threads =>
    some ({ h with scanners := h.scanners - 1 }, [.removing cutoff stale threads])
  | removing cutoff stale threads =>
    if h.scanners = 0 then
      some (h.removeSessions cutoff stale,
        [.cleaning stale threads (stale.filterMap h.sessions.lookup)])
    else none
  | cleaning stale threads removed => some (h.forgetNames stale removed, [.dropping threads])
  | dropping threads => some (h.dropUndo threads, [])
  | creating _ _ none => none

def isUnused (h : SessionHost) (id : Uuid) : Bool :=
  !h.isMapped id && (h.undoManagers.lookup id).isNone &&
    (List.range h.nextSession).all fun s => !(h.objects s).threads.contains id

def next (event : SessionTurn) (h : SessionHost) (t : SessionTask) :
    Option (SessionHost × List SessionTask) :=
  match event, t with
  | .go, t => goNext uuids h t
  | .contended, scanning cutoff (_ :: rest) stale => some (h, [.scanning cutoff rest stale])
  | .contended, collecting cutoff stale (_ :: rest) threads =>
    some (h, [.collecting cutoff stale rest threads])
  | .fresh id, creating c s none =>
    if isUnused h id then some (h.addThread s id, [.storing c s id]) else none
  | _, _ => none

end SessionTask

inductive SessionAction where
  | resolveThread (userId channel : Text) (externalThreadId : Option Text)
      (parsedUuid : Option Uuid)
  /-- A thread is registered by a caller that has a session of the user. -/
  | registerThread (userId channel : Text) (thread : Uuid) (s : SessionId)
  | getUndoManager (thread : Uuid)
  | pruneStaleSessions (maxIdle : Time)
  /-- A session is used, or gets a thread from the database or the web interface. -/
  | touch (s : SessionId)
  | addThread (s : SessionId) (thread : Uuid)
  | clock (now : Time)
  | advance (i : Nat) (event : SessionTurn)

abbrev SessionPool := Pool SessionHost SessionTask

def poolStep (uuids : UuidText) (p : SessionPool) : SessionAction → Option SessionPool
  | .resolveThread userId channel externalThreadId parsedUuid =>
    some (p.start (.gettingSession
      ⟨userId, channel, externalThreadId, parsedUuid, p.shared.removalsOf userId⟩))
  | .registerThread userId channel thread s =>
    if s < p.shared.nextSession ∧ (p.shared.objects s).userId = userId then
      some (p.start (.registering userId channel thread s))
    else none
  | .getUndoManager thread => some (p.start (.findingUndo thread))
  | .pruneStaleSessions maxIdle => some (p.start (.pruning (p.shared.now - maxIdle)))
  | .touch s =>
    some { p with shared := p.shared.modify s fun o => { o with lastActiveAt := p.shared.now } }
  | .addThread s thread => some { p with shared := p.shared.addThread s thread }
  | .clock now =>
    if p.shared.now ≤ now then some { p with shared := { p.shared with now } } else none
  | .advance i event => p.advance (SessionTask.next uuids) i event

end IronClaw.Sessions
