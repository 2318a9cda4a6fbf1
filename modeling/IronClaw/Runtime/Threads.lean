import IronClaw.Missions.Calls
import IronClaw.Missions.Outcome

/-!
# Threads and conversations

An execution works on a copy of the thread. The entries of a conversation become the transcript of a
new thread. Events, steps and the internal transcript are left out.
-/

namespace IronClaw.Missions

def ThreadState.isResumable (state : ThreadState) : Bool := state == .waiting || state == .suspended

end IronClaw.Missions

namespace IronClaw.Runtime

open Foundation (Text Json HashMap)
open Missions (ThreadId ThreadState ThreadType ThreadOutcome MessageRole isSharedOwner)

abbrev ConversationId := Nat

abbrev MessageId := Nat

/-- A message, with the ids of its actions. What a user has just said has a number. -/
structure ThreadMessage where
  role : MessageRole
  content : Text
  actionCallId : Option Text
  actionCalls : List Text
  received : Option MessageId

namespace ThreadMessage

def system (content : Text) : ThreadMessage := ⟨.system, content, none, [], none⟩

def user (content : Text) : ThreadMessage := ⟨.user, content, none, [], none⟩

def assistant (content : Text) : ThreadMessage := ⟨.assistant, content, none, [], none⟩

def spoken (content : Text) (message : MessageId) : ThreadMessage :=
  { user content with received := some message }

def copied (m : ThreadMessage) : ThreadMessage := { m with received := none }

def isResolvedActionResultMessage (callId : Text) (m : ThreadMessage) : Bool :=
  m.role == .actionResult && m.actionCallId == some callId

def isResolvedCallMessage (callId : Text) (m : ThreadMessage) : Bool :=
  m.isResolvedActionResultMessage callId || (m.role == .assistant && m.actionCalls.contains callId)

end ThreadMessage

def received (messages : List ThreadMessage) : List MessageId :=
  messages.filterMap ThreadMessage.received

section Received

variable {messages messages' : List ThreadMessage} {m : ThreadMessage}

@[simp] theorem received_append :
    received (messages ++ messages') = received messages ++ received messages' :=
  List.filterMap_append

@[simp] theorem received_singleton : received [m] = m.received.toList := by
  cases h : m.received <;> simp [received, h]

theorem received_eq_nil (h : ∀ m ∈ messages, m.received = none) : received messages = [] :=
  List.filterMap_eq_nil_iff.mpr h

def OnlyUsersSpeak (messages : List ThreadMessage) : Prop :=
  ∀ m ∈ messages, m.received ≠ none → m.role = .user

theorem received_filter {p : ThreadMessage → Bool} (h : OnlyUsersSpeak messages)
    (hp : ∀ m, m.role = .user → p m = true) : received (messages.filter p) = received messages := by
  induction messages with
  | nil => rfl
  | cons m messages ih =>
    have ih := ih fun m' hm' => h m' (List.mem_cons_of_mem m hm')
    simp only [received] at ih ⊢
    by_cases hm : p m = true
    · rw [List.filter_cons_of_pos hm, List.filterMap_cons, List.filterMap_cons, ih]
    · have hnone : m.received = none := by
        by_contra hne
        exact hm (hp m (h m List.mem_cons_self hne))
      rw [List.filter_cons_of_neg hm, List.filterMap_cons_none hnone, ih]

end Received

structure Thread where
  id : ThreadId
  userId : Text
  threadType : ThreadType
  state : ThreadState
  messages : List ThreadMessage
  metadata : HashMap Text Json

namespace Thread

variable (thread : Thread)

def isOwnedBy (userId : Text) : Bool := !isSharedOwner thread.userId && thread.userId == userId

def transitionTo (state : ThreadState) : Option Thread :=
  if thread.state.canTransitionTo state then some { thread with state := state } else none

def addMessage (m : ThreadMessage) : Thread := { thread with messages := thread.messages ++ [m] }

/-- The transcript without what a resolved action leaves; the call stays where its result comes in.
-/
def withoutResolved (injected : Option ThreadMessage) (callId : Text) : Thread :=
  { thread with
    messages := thread.messages.filter fun existing =>
      if injected.any fun m => m.isResolvedActionResultMessage callId then
        !existing.isResolvedActionResultMessage callId
      else !existing.isResolvedCallMessage callId }

/-- The thread that a resume starts. A thread that waits does not replay its checkpoint. -/
def resumed (injected : Option ThreadMessage) (resolvedCallId : Option Text) : Thread :=
  let resolved := resolvedCallId.elim thread (thread.withoutResolved injected)
  let continued := injected.elim resolved resolved.addMessage
  if continued.state = .waiting then
    { continued with metadata := continued.metadata.erase "runtime_checkpoint".toList }
  else continued

def syncVisibleOutcome (outcome : ThreadOutcome) : Thread :=
  match outcome with
  | .completed (some response) =>
    if (thread.messages.getLast?.any fun m => m.role == .assistant && m.content == response) then
      thread
    else thread.addMessage (.assistant response)
  | _ => thread

def normalizePauseOutcome (outcome : ThreadOutcome) : Option Thread :=
  if outcome = .gatePaused ∧ thread.state ≠ .waiting then thread.transitionTo .waiting
  else some thread

def failedUnlessEnded : Thread :=
  if thread.state = .completed ∨ thread.state = .failed ∨ thread.state = .done then thread
  else (thread.transitionTo .failed).getD thread

def closed : Thread :=
  if thread.state = .completed then (thread.transitionTo .done).getD thread else thread

end Thread

structure PromptFormat where
  isCodeactSystemPrompt : Text → Bool
  refreshCodeactSystemPrompt : Text → Text → Text

def upsertCodeactSystemPrompt (format : PromptFormat) (prompt : Text)
    (messages : List ThreadMessage) : List ThreadMessage :=
  match messages.findIdx? fun m => m.role == .system && format.isCodeactSystemPrompt m.content with
  | some i => messages.modify i fun m =>
    { m with content := format.refreshCodeactSystemPrompt m.content prompt }
  | none => if messages.any fun m => m.role == .system then messages else .system prompt :: messages

def Thread.withPrompt (format : PromptFormat) (prompt : Option Text) (thread : Thread) : Thread :=
  { thread with
    messages := prompt.elim thread.messages fun p =>
      upsertCodeactSystemPrompt format p thread.messages }

section Transcript

variable {thread thread' : Thread} {injected : Option ThreadMessage} {resolvedCallId : Option Text}
  {outcome : ThreadOutcome} {state : ThreadState} {m : ThreadMessage}

theorem Thread.transitionTo_eq_some (h : thread.transitionTo state = some thread') :
    thread' = { thread with state := state } := by
  rw [transitionTo] at h
  split_ifs at h
  cases h
  rfl

structure Thread.SameReceived (thread thread' : Thread) : Prop where
  id : thread'.id = thread.id
  received : received thread'.messages = received thread.messages
  users : OnlyUsersSpeak thread.messages → OnlyUsersSpeak thread'.messages

namespace Thread

theorem SameReceived.refl (thread : Thread) : thread.SameReceived thread := ⟨rfl, rfl, fun h => h⟩

theorem SameReceived.trans {thread'' : Thread} (h : thread.SameReceived thread')
    (h' : thread'.SameReceived thread'') : thread.SameReceived thread'' where
  id := h'.id.trans h.id
  received := h'.received.trans h.received
  users := h'.users ∘ h.users

theorem sameReceived_of_transitionTo (h : thread.transitionTo state = some thread') :
    thread.SameReceived thread' := by
  rw [transitionTo_eq_some h]
  exact ⟨rfl, rfl, fun h => h⟩

theorem onlyUsersSpeak_addMessage (h : OnlyUsersSpeak thread.messages)
    (hm : m.received ≠ none → m.role = .user) : OnlyUsersSpeak (thread.addMessage m).messages := by
  intro m' hm'
  rcases List.mem_append.mp hm' with hm' | hm'
  · exact h m' hm'
  · rw [List.mem_singleton.mp hm']
    exact hm

theorem sameReceived_addMessage (hm : m.received = none) :
    thread.SameReceived (thread.addMessage m) where
  id := rfl
  received := by simp [addMessage, hm]
  users := fun h => onlyUsersSpeak_addMessage h fun hne => absurd hm hne

theorem sameReceived_syncVisibleOutcome :
    thread.SameReceived (thread.syncVisibleOutcome outcome) := by
  unfold syncVisibleOutcome
  split
  · split_ifs
    · exact .refl thread
    · exact sameReceived_addMessage rfl
  · exact .refl thread

theorem sameReceived_of_normalizePauseOutcome
    (h : thread.normalizePauseOutcome outcome = some thread') : thread.SameReceived thread' := by
  unfold normalizePauseOutcome at h
  split_ifs at h
  · exact sameReceived_of_transitionTo h
  · cases h
    exact .refl thread

theorem sameReceived_getD_transitionTo :
    thread.SameReceived ((thread.transitionTo state).getD thread) := by
  cases h : thread.transitionTo state with
  | none => exact .refl thread
  | some thread' => exact sameReceived_of_transitionTo h

theorem sameReceived_failedUnlessEnded : thread.SameReceived thread.failedUnlessEnded := by
  unfold failedUnlessEnded
  split_ifs
  · exact .refl thread
  · exact sameReceived_getD_transitionTo

theorem sameReceived_closed : thread.SameReceived thread.closed := by
  unfold closed
  split_ifs
  · exact sameReceived_getD_transitionTo
  · exact .refl thread

theorem sameReceived_withoutResolved {callId : Text} (h : OnlyUsersSpeak thread.messages) :
    thread.SameReceived (thread.withoutResolved injected callId) where
  id := rfl
  received := by
    refine received_filter h fun m hm => ?_
    simp [ThreadMessage.isResolvedActionResultMessage, ThreadMessage.isResolvedCallMessage, hm]
  users := fun h m hm => h m (List.mem_of_mem_filter hm)

theorem received_resumed (h : OnlyUsersSpeak thread.messages) :
    received (thread.resumed injected resolvedCallId).messages =
      received thread.messages ++ (injected.bind ThreadMessage.received).toList := by
  have hresolved : thread.SameReceived
      (resolvedCallId.elim thread (thread.withoutResolved injected)) := by
    cases resolvedCallId with
    | none => exact .refl thread
    | some callId => exact sameReceived_withoutResolved h
  unfold resumed
  cases injected with
  | none =>
    dsimp only [Option.elim_none, Option.bind_none, Option.toList_none]
    split_ifs <;> rw [List.append_nil] <;> exact hresolved.received
  | some m =>
    dsimp only [Option.elim_some, Option.bind_some]
    split_ifs <;> simp [addMessage, hresolved.received]

theorem onlyUsersSpeak_resumed (h : OnlyUsersSpeak thread.messages)
    (hm : ∀ m, injected = some m → m.received ≠ none → m.role = .user) :
    OnlyUsersSpeak (thread.resumed injected resolvedCallId).messages := by
  have hresolved : OnlyUsersSpeak
      (resolvedCallId.elim thread (thread.withoutResolved injected)).messages := by
    cases resolvedCallId with
    | none => exact h
    | some callId => exact (sameReceived_withoutResolved h).users h
  unfold resumed
  cases injected with
  | none =>
    dsimp only [Option.elim_none]
    split_ifs <;> exact hresolved
  | some m =>
    dsimp only [Option.elim_some]
    split_ifs <;> exact onlyUsersSpeak_addMessage hresolved (hm m rfl)

@[simp] theorem id_resumed : (thread.resumed injected resolvedCallId).id = thread.id := by
  unfold resumed
  cases injected <;> cases resolvedCallId <;> dsimp only [Option.elim] <;> split_ifs <;> rfl

theorem sameReceived_modify {i : Nat} {f : Text → Text} :
    thread.SameReceived { thread with
      messages := thread.messages.modify i fun m => { m with content := f m.content } } where
  id := rfl
  received := by
    suffices h : ∀ messages : List ThreadMessage, received (messages.modify i fun m =>
        { m with content := f m.content }) = received messages from h _
    intro messages
    induction messages generalizing i with
    | nil => cases i <;> rfl
    | cons m messages ih =>
      have hcons (m : ThreadMessage) (rest : List ThreadMessage) :
          received (m :: rest) = m.received.toList ++ received rest := by
        rw [← List.singleton_append, received_append, received_singleton]
      cases i with
      | zero => rw [List.modify_zero_cons, hcons, hcons]
      | succ i => rw [List.modify_succ_cons, hcons, hcons, ih]
  users := by
    intro h m hm
    obtain ⟨j, hj, rfl⟩ := List.getElem_of_mem hm
    have hj : j < thread.messages.length := by simpa using hj
    have hspoken := h thread.messages[j] (List.getElem_mem hj)
    rw [List.getElem_modify]
    split_ifs
    · exact hspoken
    · exact hspoken

theorem sameReceived_withPrompt {format : PromptFormat} {prompt : Option Text} :
    thread.SameReceived (thread.withPrompt format prompt) := by
  cases prompt with
  | none => exact .refl thread
  | some prompt =>
    simp only [withPrompt, Option.elim_some, upsertCodeactSystemPrompt]
    split
    · exact sameReceived_modify (f := fun text => format.refreshCodeactSystemPrompt text prompt)
    · split_ifs
      · exact .refl thread
      · refine ⟨rfl, rfl, fun h m hm hne => ?_⟩
        rcases List.mem_cons.mp hm with rfl | hm
        · exact absurd rfl hne
        · exact h m hm hne

end Thread

end Transcript

structure ThreadStore where
  entries : HashMap ThreadId Thread
  keyed : ∀ id thread, entries.lookup id = some thread → thread.id = id

namespace ThreadStore

def empty : ThreadStore := ⟨∅, nofun⟩

variable (store : ThreadStore)

def loadThread (id : ThreadId) : Option Thread := store.entries.lookup id

def saveThread (thread : Thread) : ThreadStore where
  entries := store.entries.insert thread.id thread
  keyed := by
    intro id thread' h
    rw [HashMap.lookup_insert] at h
    split_ifs at h with hid
    · cases h
      exact hid.symm
    · exact store.keyed id thread' h

theorem loadThread_saveThread (thread : Thread) (id : ThreadId) :
    (store.saveThread thread).loadThread id =
      if id = thread.id then some thread else store.loadThread id :=
  HashMap.lookup_insert ..

variable {store} in
theorem id_of_loadThread {id : ThreadId} {thread : Thread}
    (h : store.loadThread id = some thread) : thread.id = id :=
  store.keyed id thread h

end ThreadStore

inductive EntrySender where
  | user
  | agent (threadId : ThreadId)
  | system

structure ConversationEntry where
  sender : EntrySender
  content : Text
  originThreadId : Option ThreadId

namespace ConversationEntry

def user (content : Text) : ConversationEntry := ⟨.user, content, none⟩

def agent (threadId : ThreadId) (content : Text) : ConversationEntry :=
  ⟨.agent threadId, content, some threadId⟩

def systemForThread (threadId : ThreadId) (content : Text) : ConversationEntry :=
  ⟨.system, content, some threadId⟩

end ConversationEntry

structure Conversation where
  channel : Text
  userId : Text
  entries : List ConversationEntry
  activeThreads : List ThreadId
  locked : Bool

namespace Conversation

variable (conversation : Conversation)

def addEntry (entry : ConversationEntry) : Conversation :=
  { conversation with entries := conversation.entries ++ [entry] }

def trackThread (threadId : ThreadId) : Conversation :=
  if conversation.activeThreads.contains threadId then conversation
  else { conversation with activeThreads := conversation.activeThreads ++ [threadId] }

def untrackThread (threadId : ThreadId) : Conversation :=
  { conversation with activeThreads := conversation.activeThreads.filter fun id => id != threadId }

/-- A thread paused at a gate stays active. -/
def withOutcome (threadId : ThreadId) (outcome : ThreadOutcome) (gateName actionName : Text) :
    Conversation :=
  match outcome with
  | .completed none => conversation.untrackThread threadId
  | .completed (some text) =>
    (conversation.addEntry (.agent threadId text)).untrackThread threadId
  | .stopped =>
    (conversation.addEntry
      (.systemForThread threadId "Thread stopped".toList)).untrackThread threadId
  | .maxIterations =>
    (conversation.addEntry
      (.systemForThread threadId "Thread reached max iterations".toList)).untrackThread threadId
  | .failed error =>
    (conversation.addEntry
      (.systemForThread threadId ("Thread failed: ".toList ++ error))).untrackThread threadId
  | .gatePaused =>
    conversation.addEntry (.systemForThread threadId ("Gate '".toList ++ gateName ++
      "' paused execution of action: ".toList ++ actionName))

end Conversation

def buildHistoryFromEntries (entries : List ConversationEntry) : List ThreadMessage :=
  entries.filterMap fun entry =>
    match entry.sender with
    | .user => some (.user entry.content)
    | .agent _ => some (.assistant entry.content)
    | .system => none

theorem received_buildHistoryFromEntries (entries : List ConversationEntry) :
    ∀ m ∈ buildHistoryFromEntries entries, m.received = none := by
  intro m hm
  obtain ⟨entry, -, hentry⟩ := List.mem_filterMap.mp hm
  split at hentry <;> cases hentry <;> rfl

end IronClaw.Runtime
