import IronClaw.Runtime.Starts

/-!
# Messages of users

A message of a user goes into the mailbox of an execution, or into the transcript that a thread
starts with. What is in the mailbox when an execution has left its loop is lost.
-/

namespace IronClaw.Runtime

open Foundation (Text Json HashMap Pool Along run run_invariant)
open Missions (ThreadId)
open List (append_assoc append_nil mem_append mem_append_left mem_append_right mem_cons
  mem_singleton nodup_append pairwise_singleton)
open Option (elim_none map_eq_some_iff mem_toList)

def Runtime.unheard (s : Runtime) (e : ExecutionId) : List MessageId :=
  ((s.mailboxes.lookup e).getD []).filterMap ThreadSignal.received

def Task.unheard (s : Runtime) (t : Task) : List MessageId :=
  t.asExecution.elim [] fun x => s.unheard x.number

/-- The message is in the thread's transcript, or in a task's hand, or in its mailbox. -/
def IsWith (p : Pool Runtime Task) (n : MessageId) (id : ThreadId) : Prop :=
  (∃ stored, p.shared.threads.loadThread id = some stored ∧ n ∈ received stored.messages) ∨
    ∃ t ∈ p.tasks, ∃ thread, t.carries = some thread ∧ thread.id = id ∧
      n ∈ received thread.messages ++ t.unheard p.shared

/-- The message is with the thread, once, and no other; the stored transcript has it when all is at
rest. -/
structure DeliveredOnce (p : Pool Runtime Task) (n : MessageId) (id : ThreadId) : Prop where
  isWith : IsWith p n id
  only : ∀ id', IsWith p n id' → id' = id
  once : ∀ stored, p.shared.threads.loadThread id = some stored →
    (received stored.messages).count n ≤ 1
  settled : p.tasks = [] →
    ∃ stored, p.shared.threads.loadThread id = some stored ∧ n ∈ received stored.messages

/-- The execution of the thread that is in the table may still look into its mailbox. -/
def IsListening (p : Pool Runtime Task) (id : ThreadId) : Prop :=
  ∀ e, p.shared.running.lookup id = some e →
    ∃ x, Task.execution x ∈ p.tasks ∧ x.thread.id = id ∧ x.number = e ∧ x.stage.reads = true

/-- An execution leaves its loop with an empty mailbox, and gets messages only before that. -/
def Attentive (p : Pool Runtime Task) : Action → Prop
  | .call _ => True
  | .step i input =>
    match p.tasks[i]? with
    | some (.execution x) =>
      x.stage.reads = true → x.leaves input = true → p.shared.unheard x.number = []
    | some (.sendSignal _ id signal) => signal.received ≠ none → IsListening p id
    | _ => True

/-- A numbered message reaches one thread only; a stored one has reached its thread; an answer names
it. -/
structure Tracked (s : Runtime) : Prop where
  unique : ∀ n id id', .delivered n id ∈ s.history → .delivered n id' ∈ s.history → id = id'
  numbered : ∀ n id, .delivered n id ∈ s.history → n < s.nextMessage
  users : ∀ id stored, s.threads.loadThread id = some stored → OnlyUsersSpeak stored.messages
  nodup : ∀ id stored, s.threads.loadThread id = some stored → (received stored.messages).Nodup
  delivered : ∀ id stored, s.threads.loadThread id = some stored →
    ∀ n ∈ received stored.messages, .delivered n id ∈ s.history
  mail : ∀ e queue, s.mailboxes.lookup e = some queue →
    ∀ m, .injectMessage m ∈ queue → m.received ≠ none → m.role = .user
  answered : ∀ n id, .answered n id ∈ s.history → .delivered n id ∈ s.history

/-- A task's record and its mailbox have each message once, all that is stored, and none that has
not reached the thread. -/
structure Carried (s : Runtime) (t : Task) (thread : Thread) : Prop where
  users : OnlyUsersSpeak thread.messages
  nodup : (received thread.messages ++ t.unheard s).Nodup
  delivered : ∀ n ∈ received thread.messages ++ t.unheard s, .delivered n thread.id ∈ s.history
  stored : ∀ stored, s.threads.loadThread thread.id = some stored →
    received stored.messages ⊆ received thread.messages

def Task.isBacked : Task → Bool
  | startThread _ _ => true
  | execution x => x.stage.isStored
  | _ => false

/-- A message that a task bears has reached no thread, a promised one has; a saved record is stored,
a left mailbox empty. -/
structure Accounted (s : Runtime) (t : Task) : Prop where
  coherent : t.Coherent
  bears : ∀ n, t.bears = some n → n < s.nextMessage ∧ ∀ id, .delivered n id ∉ s.history
  promises : ∀ n id, t.promises = some (n, id) → .delivered n id ∈ s.history
  carries : ∀ thread, t.carries = some thread → Carried s t thread
  backed : t.isBacked = true → ∀ thread, t.carries = some thread →
    ∃ stored, s.threads.loadThread thread.id = some stored ∧
      received thread.messages ⊆ received stored.messages
  heard : ∀ x, t = .execution x → x.stage.reads = false → s.unheard x.number = []

def Apart (t u : Task) : Prop := ∀ n, t.bears = some n → u.bears ≠ some n

structure Delivering (p : Pool Runtime Task) : Prop where
  holds : Pool.Holds Tracked Accounted Apart p
  kept : ∀ n id, .delivered n id ∈ p.shared.history → IsWith p n id

section Delivering

variable {s s' : Runtime} {t t' u : Task} {ts : List Task} {front back : List Task}
  {p : Pool Runtime Task} {id : ThreadId} {thread thread' : Thread} {n : MessageId}

theorem Apart.symm (t u : Task) (h : Apart t u) : Apart u t := fun n hu ht => h n ht hu

theorem Apart.of_bears (h : Apart t u) (hbears : t'.bears = t.bears ∨ t'.bears = none) :
    Apart t' u := by
  intro n hn
  rcases hbears with heq | hnone
  · exact h n (heq ▸ hn)
  · rw [hnone] at hn
    cases hn

theorem unheard_of_mailboxes (h : s'.mailboxes = s.mailboxes) (t : Task) :
    t.unheard s' = t.unheard s := by
  simp only [Task.unheard, Runtime.unheard, h]

theorem unheard_subset (h : s'.mailboxes = s.mailboxes) (t : Task) :
    t.unheard s ⊆ t.unheard s' := by
  rw [unheard_of_mailboxes h]
  exact List.Subset.refl _

theorem Accounted.of_eq (h : Accounted s u) (hnext : s.nextMessage ≤ s'.nextMessage)
    (hdelivered : ∀ n id, .delivered n id ∈ s.history → .delivered n id ∈ s'.history)
    (hnew : ∀ n id, u.bears = some n → .delivered n id ∈ s'.history → .delivered n id ∈ s.history)
    (hrecord : ∀ thread, u.carries = some thread →
      s'.threads.loadThread thread.id = s.threads.loadThread thread.id)
    (hunheard : u.unheard s' = u.unheard s) : Accounted s' u where
  coherent := h.coherent
  bears := fun n hn => by
    obtain ⟨hlt, hnone⟩ := h.bears n hn
    exact ⟨hlt.trans_le hnext, fun id hid => hnone id (hnew n id hn hid)⟩
  promises := fun n id hn => hdelivered n id (h.promises n id hn)
  carries := fun thread hthread => by
    obtain ⟨husers, hnodup, hreached, hstored⟩ := h.carries thread hthread
    refine ⟨husers, by rwa [hunheard], fun n hn => ?_, ?_⟩
    · rw [hunheard] at hn
      exact hdelivered n _ (hreached n hn)
    · rwa [hrecord thread hthread]
  backed := fun hbacked thread hthread => by
    rw [hrecord thread hthread]
    exact h.backed hbacked thread hthread
  heard := by
    rintro x rfl hreads
    exact hunheard.trans (h.heard x rfl hreads)

theorem IsWith.of_step (h : IsWith ⟨s, front ++ t :: back⟩ n id)
    (hstored : ∀ id stored, s.threads.loadThread id = some stored →
      ∃ stored', s'.threads.loadThread id = some stored' ∧
        received stored.messages ⊆ received stored'.messages)
    (hunheard : ∀ u ∈ front ++ back, u.unheard s ⊆ u.unheard s')
    (hcarried : ∀ thread, t.carries = some thread → ∀ n,
      n ∈ received thread.messages ++ t.unheard s → IsWith ⟨s', front ++ ts ++ back⟩ n thread.id) :
    IsWith ⟨s', front ++ ts ++ back⟩ n id := by
  rcases h with ⟨stored, hload, hn⟩ | ⟨u, hu, thread, hthread, hid, hn⟩
  · obtain ⟨stored', hload', hsub⟩ := hstored id stored hload
    exact .inl ⟨stored', hload', hsub hn⟩
  · have hother : u ∈ front ++ back → IsWith ⟨s', front ++ ts ++ back⟩ n id := by
      intro hmem
      refine .inr ⟨u, ?_, thread, hthread, hid, ?_⟩
      · rcases mem_append.mp hmem with hmem | hmem
        · simp [hmem]
        · simp [hmem]
      · rcases mem_append.mp hn with hn | hn
        · exact mem_append_left _ hn
        · exact mem_append_right _ (hunheard u hmem hn)
    simp only [mem_append, mem_cons] at hu
    rcases hu with hu | rfl | hu
    · exact hother (mem_append_left _ hu)
    · rw [← hid]
      exact hcarried thread hthread n hn
    · exact hother (mem_append_right _ hu)

/-- **The rule for a step.** -/
theorem Delivering.replace (h : Delivering p) (htasks : p.tasks = front ++ t :: back)
    (hshared : Tracked s') (hown : ∀ t' ∈ ts, Accounted s' t')
    (hframe : ∀ u ∈ front ++ back, Accounted p.shared u → Apart t u → Accounted s' u)
    (hapart : ∀ u ∈ front ++ back, Apart t u → ∀ t' ∈ ts, Apart t' u)
    (hnew : ts.Pairwise Apart)
    (hstored : ∀ id stored, p.shared.threads.loadThread id = some stored →
      ∃ stored', s'.threads.loadThread id = some stored' ∧
        received stored.messages ⊆ received stored'.messages)
    (hunheard : ∀ u ∈ front ++ back, u.unheard p.shared ⊆ u.unheard s')
    (hcarried : ∀ thread, t.carries = some thread → ∀ n,
      n ∈ received thread.messages ++ t.unheard p.shared →
        IsWith ⟨s', front ++ ts ++ back⟩ n thread.id)
    (hreached : ∀ n id, .delivered n id ∈ s'.history → .delivered n id ∈ p.shared.history ∨
      IsWith ⟨s', front ++ ts ++ back⟩ n id) : Delivering ⟨s', front ++ ts ++ back⟩ where
  holds := h.holds.replace Apart.symm htasks hshared hown hframe hapart hnew
  kept := by
    intro n id hn
    rcases hreached n id hn with hold | hnew
    · have hwith := h.kept n id hold
      obtain ⟨s, tasks⟩ := p
      dsimp only at htasks
      subst htasks
      exact hwith.of_step hstored hunheard hcarried
    · exact hnew

/-- The same messages have reached the same threads, and no other ones are answered. -/
structure SameDelivered (s s' : Runtime) : Prop where
  delivered : ∀ n id, .delivered n id ∈ s'.history ↔ .delivered n id ∈ s.history
  answered : ∀ n id, .answered n id ∈ s'.history →
    .answered n id ∈ s.history ∨ .delivered n id ∈ s.history

namespace SameDelivered

theorem of_eq (h : s'.history = s.history) : SameDelivered s s' :=
  ⟨fun n id => by rw [h], fun n id hn => .inl (by rwa [h] at hn)⟩

theorem of_append {o : Occurrence} (h : s'.history = s.history ++ [o])
    (hdelivered : ∀ n id, o ≠ .delivered n id)
    (hanswered : ∀ n id, o = .answered n id → .delivered n id ∈ s.history) :
    SameDelivered s s' where
  delivered := fun n id => by
    rw [h, mem_append, mem_singleton]
    exact or_iff_left fun ho => hdelivered n id ho.symm
  answered := fun n id hn => by
    rw [h, mem_append, mem_singleton] at hn
    exact hn.imp_right fun ho => hanswered n id ho.symm

end SameDelivered

theorem Quiet.sameDelivered (h : Quiet s s') : SameDelivered s s' := by
  rcases h.history with heq | ⟨e, heq⟩
  · exact .of_eq heq
  · exact .of_append heq (fun _ _ => by simp) fun _ _ h => by cases h

theorem Tracked.of_same (h : Tracked s) (hsame : SameDelivered s s')
    (hthreads : s'.threads = s.threads) (hnext : s.nextMessage ≤ s'.nextMessage)
    (hmail : ∀ e queue, s'.mailboxes.lookup e = some queue →
      ∀ m, .injectMessage m ∈ queue → m.received ≠ none → m.role = .user) : Tracked s' where
  unique := fun n id id' hn hn' =>
    h.unique n id id' ((hsame.delivered n id).mp hn) ((hsame.delivered n id').mp hn')
  numbered := fun n id hn => (h.numbered n id ((hsame.delivered n id).mp hn)).trans_le hnext
  users := by rw [hthreads]; exact h.users
  nodup := by rw [hthreads]; exact h.nodup
  delivered := by
    rw [hthreads]
    exact fun id stored hload n hn => (hsame.delivered n id).mpr (h.delivered id stored hload n hn)
  mail := hmail
  answered := fun n id hn =>
    (hsame.delivered n id).mpr ((hsame.answered n id hn).elim (h.answered n id) fun h => h)

theorem Tracked.saveThread (h : Tracked s) (hcarried : Carried s t thread)
    (hsame : thread.SameReceived thread') : Tracked (s.saveThread thread') := by
  have hload (id : ThreadId) (stored : Thread)
      (hstored : (s.saveThread thread').threads.loadThread id = some stored) :
      (id = thread.id ∧ stored = thread') ∨ s.threads.loadThread id = some stored := by
    rw [Runtime.saveThread, ThreadStore.loadThread_saveThread] at hstored
    split_ifs at hstored with hid
    · cases hstored
      exact .inl ⟨hid.trans hsame.id, rfl⟩
    · exact .inr hstored
  refine ⟨h.unique, h.numbered, fun id stored hstored => ?_, fun id stored hstored => ?_,
    fun id stored hstored => ?_, h.mail, h.answered⟩ <;>
    rcases hload id stored hstored with ⟨rfl, rfl⟩ | hold
  · exact hsame.users hcarried.users
  · exact h.users id stored hold
  · rw [hsame.received]
    exact (nodup_append.mp hcarried.nodup).1
  · exact h.nodup id stored hold
  · intro n hn
    rw [hsame.received] at hn
    exact hcarried.delivered n (mem_append_left _ hn)
  · exact h.delivered id stored hold

theorem Delivering.replace_same (h : Delivering p) (htasks : p.tasks = front ++ t :: back)
    (hthreads : s'.threads = p.shared.threads) (hmailboxes : s'.mailboxes = p.shared.mailboxes)
    (hnext : s'.nextMessage = p.shared.nextMessage) (hsame : SameDelivered p.shared s')
    (hown : ∀ t' ∈ ts, Accounted s' t') (hbears : ∀ t' ∈ ts, t'.bears = t.bears ∨ t'.bears = none)
    (hnew : ts.Pairwise Apart)
    (hcarried : ∀ thread, t.carries = some thread → ∀ n,
      n ∈ received thread.messages ++ t.unheard p.shared →
        IsWith ⟨s', front ++ ts ++ back⟩ n thread.id) : Delivering ⟨s', front ++ ts ++ back⟩ := by
  refine h.replace htasks ?_ hown ?_ (fun u _ hapart t' ht' => hapart.of_bears (hbears t' ht')) hnew
    ?_ ?_ hcarried ?_
  · refine h.holds.shared.of_same hsame hthreads hnext.ge ?_
    rw [hmailboxes]
    exact h.holds.shared.mail
  · intro u _ haccounted _
    exact haccounted.of_eq hnext.ge (fun n id => (hsame.delivered n id).mpr)
      (fun n id _ => (hsame.delivered n id).mp) (fun _ _ => by rw [hthreads])
      (unheard_of_mailboxes hmailboxes u)
  · rw [hthreads]
    exact fun id stored hload => ⟨stored, hload, List.Subset.refl _⟩
  · exact fun u _ => unheard_subset hmailboxes u
  · exact fun n id hn => .inl ((hsame.delivered n id).mp hn)

theorem Delivering.replace_saved (h : Delivering p) (hx : Exclusive p)
    (htasks : p.tasks = front ++ t :: back) (hcarries : t.carries = some thread)
    (hsame : thread.SameReceived thread')
    (hown : ∀ t' ∈ ts, Accounted (p.shared.saveThread thread') t')
    (hbears : ∀ t' ∈ ts, t'.bears = t.bears ∨ t'.bears = none) (hnew : ts.Pairwise Apart)
    (hunheard : ∀ n ∈ t.unheard p.shared,
      IsWith ⟨p.shared.saveThread thread', front ++ ts ++ back⟩ n thread.id) :
    Delivering ⟨p.shared.saveThread thread', front ++ ts ++ back⟩ := by
  have haccounted := h.holds.tasks t (by simp [htasks])
  have hcarried := haccounted.carries thread hcarries
  have hload (id : ThreadId) : (p.shared.saveThread thread').threads.loadThread id =
      if id = thread.id then some thread' else p.shared.threads.loadThread id := by
    rw [← hsame.id]
    exact ThreadStore.loadThread_saveThread ..
  refine h.replace htasks (h.holds.shared.saveThread hcarried hsame) hown ?_
    (fun u _ hapart t' ht' => hapart.of_bears (hbears t' ht')) hnew ?_
    (fun u _ => List.Subset.refl _) ?_ fun n id hn => .inl hn
  · intro u hu huaccounted _
    have hcompatible := hx.holds.apart_of_mem Compatible.symm htasks hu
    refine huaccounted.of_eq le_rfl (fun _ _ h => h) (fun _ _ _ h => h)
      (fun thread₁ hthread₁ => ?_) rfl
    rw [hload, if_neg (hcompatible.id_ne hcarries hthread₁)]
  · intro id stored hstored
    rw [hload]
    split_ifs with hid
    · refine ⟨thread', rfl, ?_⟩
      rw [hsame.received]
      exact hcarried.stored stored (hid ▸ hstored)
    · exact ⟨stored, hstored, List.Subset.refl _⟩
  · intro thread₁ hthread₁ n hn
    rw [hcarries] at hthread₁
    cases hthread₁
    rcases mem_append.mp hn with hn | hn
    · refine .inl ⟨thread', ?_, by rwa [hsame.received]⟩
      rw [hload, if_pos rfl]
    · exact hunheard n hn

theorem accounted_of_none (hpromises : t.promises = none) (hcarries : t.carries = none)
    (hcoherent : t.Coherent)
    (hbears : ∀ n, t.bears = some n → n < s.nextMessage ∧ ∀ id, .delivered n id ∉ s.history) :
    Accounted s t where
  coherent := hcoherent
  bears := hbears
  promises := fun n id h => by simp [hpromises] at h
  carries := fun thread h => by simp [hcarries] at h
  backed := fun _ thread h => by simp [hcarries] at h
  heard := by
    rintro x rfl
    cases hcarries

theorem Task.IsPlain.carries (h : t.IsPlain) : t.carries = none := by
  cases hcarries : t.carries with
  | none => rfl
  | some thread =>
    rcases (Task.of_carries hcarries).2 with hprepares | hexecutes
    · rw [h.prepares] at hprepares
      cases hprepares
    · rw [Task.executes, h.asExecution] at hexecutes
      cases hexecutes

variable {origin : Origin}

theorem accounted_of_mem_answer (h : t ∈ origin.answer id)
    (hpromises : ∀ n, origin.message = some n → .delivered n id ∈ s.history) :
    Accounted s t ∧ t.bears = none := by
  cases origin with
  | direct => cases h
  | handling h' active =>
    rw [mem_singleton.mp h]
    refine ⟨⟨trivial, fun n hn => ?_, fun n id' hn => ?_, fun _ h => ?_, fun h => ?_, ?_⟩, rfl⟩
    · cases hn
    · cases hn
      exact hpromises _ rfl
    · cases h
    · cases h
    · rintro x ⟨⟩

theorem pairwise_answer (origin : Origin) (id : ThreadId) : (origin.answer id).Pairwise Apart := by
  cases origin with
  | direct => exact List.Pairwise.nil
  | handling h active => exact pairwise_singleton _ _

variable {m : Option MessageId}

theorem delivered_noteDelivered {id' : ThreadId} :
    .delivered n id' ∈ (s.noteDelivered m id).history ↔
      .delivered n id' ∈ s.history ∨ m = some n ∧ id' = id := by
  cases m with
  | none => simp [Runtime.noteDelivered]
  | some m =>
    simp only [Runtime.noteDelivered, Option.elim_some, Runtime.note, mem_append,
      mem_singleton, Occurrence.delivered.injEq, Option.some.injEq]
    rw [eq_comm (a := n)]

theorem answered_noteDelivered {id' : ThreadId} :
    .answered n id' ∈ (s.noteDelivered m id).history ↔ .answered n id' ∈ s.history := by
  cases m with
  | none => exact Iff.rfl
  | some m => simp [Runtime.noteDelivered, Runtime.note]

@[simp] theorem nextMessage_noteDelivered : (s.noteDelivered m id).nextMessage = s.nextMessage := by
  cases m <;> rfl

theorem saveThread_noteDelivered :
    (s.saveThread thread).noteDelivered m id = (s.noteDelivered m id).saveThread thread := by
  cases m <;> rfl

theorem Tracked.noteDelivered (h : Tracked s)
    (hm : ∀ n, m = some n → n < s.nextMessage ∧ ∀ id, .delivered n id ∉ s.history) :
    Tracked (s.noteDelivered m id) where
  unique := by
    intro n id₁ id₂ h₁ h₂
    rw [delivered_noteDelivered] at h₁ h₂
    rcases h₁ with h₁ | ⟨hn, rfl⟩ <;> rcases h₂ with h₂ | ⟨hn', rfl⟩
    · exact h.unique n id₁ id₂ h₁ h₂
    · exact absurd h₁ ((hm n hn').2 id₁)
    · exact absurd h₂ ((hm n hn).2 id₂)
    · rfl
  numbered := by
    intro n id' hn
    rw [nextMessage_noteDelivered]
    rcases delivered_noteDelivered.mp hn with hn | ⟨hn, -⟩
    · exact h.numbered n id' hn
    · exact (hm n hn).1
  users := by rw [noteDelivered_threads]; exact h.users
  nodup := by rw [noteDelivered_threads]; exact h.nodup
  delivered := by
    rw [noteDelivered_threads]
    exact fun id' stored hload n hn =>
      delivered_noteDelivered.mpr (.inl (h.delivered id' stored hload n hn))
  mail := by rw [noteDelivered_mailboxes]; exact h.mail
  answered := fun n id' hn =>
    delivered_noteDelivered.mpr (.inl (h.answered n id' (answered_noteDelivered.mp hn)))

theorem Accounted.noteDelivered (h : Accounted s u) (hapart : Apart t u) (id : ThreadId) :
    Accounted (s.noteDelivered t.bears id) u := by
  refine h.of_eq (by simp) (fun n id' hn => delivered_noteDelivered.mpr (.inl hn)) ?_
    (fun _ _ => by simp) (unheard_of_mailboxes (by simp) u)
  intro n id' hn hdelivered
  refine (delivered_noteDelivered.mp hdelivered).resolve_right fun h' => ?_
  exact hapart n h'.1 hn

variable {queue : List ThreadSignal}

theorem unheard_insert {e : ExecutionId} (h : u.number ≠ some e) :
    u.unheard { s with mailboxes := s.mailboxes.insert e queue } = u.unheard s := by
  cases u with
  | execution x =>
    have hne : x.number ≠ e := fun h' => h (congrArg some h')
    simp [Task.unheard, Task.asExecution, Runtime.unheard, HashMap.lookup_insert, hne]
  | _ => rfl

theorem unheard_eq {x : Execution} (h : s.mailboxes.lookup x.number = some queue) :
    (Task.execution x).unheard s = queue.filterMap ThreadSignal.received := by
  simp [Task.unheard, Task.asExecution, Runtime.unheard, h]

theorem received_resumed_eq (call : ResumeCall) (h : OnlyUsersSpeak thread.messages) :
    received (thread.resumed call.injectedMessage call.resolvedCallId).messages =
      received thread.messages ++ (call.injectedMessage.bind ThreadMessage.received).toList :=
  Thread.received_resumed h

theorem delivering_of_loaded {call : ResumeCall} (h : Delivering p)
    (htasks : p.tasks = front ++ .loadResumed call :: back)
    (hload : p.shared.threads.loadThread call.id = some thread) :
    Delivering ⟨p.shared.noteDelivered (call.injectedMessage.bind ThreadMessage.received) call.id,
      front ++ [.saveResumed call.origin
        (thread.resumed call.injectedMessage call.resolvedCallId)] ++ back⟩ := by
  have haccounted : Accounted p.shared (.loadResumed call) := h.holds.tasks _ (by simp [htasks])
  have hid : (thread.resumed call.injectedMessage call.resolvedCallId).id = call.id :=
    Thread.id_resumed.trans (ThreadStore.id_of_loadThread hload)
  have husers := h.holds.shared.users _ _ hload
  have hreceived := received_resumed_eq call husers
  refine h.replace htasks (h.holds.shared.noteDelivered haccounted.bears) ?_ ?_ ?_
    (pairwise_singleton _ _) ?_ ?_ (fun _ h => by cases h) ?_
  · intro t' ht'
    rw [mem_singleton.mp ht']
    refine ⟨trivial, (fun n h => by cases h), fun n id hn => ?_, ?_, (fun h => by cases h),
      (fun x h => by cases h)⟩
    · obtain ⟨hmessage, rfl⟩ : call.origin.message = some n ∧ call.id = id := by
        obtain ⟨n', hn', heq⟩ := map_eq_some_iff.mp hn
        cases heq
        exact ⟨hn', hid.symm⟩
      exact delivered_noteDelivered.mpr (.inr ⟨haccounted.coherent.1.trans hmessage, rfl⟩)
    · rintro _ ⟨⟩
      refine ⟨Thread.onlyUsersSpeak_resumed husers haccounted.coherent.2, ?_, ?_, ?_⟩
      · rw [hreceived, show Task.unheard _ (.saveResumed _ _) = [] from rfl, append_nil]
        refine nodup_append.mpr ⟨h.holds.shared.nodup _ _ hload, ?_, ?_⟩
        · cases call.injectedMessage.bind ThreadMessage.received <;> simp
        · rintro n hn _ hn' rfl
          have hdelivered := h.holds.shared.delivered _ _ hload n hn
          exact (haccounted.bears n (mem_toList.mp hn')).2 _ hdelivered
      · rw [hreceived, hid]
        intro n hn
        rw [delivered_noteDelivered]
        simp only [Task.unheard, Task.asExecution, elim_none, append_nil] at hn
        rcases mem_append.mp hn with hn | hn
        · exact .inl (h.holds.shared.delivered _ _ hload n hn)
        · exact .inr ⟨mem_toList.mp hn, rfl⟩
      · intro stored hstored
        rw [noteDelivered_threads, hid, hload] at hstored
        cases hstored
        rw [hreceived]
        exact List.subset_append_left _ _
  · exact fun u _ hu hapart => hu.noteDelivered hapart _
  · intro u _ _ t' ht' n hn
    rw [mem_singleton.mp ht'] at hn
    cases hn
  · rw [noteDelivered_threads]
    exact fun id stored hstored => ⟨stored, hstored, List.Subset.refl _⟩
  · exact fun u _ => unheard_subset (by simp) u
  · intro n id hn
    refine (delivered_noteDelivered.mp hn).imp_right fun ⟨hn, hid'⟩ => ?_
    refine .inr ⟨.saveResumed call.origin
      (thread.resumed call.injectedMessage call.resolvedCallId), by simp, _, rfl,
        hid.trans hid'.symm, ?_⟩
    rw [hreceived]
    simp [hn]

theorem delivering_of_spawned {call : SpawnCall} (h : Delivering p) (hx : Exclusive p)
    (htasks : p.tasks = front ++ .spawnThread call :: back)
    (hfresh : p.shared.threads.loadThread id = none)
    (hprepares : ∀ u ∈ front ++ back, u.prepares ≠ some id) :
    Delivering ⟨(p.shared.saveThread (call.thread id)).noteDelivered call.goal.received id,
      front ++ [.startThread call.origin (call.thread id)] ++ back⟩ := by
  have haccounted : Accounted p.shared (.spawnThread call) := h.holds.tasks _ (by simp [htasks])
  obtain ⟨hgoal, huser, hinitial⟩ := haccounted.coherent
  -- the thread begins with the goal as the only message that it has received
  have hreceived : received (call.thread id).messages = call.goal.received.toList := by
    rw [SpawnCall.thread, received_append, received_eq_nil hinitial, received_singleton,
      List.nil_append]
  have hcarried : Carried (p.shared.noteDelivered call.goal.received id)
      (.startThread call.origin (call.thread id)) (call.thread id) := by
    refine ⟨?_, ?_, ?_, ?_⟩
    · intro m hm hne
      rcases mem_append.mp hm with hm | hm
      · exact absurd (hinitial m hm) hne
      · rw [mem_singleton.mp hm]
        exact huser
    · rw [hreceived]
      cases call.goal.received <;> simp [Task.unheard, Task.asExecution]
    · intro n hn
      rw [hreceived] at hn
      simp only [Task.unheard, Task.asExecution, elim_none, append_nil,
        mem_toList] at hn
      exact delivered_noteDelivered.mpr (.inr ⟨hn, rfl⟩)
    · intro stored hstored
      rw [noteDelivered_threads] at hstored
      exact absurd (hfresh.symm.trans hstored) (by simp)
  have hload : ((p.shared.noteDelivered call.goal.received id).saveThread
      (call.thread id)).threads.loadThread id = some (call.thread id) := by
    rw [Runtime.saveThread, ThreadStore.loadThread_saveThread]
    exact if_pos rfl
  have hloadOther (id' : ThreadId) (hne : id' ≠ id) :
      ((p.shared.noteDelivered call.goal.received id).saveThread
        (call.thread id)).threads.loadThread id' = p.shared.threads.loadThread id' := by
    rw [Runtime.saveThread, ThreadStore.loadThread_saveThread, noteDelivered_threads]
    exact if_neg hne
  have hexecuted := hx.not_executed_of_fresh htasks hfresh
  rw [saveThread_noteDelivered]
  refine h.replace htasks
    ((h.holds.shared.noteDelivered haccounted.bears).saveThread hcarried (.refl _)) ?_ ?_ ?_
    (pairwise_singleton _ _) ?_ ?_ (fun _ h => by cases h) ?_
  · intro t' ht'
    rw [mem_singleton.mp ht']
    refine ⟨trivial, (fun n h => by cases h), fun n id' hn => ?_, ?_, ?_, (fun x h => by cases h)⟩
    · obtain ⟨n', hn', heq⟩ := map_eq_some_iff.mp hn
      cases heq
      exact delivered_noteDelivered.mpr (.inr ⟨hgoal.trans hn', rfl⟩)
    · rintro _ ⟨⟩
      refine ⟨hcarried.users, hcarried.nodup, hcarried.delivered, fun stored hstored => ?_⟩
      have heq : stored = call.thread id := Option.some.inj (hstored.symm.trans hload)
      rw [heq]
      exact List.Subset.refl _
    · rintro - _ ⟨⟩
      exact ⟨_, hload, List.Subset.refl _⟩
  · intro u hu huaccounted hapart
    have hnoted := huaccounted.noteDelivered hapart id
    refine hnoted.of_eq le_rfl (fun _ _ h => h) (fun _ _ _ h => h) (fun thread hthread => ?_) rfl
    rw [hloadOther, noteDelivered_threads]
    -- nobody else carries the new thread
    rintro hid
    rcases (Task.of_carries hthread).2 with h' | h'
    · exact hprepares u hu (h'.trans (congrArg some hid))
    · exact hexecuted u hu (h'.trans (congrArg some hid))
  · intro u _ _ t' ht' n hn
    rw [mem_singleton.mp ht'] at hn
    cases hn
  · intro id' stored hstored
    refine ⟨stored, ?_, List.Subset.refl _⟩
    rw [hloadOther, hstored]
    rintro rfl
    rw [hfresh] at hstored
    cases hstored
  · exact fun u _ => unheard_subset (by simp [Runtime.saveThread]) u
  · intro n id' hn
    rcases delivered_noteDelivered.mp hn with hn | ⟨hn, hid'⟩
    · exact .inl hn
    · rw [hid']
      exact .inr (.inl ⟨_, hload, by rw [hreceived]; simp [hn]⟩)

theorem delivering_of_started (h : Delivering p) (hx : Exclusive p)
    (htasks : p.tasks = front ++ .startThread origin thread :: back) :
    Delivering ⟨launch p.shared thread, front ++ [.register origin thread.id p.shared.nextExecution,
      .execution ⟨p.shared.nextExecution, thread, .begin⟩] ++ back⟩ := by
  have haccounted : Accounted p.shared (.startThread origin thread) :=
    h.holds.tasks _ (by simp [htasks])
  obtain ⟨husers, hnodup, hdelivered, hstored⟩ := haccounted.carries thread rfl
  have hsame : SameDelivered p.shared (launch p.shared thread) :=
    .of_append rfl (fun _ _ => by simp) fun _ _ h => by cases h
  -- the new execution has a number of its own, and an empty mailbox under it
  have hempty : (Task.execution ⟨p.shared.nextExecution, thread, .begin⟩).unheard
      (launch p.shared thread) = [] := by
    simp [Task.unheard, Task.asExecution, Runtime.unheard, launch]
  have hkept (u : Task) (hu : u ∈ front ++ back) :
      u.unheard (launch p.shared thread) = u.unheard p.shared := by
    refine unheard_insert (s := { p.shared with
      nextExecution := p.shared.nextExecution + 1
      history := p.shared.history ++ [.started thread.id] }) fun hnumber => ?_
    cases u with
    | execution x =>
      have hlt := (hx.holds.tasks (.execution x) (Pool.mem_of_split htasks hu)).2.2.2.1
      exact hlt.ne (Option.some.inj hnumber)
    | _ => cases hnumber
  refine h.replace htasks ?_ ?_ ?_ ?_ ?_ ?_ ?_ ?_ ?_
  · refine h.holds.shared.of_same hsame rfl le_rfl fun e queue hqueue => ?_
    simp only [launch, HashMap.lookup_insert] at hqueue
    split_ifs at hqueue
    · cases hqueue
      exact fun m hm => by cases hm
    · exact h.holds.shared.mail e queue hqueue
  · intro t' ht'
    rcases mem_cons.mp ht' with rfl | ht'
    · refine ⟨trivial, (fun n h => by cases h), fun n id hn => ?_, (fun _ h => by cases h),
        (fun h => by cases h), (fun x h => by cases h)⟩
      exact (hsame.delivered n id).mpr (haccounted.promises n id hn)
    · rw [mem_singleton.mp ht']
      refine ⟨trivial, (fun n h => by cases h), (fun n id h => by cases h), ?_,
        (fun h => by cases h), ?_⟩
      · rintro _ ⟨⟩
        refine ⟨husers, ?_, ?_, hstored⟩
        · rw [hempty]
          simpa [Task.unheard, Task.asExecution] using hnodup
        · rw [hempty]
          exact fun n hn => (hsame.delivered n _).mpr
            (hdelivered n (by simpa [Task.unheard, Task.asExecution] using hn))
      · rintro x ⟨⟩ hreads
        cases hreads
  · intro u hu huaccounted _
    exact huaccounted.of_eq le_rfl (fun n id => (hsame.delivered n id).mpr)
      (fun n id _ => (hsame.delivered n id).mp) (fun _ _ => rfl) (hkept u hu)
  · intro u _ _ t' ht' n hn
    rcases mem_cons.mp ht' with rfl | ht'
    · cases hn
    · rw [mem_singleton.mp ht'] at hn
      cases hn
  · refine List.pairwise_pair.mpr fun n hn => ?_
    cases hn
  · exact fun id stored hload => ⟨stored, hload, List.Subset.refl _⟩
  · intro u hu
    rw [hkept u hu]
    exact List.Subset.refl _
  · rintro _ ⟨⟩ n hn
    refine .inr ⟨.execution ⟨p.shared.nextExecution, thread, .begin⟩, by simp, thread, rfl, rfl, ?_⟩
    rw [hempty]
    simpa [Task.unheard, Task.asExecution] using hn
  · exact fun n id hn => .inl ((hsame.delivered n id).mp hn)

theorem unheard_of_number {x x' : Execution} (hnumber : x'.number = x.number)
    (hmailboxes : s'.mailboxes = s.mailboxes) :
    (Task.execution x').unheard s' = (Task.execution x).unheard s := by
  change s'.unheard x'.number = s.unheard x.number
  rw [hnumber, Runtime.unheard, hmailboxes, Runtime.unheard]

theorem Carried.of_same (h : Carried s (.execution x) x.thread)
    (hsame : x.thread.SameReceived x'.thread) (hnumber : x'.number = x.number)
    (hdelivered : ∀ n id, .delivered n id ∈ s.history → .delivered n id ∈ s'.history)
    (hmailboxes : s'.mailboxes = s.mailboxes)
    (hstored : ∀ stored, s'.threads.loadThread x'.thread.id = some stored →
      received stored.messages ⊆ received x'.thread.messages) :
    Carried s' (.execution x') x'.thread := by
  have hunheard := unheard_of_number hnumber hmailboxes
  refine ⟨hsame.users h.users, ?_, ?_, hstored⟩
  · rw [hunheard, hsame.received]
    exact h.nodup
  · rw [hunheard, hsame.received, hsame.id]
    exact fun n hn => hdelivered n _ (h.delivered n hn)

theorem delivering_of_worked (h : Delivering p) (htasks : p.tasks = front ++ .execution x :: back)
    (hs : Quiet p.shared s') (hnumber : x'.number = x.number)
    (hsame : x.thread.SameReceived x'.thread)
    (hheard : x'.stage.reads = false → p.shared.unheard x.number = [])
    (hstored : x'.stage.isStored = true → x.stage.isStored = true ∧ x'.thread = x.thread) :
    Delivering ⟨s', front ++ [.execution x'] ++ back⟩ := by
  have haccounted : Accounted p.shared (.execution x) := h.holds.tasks _ (by simp [htasks])
  have hcarried := haccounted.carries x.thread rfl
  refine h.replace_same htasks hs.threads hs.mailboxes hs.nextMessage hs.sameDelivered ?_ ?_
    (pairwise_singleton _ _) ?_
  · intro t' ht'
    rw [mem_singleton.mp ht']
    refine ⟨trivial, (fun n h => by cases h), (fun n id h => by cases h), ?_, ?_, ?_⟩
    · rintro _ ⟨⟩
      refine hcarried.of_same hsame hnumber (fun n id => (hs.sameDelivered.delivered n id).mpr)
        hs.mailboxes ?_
      rw [hs.threads, hsame.id, hsame.received]
      exact hcarried.stored
    · rintro hbacked _ ⟨⟩
      obtain ⟨hold, hthread⟩ := hstored hbacked
      rw [hs.threads, hthread]
      exact haccounted.backed hold _ rfl
    · rintro _ ⟨⟩ hreads
      rw [hnumber, Runtime.unheard, hs.mailboxes]
      exact hheard hreads
  · intro t' ht'
    rw [mem_singleton.mp ht']
    exact .inl rfl
  · rintro _ ⟨⟩ n hn
    refine .inr ⟨.execution x', by simp, x'.thread, rfl, hsame.id, ?_⟩
    rw [hsame.received, unheard_of_number hnumber hs.mailboxes]
    exact hn

theorem delivering_of_stored (h : Delivering p) (hx : Exclusive p)
    (htasks : p.tasks = front ++ .execution x :: back) (hnumber : x'.number = x.number)
    (hsame : x.thread.SameReceived x'.thread) (hreads : x'.stage.reads = x.stage.reads) :
    Delivering ⟨p.shared.saveThread x'.thread, front ++ [.execution x'] ++ back⟩ := by
  have haccounted : Accounted p.shared (.execution x) := h.holds.tasks _ (by simp [htasks])
  have hcarried := haccounted.carries x.thread rfl
  have hload : (p.shared.saveThread x'.thread).threads.loadThread x'.thread.id =
    some x'.thread := by
    simp [Runtime.saveThread, ThreadStore.loadThread_saveThread]
  refine h.replace_saved hx htasks rfl hsame ?_ ?_ (pairwise_singleton _ _) ?_
  · intro t' ht'
    rw [mem_singleton.mp ht']
    refine ⟨trivial, (fun n h => by cases h), (fun n id h => by cases h), ?_, ?_, ?_⟩
    · rintro _ ⟨⟩
      refine hcarried.of_same hsame hnumber (fun _ _ h => h) rfl fun stored hstored => ?_
      rw [hload] at hstored
      cases hstored
      exact List.Subset.refl _
    · rintro - _ ⟨⟩
      exact ⟨_, hload, List.Subset.refl _⟩
    · rintro _ ⟨⟩ hleft
      have hheard := haccounted.heard x rfl (hreads ▸ hleft)
      rwa [hnumber]
  · intro t' ht'
    rw [mem_singleton.mp ht']
    exact .inl rfl
  · intro n hn
    refine .inr ⟨.execution x', by simp, x'.thread, rfl, hsame.id, mem_append_right _ ?_⟩
    have hmailboxes : (p.shared.saveThread x'.thread).mailboxes = p.shared.mailboxes := rfl
    rw [← unheard_of_number hnumber hmailboxes] at hn
    exact hn

theorem Exclusive.number_ne {x : Execution} (hx : Exclusive p)
    (htasks : p.tasks = front ++ .execution x :: back) :
    ∀ u ∈ front ++ back, u.number ≠ some x.number := fun _ hu =>
  (hx.holds.apart_of_mem Compatible.symm htasks hu).number _ rfl

theorem Thread.hear_eq (thread : Thread) (signal : ThreadSignal) :
    (thread.hear signal).id = thread.id ∧
      received (thread.hear signal).messages = received thread.messages ++
        signal.received.toList := by
  cases signal <;> simp [Thread.hear, Thread.addMessage, ThreadSignal.received]

theorem delivering_of_heard {x : Execution} {signal : ThreadSignal} {rest : List ThreadSignal}
    (h : Delivering p) (hx : Exclusive p) (htasks : p.tasks = front ++ .execution x :: back)
    (hstage : x.stage = .loop)
    (hmail : p.shared.mailboxes.lookup x.number = some (signal :: rest)) :
    Delivering ⟨{ p.shared with mailboxes := p.shared.mailboxes.insert x.number rest },
      front ++ [.execution { x with thread := x.thread.hear signal }] ++ back⟩ := by
  have haccounted : Accounted p.shared (.execution x) := h.holds.tasks _ (by simp [htasks])
  obtain ⟨husers, hnodup, hdelivered, hstored⟩ := haccounted.carries x.thread rfl
  obtain ⟨hid, hreceived⟩ := x.thread.hear_eq signal
  have hrest : (Task.execution { x with thread := x.thread.hear signal }).unheard
      { p.shared with mailboxes := p.shared.mailboxes.insert x.number rest } =
        rest.filterMap ThreadSignal.received :=
    unheard_eq (AList.lookup_insert _)
  -- the message that is taken out comes where the transcript ends
  have htaken : received (x.thread.hear signal).messages ++ rest.filterMap ThreadSignal.received =
      received x.thread.messages ++ (Task.execution x).unheard p.shared := by
    rw [unheard_eq hmail, hreceived, append_assoc]
    cases hsignal : signal.received <;> simp [hsignal]
  have hspoken := h.holds.shared.mail _ _ hmail
  refine h.replace htasks ?_ ?_ ?_ ?_ (pairwise_singleton _ _) ?_ ?_ ?_ ?_
  · refine h.holds.shared.of_same (.of_eq rfl) rfl le_rfl fun e queue hqueue => ?_
    rw [HashMap.lookup_insert] at hqueue
    split_ifs at hqueue
    · cases hqueue
      exact fun m hm => hspoken m (List.mem_cons_of_mem _ hm)
    · exact h.holds.shared.mail e queue hqueue
  · intro t' ht'
    rw [mem_singleton.mp ht']
    refine ⟨trivial, (fun n h => by cases h), (fun n id h => by cases h), ?_, ?_, ?_⟩
    · rintro _ ⟨⟩
      refine ⟨?_, ?_, ?_, ?_⟩
      · cases signal with
        | injectMessage m =>
          exact Thread.onlyUsersSpeak_addMessage husers (hspoken m List.mem_cons_self)
        | _ => exact husers
      · rw [hrest, htaken]
        exact hnodup
      · rw [hrest, htaken, hid]
        exact hdelivered
      · rw [hid, hreceived]
        exact fun stored hload => List.subset_append_of_subset_left _ (hstored stored hload)
    · intro hbacked
      rw [Task.isBacked, hstage] at hbacked
      cases hbacked
    · rintro _ ⟨⟩ hreads
      rw [hstage] at hreads
      cases hreads
  · intro u hu huaccounted _
    exact huaccounted.of_eq le_rfl (fun _ _ h => h) (fun _ _ _ h => h) (fun _ _ => rfl)
      (unheard_insert (hx.number_ne htasks u hu))
  · intro u _ _ t' ht' n hn
    rw [mem_singleton.mp ht'] at hn
    cases hn
  · exact fun id stored hload => ⟨stored, hload, List.Subset.refl _⟩
  · intro u hu
    rw [unheard_insert (hx.number_ne htasks u hu)]
    exact List.Subset.refl _
  · rintro _ ⟨⟩ n hn
    refine .inr ⟨.execution { x with thread := x.thread.hear signal }, by simp, _, rfl, hid, ?_⟩
    rw [hrest, htaken]
    exact hn
  · exact fun n id hn => .inl hn

theorem delivering_of_ended {x : Execution} (h : Delivering p) (hx : Exclusive p)
    (htasks : p.tasks = front ++ .execution x :: back) (hstage : x.stage = .unregister) :
    Delivering ⟨{ p.shared with
      running := p.shared.running.erase x.thread.id
      mailboxes := p.shared.mailboxes.erase x.number
      history := p.shared.history ++ [.finished x.thread.id x.thread.state] },
      front ++ [] ++ back⟩ := by
  have haccounted : Accounted p.shared (.execution x) := h.holds.tasks _ (by simp [htasks])
  have hkept (u : Task) (hu : u ∈ front ++ back) : u.unheard { p.shared with
      running := p.shared.running.erase x.thread.id
      mailboxes := p.shared.mailboxes.erase x.number
      history := p.shared.history ++ [.finished x.thread.id x.thread.state] } =
        u.unheard p.shared := by
    have hne := hx.number_ne htasks u hu
    cases u with
    | execution x' =>
      have hne : x'.number ≠ x.number := fun h => hne (congrArg some h)
      simp [Task.unheard, Task.asExecution, Runtime.unheard, HashMap.lookup_erase, hne]
    | _ => rfl
  refine h.replace htasks ?_ (fun t' ht' => by cases ht') ?_ (fun _ _ _ t' ht' => by cases ht')
    List.Pairwise.nil ?_ ?_ ?_ ?_
  · refine h.holds.shared.of_same ?_ rfl le_rfl fun e queue hqueue => ?_
    · exact .of_append rfl (fun _ _ => by simp) fun _ _ h => by cases h
    · rw [HashMap.lookup_erase] at hqueue
      split_ifs at hqueue
      exact h.holds.shared.mail e queue hqueue
  · intro u hu huaccounted _
    exact huaccounted.of_eq le_rfl (fun n id hn => by simp [hn])
      (fun n id _ hn => by simpa using hn) (fun _ _ => rfl) (hkept u hu)
  · exact fun id stored hload => ⟨stored, hload, List.Subset.refl _⟩
  · intro u hu
    rw [hkept u hu]
    exact List.Subset.refl _
  · rintro _ ⟨⟩ n hn
    have hempty : (Task.execution x).unheard p.shared = [] :=
      haccounted.heard x rfl (by rw [hstage]; rfl)
    obtain ⟨stored, hload, hsub⟩ :=
      haccounted.backed (by rw [Task.isBacked, hstage]; rfl) x.thread rfl
    rw [hempty, append_nil] at hn
    exact .inl ⟨stored, hload, hsub hn⟩
  · exact fun n id hn => .inl (by simpa using hn)

theorem unheard_send {number : ExecutionId} {s₁ : Runtime} (signal : ThreadSignal)
    (hmail : s.mailboxes.lookup number = some queue)
    (h : s₁.mailboxes = s.mailboxes.insert number (queue ++ [signal])) (u : Task) :
    u.unheard s₁ = u.unheard s ++
      (if u.number = some number then signal.received.toList else []) := by
  cases u with
  | execution x =>
    change s₁.unheard x.number = s.unheard x.number ++ if some x.number = some number then _ else _
    rw [Runtime.unheard, h, HashMap.lookup_insert]
    by_cases hx : x.number = number
    · rw [if_pos hx, if_pos (congrArg some hx), hx, Runtime.unheard, hmail]
      cases hsignal : signal.received <;> simp [hsignal]
    · rw [if_neg hx, if_neg fun h => hx (Option.some.inj h), append_nil, Runtime.unheard]
  | _ => rfl

theorem delivering_of_sent {signal : ThreadSignal} {number : ExecutionId} (h : Delivering p)
    (hx : Exclusive p) (htasks : p.tasks = front ++ .sendSignal origin id signal :: back)
    (hlistening : signal.received ≠ none → IsListening p id)
    (hrunning : p.shared.running.lookup id = some number)
    (hmail : p.shared.mailboxes.lookup number = some queue) :
    Delivering ⟨{ p.shared with
        mailboxes := p.shared.mailboxes.insert number (queue ++ [signal]) }
      |>.noteDelivered signal.received id, front ++ origin.answer id ++ back⟩ := by
  have haccounted : Accounted p.shared (.sendSignal origin id signal) :=
    h.holds.tasks _ (by simp [htasks])
  have hunheard (u : Task) : u.unheard ({ p.shared with
      mailboxes := p.shared.mailboxes.insert number (queue ++ [signal]) }
        |>.noteDelivered signal.received id) =
      u.unheard p.shared ++ (if u.number = some number then signal.received.toList else []) :=
    unheard_send signal hmail (by simp) u
  -- who gets the message is the execution that still reads
  have hreader (n : MessageId) (hn : signal.received = some n) :
      ∃ x, Task.execution x ∈ front ++ back ∧ x.thread.id = id ∧ x.number = number ∧
        x.stage.reads = true := by
    obtain ⟨x, hmem, hid, hnumber, hreads⟩ := hlistening (by simp [hn]) number hrunning
    refine ⟨x, ?_, hid, hnumber, hreads⟩
    rw [htasks] at hmem
    simpa using hmem
  have hsame (u : Task) (hu : u ∈ front ++ back) (x : Execution)
      (hx' : Task.execution x ∈ front ++ back) (hnumber : u.number = some x.number) :
      u = .execution x := by
    by_contra hne
    have hapart := hx.holds.apart
    rw [htasks] at hapart
    have hsub : (front ++ back).Pairwise Compatible :=
      hapart.sublist ((List.Sublist.refl front).append (List.sublist_cons_self _ back))
    have : Std.Symm Compatible := ⟨Compatible.symm⟩
    exact (hsub.forall hu hx' hne).number _ hnumber rfl
  refine h.replace htasks ?_ ?_ ?_ ?_ (pairwise_answer origin id) ?_ ?_ (fun _ h => by cases h) ?_
  · refine Tracked.noteDelivered ?_ haccounted.bears
    refine h.holds.shared.of_same (.of_eq rfl) rfl le_rfl fun e queue' hqueue m hm hne => ?_
    rw [HashMap.lookup_insert] at hqueue
    split_ifs at hqueue
    · cases hqueue
      rcases mem_append.mp hm with hm | hm
      · exact h.holds.shared.mail _ _ hmail m hm hne
      · exact haccounted.coherent.2 m (mem_singleton.mp hm).symm hne
    · exact h.holds.shared.mail e queue' hqueue m hm hne
  · intro t' ht'
    refine (accounted_of_mem_answer ht' fun n hn => ?_).1
    exact delivered_noteDelivered.mpr (.inr ⟨haccounted.coherent.1.trans hn, rfl⟩)
  · intro u hu huaccounted hapart
    have hdelivered (n : MessageId) (id' : ThreadId) (hn : .delivered n id' ∈ p.shared.history) :
        .delivered n id' ∈ (({ p.shared with
          mailboxes := p.shared.mailboxes.insert number (queue ++ [signal]) } : Runtime)
          |>.noteDelivered signal.received id).history :=
      delivered_noteDelivered.mpr (.inl hn)
    refine ⟨huaccounted.coherent, fun n hn => ?_, fun n id' hn => hdelivered n id'
      (huaccounted.promises n id' hn), fun thread hthread => ?_,
        fun hbacked thread hthread => ?_, ?_⟩
    · obtain ⟨hlt, hnone⟩ := huaccounted.bears n hn
      refine ⟨by simpa using hlt, fun id' hn' => ?_⟩
      rcases delivered_noteDelivered.mp hn' with hold | ⟨hnew, -⟩
      · exact hnone id' hold
      · exact hapart n hnew hn
    · obtain ⟨husers, hnodup, hreached, hstored⟩ := huaccounted.carries thread hthread
      refine ⟨husers, ?_, ?_, by simpa using hstored⟩
      · rw [hunheard, ← append_assoc]
        refine nodup_append.mpr ⟨hnodup, ?_, ?_⟩
        · split_ifs
          · cases signal.received <;> simp
          · exact List.nodup_nil
        · rintro n hn _ hn' rfl
          split_ifs at hn'
          · exact (haccounted.bears n (mem_toList.mp hn')).2 _ (hreached n hn)
          · cases hn'
      · rw [hunheard, ← append_assoc]
        intro n hn
        rcases mem_append.mp hn with hn | hn
        · exact hdelivered n _ (hreached n hn)
        · split_ifs at hn with hnumber
          · have hsignal := mem_toList.mp hn
            obtain ⟨x, hmem, hid, hxnumber, -⟩ := hreader n hsignal
            have heq := hsame u hu x hmem (by rw [hnumber, hxnumber])
            rw [heq] at hthread
            cases hthread
            exact delivered_noteDelivered.mpr (.inr ⟨hsignal, hid⟩)
          · cases hn
    · simpa using huaccounted.backed hbacked thread hthread
    · rintro x rfl hreads
      have hempty := huaccounted.heard x rfl hreads
      have hgrown := hunheard (.execution x)
      change Runtime.unheard _ x.number = Runtime.unheard _ x.number ++ _ at hgrown
      rw [hgrown, hempty, List.nil_append]
      split_ifs with hnumber
      · cases hsignal : signal.received with
        | none => rfl
        | some n =>
          obtain ⟨x', hmem, -, hxnumber, hreads'⟩ := hreader n hsignal
          have heq := hsame _ hu x' hmem (by rw [hnumber, hxnumber])
          cases heq
          rw [hreads] at hreads'
          cases hreads'
      · rfl
  · intro u _ _ t' ht' n hn
    have hnone := (accounted_of_mem_answer (s := p.shared.noteDelivered signal.received id) ht'
      fun n hn => delivered_noteDelivered.mpr (.inr ⟨haccounted.coherent.1.trans hn, rfl⟩)).2
    rw [hnone] at hn
    cases hn
  · exact fun id' stored hload => ⟨stored, by simpa using hload, List.Subset.refl _⟩
  · intro u _
    rw [hunheard]
    exact List.subset_append_left _ _
  · intro n id' hn
    refine (delivered_noteDelivered.mp hn).imp_right fun ⟨hsignal, hid'⟩ => ?_
    obtain ⟨x, hmem, hid, hxnumber, -⟩ := hreader n hsignal
    refine .inr ⟨.execution x, ?_, x.thread, rfl, hid.trans hid'.symm, mem_append_right _ ?_⟩
    · rcases mem_append.mp hmem with hmem | hmem
      · simp [hmem]
      · simp [hmem]
    · have hnumber : (Task.execution x).number = some number := congrArg some hxnumber
      rw [hunheard, if_pos hnumber]
      simp [hsignal]

theorem delivering_of_patching {h' : Handling} {userTimezone : Text} {metadata : HashMap Text Json}
    (h : Delivering p) (htasks : p.tasks = front ++ .loadMetadata h' id userTimezone :: back)
    (hload : p.shared.threads.loadThread id = some thread) :
    Delivering ⟨p.shared,
      front ++ [.saveMetadata h' { thread with metadata := metadata }] ++ back⟩ := by
  have haccounted : Accounted p.shared (.loadMetadata h' id userTimezone) :=
    h.holds.tasks _ (by simp [htasks])
  have hid := ThreadStore.id_of_loadThread hload
  refine h.replace_same htasks rfl rfl rfl (.of_eq rfl) ?_ ?_ (pairwise_singleton _ _)
    (fun _ h => by cases h)
  · intro t' ht'
    rw [mem_singleton.mp ht']
    refine ⟨trivial, haccounted.bears, (fun n id h => by cases h), ?_, (fun h => by cases h),
      (fun x h => by cases h)⟩
    rintro _ ⟨⟩
    refine ⟨h.holds.shared.users id thread hload, ?_, ?_, ?_⟩
    · simpa [Task.unheard, Task.asExecution] using h.holds.shared.nodup _ _ hload
    · intro n hn
      rw [hid]
      exact h.holds.shared.delivered _ _ hload n
        (by simpa [Task.unheard, Task.asExecution] using hn)
    · intro stored hstored
      rw [hid, hload] at hstored
      cases hstored
      exact List.Subset.refl _
  · intro t' ht'
    rw [mem_singleton.mp ht']
    exact .inl rfl

theorem delivering_of_locked {h' : Handling} {ids : List ThreadId}
    {conversations : HashMap ConversationId Conversation} {conversationId : ConversationId}
    {content userId : Text} {userTimezone : Option Text} (h : Delivering p)
    (htasks : p.tasks = front ++ .handleUserMessage conversationId content userId userTimezone ::
      back)
    (hmessage : h'.message = p.shared.nextMessage) :
    Delivering ⟨{ p.shared with
      conversations := conversations
      nextMessage := p.shared.nextMessage + 1 }, front ++ [h'.search ids] ++ back⟩ := by
  obtain ⟨hplain, hbears, hcoherent⟩ := isPlain_search h' ids
  refine h.replace htasks ?_ ?_ ?_ ?_ (pairwise_singleton _ _) ?_ ?_ (fun _ h => by cases h) ?_
  · exact h.holds.shared.of_same (.of_eq rfl) rfl (Nat.le_succ _) h.holds.shared.mail
  · intro t' ht'
    rw [mem_singleton.mp ht']
    refine accounted_of_none hplain.promises hplain.carries hcoherent fun n hn => ?_
    rw [hbears, hmessage] at hn
    cases hn
    refine ⟨Nat.lt_succ_self _, fun id hdelivered => ?_⟩
    exact (h.holds.shared.numbered _ id hdelivered).ne rfl
  · intro u _ huaccounted _
    exact huaccounted.of_eq (Nat.le_succ _) (fun _ _ h => h) (fun _ _ _ h => h) (fun _ _ => rfl) rfl
  · intro u hu _ t' ht' n hn hu'
    rw [mem_singleton.mp ht', hbears, hmessage] at hn
    cases hn
    have hmem : u ∈ p.tasks := Pool.mem_of_split htasks hu
    exact (((h.holds.tasks u hmem).bears _ hu').1).ne rfl
  · exact fun id stored hload => ⟨stored, hload, List.Subset.refl _⟩
  · exact fun u _ => List.Subset.refl _
  · exact fun n id hn => .inl hn

theorem delivering_of_moves {i : Nat} {input : Input} (h : Delivering p) (hx : Exclusive p)
    (htasks : p.tasks = front ++ t :: back) (hi : front.length = i)
    (ho : Orderly p (.step i input)) (ha : Attentive p (.step i input))
    (hmoves : Moves input p.shared t s' ts) : Delivering ⟨s', front ++ ts ++ back⟩ := by
  have hget : p.tasks[i]? = some t := by simp [htasks, ← hi]
  have haccounted : Accounted p.shared t := h.holds.tasks t (by simp [htasks])
  have hothers : p.others i = front ++ back := Pool.others_eq htasks hi
  -- the tasks that a quiet step leaves have nothing in hand
  have hplain {u : Task} (hplain : u.IsPlain) (hcoherent : u.Coherent)
      (hbears : u.bears = t.bears ∨ u.bears = none) : Accounted p.shared u := by
    refine accounted_of_none hplain.promises hplain.carries hcoherent fun n hn => ?_
    rcases hbears with heq | hnone
    · exact haccounted.bears n (heq ▸ hn)
    · rw [hnone] at hn
      cases hn
  cases hmoves with
  | quiet next hs hregistering hexecution hrecord hnext hcoherent =>
    have hown (u : Task) (hu : u ∈ next) : Accounted s' u := by
      have hold := hplain (hnext u hu).1 (hcoherent haccounted.coherent u hu) (hnext u hu).2
      exact hold.of_eq hs.nextMessage.ge (fun n id => (hs.sameDelivered.delivered n id).mpr)
        (fun n id _ => (hs.sameDelivered.delivered n id).mp) (fun _ _ => by rw [hs.threads])
        (unheard_of_mailboxes hs.mailboxes u)
    refine h.replace_same htasks hs.threads hs.mailboxes hs.nextMessage hs.sameDelivered
      (fun t' ht' => hown t' (mem_toList.mp ht'))
      (fun t' ht' => (hnext t' (mem_toList.mp ht')).2) ?_ ?_
    · cases next with
      | none => exact List.Pairwise.nil
      | some u => exact pairwise_singleton _ _
    · intro thread hthread n hn
      obtain ⟨origin, rfl⟩ := hrecord thread hthread
      obtain ⟨stored, hload, hsub⟩ := haccounted.backed rfl thread hthread
      refine .inl ⟨stored, by rwa [hs.threads], hsub ?_⟩
      simpa [Task.unheard, Task.asExecution] using hn
  | @checked call hfree =>
    refine h.replace_same htasks rfl rfl rfl (.of_eq rfl) ?_ ?_ (pairwise_singleton _ _)
      (fun _ h => by cases h)
    · intro t' ht'
      rw [mem_singleton.mp ht']
      exact accounted_of_none rfl rfl haccounted.coherent haccounted.bears
    · intro t' ht'
      rw [mem_singleton.mp ht']
      exact .inl rfl
  | loaded hload hstate => exact delivering_of_loaded h htasks hload
  | @saved origin thread =>
    have hcarried := haccounted.carries thread rfl
    have hload : (p.shared.saveThread thread).threads.loadThread thread.id = some thread := by
      simp [Runtime.saveThread, ThreadStore.loadThread_saveThread]
    refine h.replace_saved hx htasks rfl (.refl thread) ?_ ?_ (pairwise_singleton _ _)
      fun n hn => by cases hn
    · intro t' ht'
      rw [mem_singleton.mp ht']
      refine ⟨trivial, (fun n h => by cases h), haccounted.promises, ?_, ?_,
        (fun x h => by cases h)⟩
      · rintro _ ⟨⟩
        refine ⟨hcarried.users, hcarried.nodup, hcarried.delivered, fun stored hstored => ?_⟩
        rw [hload] at hstored
        cases hstored
        exact List.Subset.refl _
      · rintro - _ ⟨⟩
        exact ⟨_, hload, List.Subset.refl _⟩
    · intro t' ht'
      rw [mem_singleton.mp ht']
      exact .inl rfl
  | spawned hinput hfresh =>
    subst hinput
    simp only [Orderly, hget, hothers] at ho
    exact delivering_of_spawned h hx htasks hfresh ho
  | started => exact delivering_of_started h hx htasks
  | @registered origin id number =>
    have hanswer (t' : Task) (ht' : t' ∈ origin.answer id) :=
      accounted_of_mem_answer (s := p.shared) ht' fun n hn =>
        haccounted.promises n id (congrArg (Option.map fun n => (n, id)) hn)
    refine h.replace_same htasks rfl rfl rfl (.of_eq rfl) (fun t' ht' => ?_)
      (fun t' ht' => .inr (hanswer t' ht').2) (pairwise_answer origin id) (fun _ h => by cases h)
    exact (hanswer t' ht').1.of_eq le_rfl (fun _ _ h => h) (fun _ _ _ h => h) (fun _ _ => rfl) rfl
  | @worked x x' _ hs hnumber hsame hreads hleaves hstored =>
    simp only [Attentive, hget] at ha
    refine delivering_of_worked h htasks hs hnumber hsame (fun hleft => ?_) hstored
    cases hx' : x.stage.reads with
    | false => exact haccounted.heard x rfl hx'
    | true =>
      refine ha hx' ((hleaves hx').resolve_left fun h => ?_)
      rw [hleft] at h
      cases h
  | heard hstage hmail => exact delivering_of_heard h hx htasks hstage hmail
  | stored x' hnumber hsame hreads => exact delivering_of_stored h hx htasks hnumber hsame hreads
  | ended hstage => exact delivering_of_ended h hx htasks hstage
  | sent hrunning hmail =>
    simp only [Attentive, hget] at ha
    exact delivering_of_sent h hx htasks ha hrunning hmail
  | @lost origin id signal number hrunning hmail =>
    simp only [Attentive, hget] at ha
    have hanswer (t' : Task) (ht' : t' ∈ origin.answer id) :=
      accounted_of_mem_answer (s := p.shared) ht' fun n hn => by
        obtain ⟨x, hmem, -, hnumber, -⟩ :=
          ha (by rw [haccounted.coherent.1, hn]; simp) number hrunning
        have hlive := (hx.holds.tasks _ hmem).2.2.1
        rw [hnumber, Runtime.isLive, hmail] at hlive
        cases hlive
    exact h.replace_same htasks rfl rfl rfl (.of_eq rfl) (fun t' ht' => (hanswer t' ht').1)
      (fun t' ht' => .inr (hanswer t' ht').2) (pairwise_answer origin id) (fun _ h => by cases h)
  | taken hrunning =>
    refine h.replace_same htasks rfl rfl rfl (.of_eq rfl) ?_ ?_ (pairwise_singleton _ _)
      (fun _ h => by cases h)
    · intro t' ht'
      rw [mem_singleton.mp ht']
      exact accounted_of_none rfl rfl trivial fun n h => by cases h
    · intro t' ht'
      rw [mem_singleton.mp ht']
      exact .inr rfl
  | swept =>
    exact h.replace_same htasks rfl rfl rfl (.of_eq rfl) (fun t' ht' => by cases ht')
      (fun t' ht' => by cases ht') List.Pairwise.nil (fun _ h => by cases h)
  | locked hmessage => exact delivering_of_locked h htasks hmessage
  | patching hload => exact delivering_of_patching h htasks hload
  | @patched h' thread =>
    obtain ⟨hresume, hbears, hcoherent⟩ := isPlain_resume h' thread.id
    refine h.replace_saved hx htasks rfl (.refl thread) ?_ ?_ (pairwise_singleton _ _)
      fun n hn => by cases hn
    · intro t' ht'
      rw [mem_singleton.mp ht']
      exact accounted_of_none hresume.promises hresume.carries hcoherent haccounted.bears
    · intro t' ht'
      rw [mem_singleton.mp ht']
      exact .inl hbears
  | @answered h' active id conversations =>
    refine h.replace_same htasks rfl rfl rfl ?_ (fun t' ht' => by cases ht')
      (fun t' ht' => by cases ht') List.Pairwise.nil (fun _ h => by cases h)
    refine .of_append rfl (fun _ _ => by simp) fun n id' hn => ?_
    cases hn
    exact haccounted.promises _ _ rfl

theorem delivering_start (h : Delivering p) (call : Call) : Delivering (p.start call.task) where
  holds := by
    have hbears : call.task.bears = none := by
      cases call with
      | resumeThread id userId injectedMessage resolvedCallId => cases injectedMessage <;> rfl
      | _ => rfl
    refine h.holds.start (accounted_of_none ?_ ?_ ?_ ?_) fun u _ n _ hn => ?_
    · cases call <;> rfl
    · cases call <;> rfl
    · cases call with
      | resumeThread id userId injectedMessage resolvedCallId =>
        refine ⟨hbears, ?_⟩
        rintro m hm hne
        obtain ⟨m', -, rfl⟩ := map_eq_some_iff.mp hm
        exact absurd rfl hne
      | injectMessage id userId message => exact ⟨rfl, fun hne => absurd rfl hne⟩
      | spawnThread goal threadType userId initialMessages initialMetadata =>
        refine ⟨rfl, rfl, fun m hm => ?_⟩
        obtain ⟨m', -, rfl⟩ := List.mem_map.mp hm
        rfl
      | _ => trivial
    · intro n hn
      rw [hbears] at hn
      cases hn
    · rw [hbears] at hn
      cases hn
  kept := by
    intro n id hn
    rcases h.kept n id hn with hstored | ⟨u, hu, hcarried⟩
    · exact .inl hstored
    · exact .inr ⟨u, mem_append_left _ hu, hcarried⟩

structure AtRest (p : Pool Runtime Task) : Prop where
  tasks : p.tasks = []
  history : p.shared.history = []
  mailboxes : p.shared.mailboxes = ∅
  received : ∀ id stored, p.shared.threads.loadThread id = some stored →
    ∀ m ∈ stored.messages, m.received = none

theorem AtRest.delivering (h : AtRest p) : Delivering p := by
  obtain ⟨s, tasks⟩ := p
  obtain ⟨rfl, hhistory, hmailboxes, hreceived⟩ := h
  dsimp only at hhistory hmailboxes hreceived
  refine ⟨.empty ?_, fun n id hn => ?_⟩
  · refine ⟨?_, ?_, ?_, ?_, ?_, ?_, ?_⟩
    · intro n id id' hn
      rw [hhistory] at hn
      cases hn
    · intro n id hn
      rw [hhistory] at hn
      cases hn
    · exact fun id stored hload m hm hne => absurd (hreceived id stored hload m hm) hne
    · intro id stored hload
      rw [received_eq_nil (hreceived id stored hload)]
      exact List.nodup_nil
    · intro id stored hload n hn
      rw [received_eq_nil (hreceived id stored hload)] at hn
      cases hn
    · intro e queue hqueue
      rw [hmailboxes] at hqueue
      cases hqueue
    · intro n id hn
      rw [hhistory] at hn
      cases hn
  · dsimp only at hn
    rw [hhistory] at hn
    cases hn

theorem Delivering.of_isWith (h : Delivering p) (hn : IsWith p n id) :
    .delivered n id ∈ p.shared.history := by
  rcases hn with ⟨stored, hload, hn⟩ | ⟨t, ht, thread, hthread, rfl, hn⟩
  · exact h.holds.shared.delivered id stored hload n hn
  · exact ((h.holds.tasks t ht).carries thread hthread).delivered n hn

theorem Delivering.deliveredOnce (h : Delivering p) (hn : .answered n id ∈ p.shared.history) :
    DeliveredOnce p n id := by
  have hdelivered := h.holds.shared.answered n id hn
  have hwith := h.kept n id hdelivered
  refine ⟨hwith, fun id' hwith' => ?_, fun stored hload => ?_, fun htasks => ?_⟩
  · exact h.holds.shared.unique n id' id (h.of_isWith hwith') hdelivered
  · exact List.nodup_iff_count_le_one.mp (h.holds.shared.nodup id stored hload) n
  · rcases hwith with hstored | ⟨t, ht, -⟩
    · exact hstored
    · rw [htasks] at ht
      cases ht

/-- **No message is lost**: in an orderly and attentive run, answered messages are with the thread
named, and no other. -/
theorem deliveredOnce_of_attentive {config : RuntimeConfig} {p₀ : Pool Runtime Task}
    {actions : List Action} (h₀ : AtRest p₀) (ho : Along (step config) Orderly p₀ actions)
    (ha : Along (step config) Attentive p₀ actions)
    (hr : run (step config) p₀ actions = some p) (n : MessageId) (id : ThreadId)
    (hn : .answered n id ∈ p.shared.history) : DeliveredOnce p n id := by
  have h : Exclusive p ∧ Delivering p := by
    refine run_invariant (I := fun p => Exclusive p ∧ Delivering p) (fun p a p' h hc hstep => ?_)
      ⟨exclusive_of_rest h₀.tasks h₀.history, h₀.delivering⟩ (ho.and ha) hr
    refine ⟨exclusive_of_step h.1 hc.1 hstep, ?_⟩
    cases a with
    | call call =>
      cases hstep
      exact delivering_start h.2 call
    | step i input =>
      obtain ⟨front, t, back, s', ts, htasks, hi, hnext, rfl⟩ := Pool.advance_eq_some_iff.mp hstep
      exact delivering_of_moves h.2 h.1 htasks hi hc.1 hc.2 (moves_of_next hnext)
  exact h.2.deliveredOnce hn

end Delivering

def chatRuntime : Runtime :=
  { sampleRuntime with
    threads := ThreadStore.empty
    conversations := (∅ : HashMap ConversationId Conversation).insert 1
      ⟨['w'], ['u'], [], [], false⟩ }

def sayTwice : List Action :=
  [.call (.handleUserMessage 1 ['a'] ['u'] none), .step 0 .proceed, .step 0 (.fresh 1),
    .step 0 .proceed, .step 0 .proceed, .step 0 .proceed, .step 0 (.prompt none),
    .call (.handleUserMessage 1 ['b'] ['u'] none), .step 1 .proceed, .step 1 .proceed,
    .step 1 .proceed, .step 1 .proceed, .step 1 .proceed]

def complete : List Action :=
  [.step 0 (.transitionTo .completed), .step 0 (.finish (.completed none)), .step 0 .proceed,
    .step 0 .proceed, .step 0 .proceed, .step 0 .proceed]

theorem atRest_chatRuntime : AtRest ⟨chatRuntime, []⟩ :=
  ⟨rfl, rfl, rfl, fun id stored h => by cases h⟩

/-- A thread that looks into its mailbox before its end has the second message. -/
theorem delivered_of_last_look :
    ∃ p, run (step sampleConfig) ⟨chatRuntime, []⟩ (sayTwice ++ .step 0 .checkSignals :: complete) =
      some p ∧ DeliveredOnce p 1 1 := by
  have hrun : run (step sampleConfig) ⟨chatRuntime, []⟩
      (sayTwice ++ .step 0 .checkSignals :: complete) = some _ := rfl
  refine ⟨_, hrun, deliveredOnce_of_attentive atRest_chatRuntime ?_ ?_ hrun 1 1 ?_⟩
  · refine .of_step rfl trivial (.of_step rfl trivial (.of_step rfl (fun u hu => by cases hu) ?_))
    repeat refine .of_step rfl trivial ?_
    trivial
  · iterate 6 refine .of_step rfl trivial ?_
    refine .of_step rfl (fun _ h => by cases h) ?_
    iterate 4 refine .of_step rfl trivial ?_
    refine .of_step rfl (fun _ e he => ⟨_, List.mem_cons_self, rfl, Option.some.inj he, rfl⟩) ?_
    refine .of_step rfl trivial (.of_step rfl (fun _ h => by cases h) ?_)
    refine .of_step rfl (fun _ h => by cases h) (.of_step rfl (fun _ _ => rfl) ?_)
    iterate 4 refine .of_step rfl (fun h => by cases h) ?_
    trivial
  · exact List.mem_of_getElem? (i := 4) rfl

/-- **A message is lost.** The execution does not look into its mailbox again before it ends. -/
theorem message_lost :
    ∃ p, run (step sampleConfig) ⟨chatRuntime, []⟩ (sayTwice ++ complete) = some p ∧
      .answered 1 1 ∈ p.shared.history ∧ ¬ DeliveredOnce p 1 1 := by
  refine ⟨_, rfl, List.mem_of_getElem? (i := 4) rfl, fun h => ?_⟩
  obtain ⟨stored, hload, hn⟩ := h.settled rfl
  cases hload
  exact absurd hn (by decide)

end IronClaw.Runtime
