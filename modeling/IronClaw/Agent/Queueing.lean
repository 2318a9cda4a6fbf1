import Mathlib.Data.List.Perm.Basic
import Mathlib.Data.List.Range
import IronClaw.Agent.Turns

/-!
# Queued messages

A queued message should enter one turn, in order, unless it is discarded. Messages are put back when
their handling ends without a response, also when they had entered a turn; a resumed turn does not
look at the queue; and messages behind a command become its arguments.
-/

namespace IronClaw.Agent

open Foundation (Along Pool Text run)
open Llm (ChatMessage)
open List (append_assoc append_nil cons_ne_nil filterMap_append map_append mem_append
  mem_append_left mem_append_right mem_cons_self mem_map mem_map_of_mem mem_singleton nil_append)

namespace Ledger

/-- The accepted messages: those handled, those in hands, and those in the queue. -/
def parts (l : Ledger) : List Part :=
  l.handled.flatMap Handled.parts ++ (l.hands.flatten ++ l.queue.flatten)

/-- Each accepted message not discarded has one place, in order, and its text. Commands stand alone.
-/
structure Sound (l : Ledger) : Prop where
  order : l.parts.map Part.index =
    (List.range l.accepted.length).filter fun k => !l.discarded.contains k
  texts : ∀ part ∈ l.parts, l.accepted[part.index]? = some part.text
  entered : ∀ h ∈ l.handled, h.turn.isSome = true → h.text = merged h.parts
  alone : ∀ h ∈ l.handled, h.turn = none → h.parts.length = 1
  nonempty : ∀ ps ∈ l.hands ++ l.queue, ps ≠ []
  discarded : ∀ k ∈ l.discarded, k < l.accepted.length

variable {l : Ledger} {input : Input} {text : Text} {turn : TurnId} {ps : List Part}

theorem Sound.nodup (h : l.Sound) : (l.parts.map Part.index).Nodup := by
  rw [h.order]
  exact List.nodup_range.filter _

theorem Sound.lt (h : l.Sound) {part : Part} (hpart : part ∈ l.parts) :
    part.index < l.accepted.length := by
  have hmem : part.index ∈ l.parts.map Part.index := mem_map_of_mem hpart
  rw [h.order] at hmem
  exact List.mem_range.mp (List.mem_filter.mp hmem).1

theorem Sound.accept (h : l.Sound) {l' : Ledger} (text : Text)
    (haccepted : l'.accepted = l.accepted ++ [text])
    (hparts : l'.parts = l.parts ++ [⟨l.accepted.length, text⟩])
    (hdiscarded : l'.discarded = l.discarded)
    (hentered : ∀ e ∈ l'.handled, e ∈ l.handled ∨
      e.turn.isSome = true ∧ e.parts = [⟨l.accepted.length, text⟩] ∧ e.text = text)
    (hnonempty : ∀ ps ∈ l'.hands ++ l'.queue, ps ≠ []) : l'.Sound where
  order := by
    have hnew : l.accepted.length ∉ l.discarded := fun hmem =>
      Nat.lt_irrefl _ (h.discarded _ hmem)
    rw [hparts, haccepted, hdiscarded, List.length_append, List.length_singleton, List.range_succ,
      List.filter_append, ← h.order]
    simp [hnew]
  texts := by
    intro part hpart
    rw [hparts] at hpart
    rw [haccepted]
    rcases mem_append.mp hpart with hold | hnew
    · rw [List.getElem?_append_left (h.lt hold), h.texts part hold]
    · rw [mem_singleton.mp hnew]
      simp
  entered := by
    intro e he hturn
    rcases hentered e he with hold | ⟨-, hparts', htext⟩
    · exact h.entered e hold hturn
    · rw [hparts', htext]
      simp [merged, Text.joinWith, List.intercalate]
  alone := by
    intro e he hturn
    rcases hentered e he with hold | ⟨hsome, -, -⟩
    · exact h.alone e hold hturn
    · rw [hturn] at hsome
      cases hsome
  nonempty := hnonempty
  discarded := by
    intro k hk
    rw [hdiscarded] at hk
    rw [haccepted, List.length_append]
    exact Nat.lt_add_right _ (h.discarded k hk)

theorem Sound.move (h : l.Sound) {l' : Ledger} (haccepted : l'.accepted = l.accepted)
    (hparts : l'.parts = l.parts) (hdiscarded : l'.discarded = l.discarded)
    (hentered : ∀ e ∈ l'.handled, e ∈ l.handled ∨
      (e.turn.isSome = true → e.text = merged e.parts) ∧ (e.turn = none → e.parts.length = 1))
    (hnonempty : ∀ ps ∈ l'.hands ++ l'.queue, ps ≠ []) : l'.Sound where
  order := by rw [hparts, haccepted, hdiscarded, h.order]
  texts := by
    rw [hparts, haccepted]
    exact h.texts
  entered := fun e he hturn =>
    (hentered e he).elim (fun hold => h.entered e hold hturn) fun hnew => hnew.1 hturn
  alone := fun e he hturn =>
    (hentered e he).elim (fun hold => h.alone e hold hturn) fun hnew => hnew.2 hturn
  nonempty := hnonempty
  discarded := by
    rw [hdiscarded, haccepted]
    exact h.discarded

theorem Sound.enqueue (h : l.Sound) (hfresh : input.drained = none) : (l.enqueue input).Sound := by
  rw [Ledger.enqueue, hfresh]
  refine h.accept input.content rfl ?_ rfl (fun e he => .inl he) ?_
  · simp [parts, Ledger.accept]
  · intro ps hps
    rcases mem_append.mp hps with hold | hnew
    · exact h.nonempty ps (mem_append_left _ hold)
    · rcases mem_append.mp hnew with hold | hnew
      · exact h.nonempty ps (mem_append_right _ hold)
      · rw [mem_singleton.mp hnew]
        exact cons_ne_nil _ _

theorem Sound.enter_fresh (h : l.Sound) (hfresh : input.drained = none) (hhands : l.hands = [])
    (hqueue : l.queue = []) : (l.enter input text turn).Sound := by
  rw [Ledger.enter, hfresh]
  refine h.accept text rfl ?_ rfl ?_ h.nonempty
  · simp [parts, Ledger.accept, hhands, hqueue]
  · intro e he
    rcases mem_append.mp he with hold | hnew
    · exact .inl hold
    · rw [mem_singleton.mp hnew]
      exact .inr ⟨rfl, rfl, rfl⟩

theorem Sound.handle (h : l.Sound) (hhead : l.hands.head? = some ps) {turn : Option TurnId}
    (hentered : turn.isSome = true → text = merged ps) (halone : turn = none → ps.length = 1) :
    Sound { l with handled := l.handled ++ [⟨ps, text, turn⟩], hands := l.hands.erase ps } := by
  obtain ⟨rest, hrest⟩ : ∃ rest, l.hands = ps :: rest := by
    cases hhands : l.hands with
    | nil =>
      rw [hhands] at hhead
      cases hhead
    | cons first rest =>
      rw [hhands] at hhead
      cases hhead
      exact ⟨rest, rfl⟩
  refine h.move rfl ?_ rfl ?_ ?_
  · simp [parts, hrest]
  · intro e he
    rcases mem_append.mp he with hold | hnew
    · exact .inl hold
    · rw [mem_singleton.mp hnew]
      exact .inr ⟨hentered, halone⟩
  · intro qs hqs
    apply h.nonempty qs
    rcases mem_append.mp hqs with hhands | hqueue
    · exact mem_append_left _ (List.mem_of_mem_erase hhands)
    · exact mem_append_right _ hqueue

theorem Sound.drain (h : l.Sound) (hqueue : l.queue ≠ []) : l.drain.Sound := by
  refine h.move rfl ?_ rfl (fun e he => .inl he) ?_
  · simp [parts, Ledger.drain]
  · intro ps hps
    simp only [Ledger.drain, append_nil, mem_append, mem_singleton] at hps
    rcases hps with hold | rfl
    · exact h.nonempty ps (mem_append_left _ hold)
    · intro hflat
      obtain ⟨qs, hqs⟩ := List.exists_mem_of_ne_nil _ hqueue
      exact h.nonempty qs (mem_append_right _ hqs) (List.flatten_eq_nil_iff.mp hflat qs hqs)

theorem Sound.erase_last (h : l.Sound) {front : List (List Part)}
    (hhands : l.hands = front ++ [ps]) : l.hands.erase ps = front := by
  have hnot : ps ∉ front := by
    intro hmem
    have hps : ps ≠ [] := h.nonempty ps (mem_append_left _ (by rw [hhands]; simp))
    obtain ⟨part, hpart⟩ := List.exists_mem_of_ne_nil _ hps
    -- a message that is held twice would have two places in the line
    have hnodup : ((front.flatten ++ ps).map Part.index).Nodup := by
      refine h.nodup.sublist (List.Sublist.map _ ?_)
      rw [parts, hhands, List.flatten_append, List.flatten_singleton]
      exact (List.sublist_append_left _ _).trans (List.sublist_append_right _ _)
    rw [map_append] at hnodup
    exact (List.disjoint_of_nodup_append hnodup)
      (mem_map_of_mem (List.mem_flatten_of_mem hmem hpart)) (mem_map_of_mem hpart)
  rw [hhands, List.erase_append_right _ hnot]
  simp

theorem Sound.requeue (h : l.Sound) (hlast : l.hands.getLast? = some ps) :
    (l.requeue ps).Sound := by
  obtain ⟨front, hfront⟩ : ∃ front, l.hands = front ++ [ps] :=
    ⟨_, (List.dropLast_append_getLast? ps hlast).symm⟩
  have herase := h.erase_last hfront
  refine h.move rfl ?_ rfl (fun e he => .inl he) ?_
  · simp only [parts, Ledger.requeue, herase]
    simp [hfront]
  · intro qs hqs
    simp only [Ledger.requeue, mem_append, List.mem_cons] at hqs
    apply h.nonempty qs
    rcases hqs with hhands | rfl | hqueue
    · exact mem_append_left _ (List.mem_of_mem_erase hhands)
    · exact mem_append_left _ (List.mem_of_getLast? hlast)
    · exact mem_append_right _ hqueue

theorem Sound.discard (h : l.Sound) : l.discard.Sound where
  order := by
    have hnodup := h.nodup
    have hsplit : l.parts.map Part.index =
        l.discard.parts.map Part.index ++ l.queue.flatten.map Part.index := by
      simp [parts, Ledger.discard]
    rw [hsplit] at hnodup
    have hdisjoint := List.disjoint_of_nodup_append hnodup
    have hfilter : (l.parts.map Part.index).filter
        (fun k => !(l.queue.flatten.map Part.index).contains k) =
          l.discard.parts.map Part.index := by
      rw [hsplit, List.filter_append, List.filter_eq_self.mpr, List.filter_eq_nil_iff.mpr,
        append_nil]
      · intro k hk
        simpa using hk
      · intro k hk
        simpa using fun hq => hdisjoint hk hq
    rw [← hfilter, h.order, List.filter_filter]
    apply List.filter_congr
    intro k _
    simp [Ledger.discard, Bool.and_comm]
  texts := by
    intro part hpart
    apply h.texts part
    simp only [parts, Ledger.discard, List.flatten_nil, append_nil] at hpart
    rw [parts, ← append_assoc]
    exact mem_append_left _ hpart
  entered := h.entered
  alone := h.alone
  nonempty := by
    intro ps hps
    simp only [Ledger.discard, append_nil] at hps
    exact h.nonempty ps (mem_append_left _ hps)
  discarded := by
    intro k hk
    rcases mem_append.mp hk with hold | hnew
    · exact h.discarded k hold
    · obtain ⟨part, hpart, rfl⟩ := mem_map.mp hnew
      exact h.lt (mem_append_right _ (mem_append_right _ hpart))

end Ledger

theorem joinWith_append {sep : Text} {xs ys : List Text} (hx : xs ≠ []) (hy : ys ≠ []) :
    Text.joinWith sep (xs ++ ys) = Text.joinWith sep xs ++ sep ++ Text.joinWith sep ys := by
  induction xs with
  | nil => exact absurd rfl hx
  | cons x xs ih =>
    cases xs with
    | nil =>
      cases ys with
      | nil => exact absurd rfl hy
      | cons y ys => simp [Text.joinWith, List.intercalate]
    | cons x' xs =>
      have hrest := ih (cons_ne_nil _ _)
      simp only [Text.joinWith, List.intercalate, List.cons_append] at hrest ⊢
      rw [List.intersperse_cons_cons, List.intersperse_cons_cons]
      simp only [List.flatten_cons, hrest, append_assoc]

theorem merged_flatten {qs : List (List Part)} (h : ∀ ps ∈ qs, ps ≠ []) :
    Text.joinWith ['\n'] (qs.map merged) = merged qs.flatten := by
  induction qs with
  | nil => rfl
  | cons ps qs ih =>
    have hps := h ps mem_cons_self
    have hrest := ih fun q hq => h q (.tail _ hq)
    cases qs with
    | nil => simp [merged, Text.joinWith, List.intercalate]
    | cons q qs =>
      have hflat : (q :: qs).flatten ≠ [] := by
        intro hnil
        exact h q (.tail _ mem_cons_self) (List.flatten_eq_nil_iff.mp hnil q
          mem_cons_self)
      have happend : merged (ps ++ (q :: qs).flatten) =
          merged ps ++ ['\n'] ++ merged (q :: qs).flatten := by
        rw [merged, map_append]
        exact joinWith_append (mt List.map_eq_nil_iff.mp hps) (mt List.map_eq_nil_iff.mp hflat)
      have hone : Text.joinWith ['\n'] [merged ps] = merged ps := by
        simp [Text.joinWith, List.intercalate]
      have hcons : ((ps :: q :: qs).map merged) = [merged ps] ++ (q :: qs).map merged := rfl
      rw [hcons, joinWith_append (cons_ne_nil _ _) (by simp), hrest, hone]
      exact happend.symm

def Task.holds? : Task → Option (List Part)
  | arrived input | busy input | checked input | compacted input | begun input => input.drained
  | unanswered input handedOn => if handedOn then none else input.drained
  | _ => none

/-- Accepted messages are handled once, in order, with their texts; one not discarded is handled,
queued, or with a task. -/
structure HandledOnce (p : TurnPool) : Prop where
  inOrder : ((p.shared.ledger.handled.flatMap Handled.parts ++ p.shared.ledger.queue.flatten).map
    Part.index).Pairwise (· < ·)
  entered : ∀ h ∈ p.shared.ledger.handled, h.turn.isSome = true → h.text = merged h.parts ∧
    ∀ part ∈ h.parts, p.shared.ledger.accepted[part.index]? = some part.text
  alone : ∀ h ∈ p.shared.ledger.handled, h.turn = none → h.parts.length = 1
  kept : ∀ k < p.shared.ledger.accepted.length, k ∉ p.shared.ledger.discarded →
    k ∈ (p.shared.ledger.handled.flatMap Handled.parts).map Part.index ∨
    k ∈ p.shared.ledger.queue.flatten.map Part.index ∨
    ∃ t ∈ p.tasks, ∃ ps ∈ t.holds?, k ∈ ps.map Part.index

/-- A command taken out of the queue is one message, and the first in hands. -/
def Shared.CommandAlone (cfg : TurnConfig) (s : Shared) (input : Input) : Prop :=
  cfg.accepts (input.effective cfg) = true → cfg.isCommand input.content = true →
    ∀ ps ∈ input.drained, ps.length = 1 ∧ s.ledger.hands.head? = some ps

def Shared.Queues (cfg : TurnConfig) (s : Shared) (input : Input) : Prop :=
  s.thread.state = .processing ∧ (input.attachments.isEmpty && cfg.accepts input.content) = true ∧
    (s.thread.queueMessage input.content).isSome = true

/-- The message of a task is the first that waits, is not queued again, and put back only before
others leave. -/
def Task.InTurn (cfg : TurnConfig) (s : Shared) : Event → Task → Prop
  | .look _, arrived input =>
    s.thread.state = .idle ∨ s.thread.state = .interrupted → s.CommandAlone cfg input
  | .look _, busy input =>
    (s.Queues cfg input → input.drained = none) ∧
      (s.thread.state ≠ .processing → s.CommandAlone cfg input)
  | .proceed, begun input =>
    (input.drained = none → s.ledger.hands = [] ∧ s.ledger.queue = []) ∧
      ∀ ps ∈ input.drained, s.ledger.hands.head? = some ps
  | .proceed, unanswered input handedOn =>
    handedOn = false ∧ ∃ ps ∈ input.drained, s.ledger.hands.getLast? = some ps
  | _, _ => True

def InTurn (cfg : TurnConfig) (p : TurnPool) : Action → Prop
  | .advance i e => ∀ t ∈ p.tasks[i]?, t.InTurn cfg p.shared e
  | _ => True

def Task.input? : Task → Option Input
  | arrived input | busy input | checked input | compacted input | begun input
  | unanswered input _ | running _ (.message input) => some input
  | _ => none

/-- Messages from the queue are handled as their merged text, without attachments. -/
def Input.Merged (input : Input) : Prop :=
  ∀ ps ∈ input.drained, input.content = merged ps ∧ input.attachments = []

structure Shared.Lined (s : Shared) : Prop where
  sound : s.ledger.Sound
  queue : s.thread.pendingMessages = s.ledger.queue.map merged

structure Lined (p : TurnPool) : Prop where
  shared : p.shared.Lined
  held : (p.tasks.filterMap Task.holds?).Perm p.shared.ledger.hands
  inputs : ∀ t ∈ p.tasks, ∀ input ∈ t.input?, input.Merged

/-- A step that keeps the line: what the task held or was given is where the ledger says. -/
structure Task.Keeps (t : Task) (s : Shared) (r : Shared × List Task) : Prop where
  shared : r.1.Lined
  held : ∀ rest, (t.holds?.toList ++ rest).Perm s.ledger.hands →
    (r.2.filterMap Task.holds? ++ rest).Perm r.1.ledger.hands
  inputs : ∀ t' ∈ r.2, ∀ input ∈ t'.input?, input.Merged

section Steps

variable {cfg : TurnConfig} {s : Shared} {t : Task} {input : Input} {responds : Bool}

theorem keeps_of_same {s' : Shared} {ts : List Task} (hl : s.Lined) (hledger : s'.ledger = s.ledger)
    (hqueue : s'.thread.pendingMessages = s.thread.pendingMessages)
    (hholds : ts.filterMap Task.holds? = t.holds?.toList)
    (hinputs : ∀ t' ∈ ts, ∀ input ∈ t'.input?, input.Merged) : t.Keeps s (s', ts) where
  shared := ⟨by rw [hledger]; exact hl.sound, by rw [hledger, hqueue, hl.queue]⟩
  held := by
    intro rest hrest
    rw [hholds, hledger]
    exact hrest
  inputs := hinputs

theorem input?_noResponse {handedOn : Bool} (hm : input.Merged) :
    ∀ t' ∈ Shared.noResponse input handedOn, ∀ i ∈ t'.input?, i.Merged := by
  unfold Shared.noResponse
  split_ifs
  · intro t' ht' i hi
    rw [mem_singleton.mp ht'] at hi
    cases hi
    exact hm
  · simp

theorem holds?_noResponse :
    (Shared.noResponse input false).filterMap Task.holds? = input.drained.toList := by
  unfold Shared.noResponse
  cases h : input.drained <;> simp [Task.holds?, h]

theorem holds?_handedOn : (Shared.noResponse input true).filterMap Task.holds? = [] := by
  unfold Shared.noResponse
  split_ifs <;> simp [Task.holds?]

theorem effective_of_merged {ps : List Part} (hm : input.Merged) (hps : input.drained = some ps) :
    input.effective cfg = merged ps := by
  obtain ⟨hcontent, hattachments⟩ := hm ps hps
  rw [Input.effective, hattachments, hcontent]
  rfl

theorem held_erase {ps : List Part} {hands rest : List (List Part)}
    (h : (ps :: rest).Perm hands) : rest.Perm (hands.erase ps) := by
  have herase := h.erase ps
  rwa [List.erase_cons_head] at herase

theorem keeps_examine (hl : s.Lined) (hm : input.Merged) (hholds : t.holds? = input.drained)
    (hcommand : s.CommandAlone cfg input) : t.Keeps s (s.examine cfg input responds) := by
  unfold Shared.examine
  by_cases haccepts : cfg.accepts (input.effective cfg) = true
  · rw [if_pos haccepts]
    by_cases hcmd : cfg.isCommand input.content = true
    · rw [if_pos hcmd]
      cases hdrained : input.drained with
      | none =>
        have hnone : t.holds? = none := hholds.trans hdrained
        refine keeps_of_same hl ?_ rfl ?_ ?_
        · simp [Ledger.command, hdrained]
        · rw [hnone]
          cases responds <;> simp [Shared.noResponse, hdrained, Task.holds?]
        · cases responds <;> simp [Shared.noResponse, hdrained, Task.input?]
      | some ps =>
        obtain ⟨halone, hhead⟩ := hcommand haccepts hcmd ps hdrained
        have hledger : s.ledger.command input = { s.ledger with
            handled := s.ledger.handled ++ [⟨ps, input.content, none⟩]
            hands := s.ledger.hands.erase ps } := by
          simp [Ledger.command, hdrained]
        constructor
        · refine ⟨?_, ?_⟩
          · simp only [hledger]
            exact hl.sound.handle hhead (by simp) fun _ => halone
          · simp only [hledger]
            exact hl.queue
        · intro rest hrest
          rw [hholds, hdrained] at hrest
          simp only [hledger]
          -- the answer to a command is handed on, whatever it is
          split_ifs
          · exact held_erase hrest
          · rw [holds?_handedOn]
            exact held_erase hrest
        · split_ifs
          · simp [Task.input?]
          · exact input?_noResponse hm
    · rw [if_neg hcmd]
      refine keeps_of_same hl rfl rfl ?_ ?_
      · rw [hholds]
        cases h : input.drained <;> simp [Task.holds?, h]
      · simpa [Task.input?] using hm
  · rw [if_neg haccepts]
    exact keeps_of_same hl rfl rfl (by rw [holds?_noResponse, hholds]) (input?_noResponse hm)

theorem keeps_lookAt (hl : s.Lined) (hm : input.Merged)
    (hturn : Task.InTurn cfg s (.look responds) (.arrived input)) :
    (Task.arrived input).Keeps s (s.lookAt cfg input responds) := by
  unfold Shared.lookAt
  split
  · refine keeps_of_same hl rfl rfl ?_ (by simpa [Task.input?] using hm)
    cases h : input.drained <;> simp [Task.holds?, h]
  · exact keeps_of_same hl rfl rfl holds?_noResponse (input?_noResponse hm)
  · exact keeps_of_same hl rfl rfl holds?_noResponse (input?_noResponse hm)
  · rename_i hstate
    exact keeps_examine hl hm rfl (hturn (.inl hstate))
  · rename_i hstate
    exact keeps_examine hl hm rfl (hturn (.inr hstate))

theorem pendingMessages_queueMessage {content : Text} {thread thread' : Thread}
    (h : thread.queueMessage content = some thread') :
    thread'.pendingMessages = thread.pendingMessages ++ [content] := by
  unfold Thread.queueMessage at h
  split_ifs at h
  cases h
  rfl

theorem keeps_lookAgain (hl : s.Lined) (hm : input.Merged)
    (hturn : Task.InTurn cfg s (.look responds) (.busy input)) :
    (Task.busy input).Keeps s (s.lookAgain cfg input responds) := by
  unfold Shared.lookAgain
  by_cases hstate : s.thread.state = .processing
  · rw [if_pos hstate]
    by_cases hpasses : (input.attachments.isEmpty && cfg.accepts input.content) = true
    · rw [if_pos hpasses]
      cases hqueue : s.thread.queueMessage input.content with
      | none => exact keeps_of_same hl rfl rfl holds?_noResponse (input?_noResponse hm)
      | some thread =>
        -- only a new message is queued
        have hfresh := hturn.1 ⟨hstate, hpasses, by rw [hqueue]; rfl⟩
        refine ⟨⟨hl.sound.enqueue hfresh, ?_⟩, ?_, input?_noResponse hm⟩
        · rw [show thread.pendingMessages = _ from pendingMessages_queueMessage hqueue, hl.queue]
          simp [Ledger.enqueue, hfresh, Ledger.accept, merged, Text.joinWith, List.intercalate]
        · intro rest hrest
          simp only [holds?_handedOn, Ledger.enqueue, hfresh, Ledger.accept, nil_append]
          simpa [Task.holds?, hfresh] using hrest
    · rw [if_neg hpasses]
      exact keeps_of_same hl rfl rfl holds?_noResponse (input?_noResponse hm)
  · rw [if_neg hstate]
    exact keeps_examine hl hm rfl (hturn.2 hstate)

theorem keeps_startTurn (hl : s.Lined) (hm : input.Merged)
    (hturn : Task.InTurn cfg s .proceed (.begun input)) : (Task.begun input).Keeps s
      (s.startTurn cfg input, [.running s.log.next (.message input)]) := by
  have hinputs : ∀ t' ∈ [Task.running s.log.next (.message input)], ∀ i ∈ t'.input?, i.Merged := by
    simpa [Task.input?] using hm
  obtain ⟨hfresh, hfirst⟩ := hturn
  cases hdrained : input.drained with
  | none =>
    obtain ⟨hhands, hqueue⟩ := hfresh hdrained
    refine ⟨⟨hl.sound.enter_fresh hdrained hhands hqueue, ?_⟩, ?_, hinputs⟩
    · simpa [Shared.startTurn, Thread.startTurn, Ledger.enter, hdrained, Ledger.accept]
        using hl.queue
    · intro rest hrest
      have hhands' : (s.startTurn cfg input).ledger.hands = s.ledger.hands := by
        simp [Shared.startTurn, Ledger.enter, hdrained, Ledger.accept]
      simp only [Task.holds?, hdrained, Option.toList_none, nil_append] at hrest
      show rest.Perm (s.startTurn cfg input).ledger.hands
      rw [hhands']
      exact hrest
  | some ps =>
    have htext : input.effective cfg = merged ps := effective_of_merged hm hdrained
    have hledger : s.ledger.enter input (input.effective cfg) s.log.next = { s.ledger with
        handled := s.ledger.handled ++ [⟨ps, input.effective cfg, some s.log.next⟩]
        hands := s.ledger.hands.erase ps } := by
      simp [Ledger.enter, hdrained]
    refine ⟨⟨?_, ?_⟩, ?_, hinputs⟩
    · simp only [Shared.startTurn, hledger]
      exact hl.sound.handle (hfirst ps hdrained) (fun _ => htext) (by simp)
    · simp only [Shared.startTurn, hledger]
      exact hl.queue
    · intro rest hrest
      simp only [Task.holds?, hdrained, Option.toList_some, List.singleton_append] at hrest
      simp only [Shared.startTurn, hledger]
      exact held_erase hrest

theorem keeps_drain (hl : s.Lined) : Task.responded.Keeps s s.drain := by
  unfold Shared.drain
  cases hdrain : s.thread.drainPendingMessages with
  | none => exact keeps_of_same hl rfl rfl rfl (by simp)
  | some r =>
    obtain ⟨content, thread⟩ := r
    unfold Thread.drainPendingMessages at hdrain
    split_ifs at hdrain with hempty
    cases hdrain
    have hqueue : s.ledger.queue ≠ [] := by
      intro hnil
      rw [hl.queue, hnil] at hempty
      exact hempty rfl
    refine ⟨⟨hl.sound.drain hqueue, rfl⟩, ?_, ?_⟩
    · intro rest hrest
      exact (List.Perm.cons _ hrest).trans (List.perm_append_singleton _ _).symm
    · intro t' ht' i hi
      rw [mem_singleton.mp ht'] at hi
      cases hi
      intro ps hps
      cases hps
      refine ⟨?_, rfl⟩
      show Text.joinWith ['\n'] s.thread.pendingMessages = _
      rw [hl.queue]
      exact merged_flatten fun q hq => hl.sound.nonempty q (mem_append_right _ hq)

theorem keeps_requeue {handedOn : Bool} (hl : s.Lined) (hm : input.Merged)
    (hturn : Task.InTurn cfg s .proceed (.unanswered input handedOn)) :
    (Task.unanswered input handedOn).Keeps s (s.requeue input, []) := by
  obtain ⟨hnot, ps, hps, hlast⟩ := hturn
  have hdrained : input.drained = some ps := hps
  refine ⟨⟨?_, ?_⟩, ?_, by simp⟩
  · simp only [Shared.requeue, hdrained, Option.getD_some]
    exact hl.sound.requeue hlast
  · simp only [Shared.requeue, Thread.requeueDrained, hdrained, Option.getD_some,
      Ledger.requeue, List.map_cons, hl.queue, (hm ps hdrained).1]
  · intro rest hrest
    simp only [Task.holds?, hnot, Bool.false_eq_true, if_false, hdrained, Option.toList_some,
      List.singleton_append] at hrest
    simp only [Shared.requeue, hdrained, Option.getD_some, Ledger.requeue]
    exact held_erase hrest

theorem pendingMessages_truncateTurns (keep : Nat) (thread : Thread) :
    (thread.truncateTurns keep).pendingMessages = thread.pendingMessages := by
  unfold Thread.truncateTurns
  split_ifs <;> rfl

theorem keeps_compact {succeeds : Bool} (hl : s.Lined) (hm : input.Merged) :
    (Task.checked input).Keeps s (s.compact cfg succeeds, [.compacted input]) := by
  have hcompact : (s.compact cfg succeeds).ledger = s.ledger ∧
      (s.compact cfg succeeds).thread.pendingMessages = s.thread.pendingMessages := by
    unfold Shared.compact
    split
    · exact ⟨rfl, rfl⟩
    · exact ⟨rfl, pendingMessages_truncateTurns _ _⟩
    · split_ifs
      · exact ⟨rfl, pendingMessages_truncateTurns _ _⟩
      · exact ⟨rfl, rfl⟩
  refine keeps_of_same hl hcompact.1 hcompact.2 ?_ (by simpa [Task.input?] using hm)
  cases h : input.drained <;> simp [Task.holds?, h]

theorem keeps_finish {turn : TurnId} {outcome : RunOutcome} {origin : Origin} (hl : s.Lined)
    (hm : ∀ i ∈ (Task.running turn origin).input?, i.Merged) :
    (Task.running turn origin).Keeps s (s.finish turn outcome origin) := by
  have hconclude : (s.conclude turn outcome).ledger = s.ledger ∧
      (s.conclude turn outcome).thread.pendingMessages = s.thread.pendingMessages := by
    cases outcome <;> exact ⟨rfl, rfl⟩
  cases origin with
  | approval => exact keeps_of_same hl hconclude.1 hconclude.2 rfl (by simp)
  | message input =>
    have hmerged : input.Merged := hm input rfl
    simp only [Shared.finish]
    split_ifs
    · exact keeps_of_same hl rfl rfl holds?_handedOn (input?_noResponse hmerged)
    · cases outcome with
      | response text =>
        exact keeps_of_same hl hconclude.1 hconclude.2 rfl (by simp [Task.input?])
      | needApproval pending =>
        exact keeps_of_same hl hconclude.1 hconclude.2 holds?_handedOn (input?_noResponse hmerged)
      | authPending =>
        exact keeps_of_same hl hconclude.1 hconclude.2 holds?_handedOn (input?_noResponse hmerged)
      | failed error =>
        exact keeps_of_same hl hconclude.1 hconclude.2 holds?_handedOn (input?_noResponse hmerged)

theorem next_keeps {e : Event} {r : Shared × List Task} (hl : s.Lined)
    (hm : ∀ input ∈ t.input?, input.Merged) (hturn : t.InTurn cfg s e)
    (hnext : next cfg e s t = some r) : t.Keeps s r := by
  unfold next at hnext
  split at hnext <;> cases hnext
  case h_1 => exact keeps_lookAt hl (hm _ rfl) hturn
  case h_2 => exact keeps_lookAgain hl (hm _ rfl) hturn
  case h_3 => exact keeps_compact hl (hm _ rfl)
  case h_4 id input =>
    refine keeps_of_same hl rfl rfl ?_ (by simpa [Task.input?] using hm _ rfl)
    cases h : input.drained <;> simp [Task.holds?, h]
  case h_5 => exact keeps_startTurn hl (hm _ rfl) hturn
  case h_6 recording turn origin =>
    refine keeps_of_same hl rfl rfl rfl ?_
    intro t' ht' i hi
    rw [mem_singleton.mp ht'] at hi
    exact hm i hi
  case h_7 => exact keeps_finish hl hm
  case h_8 => exact keeps_drain hl
  case h_9 => exact keeps_requeue hl (hm _ rfl) hturn
  case h_10 => exact keeps_of_same hl rfl rfl rfl (by simp [Task.input?])
  case h_11 => exact keeps_of_same hl rfl rfl rfl (by simp)
  case h_12 => exact keeps_of_same hl rfl rfl rfl (by simp)

variable {p p' : TurnPool}

theorem lined_act (h : Lined p) {r : Shared × List Task} (hl : r.1.Lined)
    (hhands : r.1.ledger.hands = p.shared.ledger.hands) (hholds : ∀ t ∈ r.2, t.holds? = none)
    (hinputs : ∀ t ∈ r.2, t.input? = none) : Lined (Pool.act p r) where
  shared := hl
  held := by
    have hnone : r.2.filterMap Task.holds? = [] := List.filterMap_eq_nil_iff.mpr hholds
    simp only [Pool.act, filterMap_append, hnone, append_nil, hhands]
    exact h.held
  inputs := by
    intro t ht input hinput
    rcases mem_append.mp ht with hold | hnew
    · exact h.inputs t hold input hinput
    · rw [hinputs t hnew] at hinput
      cases hinput

theorem lined_adopt (hl : s.Lined) (o : Option (Checkpoint ChatMessage × UndoManager ChatMessage)) :
    ((o.map s.adopt).getD s).Lined ∧ ((o.map s.adopt).getD s).ledger.hands = s.ledger.hands := by
  cases o with
  | none => exact ⟨hl, rfl⟩
  | some r => exact ⟨⟨hl.sound, hl.queue⟩, rfl⟩

theorem lined_interrupt (hl : s.Lined) :
    s.interrupt.Lined ∧ s.interrupt.ledger.hands = s.ledger.hands := by
  unfold Shared.interrupt
  split
  · exact ⟨⟨hl.sound.discard, rfl⟩, rfl⟩
  · exact ⟨⟨hl.sound.discard, rfl⟩, rfl⟩
  · exact ⟨hl, rfl⟩

theorem lined_decide (hl : s.Lined) (requestId : Option Uuid) (approved : Bool) :
    (s.decide requestId approved).1.Lined ∧
      (s.decide requestId approved).1.ledger.hands = s.ledger.hands ∧
      ∀ t ∈ (s.decide requestId approved).2, t.holds? = none ∧ t.input? = none := by
  unfold Shared.decide
  split
  · split_ifs
    · exact ⟨⟨hl.sound, hl.queue⟩, rfl, by simp [Task.holds?, Task.input?]⟩
    · exact ⟨⟨hl.sound, hl.queue⟩, rfl, by simp [Task.holds?, Task.input?]⟩
    · exact ⟨⟨hl.sound, hl.queue⟩, rfl, by simp⟩
  · exact ⟨hl, rfl, by simp⟩

theorem turnStep_lined {a : Action} (h : Lined p) (hturn : InTurn cfg p a)
    (hstep : turnStep cfg p a = some p') : Lined p' := by
  cases a with
  | receive content attachments =>
    cases hstep
    refine ⟨h.shared, ?_, ?_⟩
    · rw [Pool.start, filterMap_append]
      show (p.tasks.filterMap Task.holds? ++ []).Perm p.shared.ledger.hands
      rw [append_nil]
      exact h.held
    · intro t ht input hinput
      rcases mem_append.mp ht with hold | hnew
      · exact h.inputs t hold input hinput
      · rw [mem_singleton.mp hnew] at hinput
        cases hinput
        intro ps hps
        cases hps
  | decide requestId approved =>
    cases hstep
    obtain ⟨hl, hhands, htasks⟩ := lined_decide h.shared requestId approved
    exact lined_act h hl hhands (fun t ht => (htasks t ht).1) fun t ht => (htasks t ht).2
  | interrupt =>
    cases hstep
    obtain ⟨hl, hhands⟩ := lined_interrupt h.shared
    exact lined_act h hl hhands (by simp) (by simp)
  | undo id =>
    cases hstep
    obtain ⟨hl, hhands⟩ := lined_adopt h.shared (p.shared.undoManager.undo id _ _)
    exact lined_act h hl hhands (by simp) (by simp)
  | redo id =>
    cases hstep
    obtain ⟨hl, hhands⟩ := lined_adopt h.shared (p.shared.undoManager.redo id _ _)
    exact lined_act h hl hhands (by simp) (by simp)
  | resume checkpointId =>
    cases hstep
    obtain ⟨hl, hhands⟩ := lined_adopt h.shared (p.shared.undoManager.restore checkpointId)
    exact lined_act h hl hhands (by simp) (by simp)
  | clear =>
    cases hstep
    exact lined_act h ⟨h.shared.sound.discard, rfl⟩ rfl (by simp [Task.holds?])
      (by simp [Task.input?])
  | advance i e =>
    obtain ⟨front, t, back, s', ts, htasks, rfl, hnext, rfl⟩ := Pool.advance_eq_some_iff.mp hstep
    have hget : p.tasks[front.length]? = some t := by simp [htasks]
    have hmem : t ∈ p.tasks := List.mem_of_getElem? hget
    have hkeeps := next_keeps h.shared (h.inputs t hmem) (hturn t (Option.mem_def.mpr hget)) hnext
    refine ⟨hkeeps.shared, ?_, ?_⟩
    · have hheld := h.held
      rw [htasks, filterMap_append] at hheld
      -- what is held does not depend on the order of the tasks
      have hrest : (t.holds?.toList ++ (front ++ back).filterMap Task.holds?).Perm
          p.shared.ledger.hands := by
        refine List.Perm.trans ?_ hheld
        rw [filterMap_append]
        cases ht : t.holds? with
        | none => rw [List.filterMap_cons_none ht, Option.toList_none, nil_append]
        | some ps =>
          rw [List.filterMap_cons_some ht, Option.toList_some, List.singleton_append]
          exact List.perm_middle.symm
      refine List.Perm.trans ?_ (hkeeps.held _ hrest)
      simp only [filterMap_append]
      rw [← append_assoc]
      exact List.Perm.append_right _ List.perm_append_comm
    · intro u hu input hinput
      simp only [mem_append, or_assoc] at hu
      rcases hu with hfront | hnew | hback
      · exact h.inputs u (Pool.mem_of_split htasks (mem_append_left _ hfront)) input hinput
      · exact hkeeps.inputs u hnew input hinput
      · exact h.inputs u (Pool.mem_of_split htasks (mem_append_right _ hback)) input hinput

theorem lined_new (sourceChannel : Option Text) (maxCheckpoints : Nat) :
    Lined (TurnPool.new sourceChannel maxCheckpoints) where
  shared := by
    refine ⟨⟨?_, ?_, ?_, ?_, ?_, ?_⟩, ?_⟩ <;>
      simp [TurnPool.new, Shared.new, Ledger.parts, Thread.new]
  held := List.Perm.refl []
  inputs := by simp [TurnPool.new]

theorem Ledger.Sound.inOrder {l : Ledger} (h : l.Sound) :
    ((l.handled.flatMap Handled.parts ++ l.queue.flatten).map Part.index).Pairwise (· < ·) := by
  have hsorted : (l.parts.map Part.index).Pairwise (· < ·) := by
    rw [h.order]
    exact List.pairwise_lt_range.filter _
  refine hsorted.sublist (List.Sublist.map _ ?_)
  exact (List.Sublist.refl _).append (List.sublist_append_right _ _)

theorem Ledger.Sound.mem_index {l : Ledger} (h : l.Sound) {k : Nat}
    (hk : k < l.accepted.length) (hkept : k ∉ l.discarded) : k ∈ l.parts.map Part.index := by
  rw [h.order]
  refine List.mem_filter.mpr ⟨List.mem_range.mpr hk, ?_⟩
  simpa using hkept

theorem handledOnce_of_lined (h : Lined p) : HandledOnce p where
  inOrder := h.shared.sound.inOrder
  entered := by
    intro e he hturn
    refine ⟨h.shared.sound.entered e he hturn, fun part hpart => ?_⟩
    apply h.shared.sound.texts part
    exact mem_append_left _ (List.mem_flatMap.mpr ⟨e, he, hpart⟩)
  alone := h.shared.sound.alone
  kept := by
    intro k hk hkept
    have hmem := h.shared.sound.mem_index hk hkept
    simp only [Ledger.parts, map_append, mem_append] at hmem
    rcases hmem with hhandled | hhands | hqueue
    · exact .inl hhandled
    · -- what is in hands is held by a task
      obtain ⟨part, hpart, rfl⟩ := mem_map.mp hhands
      obtain ⟨ps, hps, hin⟩ := List.mem_flatten.mp hpart
      obtain ⟨t, ht, hholds⟩ := List.mem_filterMap.mp (h.held.mem_iff.mpr hps)
      exact .inr (.inr ⟨t, ht, ps, hholds, mem_map_of_mem hin⟩)
    · exact .inr (.inl hqueue)

end Steps

def queued (i : Nat) (text : String) : List Action :=
  [.receive text.toList [], .advance i (.look false), .advance i (.look false)]

/-- The messages in the queue are taken out, and start a turn. -/
def drained : List Action :=
  [.advance 0 .proceed, .advance 0 (.look false), .advance 0 (.compact true),
    .advance 0 (.checkpoint 1), .advance 0 .proceed]

/-- Two messages are queued during a turn, and start the next one. -/
def mergedActions : List Action :=
  startOf 0 "a" ++ queued 1 "b" ++ queued 1 "c" ++
    [.advance 0 (.finish (.response "x".toList))] ++ drained ++
    [.advance 0 (.finish (.response "y".toList)), .advance 0 .proceed]

instance (cfg : TurnConfig) (s : Shared) (input : Input) :
    Decidable (s.CommandAlone cfg input) :=
  inferInstanceAs (Decidable (_ → _ → ∀ ps ∈ input.drained, _ ∧ _))

instance (cfg : TurnConfig) (s : Shared) (input : Input) : Decidable (s.Queues cfg input) :=
  inferInstanceAs (Decidable (_ ∧ _ ∧ _))

instance (cfg : TurnConfig) (s : Shared) (e : Event) (t : Task) : Decidable (t.InTurn cfg s e) :=
  match e, t with
  | .look _, .arrived _ => inferInstanceAs (Decidable (_ ∨ _ → _))
  | .look _, .busy _ | .proceed, .begun _ | .proceed, .unanswered _ _ =>
    inferInstanceAs (Decidable (_ ∧ _))
  | .look _, .checked _ | .look _, .compacted _ | .look _, .begun _ | .look _, .running _ _
  | .look _, .responded | .look _, .unanswered _ _ | .look _, .approved _ | .look _, .rejected _ _
  | .look _, .cleared | .proceed, .arrived _ | .proceed, .busy _ | .proceed, .checked _
  | .proceed, .compacted _ | .proceed, .running _ _ | .proceed, .responded | .proceed, .approved _
  | .proceed, .rejected _ _ | .proceed, .cleared | .compact _, _ | .checkpoint _, _ | .record _, _
  | .finish _, _ => isTrue trivial

instance (cfg : TurnConfig) (p : TurnPool) (a : Action) : Decidable (InTurn cfg p a) :=
  match a with
  | .advance i e => inferInstanceAs (Decidable (∀ t ∈ p.tasks[i]?, t.InTurn cfg p.shared e))
  | .receive _ _ | .decide _ _ | .interrupt | .undo _ | .redo _ | .resume _ | .clear =>
    isTrue trivial

/-- The turn of a queued message asks for an approval, and the message is put back. -/
def putBack : List Action :=
  startOf 0 "a" ++ queued 1 "b" ++ [.advance 0 (.finish (.response "x".toList))] ++ drained ++
    [.advance 0 (.finish (.needApproval sampleRequest)), .advance 0 .proceed]

/-- A message is queued in a turn that is resumed by an approval, and the next one starts a turn. -/
def passedBy : List Action :=
  startOf 0 "a" ++ queued 1 "b" ++
    [.advance 0 (.finish (.needApproval sampleRequest)), .decide none true, .advance 0 .proceed,
      .advance 0 (.finish (.response "x".toList))] ++
    startOf 0 "c"

def commandTurnConfig : TurnConfig :=
  { sampleTurnConfig with isCommand := fun text => text.head? == some '/' }

def swallowed : List Action :=
  startOf 0 "a" ++ queued 1 "/list" ++ queued 1 "b" ++
    [.advance 0 (.finish (.response "x".toList)), .advance 0 .proceed, .advance 0 (.look true)]

end IronClaw.Agent
