import IronClaw.Agent.Turns

/-!
# Runs and their turns

What a run records belongs into its own turn. That is not tested when it matters: an interrupted run
may still be going on when a message starts a turn.
-/

namespace IronClaw.Agent

open Foundation (Along Pool Text run)
open Llm (ChatMessage)
open List (mem_of_getLast? mem_singleton not_mem_nil)
open Option (mem_def mem_toList)

def Task.run? : Task → Option TurnId
  | running turn _ => some turn
  | _ => none

def Task.writes? : Task → Option TurnId
  | running turn _ | rejected turn _ => some turn
  | _ => none

def Shared.Live (s : Shared) (turn : TurnId) : Prop :=
  turn ∈ s.log.ids ∧ turn ∉ s.log.interrupted

def Shared.OnlyIn (turn : TurnId) (s s' : Shared) : Prop :=
  ∀ (k : Nat) id, s.log.ids[k]? = some id → id ≠ turn → s'.thread.turns[k]? = s.thread.turns[k]?

/-- A step with which a run ends, or a paused turn as its call is rejected. -/
def Task.Ends : Event → Task → Prop
  | .finish _, running _ _ => True
  | .proceed, rejected _ _ => True
  | _, _ => False

/-- A step changes only its own turn, and nothing at its end if the turn is not live any more. -/
def Confined (cfg : TurnConfig) (p : TurnPool) : Action → Prop
  | .advance i e => ∀ t ∈ p.tasks[i]?, ∀ turn ∈ t.writes?, ∀ s' ts,
    next cfg e p.shared t = some (s', ts) →
      Shared.OnlyIn turn p.shared s' ∧
        (t.Ends e → ¬ p.shared.Live turn →
          s'.thread.turns = p.shared.thread.turns ∧ s'.thread.state = p.shared.thread.state)
  | _ => True

def Task.Apart (t u : Task) : Prop := t.run? = none ∨ u.run? = none

/-- No turn is in progress, and no run goes on whose turn was interrupted, undone or cleared. -/
def Ready (p : TurnPool) : Prop :=
  p.shared.thread.state ≠ .processing ∧ ∀ t ∈ p.tasks, ∀ turn ∈ t.run?, p.shared.Live turn

def Shared.Current (s : Shared) (turn : TurnId) : Prop :=
  s.log.ids.getLast? = some turn ∧ turn ∉ s.log.interrupted

def RunOutcome.asksApproval : RunOutcome → Bool
  | needApproval _ => true
  | _ => false

/-- A task finds no run when it starts a turn, the current turn to resume or reject, its own to
record and end. -/
def Task.Undisturbed (p : TurnPool) : Event → Task → Prop
  | .proceed, begun _ => Ready p
  | .proceed, approved turn | .proceed, rejected turn _ => Ready p ∧ p.shared.Current turn
  | .record _, running turn _ => turn ∈ p.shared.log.ids ∨ p.shared.log.ids = []
  | .finish outcome, running turn origin =>
    p.shared.Live turn ∨ (origin ≠ .approval ∧ p.shared.thread.state = .interrupted) ∨
      (p.shared.log.ids = [] ∧ outcome.asksApproval = false)
  | _, _ => True

def Undisturbed (p : TurnPool) : Action → Prop
  | .advance i e => ∀ t ∈ p.tasks[i]?, t.Undisturbed p e
  | _ => True

/-- The log and the turns go together, and new turns get new identities. -/
structure Shared.Sound (s : Shared) : Prop where
  aligned : s.log.ids.length = s.thread.turns.length
  below : ∀ id ∈ s.log.ids, id < s.log.next
  interrupted : ∀ id ∈ s.log.interrupted, id < s.log.next

/-- A run goes on: its turn is the last, in progress or interrupted, or the thread is idle. -/
structure Shared.Runs (s : Shared) (turn : TurnId) : Prop where
  below : turn < s.log.next
  last : turn ∈ s.log.ids → s.log.ids.getLast? = some turn
  live : s.Live turn → s.thread.state = .processing
  interrupted : turn ∈ s.log.ids → turn ∈ s.log.interrupted → s.thread.state = .interrupted
  gone : turn ∉ s.log.ids → s.thread.state = .idle

def Task.Asserts (s : Shared) (t : Task) : Prop := ∀ turn ∈ t.run?, s.Runs turn

abbrev Kept (p : TurnPool) : Prop := p.Holds Shared.Sound Task.Asserts Task.Apart

section Invariant

variable {cfg : TurnConfig} {s s' : Shared} {turn : TurnId} {p p' : TurnPool}

theorem Task.Apart.symm (t u : Task) (h : t.Apart u) : u.Apart t := Or.symm h

/-- Log and state are the same, and there are as many turns. -/
structure Shared.Alike (s s' : Shared) : Prop where
  log : s'.log = s.log
  turns : s'.thread.turns.length = s.thread.turns.length
  state : s'.thread.state = s.thread.state

theorem Shared.alike_self (s : Shared) : s.Alike s := ⟨rfl, rfl, rfl⟩

theorem Shared.Sound.of_alike (h : s.Sound) (ha : s.Alike s') : s'.Sound where
  aligned := by rw [ha.log, ha.turns, h.aligned]
  below := by
    rw [ha.log]
    exact h.below
  interrupted := by
    rw [ha.log]
    exact h.interrupted

theorem Shared.Runs.of_alike (h : s.Runs turn) (ha : s.Alike s') : s'.Runs turn := by
  obtain ⟨hlog, -, hstate⟩ := ha
  constructor
  · rw [hlog]
    exact h.below
  · rw [hlog]
    exact h.last
  · rw [Shared.Live, hlog, hstate]
    exact h.live
  · rw [hlog, hstate]
    exact h.interrupted
  · rw [hlog, hstate]
    exact h.gone

theorem length_modifyLast (f : Turn → Turn) (thread : Thread) :
    (thread.modifyLast f).turns.length = thread.turns.length := by
  rcases List.eq_nil_or_concat thread.turns with h | ⟨front, last, h⟩
  · simp [Thread.modifyLast, h]
  · simp [Thread.modifyLast, h]

theorem getElem?_modifyLast {f : Turn → Turn} {thread : Thread} {k : Nat}
    (h : k + 1 ≠ thread.turns.length) : (thread.modifyLast f).turns[k]? = thread.turns[k]? := by
  rcases List.eq_nil_or_concat thread.turns with hnil | ⟨front, last, hsnoc⟩
  · simp [Thread.modifyLast, hnil]
  · rw [List.concat_eq_append] at hsnoc
    rw [hsnoc, List.length_append, List.length_singleton] at h
    have hk : k ≠ front.length := by omega
    simp only [Thread.modifyLast, hsnoc, List.dropLast_concat, List.getLast?_concat,
      Option.map_some, Option.toList_some]
    rcases Nat.lt_or_gt_of_ne hk with hlt | hgt
    · rw [List.getElem?_append_left hlt, List.getElem?_append_left hlt]
    · rw [List.getElem?_append_right (by omega), List.getElem?_append_right (by omega)]
      have hpos : k - front.length ≠ 0 := by omega
      simp [hpos]

theorem onlyIn_modifyLast {f : Turn → Turn} (hsound : s.Sound)
    (hlast : s.log.ids.getLast? = some turn ∨ s.log.ids = [])
    (hturns : s'.thread.turns = (s.thread.modifyLast f).turns) : Shared.OnlyIn turn s s' := by
  intro k id hid hne
  rw [hturns]
  apply getElem?_modifyLast
  intro hk
  rcases hlast with hlast | hnil
  · -- the last place is that of the turn itself
    rw [← hsound.aligned] at hk
    rw [List.getLast?_eq_getElem?, ← hk, Nat.add_sub_cancel, hid] at hlast
    exact hne (Option.some.inj hlast)
  · rw [hnil] at hid
    simp at hid

theorem alike_record (s : Shared) (recording : Recording) : s.Alike (s.record recording) :=
  ⟨rfl, length_modifyLast _ _, rfl⟩

variable {input : Input} {responds : Bool}

theorem alike_examine : s.Alike (s.examine cfg input responds).1 := by
  unfold Shared.examine
  split_ifs <;> exact ⟨rfl, rfl, rfl⟩

theorem alike_lookAt : s.Alike (s.lookAt cfg input responds).1 := by
  unfold Shared.lookAt
  split
  · exact s.alike_self
  · exact s.alike_self
  · exact s.alike_self
  · exact alike_examine
  · exact alike_examine

theorem alike_lookAgain : s.Alike (s.lookAgain cfg input responds).1 := by
  unfold Shared.lookAgain
  split_ifs
  · split
    · rename_i thread hqueue
      unfold Thread.queueMessage at hqueue
      split_ifs at hqueue
      cases hqueue
      exact ⟨rfl, rfl, rfl⟩
    · exact s.alike_self
  · exact s.alike_self
  · exact alike_examine

theorem alike_drain : s.Alike s.drain.1 := by
  unfold Shared.drain
  split
  · exact s.alike_self
  · rename_i content thread hdrain
    unfold Thread.drainPendingMessages at hdrain
    split_ifs at hdrain
    cases hdrain
    exact ⟨rfl, rfl, rfl⟩

theorem alike_decide {requestId : Option Uuid} {approved : Bool} :
    s.Alike (s.decide requestId approved).1 := by
  unfold Shared.decide
  split
  · rename_i pending hstate hpending
    by_cases hmeant : requestId.all (· == pending.requestId) = true
    · rw [if_pos hmeant]
      exact ⟨rfl, rfl, rfl⟩
    · rw [if_neg hmeant]
      exact ⟨rfl, rfl, hstate.symm⟩
  · exact s.alike_self

theorem compact_cases (cfg : TurnConfig) (s : Shared) (succeeds : Bool) :
    s.compact cfg succeeds = s ∨ ∃ keep, 0 < keep ∧ s.compact cfg succeeds =
      { s with thread := s.thread.truncateTurns keep, log := s.log.truncate keep } := by
  have hpos : ∀ strategy : CompactionStrategy, 0 < strategy.keepRecent cfg.hasWorkspace := by
    intro strategy
    cases strategy <;> cases cfg.hasWorkspace <;> decide
  unfold Shared.compact
  split
  · exact .inl rfl
  · exact .inr ⟨_, hpos _, rfl⟩
  · rename_i strategy _ _
    split_ifs
    · exact .inr ⟨_, hpos strategy, rfl⟩
    · exact .inl rfl

theorem length_truncateTurns (keep : Nat) (thread : Thread) :
    (thread.truncateTurns keep).turns.length =
      thread.turns.length - (thread.turns.length - keep) := by
  unfold Thread.truncateTurns
  split_ifs with h
  · simp
  · omega

theorem state_truncateTurns (keep : Nat) (thread : Thread) :
    (thread.truncateTurns keep).state = thread.state := by
  unfold Thread.truncateTurns
  split_ifs <;> rfl

theorem sound_compact {succeeds : Bool} (h : s.Sound) : (s.compact cfg succeeds).Sound := by
  rcases compact_cases cfg s succeeds with heq | ⟨keep, -, heq⟩
  · rw [heq]
    exact h
  · rw [heq]
    constructor
    · simp only [TurnLog.truncate, List.length_drop, length_truncateTurns, h.aligned]
    · exact fun id hid => h.below id (List.mem_of_mem_drop hid)
    · exact h.interrupted

theorem runs_compact {succeeds : Bool} (h : s.Runs turn) : (s.compact cfg succeeds).Runs turn := by
  rcases compact_cases cfg s succeeds with heq | ⟨keep, hkeep, heq⟩
  · rw [heq]
    exact h
  rw [heq]
  -- the last turn is among those that are kept
  have hmem : turn ∈ s.log.ids →
      (s.log.ids.drop (s.log.ids.length - keep)).getLast? = some turn := by
    intro hturn
    rw [List.getLast?_drop, if_neg, h.last hturn]
    have := List.length_pos_of_mem hturn
    omega
  have hiff : turn ∈ s.log.ids.drop (s.log.ids.length - keep) ↔ turn ∈ s.log.ids :=
    ⟨List.mem_of_mem_drop, fun hturn => mem_of_getLast? (hmem hturn)⟩
  constructor
  · exact h.below
  · exact fun hturn => hmem (hiff.mp hturn)
  · intro hlive
    rw [← h.live ⟨hiff.mp hlive.1, hlive.2⟩]
    exact state_truncateTurns keep s.thread
  · intro hturn hinterrupted
    rw [← h.interrupted (hiff.mp hturn) hinterrupted]
    exact state_truncateTurns keep s.thread
  · intro hgone
    rw [← h.gone fun hturn => hgone (hiff.mpr hturn)]
    exact state_truncateTurns keep s.thread

theorem sound_adopt (h : s.Sound) (r : Checkpoint ChatMessage × UndoManager ChatMessage) :
    (s.adopt r).Sound where
  aligned := by simp [Shared.adopt, TurnLog.restore]
  below := by
    intro id hid
    have := List.mem_range'_1.mp hid
    exact this.2
  interrupted := fun id hid => Nat.lt_add_right _ (h.interrupted id hid)

theorem runs_adopt (h : s.Runs turn) (r : Checkpoint ChatMessage × UndoManager ChatMessage) :
    (s.adopt r).Runs turn := by
  have hgone : turn ∉ (s.adopt r).log.ids := by
    intro hmem
    exact Nat.not_le_of_lt h.below (List.mem_range'_1.mp hmem).1
  constructor
  · exact Nat.lt_add_right _ h.below
  · exact fun hmem => absurd hmem hgone
  · exact fun hlive => absurd hlive.1 hgone
  · exact fun hmem => absurd hmem hgone
  · exact fun _ => rfl

theorem sound_clear (h : s.Sound) : s.clear.Sound where
  aligned := rfl
  below := fun _ hid => absurd hid not_mem_nil
  interrupted := h.interrupted

theorem runs_clear (h : s.Runs turn) : s.clear.Runs turn where
  below := h.below
  last := fun hmem => absurd hmem not_mem_nil
  live := fun hlive => absurd hlive.1 not_mem_nil
  interrupted := fun hmem => absurd hmem not_mem_nil
  gone := fun _ => rfl

theorem interrupt_cases (s : Shared) : s.interrupt = s ∨
    (s.thread.state = .processing ∨ s.thread.state = .awaitingApproval) ∧
      s.interrupt = { s with
        thread := s.thread.interrupt
        log := s.log.interrupt
        ledger := s.ledger.discard } := by
  unfold Shared.interrupt
  split
  · rename_i h
    exact .inr ⟨.inl h, rfl⟩
  · rename_i h
    exact .inr ⟨.inr h, rfl⟩
  · exact .inl rfl

theorem sound_interrupt (h : s.Sound) : s.interrupt.Sound := by
  rcases interrupt_cases s with heq | ⟨-, heq⟩
  · rw [heq]
    exact h
  rw [heq]
  constructor
  · exact h.aligned.trans (length_modifyLast _ _).symm
  · exact h.below
  · intro id hid
    rcases List.mem_append.mp hid with hlast | hold
    · exact h.below id (mem_of_getLast? (mem_toList.mp hlast))
    · exact h.interrupted id hold

theorem runs_interrupt (h : s.Runs turn) : s.interrupt.Runs turn := by
  rcases interrupt_cases s with heq | ⟨hstate, heq⟩
  · rw [heq]
    exact h
  rw [heq]
  have hthere : turn ∈ s.log.ids := by
    by_contra hgone
    rw [h.gone hgone] at hstate
    simp at hstate
  constructor
  · exact h.below
  · exact h.last
  · intro hlive
    -- the last turn is interrupted now
    refine absurd ?_ hlive.2
    exact List.mem_append_left _ (mem_toList.mpr (h.last hthere))
  · exact fun _ _ => rfl
  · exact fun hgone => absurd hthere hgone

end Invariant

section Steps

variable {cfg : TurnConfig} {s s' : Shared} {turn : TurnId} {p p' : TurnPool} {t : Task}
  {e : Event}

variable {input : Input}

theorem run?_noResponse {handedOn : Bool} :
    ∀ t ∈ Shared.noResponse input handedOn, t.run? = none := by
  unfold Shared.noResponse
  split_ifs <;> simp [Task.run?]

variable {responds : Bool}

theorem run?_examine : ∀ t ∈ (s.examine cfg input responds).2, t.run? = none := by
  unfold Shared.examine
  split_ifs
  · simp [Task.run?]
  · exact run?_noResponse
  · simp [Task.run?]
  · exact run?_noResponse

theorem run?_lookAt : ∀ t ∈ (s.lookAt cfg input responds).2, t.run? = none := by
  unfold Shared.lookAt
  split
  · simp [Task.run?]
  · exact run?_noResponse
  · exact run?_noResponse
  · exact run?_examine
  · exact run?_examine

theorem run?_lookAgain : ∀ t ∈ (s.lookAgain cfg input responds).2, t.run? = none := by
  unfold Shared.lookAgain
  split_ifs
  · split <;> exact run?_noResponse
  · exact run?_noResponse
  · exact run?_examine

theorem run?_drain : ∀ t ∈ s.drain.2, t.run? = none := by
  unfold Shared.drain
  split <;> simp [Task.run?]

theorem run?_decide {requestId : Option Uuid} {approved : Bool} :
    ∀ t ∈ (s.decide requestId approved).2, t.run? = none := by
  unfold Shared.decide
  split
  · rename_i pending _ _
    by_cases hmeant : requestId.all (· == pending.requestId) = true
    · rw [if_pos hmeant]
      cases approved <;> simp [Task.run?]
    · rw [if_neg hmeant]
      simp
  · simp

variable {outcome : RunOutcome} {origin : Origin}

theorem run?_finish : ∀ t ∈ (s.finish turn outcome origin).2, t.run? = none := by
  cases origin with
  | approval => simp [Shared.finish]
  | message input =>
    simp only [Shared.finish]
    split_ifs
    · exact run?_noResponse
    · cases outcome with
      | response text => simp [Task.run?]
      | needApproval pending => exact run?_noResponse
      | authPending => exact run?_noResponse
      | failed error => exact run?_noResponse

theorem run?_of_ready (hready : Ready p) (hkept : Kept p) : ∀ t ∈ p.tasks, t.run? = none := by
  intro t ht
  cases hrun : t.run? with
  | none => rfl
  | some turn =>
    have hruns := hkept.tasks t ht turn (mem_def.mpr hrun)
    exact absurd (hruns.live (hready.2 t ht turn (mem_def.mpr hrun))) hready.1

theorem sound_conclude (h : s.Sound) : (s.conclude turn outcome).Sound := by
  cases outcome with
  | needApproval pending => exact ⟨h.aligned, h.below, h.interrupted⟩
  | _ => exact ⟨h.aligned.trans (length_modifyLast _ _).symm, h.below, h.interrupted⟩

theorem sound_finish (h : s.Sound) : (s.finish turn outcome origin).1.Sound := by
  cases origin with
  | approval => exact sound_conclude h
  | message input =>
    simp only [Shared.finish]
    split_ifs
    · exact h
    · exact sound_conclude h

theorem sound_startTurn (h : s.Sound) : (s.startTurn cfg input).Sound where
  aligned := by simp [Shared.startTurn, Thread.startTurn, TurnLog.start, h.aligned]
  below := by
    intro id hid
    rcases List.mem_append.mp hid with hold | hnew
    · exact Nat.lt_succ_of_lt (h.below id hold)
    · rw [mem_singleton.mp hnew]
      exact Nat.lt_succ_self _
  interrupted := fun id hid => Nat.lt_succ_of_lt (h.interrupted id hid)

theorem runs_startTurn (h : s.Sound) : (s.startTurn cfg input).Runs s.log.next where
  below := Nat.lt_succ_self _
  last := fun _ => List.getLast?_concat
  live := fun _ => rfl
  interrupted := fun _ hold => absurd (h.interrupted _ hold) (Nat.lt_irrefl _)
  gone := fun hgone => absurd (List.mem_append_right _ (List.mem_singleton_self _)) hgone

theorem runs_resumeTurn (h : s.Sound) (hcurrent : s.Current turn) : s.resumeTurn.Runs turn where
  below := h.below turn (mem_of_getLast? hcurrent.1)
  last := fun _ => hcurrent.1
  live := fun _ => rfl
  interrupted := fun _ hinterrupted => absurd hinterrupted hcurrent.2
  gone := fun hgone => absurd (mem_of_getLast? hcurrent.1) hgone

theorem sound_reject {toolName : Text} (h : s.Sound) : (s.reject toolName).Sound :=
  ⟨h.aligned.trans (length_modifyLast _ _).symm, h.below, h.interrupted⟩

/-- After a step at most one run goes on, and it is alone, or the runs go on as before. -/
theorem next_kept (hkept : Kept p) {front back : List Task}
    (htasks : p.tasks = front ++ t :: back) (hund : t.Undisturbed p e)
    {r : Shared × List Task} (hnext : next cfg e p.shared t = some r) :
    r.1.Sound ∧ (∀ t' ∈ r.2, t'.Asserts r.1) ∧ ((∀ t' ∈ r.2, t'.run? = none) ∨ (∃ t', r.2 = [t'] ∧
        (t'.run? = t.run? ∨ ∀ u ∈ p.tasks, u.run? = none))) ∧
      ∀ u ∈ front ++ back, u.Asserts p.shared → t.Apart u → u.Asserts r.1 := by
  have hsound := hkept.shared
  have hquiet : ∀ {ts : List Task}, (∀ t' ∈ ts, t'.run? = none) → ∀ {s' : Shared},
      ∀ t' ∈ ts, t'.Asserts s' := by
    intro ts hnone s' t' ht' turn hturn
    rw [hnone t' ht'] at hturn
    cases hturn
  have hframe : ∀ {s' : Shared}, (∀ {turn}, p.shared.Runs turn → s'.Runs turn) →
      ∀ u ∈ front ++ back, u.Asserts p.shared → t.Apart u → u.Asserts s' :=
    fun hruns u _ hu _ turn hturn => hruns (hu turn hturn)
  have hnoRun : (∀ u ∈ p.tasks, u.run? = none) → ∀ {s' : Shared},
      ∀ u ∈ front ++ back, u.Asserts p.shared → t.Apart u → u.Asserts s' := by
    intro hnone s' u hu _ _ turn hturn
    rw [hnone u (Pool.mem_of_split htasks hu)] at hturn
    cases hturn
  unfold next at hnext
  split at hnext <;> cases hnext
  case h_1 => exact ⟨hsound.of_alike alike_lookAt, hquiet run?_lookAt, .inl run?_lookAt,
    hframe fun h => h.of_alike alike_lookAt⟩
  case h_2 => exact ⟨hsound.of_alike alike_lookAgain, hquiet run?_lookAgain, .inl run?_lookAgain,
    hframe fun h => h.of_alike alike_lookAgain⟩
  case h_3 => exact ⟨sound_compact hsound, hquiet (by simp [Task.run?]), .inl (by simp [Task.run?]),
    hframe runs_compact⟩
  case h_4 id input =>
    have halike : p.shared.Alike (p.shared.checkpoint cfg id) := ⟨rfl, rfl, rfl⟩
    exact ⟨hsound.of_alike halike, hquiet (by simp [Task.run?]), .inl (by simp [Task.run?]),
      hframe fun h => h.of_alike halike⟩
  case h_5 input =>
    -- a turn is started when no run goes on
    have hnone := run?_of_ready hund hkept
    refine ⟨sound_startTurn hsound, ?_, .inr ⟨_, rfl, .inr hnone⟩, hnoRun hnone⟩
    intro t' ht' turn hturn
    rw [mem_singleton.mp ht'] at hturn
    cases hturn
    exact runs_startTurn hsound
  case h_6 recording turn origin =>
    have halike := alike_record p.shared recording
    refine ⟨hsound.of_alike halike, ?_, .inr ⟨_, rfl, .inl rfl⟩, hframe fun h => h.of_alike halike⟩
    intro t' ht' turn' hturn'
    rw [mem_singleton.mp ht'] at hturn'
    have hmem : Task.running turn origin ∈ p.tasks := by
      rw [htasks]
      exact List.mem_append_right _ List.mem_cons_self
    exact (hkept.tasks _ hmem turn' hturn').of_alike halike
  case h_7 outcome turn origin =>
    refine ⟨sound_finish hsound, hquiet run?_finish, .inl run?_finish, ?_⟩
    intro u _ _ hapart turn' hturn'
    -- the run that ends was the only one
    rcases hapart with hnone | hnone
    · cases hnone
    · rw [hnone] at hturn'
      cases hturn'
  case h_8 => exact ⟨hsound.of_alike alike_drain, hquiet run?_drain, .inl run?_drain,
    hframe fun h => h.of_alike alike_drain⟩
  case h_9 input _ =>
    have halike : p.shared.Alike (p.shared.requeue input) := ⟨rfl, rfl, rfl⟩
    exact ⟨hsound.of_alike halike, by simp, .inl (by simp), hframe fun h => h.of_alike halike⟩
  case h_10 turn =>
    have hnone := run?_of_ready hund.1 hkept
    refine ⟨⟨hsound.aligned, hsound.below, hsound.interrupted⟩, ?_, .inr ⟨_, rfl, .inr hnone⟩,
      hnoRun hnone⟩
    intro t' ht' turn' hturn'
    rw [mem_singleton.mp ht'] at hturn'
    cases hturn'
    exact runs_resumeTurn hsound hund.2
  case h_11 => exact ⟨sound_reject hsound, by simp, .inl (by simp),
    hnoRun (run?_of_ready hund.1 hkept)⟩
  case h_12 =>
    have halike : p.shared.Alike p.shared.clearHistory := ⟨rfl, rfl, rfl⟩
    exact ⟨hsound.of_alike halike, by simp, .inl (by simp), hframe fun h => h.of_alike halike⟩

theorem act_kept (hkept : Kept p) {r : Shared × List Task} (hsound : r.1.Sound)
    (hframe : ∀ {turn}, p.shared.Runs turn → r.1.Runs turn) (hnone : ∀ t ∈ r.2, t.run? = none) :
    Kept (Pool.act p r) := by
  refine hkept.extend hsound (fun u _ hu turn hturn => hframe (hu turn hturn)) ?_ ?_ ?_
  · intro t ht turn hturn
    rw [hnone t ht] at hturn
    cases hturn
  · exact fun u _ t ht => .inr (hnone t ht)
  · exact List.Pairwise.imp_of_mem (fun ht _ _ => .inl (hnone _ ht))
      (List.pairwise_of_forall (fun _ _ => trivial))

theorem turnStep_kept {a : Action} (hkept : Kept p) (hund : Undisturbed p a)
    (hstep : turnStep cfg p a = some p') : Kept p' := by
  have hsound := hkept.shared
  cases a with
  | receive content attachments =>
    cases hstep
    refine hkept.start ?_ fun u _ => .inr rfl
    intro turn hturn
    cases hturn
  | decide requestId approved =>
    cases hstep
    exact act_kept hkept (hsound.of_alike alike_decide) (fun h => h.of_alike alike_decide)
      run?_decide
  | interrupt =>
    cases hstep
    exact act_kept hkept (sound_interrupt hsound) runs_interrupt (by simp)
  | undo id =>
    cases hstep
    refine act_kept hkept ?_ ?_ (by simp) <;> unfold Shared.undo <;>
      cases p.shared.undoManager.undo id p.shared.thread.turnNumber _ with
    | none => first | exact hsound | exact fun h => h
    | some r => first | exact sound_adopt hsound r | exact fun h => runs_adopt h r
  | redo id =>
    cases hstep
    refine act_kept hkept ?_ ?_ (by simp) <;> unfold Shared.redo <;>
      cases p.shared.undoManager.redo id p.shared.thread.turnNumber _ with
    | none => first | exact hsound | exact fun h => h
    | some r => first | exact sound_adopt hsound r | exact fun h => runs_adopt h r
  | resume checkpointId =>
    cases hstep
    refine act_kept hkept ?_ ?_ (by simp) <;> unfold Shared.resume <;>
      cases p.shared.undoManager.restore checkpointId with
    | none => first | exact hsound | exact fun h => h
    | some r => first | exact sound_adopt hsound r | exact fun h => runs_adopt h r
  | clear =>
    cases hstep
    exact act_kept hkept (sound_clear hsound) runs_clear (by simp [Task.run?])
  | advance i e =>
    obtain ⟨front, t, back, s', ts, htasks, rfl, hnext, rfl⟩ := Pool.advance_eq_some_iff.mp hstep
    have hget : p.tasks[front.length]? = some t := by simp [htasks]
    obtain ⟨hsound', hown, hruns, hframe⟩ :=
      next_kept hkept htasks (hund t (mem_def.mpr hget)) hnext
    dsimp only at hsound' hown hruns hframe
    refine hkept.replace Task.Apart.symm htasks hsound' hown hframe ?_ ?_
    · intro u hu hapart t' ht'
      rcases hruns with hnone | ⟨t'', hts, heq | hnone⟩
      · exact .inl (hnone t' ht')
      · rw [hts, mem_singleton] at ht'
        rw [ht', Task.Apart, heq]
        exact hapart
      · exact .inr (hnone u (Pool.mem_of_split htasks hu))
    · rcases hruns with hnone | ⟨t'', hts, -⟩
      · exact List.Pairwise.imp_of_mem (fun ht _ _ => .inl (hnone _ ht))
          (List.pairwise_of_forall (fun _ _ => trivial))
      · rw [hts]
        exact List.pairwise_singleton _ _

theorem confined_record {recording : Recording} (hsound : s.Sound) (hruns : s.Runs turn)
    (hund : turn ∈ s.log.ids ∨ s.log.ids = []) : Shared.OnlyIn turn s (s.record recording) :=
  onlyIn_modifyLast hsound (hund.imp_left hruns.last) rfl

theorem onlyIn_conclude {outcome : RunOutcome} (hsound : s.Sound)
    (hlast : s.log.ids.getLast? = some turn ∨ s.log.ids = []) :
    Shared.OnlyIn turn s (s.conclude turn outcome) := by
  cases outcome with
  | needApproval pending => exact fun _ _ _ _ => rfl
  | _ => exact onlyIn_modifyLast hsound hlast rfl

theorem conclude_of_nil (hturns : s.thread.turns = []) (hstate : s.thread.state = .idle)
    (hasks : outcome.asksApproval = false) :
    (s.conclude turn outcome).thread.turns = s.thread.turns ∧
      (s.conclude turn outcome).thread.state = s.thread.state := by
  cases outcome with
  | needApproval pending => cases hasks
  | _ => simp [Shared.conclude, Thread.concludeTurn, Thread.modifyLast, hturns, hstate]

theorem confined_finish (hsound : s.Sound) (hruns : s.Runs turn)
    (hund : s.Live turn ∨ (origin ≠ .approval ∧ s.thread.state = .interrupted) ∨
      (s.log.ids = [] ∧ outcome.asksApproval = false)) :
    Shared.OnlyIn turn s (s.finish turn outcome origin).1 ∧
      (¬ s.Live turn → (s.finish turn outcome origin).1.thread.turns = s.thread.turns ∧
        (s.finish turn outcome origin).1.thread.state = s.thread.state) := by
  -- the end is left on the thread, unless the run finds itself interrupted
  have hcases : (s.finish turn outcome origin).1 = s ∨
      (s.finish turn outcome origin).1 = s.conclude turn outcome ∧
        (origin ≠ .approval → s.thread.state ≠ .interrupted) := by
    cases origin with
    | approval => exact .inr ⟨rfl, fun h => absurd rfl h⟩
    | message input =>
      simp only [Shared.finish]
      split_ifs with hinterrupted
      · exact .inl rfl
      · exact .inr ⟨rfl, fun _ => hinterrupted⟩
  rcases hcases with heq | ⟨heq, hstate⟩
  · rw [heq]
    exact ⟨fun _ _ _ _ => rfl, fun _ => ⟨rfl, rfl⟩⟩
  rw [heq]
  rcases hund with hlive | ⟨horigin, hinterrupted⟩ | ⟨hnil, hasks⟩
  · exact ⟨onlyIn_conclude hsound (.inl (hruns.last hlive.1)), fun h => absurd hlive h⟩
  · exact absurd hinterrupted (hstate horigin)
  · have hturns : s.thread.turns = [] := by
      apply List.eq_nil_of_length_eq_zero
      rw [← hsound.aligned, hnil, List.length_nil]
    have hidle : s.thread.state = .idle := by
      apply hruns.gone
      rw [hnil]
      exact not_mem_nil
    exact ⟨onlyIn_conclude hsound (.inr hnil), fun _ => conclude_of_nil hturns hidle hasks⟩

theorem confined_reject (hsound : s.Sound) (hcurrent : s.Current turn) (toolName : Text) :
    Shared.OnlyIn turn s (s.reject toolName) ∧ s.Live turn :=
  ⟨onlyIn_modifyLast hsound (.inl hcurrent.1) rfl,
    mem_of_getLast? hcurrent.1, hcurrent.2⟩

theorem confined_of_kept {a : Action} (hkept : Kept p) (hund : Undisturbed p a) :
    Confined cfg p a := by
  cases a with
  | advance i e =>
    intro t ht turn hturn s' ts hnext
    have hmem : t ∈ p.tasks := List.mem_of_getElem? (mem_def.mp ht)
    have hundisturbed := hund t ht
    cases t with
    | running turn' origin =>
      cases hturn
      have hruns := hkept.tasks _ hmem turn rfl
      cases e with
      | record recording =>
        cases hnext
        exact ⟨confined_record hkept.shared hruns hundisturbed, False.elim⟩
      | finish outcome =>
        obtain ⟨honly, hlost⟩ := confined_finish hkept.shared hruns hundisturbed
        have hs' : (p.shared.finish turn outcome origin).1 = s' :=
          congrArg Prod.fst (Option.some.inj hnext)
        rw [hs'] at honly hlost
        exact ⟨honly, fun _ => hlost⟩
      | _ => cases hnext
    | rejected turn' toolName =>
      cases hturn
      cases e with
      | proceed =>
        cases hnext
        obtain ⟨honly, hlive⟩ := confined_reject hkept.shared hundisturbed.2 toolName
        exact ⟨honly, fun _ h => absurd hlive h⟩
      | _ => cases hnext
    | _ => cases hturn
  | _ => trivial

theorem kept_new (sourceChannel : Option Text) (maxCheckpoints : Nat) :
    Kept (TurnPool.new sourceChannel maxCheckpoints) :=
  .empty ⟨rfl, by simp [Shared.new], by simp [Shared.new]⟩

end Steps

/-- **Runs stay in their turns**, one at a time, if the steps find what they must find. -/
theorem confined_of_undisturbed {cfg : TurnConfig} {sourceChannel : Option Text}
    {maxCheckpoints : Nat} {actions : List Action} {p : TurnPool}
    (hrun : run (turnStep cfg) (.new sourceChannel maxCheckpoints) actions = some p)
    (h : Along (turnStep cfg) Undisturbed (.new sourceChannel maxCheckpoints) actions) :
    Along (turnStep cfg) (Confined cfg) (.new sourceChannel maxCheckpoints) actions ∧
      p.tasks.Pairwise Task.Apart := by
  have hnew := kept_new sourceChannel maxCheckpoints
  have hstep : ∀ s a s', Kept s → Undisturbed s a → turnStep cfg s a = some s' → Kept s' :=
    fun s a s' hs ha => turnStep_kept hs ha
  exact ⟨h.of_invariant hstep (fun s a hs ha => confined_of_kept hs ha) hnew,
    (Foundation.run_invariant hstep hnew h hrun).apart⟩

/-- A turn that asks for an approval and is resumed, and then an interrupted one. -/
def quietActions : List Action :=
  startOf 0 "a" ++
    [.advance 0 (.record (.error [] [])), .advance 0 (.finish (.needApproval sampleRequest)),
      .decide (some 7) true, .advance 0 .proceed, .advance 0 (.finish (.response []))] ++
    startOf 0 "b" ++ [.interrupt, .advance 0 (.finish (.response []))]

instance (s : Shared) (turn : TurnId) : Decidable (s.Live turn) :=
  inferInstanceAs (Decidable (_ ∧ _))

instance (s : Shared) (turn : TurnId) : Decidable (s.Current turn) :=
  inferInstanceAs (Decidable (_ ∧ _))

instance (p : TurnPool) : Decidable (Ready p) :=
  inferInstanceAs (Decidable (_ ∧ ∀ t ∈ p.tasks, ∀ turn ∈ t.run?, p.shared.Live turn))

instance (p : TurnPool) (e : Event) (t : Task) : Decidable (t.Undisturbed p e) := by
  cases e <;> cases t <;> unfold Task.Undisturbed <;> infer_instance

instance (p : TurnPool) (a : Action) : Decidable (Undisturbed p a) :=
  match a with
  | .advance i e => inferInstanceAs (Decidable (∀ t ∈ p.tasks[i]?, t.Undisturbed p e))
  | .receive _ _ | .decide _ _ | .interrupt | .undo _ | .redo _ | .resume _ | .clear =>
    isTrue trivial

theorem quiet_confined :
    Along (turnStep sampleTurnConfig) (Confined sampleTurnConfig) (.new none 20) quietActions := by
  obtain ⟨p, hrun⟩ : ∃ p, run (turnStep sampleTurnConfig) (.new none 20) quietActions = some p :=
    ⟨_, rfl⟩
  exact (confined_of_undisturbed hrun (by decide +kernel)).1

/-- A message behind an interruption starts a turn; the interrupted run responds in it. -/
def overtaken : List Action :=
  startOf 0 "a" ++ [.interrupt] ++ startOf 1 "b" ++ [.advance 0 (.finish (.response "x".toList))]

/-- A run that an approval has resumed does not see that it was interrupted. -/
def unnoticed : List Action :=
  startOf 0 "a" ++
    [.advance 0 (.finish (.needApproval sampleRequest)), .decide none true, .advance 0 .proceed,
      .interrupt, .advance 0 (.finish (.response "x".toList))]

/-- The interrupted run responds in the next turn; both were in progress at once. -/
theorem interrupted_unconfined :
    ¬ Along (turnStep sampleTurnConfig) (Confined sampleTurnConfig) (.new none 20) overtaken ∧
      (∃ p, run (turnStep sampleTurnConfig) (.new none 20)
        (startOf 0 "a" ++ [.interrupt] ++ startOf 1 "b") = some p ∧ ¬ p.tasks.Pairwise Task.Apart) ∧
      ¬ Along (turnStep sampleTurnConfig) (Confined sampleTurnConfig) (.new none 20) unnoticed := by
  refine ⟨fun h => ?_, ⟨_, rfl, fun h => ?_⟩, fun h => ?_⟩
  · have hlast := ((Along.append_iff.mp h).2 _ rfl).1 _ rfl 0 rfl _ _ rfl
    -- the turn of the second message has the response of the first run
    have hsecond := hlast.1 1 1 rfl (by decide)
    cases hsecond
  · obtain h | h := (List.pairwise_cons.mp h).1 _ (List.mem_singleton_self _)
    · cases h
    · cases h
  · have hlast := ((Along.append_iff.mp (show Along _ _ _ ((startOf 0 "a" ++
      [.advance 0 (.finish (.needApproval sampleRequest)), .decide none true, .advance 0 .proceed,
        .interrupt]) ++ [.advance 0 (.finish (.response "x".toList))]) from h)).2 _ rfl).1
      _ rfl 0 rfl _ _ rfl
    cases (hlast.2 trivial (by decide)).2

end IronClaw.Agent
