import IronClaw.Foundation.Queue

/-!
# Undo and redo of a conversation

An undo saves the current state for a redo and goes back to the latest checkpoint; a redo goes
forward again. Both stacks together stay within the limit.
-/

namespace IronClaw.Agent

open Foundation (length_popFrontWhileOver_le popFrontWhileOver popFrontWhileOver_of_le)
open List (forall_mem_nil length_append length_singleton map_append)

abbrev CheckpointId := Nat

structure Conversation (Message : Type) where
  turnNumber : Nat
  messages : List Message
deriving DecidableEq

structure Checkpoint (Message : Type) where
  id : CheckpointId
  turnNumber : Nat
  messages : List Message
  description : String
deriving DecidableEq

structure UndoManager (Message : Type) where
  undoStack : List (Checkpoint Message)
  redoStack : List (Checkpoint Message)
  maxCheckpoints : Nat
deriving DecidableEq

variable {Message : Type}

def turnDescription (turn : Nat) : String := "Turn " ++ toString turn

namespace UndoManager

def new (max : Nat) : UndoManager Message := ⟨[], [], max⟩

def pushUndo (m : UndoManager Message) (c : Checkpoint Message) : UndoManager Message :=
  { m with undoStack := popFrontWhileOver m.maxCheckpoints (m.undoStack ++ [c]) }

/-- Create a checkpoint at the current state. It starts a new branch of the history. -/
def checkpoint (m : UndoManager Message) (id : CheckpointId) (turn : Nat)
    (messages : List Message) (description : String) : UndoManager Message :=
  pushUndo { m with redoStack := [] } ⟨id, turn, messages, description⟩

def undo (m : UndoManager Message) (id : CheckpointId) (currentTurn : Nat)
    (currentMessages : List Message) : Option (Checkpoint Message × UndoManager Message) :=
  m.undoStack.getLast?.map fun top =>
    (top, { m with
      redoStack := m.redoStack ++ [⟨id, currentTurn, currentMessages, turnDescription currentTurn⟩]
      undoStack := m.undoStack.dropLast })

def redo (m : UndoManager Message) (id : CheckpointId) (currentTurn : Nat)
    (currentMessages : List Message) : Option (Checkpoint Message × UndoManager Message) :=
  m.redoStack.getLast?.map fun top =>
    (top, { pushUndo m ⟨id, currentTurn, currentMessages, turnDescription currentTurn⟩ with
      redoStack := m.redoStack.dropLast })

def clear (m : UndoManager Message) : UndoManager Message :=
  { m with undoStack := [], redoStack := [] }

def restore (m : UndoManager Message) (id : CheckpointId) :
    Option (Checkpoint Message × UndoManager Message) :=
  let pos := m.undoStack.findIdx (·.id = id)
  let kept := m.undoStack.take (pos + 1)
  if pos < m.undoStack.length then
    kept.getLast?.map fun top => (top, { m with undoStack := kept.dropLast, redoStack := [] })
  else none

def undoCount (m : UndoManager Message) : Nat := m.undoStack.length

def redoCount (m : UndoManager Message) : Nat := m.redoStack.length

end UndoManager

structure Session (Message : Type) where
  manager : UndoManager Message
  current : Conversation Message
deriving DecidableEq

/-- What a caller does. A new checkpoint gets the id of the operation. -/
inductive UndoOp (Message : Type) where
  | checkpoint (id : CheckpointId) (description : String)
  | undo (id : CheckpointId)
  | redo (id : CheckpointId)
  | restore (checkpointId : CheckpointId)
  | clear
  /-- The conversation goes on, from one state to another. -/
  | converse (current : Conversation Message)

namespace Session

def start (max : Nat) (current : Conversation Message) : Session Message := ⟨.new max, current⟩

def adopt (r : Checkpoint Message × UndoManager Message) : Session Message :=
  ⟨r.2, ⟨r.1.turnNumber, r.1.messages⟩⟩

def undo (s : Session Message) (id : CheckpointId) : Option (Session Message) :=
  (s.manager.undo id s.current.turnNumber s.current.messages).map adopt

def redo (s : Session Message) (id : CheckpointId) : Option (Session Message) :=
  (s.manager.redo id s.current.turnNumber s.current.messages).map adopt

def undos (s : Session Message) (ids : List CheckpointId) : Option (Session Message) :=
  ids.foldlM undo s

def redos (s : Session Message) (ids : List CheckpointId) : Option (Session Message) :=
  ids.foldlM redo s

def perform (s : Session Message) : UndoOp Message → Session Message
  | .checkpoint id description =>
    { s with manager :=
        s.manager.checkpoint id s.current.turnNumber s.current.messages description }
  | .undo id => (s.undo id).getD s
  | .redo id => (s.redo id).getD s
  | .restore checkpointId => ((s.manager.restore checkpointId).map adopt).getD s
  | .clear => { s with manager := s.manager.clear }
  | .converse current => { s with current }

def history (s : Session Message) (ops : List (UndoOp Message)) : Session Message :=
  ops.foldl perform s

def count (s : Session Message) : Nat := s.manager.undoCount + s.manager.redoCount

end Session

def Checkpoint.content (c : Checkpoint Message) : Conversation Message × String :=
  (⟨c.turnNumber, c.messages⟩, c.description)

def Checkpoint.retitle (c : Checkpoint Message) : Checkpoint Message :=
  { c with description := turnDescription c.turnNumber }

def retitleLast (k : Nat) (stack : List (Checkpoint Message)) : List (Checkpoint Message) :=
  stack.take (stack.length - k) ++ (stack.drop (stack.length - k)).map Checkpoint.retitle

theorem retitleLast_zero (stack : List (Checkpoint Message)) : retitleLast 0 stack = stack := by
  simp [retitleLast]

theorem retitleLast_concat (k : Nat) (front : List (Checkpoint Message))
    (top : Checkpoint Message) :
    retitleLast (k + 1) (front ++ [top]) = retitleLast k front ++ [top.retitle] := by
  have hle : front.length - k ≤ front.length := Nat.sub_le _ _
  simp only [retitleLast, length_append, length_singleton, Nat.add_sub_add_right]
  rw [List.take_append_of_le_length hle, List.drop_append_of_le_length hle, map_append,
    List.append_assoc]
  rfl

namespace Session

/-- The two sessions are equal up to the ids of their checkpoints. -/
structure Alike (s t : Session Message) : Prop where
  current : s.current = t.current
  undoStack :
    s.manager.undoStack.map Checkpoint.content = t.manager.undoStack.map Checkpoint.content
  redoStack :
    s.manager.redoStack.map Checkpoint.content = t.manager.redoStack.map Checkpoint.content
  maxCheckpoints : s.manager.maxCheckpoints = t.manager.maxCheckpoints

/-- The latest `k` checkpoints are described by their turns. -/
def retitled (k : Nat) (s : Session Message) : Session Message :=
  { s with manager := { s.manager with undoStack := retitleLast k s.manager.undoStack } }

theorem retitled_zero (s : Session Message) : s.retitled 0 = s := by
  simp only [retitled, retitleLast_zero]

def Within (s : Session Message) : Prop := s.count ≤ s.manager.maxCheckpoints

variable {s s' : Session Message} {id : CheckpointId}

theorem undo_eq_some_iff :
    s.undo id = some s' ↔ ∃ front top, s.manager.undoStack = front ++ [top] ∧
      s' = ⟨{ s.manager with
        undoStack := front
        redoStack := s.manager.redoStack ++ [⟨id, s.current.turnNumber, s.current.messages,
          turnDescription s.current.turnNumber⟩] }, ⟨top.turnNumber, top.messages⟩⟩ := by
  rcases List.eq_nil_or_concat' s.manager.undoStack with h | ⟨front, top, h⟩
  · simp [undo, UndoManager.undo, h]
  · simp only [undo, UndoManager.undo, h, List.getLast?_concat, List.dropLast_concat,
      Option.map_some, Option.some.injEq, adopt]
    constructor
    · intro hs
      exact ⟨front, top, rfl, hs.symm⟩
    · rintro ⟨front', top', hstack, rfl⟩
      obtain ⟨rfl, htop⟩ := List.append_inj' hstack rfl
      cases htop
      rfl

theorem redo_eq_some_iff (hs : s.Within) :
    s.redo id = some s' ↔ ∃ front top, s.manager.redoStack = front ++ [top] ∧
      s' = ⟨{ s.manager with
        undoStack := s.manager.undoStack ++ [⟨id, s.current.turnNumber, s.current.messages,
          turnDescription s.current.turnNumber⟩]
        redoStack := front }, ⟨top.turnNumber, top.messages⟩⟩ := by
  rcases List.eq_nil_or_concat' s.manager.redoStack with h | ⟨front, top, h⟩
  · simp [redo, UndoManager.redo, h]
  · have hroom : s.manager.undoStack.length + 1 ≤ s.manager.maxCheckpoints := by
      have := hs
      simp only [Within, count, UndoManager.undoCount, UndoManager.redoCount, h,
        length_append, length_singleton] at this
      omega
    -- what leaves one stack makes room on the other
    have hpush : ∀ c, popFrontWhileOver s.manager.maxCheckpoints (s.manager.undoStack ++ [c]) =
        s.manager.undoStack ++ [c] := by
      intro c
      apply popFrontWhileOver_of_le
      simpa only [length_append, length_singleton] using hroom
    simp only [redo, UndoManager.redo, UndoManager.pushUndo, h, hpush, List.getLast?_concat,
      List.dropLast_concat, Option.map_some, Option.some.injEq, adopt]
    constructor
    · intro hs
      exact ⟨front, top, rfl, hs.symm⟩
    · rintro ⟨front', top', hstack, rfl⟩
      obtain ⟨rfl, htop⟩ := List.append_inj' hstack rfl
      cases htop
      rfl

theorem count_of_undo (h : s.undo id = some s') : s'.count = s.count := by
  obtain ⟨front, top, hstack, rfl⟩ := undo_eq_some_iff.mp h
  simp only [count, UndoManager.undoCount, UndoManager.redoCount, hstack, length_append,
    length_singleton]
  omega

theorem count_of_redo (hs : s.Within) (h : s.redo id = some s') : s'.count = s.count := by
  obtain ⟨front, top, hstack, rfl⟩ := (redo_eq_some_iff hs).mp h
  simp only [count, UndoManager.undoCount, UndoManager.redoCount, hstack, length_append,
    length_singleton]
  omega

theorem count_of_restore {s : Session Message} {r : Checkpoint Message × UndoManager Message}
    (h : s.manager.restore id = some r) : (adopt r).count ≤ s.manager.undoCount := by
  simp only [UndoManager.restore, Option.ite_none_right_eq_some, Option.map_eq_some_iff] at h
  obtain ⟨-, top, -, rfl⟩ := h
  simp only [adopt, count, UndoManager.undoCount, UndoManager.redoCount, List.length_dropLast,
    List.length_take, List.length_nil]
  omega

theorem maxCheckpoints_perform (s : Session Message) (op : UndoOp Message) :
    (s.perform op).manager.maxCheckpoints = s.manager.maxCheckpoints := by
  cases op with
  | checkpoint id description => rfl
  | undo id =>
    rw [perform]
    cases h : s.undo id with
    | none => rfl
    | some s' =>
      obtain ⟨front, top, -, rfl⟩ := undo_eq_some_iff.mp h
      rfl
  | redo id =>
    simp only [perform, redo, UndoManager.redo]
    cases s.manager.redoStack.getLast? <;> rfl
  | restore checkpointId =>
    rw [perform]
    cases h : s.manager.restore checkpointId with
    | none => rfl
    | some r =>
      simp only [UndoManager.restore, Option.ite_none_right_eq_some, Option.map_eq_some_iff] at h
      obtain ⟨-, top, -, rfl⟩ := h
      rfl
  | clear => rfl
  | converse current => rfl

theorem within_perform {s : Session Message} (hs : s.Within) (op : UndoOp Message) :
    (s.perform op).Within := by
  show (s.perform op).count ≤ _
  rw [maxCheckpoints_perform]
  cases op with
  | checkpoint id description =>
    have hle := length_popFrontWhileOver_le s.manager.maxCheckpoints
      (s.manager.undoStack ++ [⟨id, s.current.turnNumber, s.current.messages, description⟩])
    exact hle
  | undo id =>
    rw [perform]
    cases h : s.undo id with
    | none => exact hs
    | some s' => exact Nat.le_trans (Nat.le_of_eq (count_of_undo h)) hs
  | redo id =>
    rw [perform]
    cases h : s.redo id with
    | none => exact hs
    | some s' => exact Nat.le_trans (Nat.le_of_eq (count_of_redo hs h)) hs
  | restore checkpointId =>
    rw [perform]
    cases h : s.manager.restore checkpointId with
    | none => exact hs
    | some r =>
      calc (adopt r).count ≤ s.manager.undoCount := count_of_restore h
        _ ≤ s.count := Nat.le_add_right _ _
        _ ≤ _ := hs
  | clear => exact Nat.zero_le _
  | converse current => exact hs

theorem redos_concat {s s' s'' : Session Message} {ids : List CheckpointId}
    (hs : s.redos ids = some s') (hr : s'.redo id = some s'') :
    s.redos (ids ++ [id]) = some s'' := by
  rw [redos, List.foldlM_append]
  show (s.redos ids).bind _ = _
  rw [hs]
  show (s'.redo id).bind some = _
  rw [hr]
  rfl

theorem redos_of_undos {ids ids' : List CheckpointId} (hs : s.Within)
    (hlength : ids.length = ids'.length) (hu : s.undos ids = some s') :
    ∃ s'', s'.redos ids' = some s'' ∧ s''.Alike (s.retitled ids.length) := by
  induction ids generalizing s ids' with
  | nil =>
    obtain rfl : s = s' := Option.some.inj hu
    obtain rfl := List.eq_nil_of_length_eq_zero hlength.symm
    refine ⟨s, rfl, ?_⟩
    rw [List.length_nil, retitled_zero]
    exact ⟨rfl, rfl, rfl, rfl⟩
  | cons id ids ih =>
    obtain ⟨s₁, h₁, hu⟩ := Option.bind_eq_some_iff.mp hu
    have hs₁ : s₁.Within := by
      have := within_perform hs (.undo id)
      rwa [perform, h₁, Option.getD_some] at this
    rcases List.eq_nil_or_concat' ids' with rfl | ⟨js, j, rfl⟩
    · cases hlength
    -- the inner undos are taken back first, up to the state after the outer undo
    have hlength : ids.length = js.length := by simpa using hlength
    obtain ⟨s₂, h₂, halike⟩ := ih hs₁ hlength hu
    obtain ⟨front, top, hstack, rfl⟩ := undo_eq_some_iff.mp h₁
    obtain ⟨hcurrent, hundo, hredo, hmax⟩ := halike
    simp only [retitled] at hcurrent hundo hredo hmax
    -- what the outer undo saved is still on top of the redo stack
    rw [map_append, List.map_singleton] at hredo
    obtain ⟨front₂, last₂, hsplit, hfront₂, hlast₂⟩ := List.map_eq_append_iff.mp hredo
    obtain ⟨top₂, rfl, htop₂⟩ := List.map_eq_singleton_iff.mp hlast₂
    have hs₂ : s₂.Within := by
      have hundoLength := congrArg List.length hundo
      have hredoLength := congrArg List.length hredo
      have hcount := hs
      simp only [List.length_map, length_append, length_singleton, retitleLast,
        List.length_take, List.length_drop] at hundoLength hredoLength
      simp only [Within, count, UndoManager.undoCount, UndoManager.redoCount, hstack,
        length_append, length_singleton] at hcount ⊢
      omega
    refine ⟨_, redos_concat h₂ ((redo_eq_some_iff hs₂).mpr ⟨front₂, top₂, hsplit, rfl⟩), ?_⟩
    refine ⟨(Prod.mk.inj htop₂).1, ?_, hfront₂, hmax⟩
    simp only [retitled, hstack, List.length_cons, retitleLast_concat, map_append, hundo,
      hcurrent]
    rfl

theorem undo_of_redo (hs : s.Within)
    (htitles : ∀ c ∈ s.manager.redoStack, c.description = turnDescription c.turnNumber)
    (hr : s.redo id = some s') (id' : CheckpointId) :
    ∃ s'', s'.undo id' = some s'' ∧ s''.Alike s := by
  obtain ⟨front, top, hstack, rfl⟩ := (redo_eq_some_iff hs).mp hr
  refine ⟨_, undo_eq_some_iff.mpr ⟨_, _, rfl, rfl⟩, rfl, rfl, ?_, rfl⟩
  have htop : top.description = turnDescription top.turnNumber :=
    htitles top (by rw [hstack]; exact List.mem_concat_self)
  simp only [hstack, map_append, List.map_singleton, Checkpoint.content, htop]

def Titled (s : Session Message) : Prop :=
  ∀ c ∈ s.manager.redoStack, c.description = turnDescription c.turnNumber

theorem titled_perform {s : Session Message} (hs : s.Titled) (op : UndoOp Message) :
    (s.perform op).Titled := by
  cases op with
  | checkpoint id description => exact forall_mem_nil _
  | undo id =>
    rw [perform]
    cases h : s.undo id with
    | none => exact hs
    | some s' =>
      obtain ⟨front, top, -, rfl⟩ := undo_eq_some_iff.mp h
      intro c hc
      rcases List.mem_append.mp hc with hc | hc
      · exact hs c hc
      · obtain rfl := List.mem_singleton.mp hc
        rfl
  | redo id =>
    rw [perform]
    cases h : s.redo id with
    | none => exact hs
    | some s' =>
      simp only [redo, UndoManager.redo, Option.map_map, Option.map_eq_some_iff] at h
      obtain ⟨top, -, rfl⟩ := h
      intro c hc
      exact hs c (List.dropLast_subset _ hc)
  | restore checkpointId =>
    rw [perform]
    cases h : s.manager.restore checkpointId with
    | none => exact hs
    | some r =>
      simp only [UndoManager.restore, Option.ite_none_right_eq_some, Option.map_eq_some_iff] at h
      obtain ⟨-, top, -, rfl⟩ := h
      exact forall_mem_nil _
  | clear => exact forall_mem_nil _
  | converse current => exact hs

theorem within_of_history (max : Nat) (current : Conversation Message)
    (ops : List (UndoOp Message)) :
    ((start max current).history ops).Within ∧ ((start max current).history ops).Titled ∧
      ((start max current).history ops).manager.maxCheckpoints = max := by
  suffices h : ∀ s : Session Message, s.Within → s.Titled →
      (s.history ops).Within ∧ (s.history ops).Titled ∧
        (s.history ops).manager.maxCheckpoints = s.manager.maxCheckpoints from
    h (start max current) (Nat.zero_le _) (forall_mem_nil _)
  induction ops with
  | nil => exact fun s hw ht => ⟨hw, ht, rfl⟩
  | cons op ops ih =>
    intro s hw ht
    obtain ⟨hw', ht', hmax⟩ := ih (s.perform op) (within_perform hw op) (titled_perform ht op)
    exact ⟨hw', ht', hmax.trans (maxCheckpoints_perform s op)⟩

/-- Undo and redo walk on one timeline, whose length stays within `max`. -/
structure Timeline (max : Nat) (s : Session Message) : Prop where
  /-- The checkpoint that was gone back to is described by its turn afterwards. -/
  redo_undo : ∀ id id' s', s.undo id = some s' →
    ∃ s'', s'.redo id' = some s'' ∧ s''.Alike (s.retitled 1)
  undo_redo : ∀ id id' s', s.redo id = some s' → ∃ s'', s'.undo id' = some s'' ∧ s''.Alike s
  redos_undos : ∀ ids ids' s', ids.length = ids'.length → s.undos ids = some s' →
    ∃ s'', s'.redos ids' = some s'' ∧ s''.Alike (s.retitled ids.length)
  count : ∀ op, (s.perform op).count ≠ s.count →
    (∃ id description, op = .checkpoint id description) ∨ (∃ id, op = .restore id) ∨ op = .clear
  bounded : s.count ≤ max

theorem count_perform {s : Session Message} (hs : s.Within) {op : UndoOp Message}
    (h : (s.perform op).count ≠ s.count) :
    (∃ id description, op = .checkpoint id description) ∨ (∃ id, op = .restore id) ∨
      op = .clear := by
  cases op with
  | checkpoint id description => exact .inl ⟨id, description, rfl⟩
  | restore checkpointId => exact .inr (.inl ⟨checkpointId, rfl⟩)
  | clear => exact .inr (.inr rfl)
  | converse current => exact absurd rfl h
  | undo id =>
    refine absurd ?_ h
    rw [perform]
    cases hu : s.undo id with
    | none => rfl
    | some s' => exact count_of_undo hu
  | redo id =>
    refine absurd ?_ h
    rw [perform]
    cases hr : s.redo id with
    | none => rfl
    | some s' => exact count_of_redo hs hr

/-- **Undo and redo are a timeline.** Redos take back undos up to ids and descriptions, and undos
redos up to ids, within the limit. -/
theorem timeline_of_history (max : Nat) (current : Conversation Message)
    (ops : List (UndoOp Message)) : ((start max current).history ops).Timeline max := by
  obtain ⟨hwithin, htitled, hmax⟩ := within_of_history max current ops
  refine ⟨fun id id' s' hu => ?_, fun id id' s' hr => ?_, fun ids ids' s' hlength hu => ?_,
    fun op h => count_perform hwithin h, ?_⟩
  · have hone : Session.undos _ [id] = some s' := Option.bind_eq_some_iff.mpr ⟨s', hu, rfl⟩
    obtain ⟨s'', hs'', halike⟩ :=
      redos_of_undos hwithin (show [id].length = [id'].length from rfl) hone
    obtain ⟨t, ht, htt⟩ := Option.bind_eq_some_iff.mp hs''
    cases htt
    exact ⟨s'', ht, halike⟩
  · exact undo_of_redo hwithin htitled hr id'
  · exact redos_of_undos hwithin hlength hu
  · calc _ ≤ _ := hwithin
      _ = max := hmax

/-- The description that a checkpoint was created with is lost by an undo and a redo. -/
theorem redo_loses_description :
    ∃ s' s'' : Session String,
      ((start 20 ⟨0, []⟩).history
        [.checkpoint 0 "Before turn 0", .converse ⟨1, ["hello"]⟩]).undo 1 = some s' ∧
      s'.redo 2 = some s'' ∧
      ¬ s''.Alike ((start 20 ⟨0, []⟩).history
        [.checkpoint 0 "Before turn 0", .converse ⟨1, ["hello"]⟩]) := by
  refine ⟨_, _, rfl, rfl, fun halike => ?_⟩
  exact absurd halike.undoStack (by decide)

end Session

end IronClaw.Agent
