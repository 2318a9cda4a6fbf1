import Mathlib.Data.List.Induction
import IronClaw.Llm.Message

/-!
# Compaction of a context

When a context is too long, it is cut in front of the last message of the user, and a note says so.
Results stay with the calls they belong to.
-/

namespace IronClaw.Agent

open Foundation (Text)
open Llm (ChatMessage ToolCall)

def rposition {α : Type*} (p : α → Bool) : List α → Option Nat
  | [] => none
  | a :: l =>
    match rposition p l with
    | some i => some (i + 1)
    | none => if p a then some 0 else none

def isSystem (m : ChatMessage) : Bool := m.role = .system

def isUser (m : ChatMessage) : Bool := m.role = .user

def compactionNote : ChatMessage :=
  .system ("[Note: Earlier conversation history was automatically compacted to fit within the " ++
    "context window. The most recent exchange is preserved below.]").toList

def compactMessagesForRetry (messages : List ChatMessage) : List ChatMessage :=
  match rposition isUser messages with
  | some idx =>
    (messages.take idx).filter isSystem ++ (if 0 < idx then [compactionNote] else []) ++
      messages.drop idx
  | none => messages.filter isSystem ++ messages.filter fun m => !isSystem m

section Cut

variable {α : Type*} {p : α → Bool}

theorem rposition_eq_none {l : List α} (h : ∀ a ∈ l, p a = false) : rposition p l = none := by
  induction l with
  | nil => rfl
  | cons a l ih =>
    rw [List.forall_mem_cons] at h
    simp [rposition, ih h.2, h.1]

theorem rposition_append {before after : List α} {a : α} (ha : p a = true)
    (h : ∀ b ∈ after, p b = false) : rposition p (before ++ a :: after) = some before.length := by
  induction before with
  | nil => simp [rposition, rposition_eq_none h, ha]
  | cons b before ih => simp [rposition, ih]

theorem exists_last {l : List α} (h : ∃ a ∈ l, p a = true) :
    ∃ before a after, l = before ++ a :: after ∧ p a = true ∧ ∀ b ∈ after, p b = false := by
  induction l with
  | nil => simp at h
  | cons b l ih =>
    by_cases hl : ∃ a ∈ l, p a = true
    · obtain ⟨before, a, after, rfl, ha, hafter⟩ := ih hl
      exact ⟨b :: before, a, after, rfl, ha, hafter⟩
    · have hb : p b = true := by simpa [hl] using h
      exact ⟨[], b, l, rfl, hb, by simpa using hl⟩

theorem compactMessagesForRetry_eq {before after : List ChatMessage} {m : ChatMessage}
    (hm : m.role = .user) (h : ∀ b ∈ after, b.role ≠ .user) :
    compactMessagesForRetry (before ++ m :: after) =
      before.filter isSystem ++ (if 0 < before.length then [compactionNote] else []) ++
        m :: after := by
  have hposition : rposition isUser (before ++ m :: after) = some before.length :=
    rposition_append (by simp [isUser, hm]) (by simpa [isUser] using h)
  simp [compactMessagesForRetry, hposition]

end Cut

/-- Behind `before`, a result follows its assistant message, with only results in between. -/
def Answered (before : List ChatMessage) (id : Text) : Prop :=
  ∃ front content calls results,
    before = front ++ .assistantWithToolCalls content calls :: results ∧
      id ∈ calls.map ToolCall.id ∧ ∀ r ∈ results, r.role = .tool

def Paired (messages : List ChatMessage) : Prop :=
  ∀ before m after, messages = before ++ m :: after → ∀ id, m.resultOf = some id →
    Answered before id

section Paired

variable {messages : List ChatMessage} {m : ChatMessage}

theorem role_of_resultOf {id : Text} (h : m.resultOf = some id) : m.role = .tool := by
  by_contra hrole
  rw [ChatMessage.resultOf_eq_none_iff.mpr hrole] at h
  cases h

theorem Answered.prepend {before : List ChatMessage} {id : Text} (h : Answered before id)
    (front : List ChatMessage) : Answered (front ++ before) id := by
  obtain ⟨front', content, calls, results, rfl, hid, hresults⟩ := h
  exact ⟨front ++ front', content, calls, results, by simp, hid, hresults⟩

theorem paired_nil : Paired [] := by
  intro before m after heq
  simp at heq

theorem paired_snoc_iff : Paired (messages ++ [m]) ↔
      Paired messages ∧ ∀ id, m.resultOf = some id → Answered messages id := by
  constructor
  · intro h
    refine ⟨fun before m' after heq => ?_, h messages m [] rfl⟩
    exact h before m' (after ++ [m]) (by simp [heq])
  · rintro ⟨h, hm⟩ before m' after heq id hid
    -- the result is the new message, or was there before
    rcases List.eq_nil_or_concat after with rfl | ⟨after, last, rfl⟩
    · obtain ⟨rfl, hlast⟩ := List.append_inj' heq rfl
      cases hlast
      exact hm id hid
    · rw [List.concat_eq_append, ← List.cons_append, ← List.append_assoc] at heq
      obtain ⟨rfl, -⟩ := List.append_inj' heq rfl
      exact h before m' after rfl id hid

theorem Paired.append {others : List ChatMessage} (h : Paired messages)
    (hothers : ∀ m ∈ others, m.role ≠ .tool) : Paired (messages ++ others) := by
  induction others using List.reverseRecOn with
  | nil => simpa using h
  | append_singleton others last ih =>
    rw [← List.append_assoc, paired_snoc_iff]
    refine ⟨ih fun m hm => hothers m (by simp [hm]), fun id hid => ?_⟩
    exact absurd (role_of_resultOf hid) (hothers last (by simp))

theorem Paired.append_batch {content : Option Text} {calls : List ToolCall}
    {results : List ChatMessage} (h : Paired messages)
    (hresults : ∀ r ∈ results, ∃ id ∈ calls.map ToolCall.id, r.resultOf = some id) :
    Paired (messages ++ .assistantWithToolCalls content calls :: results) := by
  induction results using List.reverseRecOn with
  | nil =>
    refine h.append fun m hm => ?_
    rw [List.mem_singleton.mp hm]
    exact nofun
  | append_singleton results last ih =>
    rw [← List.cons_append, ← List.append_assoc, paired_snoc_iff]
    refine ⟨ih fun r hr => hresults r (by simp [hr]), fun id hid => ?_⟩
    -- between the last result and the calls there are the other results only
    obtain ⟨id', hmem, hid'⟩ := hresults last (by simp)
    rw [hid] at hid'
    cases hid'
    refine ⟨messages, content, calls, results, rfl, hmem, fun r hr => ?_⟩
    obtain ⟨_, -, hr'⟩ := hresults r (by simp [hr])
    exact role_of_resultOf hr'

theorem Paired.of_append {front after : List ChatMessage} (h : Paired (front ++ m :: after))
    (hm : m.role ≠ .tool) : Paired (m :: after) := by
  intro before r rest heq id hid
  have hne : before ≠ [] := by
    rintro rfl
    obtain ⟨rfl, -⟩ := List.cons.inj heq
    exact hm (role_of_resultOf hid)
  obtain ⟨m', before, rfl⟩ := List.exists_cons_of_ne_nil hne
  obtain ⟨rfl, heq⟩ := List.cons.inj heq
  obtain ⟨front', content, calls, results, hsplit, hmem, hresults⟩ :=
    h (front ++ m :: before) r rest (by simp [heq]) id hid
  -- the message in front of the cut is no result, so the call is not in front of it
  rcases List.append_eq_append_iff.mp hsplit with ⟨between, rfl, hback⟩ | ⟨between, rfl, hback⟩
  · exact ⟨between, content, calls, results, hback, hmem, hresults⟩
  · cases between with
    | nil => exact ⟨[], content, calls, results, by simpa using hback.symm, hmem, hresults⟩
    | cons call between =>
      obtain ⟨-, rfl⟩ := List.cons.inj hback
      exact absurd (hresults m (by simp)) hm

theorem Paired.prepend {front : List ChatMessage} (h : Paired messages)
    (hfront : ∀ m ∈ front, m.role ≠ .tool) : Paired (front ++ messages) := by
  intro before r after heq id hid
  rcases List.append_eq_append_iff.mp heq with ⟨between, rfl, hback⟩ | ⟨between, rfl, hback⟩
  · exact (h between r after hback id hid).prepend front
  · cases between with
    | nil => simpa using (h [] r after (by simpa using hback.symm) id hid).prepend before
    | cons r' between =>
      obtain ⟨rfl, -⟩ := List.cons.inj hback
      exact absurd (role_of_resultOf hid) (hfront r (by simp))

theorem Paired.compact (h : Paired messages) (huser : ∃ m ∈ messages, m.role = .user) :
    Paired (compactMessagesForRetry messages) := by
  obtain ⟨before, m, after, rfl, hm, hafter⟩ :=
    exists_last (p := isUser) (l := messages) (by simpa [isUser] using huser)
  have hm : m.role = .user := by simpa [isUser] using hm
  rw [compactMessagesForRetry_eq hm (by simpa [isUser] using hafter)]
  -- in front of the cut stay the system messages and the note
  refine (h.of_append (by simp [hm])).prepend fun m' hm' => ?_
  rcases List.mem_append.mp hm' with hm' | hm'
  · have hsystem : m'.role = .system := by simpa [isSystem] using (List.mem_filter.mp hm').2
    simp [hsystem]
  · split at hm'
    · rw [List.mem_singleton.mp hm']
      exact nofun
    · cases hm'

end Paired

/-- A compaction should keep the system messages before the current turn, and the turn, with every
result behind its call. -/
structure KeepsExchange (messages turn : List ChatMessage) : Prop where
  kept : ∃ older, messages = older ++ turn ∧
    List.Sublist (older.filter isSystem ++ turn) (compactMessagesForRetry messages)
  paired : Paired (compactMessagesForRetry messages)

/-- The context ends with the turn, and the turn has only one message of the user. -/
def Intact (messages turn : List ChatMessage) : Prop :=
  (∃ older, messages = older ++ turn) ∧ ∀ m ∈ turn.tail, m.role ≠ .user

theorem countP_compact {messages : List ChatMessage} (h : ∃ m ∈ messages, m.role = .user) :
    (compactMessagesForRetry messages).countP isUser = 1 := by
  obtain ⟨before, m, after, rfl, hm, hafter⟩ :=
    exists_last (p := isUser) (l := messages) (by simpa [isUser] using h)
  have hrole : m.role = .user := by simpa [isUser] using hm
  rw [compactMessagesForRetry_eq hrole (by simpa [isUser] using hafter)]
  have hsystem : (before.filter isSystem).countP isUser = 0 := by
    rw [List.countP_eq_zero]
    intro m' hm'
    have hsystem : m'.role = .system := by simpa [isSystem] using (List.mem_filter.mp hm').2
    simp [isUser, hsystem]
  have hnote : (if 0 < before.length then [compactionNote] else []).countP isUser = 0 := by
    split <;> rfl
  have hafter : after.countP isUser = 0 := by simpa [List.countP_eq_zero] using hafter
  simp only [List.countP_append, List.countP_cons, hsystem, hnote, hafter, hm, if_true]

/-- **What a compaction keeps**: the current exchange, if and only if the context still ends with it
and the user has only its first message. -/
theorem keepsExchange_iff {messages turn : List ChatMessage} (hpaired : Paired messages)
    (huser : ∃ m ∈ messages, m.role = .user) (hturn : ∃ m rest, turn = m :: rest ∧ m.role = .user) :
    KeepsExchange messages turn ↔ Intact messages turn := by
  obtain ⟨m, rest, rfl, hm⟩ := hturn
  constructor
  · rintro ⟨⟨older, heq, hsub⟩, -⟩
    refine ⟨⟨older, heq⟩, ?_⟩
    -- the turn has at most as many messages of the user as are kept
    have hcount := ((List.sublist_append_right _ _).trans hsub).countP_le (p := isUser)
    rw [countP_compact huser, List.countP_cons_of_pos (by simp [isUser, hm])] at hcount
    have hrest : rest.countP isUser = 0 := by omega
    simpa [List.countP_eq_zero, isUser] using hrest
  · rintro ⟨⟨older, rfl⟩, hrest⟩
    refine ⟨⟨older, rfl, ?_⟩, hpaired.compact huser⟩
    change ∀ m' ∈ rest, m'.role ≠ .user at hrest
    rw [compactMessagesForRetry_eq hm hrest]
    exact (List.sublist_append_left _ _).append_right _

theorem Intact.compact {messages turn : List ChatMessage} (h : Intact messages turn)
    (hturn : ∃ m rest, turn = m :: rest ∧ m.role = .user) :
    Intact (compactMessagesForRetry messages) turn := by
  obtain ⟨m, rest, rfl, hm⟩ := hturn
  obtain ⟨⟨older, rfl⟩, hrest⟩ := h
  change ∀ m' ∈ rest, m'.role ≠ .user at hrest
  rw [compactMessagesForRetry_eq hm hrest]
  exact ⟨⟨_, rfl⟩, hrest⟩

end IronClaw.Agent
