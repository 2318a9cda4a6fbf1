import IronClaw.Foundation.Json
import IronClaw.Llm.Completion

/-!
# Tool messages before a request

The result of a tool call has to follow the assistant message that asks for it, with only results in
between. One that no message asks for is rewritten; one that comes before its call, or behind
another round, is left alone.
-/

namespace IronClaw.Llm.Completion

open Foundation

variable {V : Type}

def ChatMessage.callIds (m : ChatMessage V) : List Bytes :=
  match m.role, m.toolCalls with
  | .assistant, some calls => calls.map ToolCall.id
  | _, _ => []

def knownIds (messages : List (ChatMessage V)) : List Bytes :=
  messages.flatMap ChatMessage.callIds

def isOrphaned (known : List Bytes) (m : ChatMessage V) : Bool :=
  match m.toolCallId with
  | some id => !known.contains id
  | none => true

def orphanText (m : ChatMessage V) : Bytes :=
  ascii "[Tool `" ++ m.name.getD (ascii "unknown") ++ ascii "` returned: " ++ m.content ++ ascii "]"

def sanitizeMessage (known : List Bytes) (m : ChatMessage V) : ChatMessage V :=
  if m.role ≠ .tool then m
  else if isOrphaned known m then
    { m with role := .user, content := orphanText m, toolCallId := none, name := none }
  else m

def sanitizeToolMessages (messages : List (ChatMessage V)) : List (ChatMessage V) :=
  messages.map (sanitizeMessage (knownIds messages))

/-- Behind `before`, a message answers the assistant message that only results have followed. -/
def Answers (before : List (ChatMessage V)) (m : ChatMessage V) : Prop :=
  ∃ id ∈ m.toolCallId, ∃ front call results, before = front ++ call :: results ∧
    id ∈ call.callIds ∧ ∀ r ∈ results, r.role = .tool

def Placed (before : List (ChatMessage V)) (m : ChatMessage V) : Prop :=
  m.role = .tool → Answers before m

def WellPaired (messages : List (ChatMessage V)) : Prop :=
  ∀ before m after, messages = before ++ m :: after → Placed before m

def LeftOrRewritten (m m' : ChatMessage V) : Prop :=
  m' = m ∨ m.role = .tool ∧ m'.role = .user ∧ m.content <:+: m'.content

structure Sanitizes (messages : List (ChatMessage V)) : Prop where
  wellPaired : WellPaired (sanitizeToolMessages messages)
  unchanged : ∀ before m after, messages = before ++ m :: after → Placed before m →
    (sanitizeToolMessages messages)[before.length]? = some m
  inOrder : List.Forall₂ LeftOrRewritten messages (sanitizeToolMessages messages)
  again : sanitizeToolMessages (sanitizeToolMessages messages) = sanitizeToolMessages messages

def OfKnownCall (known : List Bytes) (m : ChatMessage V) : Prop :=
  m.role = .tool ∧ ∃ id ∈ m.toolCallId, id ∈ known

/-- Results of known calls follow their assistant message, with only such in between. -/
def InPlace (messages : List (ChatMessage V)) : Prop :=
  ∀ before m after, messages = before ++ m :: after → OfKnownCall (knownIds messages) m →
    ∃ id ∈ m.toolCallId, ∃ front call results, before = front ++ call :: results ∧
      id ∈ call.callIds ∧ ∀ r ∈ results, OfKnownCall (knownIds messages) r

section Message

variable {known : List Bytes} {m : ChatMessage V}

theorem isOrphaned_eq_false_iff : isOrphaned known m = false ↔ ∃ id ∈ m.toolCallId, id ∈ known := by
  unfold isOrphaned
  cases m.toolCallId <;> simp

theorem sanitizeMessage_of_role (h : m.role ≠ .tool) : sanitizeMessage known m = m := by
  rw [sanitizeMessage, if_pos h]

theorem sanitizeMessage_of_known (h : ∃ id ∈ m.toolCallId, id ∈ known) :
    sanitizeMessage known m = m := by
  by_cases hrole : m.role = .tool
  · simp [sanitizeMessage, hrole, isOrphaned_eq_false_iff.mpr h]
  · exact sanitizeMessage_of_role hrole

theorem role_sanitizeMessage_eq_tool_iff :
    (sanitizeMessage known m).role = .tool ↔ OfKnownCall known m := by
  by_cases hrole : m.role = .tool
  · by_cases hknown : ∃ id ∈ m.toolCallId, id ∈ known
    · rw [sanitizeMessage_of_known hknown]
      exact ⟨fun h => ⟨h, hknown⟩, And.left⟩
    · -- an orphaned result becomes a message of the user
      have horphaned : isOrphaned known m = true := by
        rw [← Bool.not_eq_false, isOrphaned_eq_false_iff]
        exact hknown
      have huser : (sanitizeMessage known m).role = .user := by
        simp [sanitizeMessage, hrole, horphaned]
      rw [huser]
      exact ⟨fun h => (by cases h), fun h => absurd h.2 hknown⟩
  · rw [sanitizeMessage_of_role hrole]
    exact ⟨fun h => absurd h hrole, And.left⟩

@[simp] theorem callIds_sanitizeMessage : (sanitizeMessage known m).callIds = m.callIds := by
  by_cases hrole : m.role = .tool
  · rw [sanitizeMessage, if_neg (not_not_intro hrole)]
    split
    · simp [ChatMessage.callIds, hrole]
    · rfl
  · rw [sanitizeMessage_of_role hrole]

theorem sanitizeMessage_again :
    sanitizeMessage known (sanitizeMessage known m) = sanitizeMessage known m := by
  by_cases hrole : (sanitizeMessage known m).role = .tool
  · have hknown := role_sanitizeMessage_eq_tool_iff.mp hrole
    rw [sanitizeMessage_of_known hknown.2, sanitizeMessage_of_known hknown.2]
  · exact sanitizeMessage_of_role hrole

theorem leftOrRewritten_sanitizeMessage : LeftOrRewritten m (sanitizeMessage known m) := by
  unfold sanitizeMessage
  split_ifs with hrole horphaned
  · exact .inl rfl
  · exact .inr ⟨not_not.mp hrole, rfl, _, _, rfl⟩
  · exact .inl rfl

end Message

section Messages

variable {messages before : List (ChatMessage V)} {m : ChatMessage V}

@[simp] theorem knownIds_sanitizeToolMessages :
    knownIds (sanitizeToolMessages messages) = knownIds messages := by
  simp [knownIds, sanitizeToolMessages, List.flatMap_map]

theorem sanitizeToolMessages_again :
    sanitizeToolMessages (sanitizeToolMessages messages) = sanitizeToolMessages messages := by
  -- no call is lost, so that the second time the same results are orphaned
  rw [sanitizeToolMessages, knownIds_sanitizeToolMessages, sanitizeToolMessages, List.map_map]
  exact List.map_congr_left fun m _ => sanitizeMessage_again

theorem forall₂_sanitizeToolMessages :
    List.Forall₂ LeftOrRewritten messages (sanitizeToolMessages messages) := by
  rw [sanitizeToolMessages, List.forall₂_map_right_iff, List.forall₂_same]
  exact fun m _ => leftOrRewritten_sanitizeMessage

theorem mem_knownIds_of_answers {after : List (ChatMessage V)}
    (h : messages = before ++ m :: after) (hanswers : Answers before m) :
    ∃ id ∈ m.toolCallId, id ∈ knownIds messages := by
  obtain ⟨id, hid, front, call, results, rfl, hcall, -⟩ := hanswers
  refine ⟨id, hid, List.mem_flatMap.mpr ⟨call, ?_, hcall⟩⟩
  simp [h]

theorem getElem?_sanitizeToolMessages {after : List (ChatMessage V)}
    (h : messages = before ++ m :: after) (hplaced : Placed before m) :
    (sanitizeToolMessages messages)[before.length]? = some m := by
  have hsame : sanitizeMessage (knownIds messages) m = m := by
    by_cases hrole : m.role = .tool
    · exact sanitizeMessage_of_known (mem_knownIds_of_answers h (hplaced hrole))
    · exact sanitizeMessage_of_role hrole
  have hget : messages[before.length]? = some m := by simp [h]
  rw [sanitizeToolMessages, List.getElem?_map, hget, Option.map_some, hsame]

theorem answers_map_iff {known : List Bytes} : Answers (before.map (sanitizeMessage known)) m ↔
      ∃ id ∈ m.toolCallId, ∃ front call results, before = front ++ call :: results ∧
        id ∈ call.callIds ∧ ∀ r ∈ results, OfKnownCall known r := by
  constructor
  · rintro ⟨id, hid, front, call, results, heq, hcall, hresults⟩
    obtain ⟨front, rest, rfl, rfl, hrest⟩ := List.map_eq_append_iff.mp heq
    obtain ⟨call, results, rfl, rfl, rfl⟩ := List.map_eq_cons_iff.mp hrest
    refine ⟨id, hid, front, call, results, rfl, by simpa using hcall, fun r hr => ?_⟩
    exact role_sanitizeMessage_eq_tool_iff.mp (hresults _ (List.mem_map_of_mem hr))
  · rintro ⟨id, hid, front, call, results, rfl, hcall, hresults⟩
    refine ⟨id, hid, front.map (sanitizeMessage known), sanitizeMessage known call,
      results.map (sanitizeMessage known), by simp, by simpa using hcall, fun r' hr' => ?_⟩
    obtain ⟨r, hr, rfl⟩ := List.mem_map.mp hr'
    exact role_sanitizeMessage_eq_tool_iff.mpr (hresults r hr)

theorem wellPaired_sanitizeToolMessages_iff :
    WellPaired (sanitizeToolMessages messages) ↔ InPlace messages := by
  -- the results that are left are those of known calls, and they stand where they stood
  constructor
  · rintro h before m after heq hknown
    have hsplit : sanitizeToolMessages messages =
        before.map (sanitizeMessage (knownIds messages)) ++
          sanitizeMessage (knownIds messages) m ::
            after.map (sanitizeMessage (knownIds messages)) := by
      rw [sanitizeToolMessages, ← List.map_cons, ← List.map_append, ← heq]
    have hplaced := h _ _ _ hsplit
    rw [sanitizeMessage_of_known hknown.2] at hplaced
    exact answers_map_iff.mp (hplaced hknown.1)
  · rintro h before m after heq hrole
    obtain ⟨before, rest, hmessages, rfl, hrest⟩ := List.map_eq_append_iff.mp heq
    obtain ⟨m, after, rfl, rfl, rfl⟩ := List.map_eq_cons_iff.mp hrest
    have hknown := role_sanitizeMessage_eq_tool_iff.mp hrole
    rw [sanitizeMessage_of_known hknown.2]
    exact answers_map_iff.mpr (h before m after hmessages hknown)

theorem Answers.of_snoc {last : ChatMessage V} (h : Answers (before ++ [last]) m)
    (hrole : last.role ≠ .tool) : ∃ id ∈ m.toolCallId, id ∈ last.callIds := by
  obtain ⟨id, hid, front, call, results, heq, hcall, hresults⟩ := h
  -- the last message is the call itself, or one of the results behind it
  rcases List.eq_nil_or_concat results with rfl | ⟨results, r, rfl⟩
  · obtain ⟨-, hlast⟩ := List.append_inj' heq rfl
    cases hlast
    exact ⟨id, hid, hcall⟩
  · rw [List.concat_eq_append, ← List.cons_append, ← List.append_assoc] at heq
    obtain ⟨-, hlast⟩ := List.append_inj' heq rfl
    cases hlast
    exact absurd (hresults last (by simp)) hrole

end Messages

/-- **Sanitizing meets the protocol** exactly if all results of known calls are in place. -/
theorem sanitizes_iff (messages : List (ChatMessage V)) :
    Sanitizes messages ↔ InPlace messages := by
  constructor
  · intro h
    exact wellPaired_sanitizeToolMessages_iff.mp h.wellPaired
  · intro h
    exact {
      wellPaired := wellPaired_sanitizeToolMessages_iff.mpr h
      unchanged := fun before m after => getElem?_sanitizeToolMessages
      inOrder := forall₂_sanitizeToolMessages
      again := sanitizeToolMessages_again }

def userMessage (content : String) : ChatMessage Json :=
  ⟨.user, ascii content, [], none, none, none⟩

def echoCall : ChatMessage Json :=
  ⟨.assistant, [], [], none, none, some [⟨ascii "call_1", ascii "echo", .null, none⟩]⟩

def echoResult (content : String) : ChatMessage Json :=
  ⟨.tool, ascii content, [], some (ascii "call_1"), some (ascii "echo"), none⟩

/-- The user writes before the result of a call comes. It is left where it is. -/
theorem not_sanitizes_echoResult :
    ¬ Sanitizes [userMessage "test", echoCall, userMessage "and?", echoResult "ok"] := by
  intro h
  have hplaced := h.wellPaired [userMessage "test", echoCall, userMessage "and?"]
    (echoResult "ok") [] rfl rfl
  have hanswers : Answers ([userMessage "test", echoCall] ++ [userMessage "and?"])
      (echoResult "ok") := hplaced
  obtain ⟨id, -, hcall⟩ := hanswers.of_snoc (by decide)
  cases hcall

end IronClaw.Llm.Completion
