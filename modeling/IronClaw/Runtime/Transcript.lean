import IronClaw.Runtime.Threads

/-!
# Resuming a transcript

A resume with the result of a call takes earlier results out, and leaves the message that makes it.
Another resume takes out that message as well, with all its calls.
-/

namespace IronClaw.Runtime

open Foundation (Text)

namespace ThreadMessage

def Calls (callId : Text) (m : ThreadMessage) : Prop := m.role = .assistant ∧ callId ∈ m.actionCalls

/-- If the message is the result of a call, one of those before makes the call. -/
def Answers (before : List ThreadMessage) (m : ThreadMessage) : Prop :=
  m.role = .actionResult → ∃ callId, m.actionCallId = some callId ∧ ∃ call ∈ before, call.Calls callId

end ThreadMessage

/-- Every result of a call comes after a message that makes the call. -/
def Paired (messages : List ThreadMessage) : Prop :=
  ∀ before m after, messages = before ++ m :: after → m.Answers before

section Paired

open ThreadMessage

variable {messages : List ThreadMessage} {m : ThreadMessage} {callId : Text}

theorem paired_append : Paired (messages ++ [m]) ↔ Paired messages ∧ m.Answers messages := by
  constructor
  · intro h
    refine ⟨fun before x after heq => h before x (after ++ [m]) (by simp [heq]), h messages m [] rfl⟩
  · rintro ⟨h, hm⟩ before x after heq
    rcases List.eq_nil_or_concat' after with rfl | ⟨after, y, rfl⟩
    · obtain ⟨rfl, hx⟩ := List.append_inj' heq rfl
      cases hx
      exact hm
    · rw [← List.cons_append, ← List.append_assoc] at heq
      exact h before x after (List.append_inj' heq rfl).1

theorem paired_filter {keep : ThreadMessage → Bool} (h : Paired messages)
    (hkeep : ∀ result ∈ messages, ∀ call ∈ messages, ∀ id, keep result = true →
      result.role = .actionResult → result.actionCallId = some id → call.Calls id →
      keep call = true) : Paired (messages.filter keep) := by
  induction messages using List.reverseRecOn with
  | nil => exact h
  | append_singleton messages m ih =>
    obtain ⟨h, hm⟩ := paired_append.mp h
    have ih := ih h fun result hresult call hcall => hkeep result (List.mem_append_left _ hresult)
      call (List.mem_append_left _ hcall)
    by_cases hk : keep m = true
    · rw [List.filter_append, List.filter_cons_of_pos hk, List.filter_nil, paired_append]
      refine ⟨ih, fun hrole => ?_⟩
      obtain ⟨id, hid, call, hmem, hcall⟩ := hm hrole
      exact ⟨id, hid, call, List.mem_filter.mpr ⟨hmem, hkeep m (by simp) call
        (List.mem_append_left _ hmem) id hk hrole hid hcall⟩, hcall⟩
    · rwa [List.filter_append, List.filter_cons_of_neg hk, List.filter_nil, List.append_nil]

theorem isResolvedActionResultMessage_iff : m.isResolvedActionResultMessage callId = true ↔
    m.role = .actionResult ∧ m.actionCallId = some callId := by
  simp [isResolvedActionResultMessage]

theorem isResolvedCallMessage_iff : m.isResolvedCallMessage callId = true ↔
    (m.role = .actionResult ∧ m.actionCallId = some callId) ∨ m.Calls callId := by
  simp [isResolvedCallMessage, isResolvedActionResultMessage, Calls]

theorem messages_resumed {thread : Thread} {injected : Option ThreadMessage} :
    (thread.resumed injected (some callId)).messages =
      (thread.withoutResolved injected callId).messages ++ injected.toList := by
  unfold Thread.resumed
  cases injected with
  | none =>
    dsimp only [Option.elim_none, Option.elim_some]
    split_ifs <;> simp
  | some m =>
    dsimp only [Option.elim_some]
    split_ifs <;> rfl

/-- **A resumed transcript is paired** just if its new result is. A call resumed without one is
withdrawn; if its message made no other call, results are still paired. -/
theorem resumed_paired {thread : Thread} (h : Paired thread.messages) (callId : Text) :
    (∀ m : ThreadMessage, m.isResolvedActionResultMessage callId = true →
      ∃ kept, (thread.resumed (some m) (some callId)).messages = kept ++ [m] ∧ Paired kept ∧
        kept = thread.messages.filter (fun x => !x.isResolvedActionResultMessage callId) ∧
        (kept ++ [m]).filter (isResolvedActionResultMessage callId) = [m] ∧
        (Paired (kept ++ [m]) ↔ ∃ call ∈ thread.messages, call.Calls callId)) ∧
    ∀ injected : Option ThreadMessage,
      (∀ m ∈ injected, m.isResolvedActionResultMessage callId = false) →
      ∃ kept, (thread.resumed injected (some callId)).messages = kept ++ injected.toList ∧
        kept = thread.messages.filter (fun x => !x.isResolvedCallMessage callId) ∧
        ((∀ call ∈ thread.messages, call.Calls callId → ∀ id ∈ call.actionCalls, id = callId) →
          Paired kept) := by
  refine ⟨fun m hm => ⟨_, messages_resumed, ?_⟩, fun injected hinjected => ⟨_, messages_resumed, ?_⟩⟩
  · have hkept : (thread.withoutResolved (some m) callId).messages =
        thread.messages.filter fun x => !x.isResolvedActionResultMessage callId := by
      simp [Thread.withoutResolved, hm]
    obtain ⟨hrole, hid⟩ := isResolvedActionResultMessage_iff.mp hm
    -- what calls an action is no result, so it stays
    have hcalls : ∀ {call : ThreadMessage} {id : Text}, call.Calls id →
        (!call.isResolvedActionResultMessage callId) = true := by
      intro call id hcall
      simp [isResolvedActionResultMessage, hcall.1]
    have hpaired : Paired (thread.messages.filter fun x =>
        !x.isResolvedActionResultMessage callId) :=
      paired_filter h fun _ _ _ _ _ _ _ _ hcall => hcalls hcall
    rw [hkept]
    refine ⟨hpaired, rfl, ?_, ?_⟩
    · rw [List.filter_append, List.filter_filter, List.filter_cons_of_pos hm]
      simp
    · rw [paired_append]
      constructor
      · rintro ⟨-, hanswers⟩
        obtain ⟨id, hid', call, hmem, hcall⟩ := hanswers hrole
        obtain rfl : callId = id := Option.some.inj (hid.symm.trans hid')
        exact ⟨call, List.mem_of_mem_filter hmem, hcall⟩
      · rintro ⟨call, hmem, hcall⟩
        exact ⟨hpaired, fun _ => ⟨callId, hid, call, List.mem_filter.mpr ⟨hmem, hcalls hcall⟩,
          hcall⟩⟩
  · have hkept : (thread.withoutResolved injected callId).messages =
        thread.messages.filter fun x => !x.isResolvedCallMessage callId := by
      cases injected with
      | none => simp [Thread.withoutResolved]
      | some m => simp [Thread.withoutResolved, hinjected m rfl]
    rw [hkept]
    refine ⟨rfl, fun honly => paired_filter h fun result _ call hmem id hk hrole hid hcall => ?_⟩
    -- the call of a result that stays is another one, so its message made another one
    rw [Bool.not_eq_true', Bool.eq_false_iff, ne_eq, isResolvedCallMessage_iff] at hk ⊢
    rintro (⟨hrole', -⟩ | hcall')
    · rw [hcall.1] at hrole'
      cases hrole'
    · exact hk (.inl ⟨hrole, honly call hmem hcall' id hcall.2 ▸ hid⟩)

/-- A message that calls two actions, and the result of the first one. -/
def twoCalls : Thread where
  id := 1
  userId := "ann".toList
  threadType := .foreground
  state := .waiting
  messages := [{ ThreadMessage.assistant [] with actionCalls := ["a".toList, "b".toList] },
    ⟨.actionResult, [], some "a".toList, [], none⟩]
  metadata := ∅

theorem paired_twoCalls : Paired twoCalls.messages := by
  refine (@paired_append [_] _).mpr ⟨(@paired_append [] _).mpr ⟨?_, ?_⟩, ?_⟩
  · intro before m after heq
    cases before <;> cases heq
  · intro hrole
    cases hrole
  · exact fun _ => ⟨_, rfl, _, List.mem_singleton_self _, rfl, List.mem_cons_self⟩

theorem resumed_twoCalls : Paired (twoCalls.resumed
    (some ⟨.actionResult, [], some "b".toList, [], none⟩) (some "b".toList)).messages := by
  obtain ⟨kept, hmessages, -, -, -, hpaired⟩ := (resumed_paired paired_twoCalls "b".toList).1
    ⟨.actionResult, [], some "b".toList, [], none⟩ (by decide)
  rw [hmessages, hpaired]
  exact ⟨_, List.mem_cons_self, rfl, by simp⟩

/-- The second call is resumed with a message that makes it again: a result loses its call, a call
its result. -/
theorem not_resumed_paired : ∃ (thread : Thread) (m : ThreadMessage) (callId : Text),
    Paired thread.messages ∧ m.isResolvedCallMessage callId = true ∧
      ¬ Paired (thread.resumed (some m) (some callId)).messages ∧
      (thread.resumed (some m) (some callId)).messages.filter
        (isResolvedActionResultMessage callId) = [] := by
  refine ⟨twoCalls, { ThreadMessage.assistant [] with actionCalls := ["b".toList] }, "b".toList,
    paired_twoCalls, by decide, fun h => ?_, by decide⟩
  obtain ⟨-, -, call, hmem, -⟩ := h [] _ _ rfl rfl
  cases hmem

end Paired

end IronClaw.Runtime
