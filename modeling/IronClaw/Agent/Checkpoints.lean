import IronClaw.Agent.History
import IronClaw.Foundation.Bytes

/-!
# Checkpoints of a thread

A checkpoint is a thread as messages, and a thread is restored from these. A result is then a text,
which is read once more when it is written again.
-/

namespace IronClaw.Agent

open Foundation (Json Text)
open Hooks (JsonCodec)
open Llm (ChatMessage ToolCall)
open Foundation.Text (byteLength_nil byteLength_cons byteLength_append byteLength_le
  byteLength_replicate)
open Safety (takeBytes)
open List (map_cons map_map mem_singleton)

section Bytes

variable {s t rest : Text} {n : Nat}

theorem takeBytes_prefix (n : Nat) (s : Text) : takeBytes n s <+: s := by
  induction s generalizing n with
  | nil => exact List.prefix_rfl
  | cons c s ih =>
    rw [takeBytes]
    split_ifs
    · exact (List.prefix_cons_inj c).mpr (ih _)
    · exact List.nil_prefix

theorem byteLength_takeBytes_le (n : Nat) (s : Text) : Text.byteLength (takeBytes n s) ≤ n := by
  induction s generalizing n with
  | nil => exact Nat.zero_le n
  | cons c s ih =>
    rw [takeBytes]
    split_ifs with hc
    · have hrest := ih (n - c.utf8Size)
      rw [byteLength_cons]
      omega
    · exact Nat.zero_le n

theorem lt_byteLength_takeBytes (h : n < Text.byteLength s) :
    n < Text.byteLength (takeBytes n s) + 4 := by
  induction s generalizing n with
  | nil => cases h
  | cons c s ih =>
    have hsize := c.utf8Size_le_four
    rw [byteLength_cons] at h
    rw [takeBytes]
    split_ifs with hc
    · have hrest := @ih (n - c.utf8Size) (by omega)
      rw [byteLength_cons]
      omega
    · rw [byteLength_nil]
      omega

theorem takeBytes_append (s rest : Text) (n : Nat) :
    takeBytes (Text.byteLength s + n) (s ++ rest) = s ++ takeBytes n rest := by
  induction s with
  | nil => rw [byteLength_nil, Nat.zero_add]; rfl
  | cons c s ih =>
    have hle : c.utf8Size ≤ Text.byteLength (c :: s) + n := by
      rw [byteLength_cons]
      omega
    have hsub : Text.byteLength (c :: s) + n - c.utf8Size = Text.byteLength s + n := by
      rw [byteLength_cons]
      omega
    rw [List.cons_append, takeBytes, if_pos hle, hsub, ih]
    rfl

theorem takeBytes_eq_nil_of_ascii {c : Char} (hc : c.utf8Size = 1) :
    takeBytes n (c :: s) = [] ↔ n = 0 := by
  rw [takeBytes, hc]
  by_cases hn : 1 ≤ n
  · rw [if_pos hn]
    exact iff_of_false (List.cons_ne_nil _ _) (by omega)
  · rw [if_neg hn]
    exact iff_of_true rfl (by omega)

theorem takeBytes_zero (s : Text) : takeBytes 0 s = [] := by
  cases s with
  | nil => rfl
  | cons c s =>
    have hpos := c.utf8Size_pos
    rw [takeBytes, if_neg (by omega)]

end Bytes

def isToolOutput (s : Text) : Bool := "<tool_output".toList.isPrefixOf s

def ending (s : Text) : Text :=
  if isToolOutput s then "...\n</tool_output>".toList else "...".toList

section Cut

variable {s t : Text} {n : Nat}

theorem ending_eq (s : Text) : ∃ rest, ending s = '.' :: rest := by
  rw [ending]
  split_ifs
  · exact ⟨"..\n</tool_output>".toList, by decide⟩
  · exact ⟨"..".toList, by decide⟩

theorem byteLength_ending (s : Text) :
    Text.byteLength (ending s) = if isToolOutput s then 18 else 3 := by
  rw [ending]
  split_ifs
  · decide
  · decide

theorem truncatePreview_of_long (h : n < Text.byteLength s) :
    truncatePreview n s = takeBytes n s ++ ending s := by
  have hdots : "</tool_output>".toList.isSuffixOf (takeBytes n s ++ "...".toList) = false := by
    rw [Bool.eq_false_iff, Ne, List.isSuffixOf_iff_suffix]
    rintro ⟨front, hfront⟩
    have hlast := congrArg List.getLast? hfront
    have hclose : "</tool_output>".toList.getLast? = some '>' := by decide
    have hdot : "...".toList.getLast? = some '.' := by decide
    rw [List.getLast?_append, List.getLast?_append, hclose, hdot] at hlast
    exact absurd (Option.some.inj hlast) (by decide)
  rw [truncatePreview, if_neg (by omega)]
  dsimp only
  have hclosed : "...".toList ++ "\n</tool_output>".toList = "...\n</tool_output>".toList := by
    decide
  rw [hdots, Bool.not_false, Bool.and_true, ending, isToolOutput]
  split_ifs
  · rw [List.append_assoc, hclosed]
  · rfl

/-- **Texts that are not cut again**: short ones, and those cut at exactly that many bytes. -/
theorem truncatePreview_eq_self_iff : truncatePreview n t = t ↔
    Text.byteLength t ≤ n ∨ ∃ u, Text.byteLength u = n ∧ t = u ++ ending t := by
  by_cases hlong : n < Text.byteLength t
  · rw [truncatePreview_of_long hlong]
    constructor
    · intro h
      refine .inr ⟨takeBytes n t, ?_, h.symm⟩
      -- nothing of the ending has been kept
      have hle := byteLength_takeBytes_le n t
      obtain ⟨rest, hrest⟩ := ending_eq t
      have hcut := takeBytes_append (takeBytes n t) (ending t)
        (n - Text.byteLength (takeBytes n t))
      rw [Nat.add_sub_cancel' hle, h] at hcut
      have hnil := List.self_eq_append_right.mp hcut
      rw [hrest, takeBytes_eq_nil_of_ascii (by decide)] at hnil
      omega
    · rintro (hshort | ⟨u, hu, ht⟩)
      · omega
      · have hcut := takeBytes_append u (ending t) 0
        rw [takeBytes_zero, List.append_nil, Nat.add_zero, hu, ← ht] at hcut
        rw [hcut, ← ht]
  · rw [truncatePreview, if_pos (by omega)]
    exact iff_of_true rfl (.inl (by omega))

/-- A text is short, or cut at byte 1000, or with just enough less that the dots take the rest. -/
def CutsEvenly (s : Text) : Prop :=
  Text.byteLength s ≤ 1000 ∨ Text.byteLength (takeBytes 1000 s) = 1000 ∨
    (Text.byteLength (takeBytes 1000 s) = 997 ∧ isToolOutput s = false)

instance (s : Text) : Decidable (CutsEvenly s) := inferInstanceAs (Decidable (_ ∨ _))

theorem isToolOutput_takeBytes (h : 1000 < Text.byteLength s) (rest : Text) :
    isToolOutput (takeBytes 1000 s ++ rest) = isToolOutput s := by
  have hlong := lt_byteLength_takeBytes h
  have hchars := byteLength_le (takeBytes 1000 s)
  have htag : "<tool_output".toList.length = 12 := by decide
  rw [isToolOutput, isToolOutput, Bool.eq_iff_iff, List.isPrefixOf_iff_prefix,
    List.isPrefixOf_iff_prefix]
  constructor
  · intro hprefix
    exact (List.prefix_of_prefix_length_le hprefix (List.prefix_append _ _) (by omega)).trans
      ( takeBytes_prefix _ _)
  · intro hprefix
    exact (List.prefix_of_prefix_length_le hprefix ( takeBytes_prefix _ _) (by omega)).trans
      (List.prefix_append _ _)

/-- **Cutting again changes nothing** just if the first cut was even. -/
theorem truncatePreview_truncatePreview_iff (s : Text) :
    truncatePreview 1000 (truncatePreview 1000 s) = truncatePreview 1000 s ↔ CutsEvenly s := by
  by_cases hlong : 1000 < Text.byteLength s
  · have hlost := lt_byteLength_takeBytes hlong
    have hle := byteLength_takeBytes_le 1000 s
    have hending : ending (takeBytes 1000 s ++ ending s) = ending s := by
      conv_lhs => rw [ending, isToolOutput_takeBytes hlong]
      rw [ending]
    have hexact : (∃ u, Text.byteLength u = 1000 ∧ takeBytes 1000 s ++ ending s = u ++ ending s) ↔
        Text.byteLength (takeBytes 1000 s) = 1000 := by
      constructor
      · rintro ⟨u, hu, heq⟩
        rwa [List.append_cancel_right heq]
      · exact fun h => ⟨_, h, rfl⟩
    rw [truncatePreview_of_long hlong, truncatePreview_eq_self_iff, hending, hexact, CutsEvenly,
      byteLength_append, byteLength_ending]
    cases isToolOutput s with
    | true =>
      simp only [if_true, Bool.true_eq_false, and_false, or_false]
      omega
    | false =>
      simp only [Bool.false_eq_true, if_false, and_true]
      omega
  · have hshort : truncatePreview 1000 s = s := by rw [truncatePreview, if_pos (by omega)]
    rw [hshort, hshort]
    exact iff_of_true rfl (.inl (by omega))

end Cut

/-- What a call came to is written the same again: an error is no image, what is cut is cut evenly.
-/
def TurnToolCall.ReadsAgain (codec : JsonCodec) (call : TurnToolCall) : Prop :=
  match call.error, call.result with
  | some error, _ =>
    (Text.byteLength error ≤ 1000 → GeneratedImageSentinel.fromValue codec (.str error) = none) ∧
      CutsEvenly error
  | none, some result =>
    match GeneratedImageSentinel.fromValue codec result with
    | some sentinel =>
      Text.byteLength sentinel.summaryForContext ≤ 1000 ∨
        (Text.byteLength sentinel.summaryForContext = 1003 ∧
          "...".toList <:+ sentinel.summaryForContext)
    | none => CutsEvenly (resultText codec result)
  | none, none => True

/-- Results that are no texts are read back. No JSON text begins or ends like a cut one. -/
structure ReadsResults (codec : JsonCodec) (thread : Thread) : Prop where
  results : ∀ turn ∈ thread.turns, ∀ call ∈ turn.toolCalls, ∀ result ∈ call.result,
    (∀ s, result ≠ .str s) → codec.parse (codec.render result) = some result
  noTextEnd : ∀ text : Text, text.getLast? = some '.' ∨ text.getLast? = some '>' ∨
    text.getLast? = some 'K' → codec.parse text = none
  noTextStart : ∀ text : Text, text.head? = some 'G' → codec.parse text = none

section Outcome

variable {codec : JsonCodec} {text : Text}

theorem fromValue_str_of_parse (h : codec.parse text = none) :
    GeneratedImageSentinel.fromValue codec (.str text) = none := by
  rw [GeneratedImageSentinel.fromValue, normalizeEmbeddedJson, h]
  rfl

/-- The content of a result as it is written of a call that was restored. -/
def rewrittenText (codec : JsonCodec) (text : Text) : Text :=
  match GeneratedImageSentinel.fromValue codec (.str text) with
  | some sentinel => sentinel.summaryForContext
  | none => truncatePreview 1000 text

theorem rewrittenText_of_none (h : GeneratedImageSentinel.fromValue codec (.str text) = none) :
    rewrittenText codec text = truncatePreview 1000 text := by
  rw [rewrittenText, h]

theorem summaryForContext_head (sentinel : GeneratedImageSentinel) :
    sentinel.summaryForContext.head? = some 'G' := by
  have hopening : "Generated image (".toList = 'G' :: "enerated image (".toList := by decide
  unfold GeneratedImageSentinel.summaryForContext
  dsimp only
  rw [hopening]
  split
  · split_ifs <;> rfl
  · rfl

theorem ending_summaryForContext (sentinel : GeneratedImageSentinel) :
    ending sentinel.summaryForContext = "...".toList := by
  obtain ⟨rest, hrest⟩ := List.head?_eq_some_iff.mp (summaryForContext_head sentinel)
  have htag : "<tool_output".toList = '<' :: "tool_output".toList := by decide
  rw [ending, isToolOutput, hrest, htag]
  rfl

theorem fromValue_resultText {result : Json} (himage : GeneratedImageSentinel.fromValue codec
      result = none)
    (hread : (∀ s, result ≠ .str s) → codec.parse (codec.render result) = some result) :
    GeneratedImageSentinel.fromValue codec (.str (resultText codec result)) = none := by
  cases result with
  | str s => exact himage
  | _ => exact (fromValue_str (hread (by simp)) (by simp)).trans himage

variable {thread : Thread} {turn : Turn} {call : TurnToolCall}

theorem rewrittenText_eq_iff (hreads : ReadsResults codec thread) (hturn : turn ∈ thread.turns)
    (hcall : call ∈ turn.toolCalls) :
    rewrittenText codec (call.outcomeText codec) = call.outcomeText codec ↔
      call.ReadsAgain codec := by
  -- what was cut is no JSON
  have hcut : ∀ s, 1000 < Text.byteLength s →
      GeneratedImageSentinel.fromValue codec (.str (truncatePreview 1000 s)) = none := fun s hs =>
    fromValue_str_of_parse (hreads.noTextEnd _ ((getLast?_truncatePreview hs).imp id .inl))
  have hshort : ∀ s, ¬ 1000 < Text.byteLength s → truncatePreview 1000 s = s := fun s hs => by
    rw [truncatePreview, if_pos (by omega)]
  rw [TurnToolCall.ReadsAgain]
  cases herror : call.error with
  | some error =>
    have htext : call.outcomeText codec = truncatePreview 1000 error := by
      rw [TurnToolCall.outcomeText, herror]
    rw [htext]
    dsimp only
    by_cases hlong : 1000 < Text.byteLength error
    · rw [rewrittenText_of_none (hcut error hlong), truncatePreview_truncatePreview_iff]
      exact (and_iff_right fun h => absurd h (by omega)).symm
    · rw [hshort error hlong, rewrittenText]
      cases himage : GeneratedImageSentinel.fromValue codec (.str error) with
      | none => exact iff_of_true (hshort error hlong) ⟨fun _ => rfl, .inl (by omega)⟩
      | some sentinel =>
        -- the error is JSON, which the summary of an image is not
        refine iff_of_false (fun h => ?_) fun h => Option.some_ne_none _ (h.1 (by omega))
        have hsummary : sentinel.summaryForContext = error := h
        have hhead := summaryForContext_head sentinel
        rw [hsummary] at hhead
        rw [fromValue_str_of_parse (hreads.noTextStart _ hhead)] at himage
        cases himage
  | none =>
    cases hresult : call.result with
    | some result =>
      dsimp only
      cases himage : GeneratedImageSentinel.fromValue codec result with
      | some sentinel =>
        have htext : call.outcomeText codec = sentinel.summaryForContext := by
          rw [TurnToolCall.outcomeText, herror, hresult]
          dsimp only
          rw [himage]
        have hno := fromValue_str_of_parse
          (hreads.noTextStart _ (summaryForContext_head sentinel))
        have hdots : Text.byteLength "...".toList = 3 := by decide
        rw [htext, rewrittenText_of_none hno, truncatePreview_eq_self_iff,
          ending_summaryForContext]
        refine or_congr_right ⟨?_, ?_⟩
        · rintro ⟨u, hu, heq⟩
          refine ⟨?_, u, heq.symm⟩
          rw [heq, byteLength_append, hu, hdots]
        · rintro ⟨hlength, u, hu⟩
          refine ⟨u, ?_, hu.symm⟩
          rw [← hu, byteLength_append, hdots] at hlength
          omega
      | none =>
        have htext : call.outcomeText codec = truncatePreview 1000 (resultText codec result) := by
          rw [TurnToolCall.outcomeText, herror, hresult]
          dsimp only
          rw [himage]
          cases result <;> rfl
        have hno : GeneratedImageSentinel.fromValue codec
            (.str (truncatePreview 1000 (resultText codec result))) = none := by
          by_cases hlong : 1000 < Text.byteLength (resultText codec result)
          · exact hcut _ hlong
          · rw [hshort _ hlong]
            exact fromValue_resultText himage (hreads.results turn hturn call hcall result hresult)
        rw [htext, rewrittenText_of_none hno, truncatePreview_truncatePreview_iff]
    | none =>
      have htext : call.outcomeText codec = "OK".toList := by
        rw [TurnToolCall.outcomeText, herror, hresult]
      have hno := fromValue_str_of_parse (hreads.noTextEnd "OK".toList (by decide))
      rw [htext, rewrittenText_of_none hno]
      exact iff_of_true (by decide) trivial

end Outcome

def Turn.answered (codec : JsonCodec) (turnIdx : Nat) (turn : Turn) : List (ToolCall × Text) :=
  turn.toolCalls.mapIdx fun i call =>
    (⟨generateToolCallId turnIdx i, call.name, call.parameters, none⟩, call.outcomeText codec)

def messagesFrom (codec : JsonCodec) : Nat → List Turn → List ChatMessage
  | _, [] => []
  | n, turn :: turns => turn.messages codec n ++ messagesFrom codec (n + 1) turns

def restoredFrom (codec : JsonCodec) : Nat → List Turn → List Turn
  | _, [] => []
  | n, turn :: turns =>
    restoredTurn n turn.userInput (turn.answered codec n) turn.response ::
      restoredFrom codec (n + 1) turns

section Restored

variable {codec : JsonCodec} {turn : Turn} {turns : List Turn}

theorem Turn.messages_eq (codec : JsonCodec) (n : Nat) (turn : Turn) :
    turn.messages codec n = .user turn.userInput :: (answeredMessages (turn.answered codec n) ++
        (turn.response.map ChatMessage.assistant).toList) := by
  have hanswered : turn.answered codec n =
      (turn.toolCalls.mapIdx fun i call => (generateToolCallId n i, call)).map fun c =>
        (⟨c.1, c.2.name, c.2.parameters, none⟩, c.2.outcomeText codec) :=
    by
      rw [map_mapIdx_eq fun _ _ _ => rfl]
      rfl
  rw [Turn.messages, hanswered]
  cases turn.toolCalls.mapIdx fun i call => (generateToolCallId n i, call) with
  | nil => rfl
  | cons c calls =>
    simp only [map_cons, answeredMessages, map_map]
    rfl

theorem messagesFrom_eq (codec : JsonCodec) (n : Nat) (turns : List Turn) :
    (turns.mapIdx fun i turn => turn.messages codec (n + i)).flatten =
      messagesFrom codec n turns := by
  induction turns generalizing n with
  | nil => rfl
  | cons turn turns ih =>
    rw [List.mapIdx_cons, List.flatten_cons, messagesFrom, ← ih (n + 1)]
    simp only [Nat.add_assoc, Nat.add_comm 1, Nat.add_zero]

theorem messages_eq_messagesFrom (codec : JsonCodec) (thread : Thread) :
    thread.messages codec = messagesFrom codec 0 thread.turns := by
  have hzero := messagesFrom_eq codec 0 thread.turns
  simp only [Nat.zero_add] at hzero
  exact hzero

theorem startsTurn_messagesFrom (codec : JsonCodec) (n : Nat) (turns : List Turn) :
    StartsTurn (messagesFrom codec n turns) := by
  cases turns with
  | nil => trivial
  | cons turn turns =>
    rw [messagesFrom, Turn.messages_eq]
    trivial

theorem restoreTurns_messagesFrom (codec : JsonCodec) (n : Nat) (turns : List Turn) :
    restoreTurns n none (messagesFrom codec n turns) = restoredFrom codec n turns := by
  induction turns generalizing n with
  | nil => rfl
  | cons turn turns ih =>
    rw [messagesFrom, Turn.messages_eq, restoredFrom, ← ih (n + 1), List.cons_append,
      List.append_assoc]
    exact restoreTurns_turn n _ _ _ (startsTurn_messagesFrom codec (n + 1) turns)

theorem answered_restoredTurn (codec : JsonCodec) (n : Nat) (turn : Turn) :
    (restoredTurn n turn.userInput (turn.answered codec n) turn.response).answered codec n =
      turn.toolCalls.mapIdx fun i call =>
        (⟨generateToolCallId n i, call.name, call.parameters, none⟩,
          rewrittenText codec (call.outcomeText codec)) := by
  have hcalls : (restoredTurn n turn.userInput (turn.answered codec n) turn.response).toolCalls =
      turn.toolCalls.mapIdx fun i call => restoredCall
        (⟨generateToolCallId n i, call.name, call.parameters, none⟩, call.outcomeText codec) :=
    map_mapIdx_eq fun _ _ _ => rfl
  rw [Turn.answered, hcalls, List.mapIdx_mapIdx]
  rfl

theorem eq_of_toolResults {l l' : List (ToolCall × Text)}
    (hcalls : l.map Prod.fst = l'.map Prod.fst)
    (hresults : (l.map fun c => ChatMessage.toolResult c.1.id c.1.name c.2) =
      l'.map fun c => .toolResult c.1.id c.1.name c.2) : l = l' := by
  induction l generalizing l' with
  | nil => exact (List.map_eq_nil_iff.mp hcalls.symm).symm
  | cons c l ih =>
    cases l' with
    | nil => cases hcalls
    | cons c' l' =>
      obtain ⟨hfst, hcalls⟩ := List.cons.inj hcalls
      obtain ⟨hone, hresults⟩ := List.cons.inj hresults
      injection hone with _ _ hsnd
      rw [Prod.ext hfst hsnd, ih hcalls hresults]

theorem answeredMessages_inj {answered answered' : List (ToolCall × Text)}
    (h : answeredMessages answered = answeredMessages answered') : answered = answered' := by
  cases answered with
  | nil =>
    cases answered' with
    | nil => rfl
    | cons c more => cases h
  | cons c more =>
    cases answered' with
    | nil => cases h
    | cons c' more' =>
      obtain ⟨hcalls, hresults⟩ := List.cons.inj h
      have hasked : (c :: more).map Prod.fst = (c' :: more').map Prod.fst := by
        injection hcalls
      exact eq_of_toolResults hasked hresults

theorem messages_restoredTurn_iff (codec : JsonCodec) (n : Nat) (turn : Turn) :
    (restoredTurn n turn.userInput (turn.answered codec n) turn.response).messages codec n =
      turn.messages codec n ↔ ∀ call ∈ turn.toolCalls,
      rewrittenText codec (call.outcomeText codec) = call.outcomeText codec := by
  have hmessages := Turn.messages_eq codec n
    (restoredTurn n turn.userInput (turn.answered codec n) turn.response)
  rw [hmessages, Turn.messages_eq, answered_restoredTurn]
  constructor
  · intro h call hcall
    have hanswered := answeredMessages_inj (List.append_cancel_right (List.cons.inj h).2)
    obtain ⟨i, hi, rfl⟩ := List.mem_iff_getElem.mp hcall
    have heq := List.mapIdx_eq_mapIdx_iff.mp hanswered i hi
    exact congrArg Prod.snd heq
  · intro h
    have hanswered : (turn.toolCalls.mapIdx fun i call =>
        ((⟨generateToolCallId n i, call.name, call.parameters, none⟩ : ToolCall),
          rewrittenText codec (call.outcomeText codec))) = turn.answered codec n :=
      List.mapIdx_eq_mapIdx_iff.mpr fun i hi =>
        Prod.ext rfl (h _ (List.getElem_mem hi))
    rw [hanswered]
    rfl

theorem length_answeredMessages {answered answered' : List (ToolCall × Text)}
    (h : answered.length = answered'.length) :
    (answeredMessages answered).length = (answeredMessages answered').length := by
  cases answered with
  | nil =>
    cases answered' with
    | nil => rfl
    | cons c more => cases h
  | cons c more =>
    cases answered' with
    | nil => cases h
    | cons c' more' => simpa [answeredMessages] using h

theorem length_messages_restoredTurn (codec : JsonCodec) (n : Nat) (turn : Turn) :
    ((restoredTurn n turn.userInput (turn.answered codec n) turn.response).messages codec n).length =
      (turn.messages codec n).length := by
  have hmessages := Turn.messages_eq codec n
    (restoredTurn n turn.userInput (turn.answered codec n) turn.response)
  have hlength : ((restoredTurn n turn.userInput (turn.answered codec n)
      turn.response).answered codec n).length = (turn.answered codec n).length := by
    rw [answered_restoredTurn, Turn.answered, List.length_mapIdx, List.length_mapIdx]
  rw [hmessages, Turn.messages_eq, List.length_cons, List.length_cons, List.length_append,
    List.length_append, length_answeredMessages hlength]
  rfl

theorem messagesFrom_restoredFrom_iff (codec : JsonCodec) (n : Nat) (turns : List Turn) :
    messagesFrom codec n (restoredFrom codec n turns) = messagesFrom codec n turns ↔
      ∀ turn ∈ turns, ∀ call ∈ turn.toolCalls,
        rewrittenText codec (call.outcomeText codec) = call.outcomeText codec := by
  induction turns generalizing n with
  | nil => simp [messagesFrom, restoredFrom]
  | cons turn turns ih =>
    rw [restoredFrom, messagesFrom, messagesFrom, List.forall_mem_cons, ← ih (n + 1),
      ← messages_restoredTurn_iff codec n]
    constructor
    · exact fun h => List.append_inj h (length_messages_restoredTurn codec n turn)
    · rintro ⟨hturn, hturns⟩
      rw [hturn, hturns]

theorem keep_restoredFrom (codec : JsonCodec) (n : Nat) (turns : List Turn) :
    (restoredFrom codec n turns).map (Turn.keep fun call => call.result.bind Json.asStr) =
      turns.map (Turn.keep fun call => some (call.outcomeText codec)) := by
  induction turns generalizing n with
  | nil => rfl
  | cons turn turns ih =>
    have hcalls : ((turn.answered codec n).map restoredCall).map
        (fun call => (⟨call.name, call.parameters, call.result.bind Json.asStr⟩ : KeptCall)) =
        turn.toolCalls.map fun call =>
          ⟨call.name, call.parameters, some (call.outcomeText codec)⟩ := by
      rw [map_map, Turn.answered, map_mapIdx_eq fun _ _ _ => rfl]
      exact mapIdx_const turn.toolCalls fun call =>
        (⟨call.name, call.parameters, some (call.outcomeText codec)⟩ : KeptCall)
    rw [restoredFrom, map_cons, map_cons, ih (n + 1)]
    exact congrArg (· :: _) (congrArg (KeptTurn.mk turn.userInput turn.response) hcalls)

end Restored

def Thread.restored (codec : JsonCodec) (thread : Thread) : Thread :=
  (Thread.new thread.sourceChannel).restoreFromMessages (thread.messages codec)

/-- A restored thread has the same messages, turns and calls, each with what it came to. -/
structure RestoresStably (codec : JsonCodec) (thread : Thread) : Prop where
  messages : (thread.restored codec).messages codec = thread.messages codec
  calls : (thread.restored codec).turns.map (Turn.keep fun call => call.result.bind Json.asStr) =
    thread.turns.map (Turn.keep fun call => some (call.outcomeText codec))

theorem restored_turns (codec : JsonCodec) (thread : Thread) :
    (thread.restored codec).turns = restoredFrom codec 0 thread.turns := by
  rw [← restoreTurns_messagesFrom, ← messages_eq_messagesFrom]
  rfl

theorem messages_restored_iff {codec : JsonCodec} {thread : Thread}
    (hreads : ReadsResults codec thread) :
    (thread.restored codec).messages codec = thread.messages codec ↔
      ∀ turn ∈ thread.turns, ∀ call ∈ turn.toolCalls, call.ReadsAgain codec := by
  rw [messages_eq_messagesFrom, messages_eq_messagesFrom, restored_turns,
    messagesFrom_restoredFrom_iff]
  exact forall₂_congr fun turn hturn => forall₂_congr fun call hcall =>
    rewrittenText_eq_iff hreads hturn hcall

/-- **A thread is restored stably** just if every call reads again. -/
theorem restoresStably_iff {codec : JsonCodec} {thread : Thread}
    (hreads : ReadsResults codec thread) : RestoresStably codec thread ↔
      ∀ turn ∈ thread.turns, ∀ call ∈ turn.toolCalls, call.ReadsAgain codec := by
  have hcalls := keep_restoredFrom codec 0 thread.turns
  rw [← restored_turns] at hcalls
  rw [← messages_restored_iff hreads]
  exact ⟨fun h => h.messages, fun h => ⟨h, hcalls⟩⟩

def resultTurn (result : Text) : Turn where
  turnNumber := 0
  userInput := "show the notes".toList
  response := some "done".toList
  toolCalls := [⟨"read_file".toList, .obj [], some (.str result), none, none, none⟩]
  state := .completed
  error := none
  narrative := none

def resultThread (result : Text) : Thread :=
  { Thread.new none with turns := [resultTurn result] }

def noCodec : JsonCodec where
  parse _ := none
  render _ := []

theorem readsResults_resultThread (result : Text) : ReadsResults noCodec (resultThread result) where
  results turn hturn call hcall value hvalue hne := by
    rw [mem_singleton.mp hturn] at hcall
    rw [mem_singleton.mp hcall] at hvalue
    exact absurd (Option.some.inj hvalue).symm (hne result)
  noTextEnd _ _ := rfl
  noTextStart _ _ := rfl

theorem readsAgain_of_text {call : TurnToolCall} {result : Text}
    (herror : call.error = none) (hresult : call.result = some (.str result)) :
    call.ReadsAgain noCodec ↔ CutsEvenly result := by
  have himage : GeneratedImageSentinel.fromValue noCodec (.str result) = none :=
    fromValue_str_of_parse rfl
  rw [TurnToolCall.ReadsAgain, herror, hresult]
  dsimp only
  rw [himage]
  rfl

theorem resultThread_restoresStably : RestoresStably noCodec (resultThread "two files".toList) := by
  refine (restoresStably_iff (readsResults_resultThread _)).mpr fun turn hturn call hcall => ?_
  rw [mem_singleton.mp hturn] at hcall
  rw [mem_singleton.mp hcall]
  exact (readsAgain_of_text rfl rfl).mpr (.inl (by decide))

def straddlingText : Text := List.replicate 999 'x' ++ ['é']

theorem takeBytes_straddlingText : takeBytes 1000 straddlingText = List.replicate 999 'x' := by
  have hlength : Text.byteLength (List.replicate 999 'x') = 999 := byteLength_replicate 999 'x'
  have hcut := takeBytes_append (List.replicate 999 'x') ['é'] 1
  rw [hlength] at hcut
  rw [straddlingText, hcut]
  exact List.append_nil _

/-- Restored, a result cut inside a character is cut once more and gets a dot too many. -/
theorem not_restoresStably_straddling :
    (resultTurn straddlingText).state = .completed ∧ ReadsResults noCodec (resultThread straddlingText) ∧
      ¬ RestoresStably noCodec (resultThread straddlingText) := by
  have hreads := readsResults_resultThread straddlingText
  refine ⟨rfl, hreads, fun h => ?_⟩
  have hreadsAgain := (messages_restored_iff hreads).mp h.messages _ List.mem_cons_self _
    List.mem_cons_self
  have heven : CutsEvenly straddlingText := (readsAgain_of_text rfl rfl).mp hreadsAgain
  have hwhole : Text.byteLength straddlingText = 1001 := by
    rw [straddlingText, byteLength_append, byteLength_replicate]
    rfl
  have hkept : Text.byteLength (takeBytes 1000 straddlingText) = 999 := by
    rw [takeBytes_straddlingText, byteLength_replicate]
    rfl
  rw [CutsEvenly, hwhole, hkept] at heven
  omega

end IronClaw.Agent
