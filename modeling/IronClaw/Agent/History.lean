import IronClaw.Agent.Session

/-!
# The stored history of a thread

A completed turn is stored behind what the user said, with its tool calls and its response, and a
thread is restored from that. The arguments of a call are not stored.
-/

namespace IronClaw.Agent

open Foundation (Json Text)
open Hooks (JsonCodec)
open Llm (ChatMessage ToolCall)
open Safety (decimal)
open List (append_assoc flatMap_append map_cons map_map mem_cons_self mem_singleton)

structure ConversationMessage where
  role : Text
  content : Text

section Persistence

variable (codec : JsonCodec)

def resultText : Json → Text
  | .str s => s
  | other => codec.render other

def toolResultPreviewForPersistence (result : Json) : Text :=
  match GeneratedImageSentinel.fromValue codec result with
  | some _ => "Generated image".toList
  | none => truncatePreview 500 (resultText codec result)

def toolResultContentForPersistence (result : Json) : Text :=
  match GeneratedImageSentinel.fromValue codec result with
  | some sentinel => sentinel.recordContent codec
  | none => truncatePreview 1000 (resultText codec result)

def callId (turnNumber i : Nat) : Text :=
  "turn".toList ++ decimal turnNumber ++ "_".toList ++ decimal i

def callSummary (turnNumber i : Nat) (call : TurnToolCall) : Json :=
  .obj ([("name".toList, .str call.name), ("call_id".toList, .str (callId turnNumber i))] ++
    (call.result.map fun result =>
      [("result_preview".toList, Json.str (toolResultPreviewForPersistence codec result)),
        ("result".toList, .str (toolResultContentForPersistence codec result))]).getD [] ++
    (call.error.map fun error => ("error".toList, Json.str (truncatePreview 200 error))).toList ++
    (call.rationale.map fun rationale =>
      ("rationale".toList, Json.str (truncatePreview 500 rationale))).toList ++
    (call.toolCallId.map fun toolCallId =>
      ("tool_call_id".toList, Json.str (truncatePreview 128 toolCallId))).toList)

def callsWrapper (turnNumber : Nat) (calls : List TurnToolCall) (narrative : Option Text) : Json :=
  .obj ((narrative.map fun n => ("narrative".toList, Json.str (truncatePreview 1000 n))).toList ++
    [("calls".toList, .arr (calls.mapIdx (callSummary codec turnNumber)))])

def persistUserMessage (userInput : Text) : List ConversationMessage :=
  [⟨"user".toList, userInput⟩]

def persistToolCalls (turnNumber : Nat) (calls : List TurnToolCall) (narrative : Option Text) :
    List ConversationMessage :=
  if calls.isEmpty then []
  else [⟨"tool_calls".toList, codec.render (callsWrapper codec turnNumber calls narrative)⟩]

def persistAssistantResponse (response : Text) : List ConversationMessage :=
  [⟨"assistant".toList, response⟩]

/-- What is stored of a turn: the user's message at its start, the others when completed. -/
def Turn.persist (turn : Turn) : List ConversationMessage :=
  persistUserMessage turn.userInput ++
    persistToolCalls codec turn.turnNumber turn.toolCalls turn.narrative ++
    (turn.response.map persistAssistantResponse).getD []

def Thread.persist (thread : Thread) : List ConversationMessage :=
  thread.turns.flatMap (Turn.persist codec)

end Persistence

section Rebuild

variable (codec : JsonCodec)

def textAt (key : String) (value : Json) : Option Text := (value.get key.toList).bind Json.asStr

def toolResultContentForRebuild (result : Text) : Text :=
  match GeneratedImageSentinel.fromValue codec (.str result) with
  | some sentinel => sentinel.summaryForContext
  | none => result

def storedCalls (content : Text) : List Json :=
  match codec.parse content with
  | some (.arr calls) => calls
  | some (.obj members) =>
    match (Json.obj members).get "calls".toList with
    | some (.arr calls) => calls
    | _ => []
  | _ => []

def rebuildCall (c : Json) : ToolCall where
  id := (textAt "call_id" c).getD "call_0".toList
  name := (textAt "name" c).getD "unknown".toList
  arguments := (c.get "parameters".toList).getD (.obj [])
  reasoning := textAt "rationale" c

/-- What a call came to: its error, its result, the preview of it, or nothing. -/
def rebuildContent (c : Json) : Text :=
  match textAt "error" c with
  | some error => error
  | none =>
    match textAt "result" c with
    | some result => toolResultContentForRebuild codec result
    | none => (textAt "result_preview" c).getD "OK".toList

/-- Calls without an id are skipped. -/
def rebuildMessages (msg : ConversationMessage) : List ChatMessage :=
  if msg.role = "user".toList then [.user msg.content]
  else if msg.role = "assistant".toList then [.assistant msg.content]
  else if msg.role = "tool_calls".toList then
    match storedCalls codec msg.content with
    | [] => []
    | first :: rest =>
      if (textAt "call_id" first).isSome then
        let calls := first :: rest
        .assistantWithToolCalls none (calls.map rebuildCall) :: calls.map fun c =>
          .toolResult (rebuildCall c).id (rebuildCall c).name (rebuildContent codec c)
      else []
  else []

def rebuildChatMessagesFromDb (dbMessages : List ConversationMessage) : List ChatMessage :=
  dbMessages.flatMap (rebuildMessages codec)

def Thread.reload (thread : Thread) : Thread :=
  (Thread.new thread.sourceChannel).restoreFromMessages
    (rebuildChatMessagesFromDb codec (thread.persist codec))

end Rebuild

structure KeptCall where
  name : Text
  arguments : Json
  outcome : Option Text

structure KeptTurn where
  userInput : Text
  response : Option Text
  calls : List KeptCall

def Turn.keep (outcome : TurnToolCall → Option Text) (turn : Turn) : KeptTurn :=
  ⟨turn.userInput, turn.response,
    turn.toolCalls.map fun call => ⟨call.name, call.parameters, outcome call⟩⟩

/-- What a call came to: errors cut to 200 bytes, results to 1000, images to a summary. -/
def TurnToolCall.truncatedOutcome (codec : JsonCodec) (call : TurnToolCall) : Text :=
  match call.error, call.result with
  | some error, _ => truncatePreview 200 error
  | none, some result =>
    match GeneratedImageSentinel.fromValue codec result with
    | some sentinel => sentinel.summaryForContext
    | none => truncatePreview 1000 (resultText codec result)
  | none, none => "OK".toList

/-- A thread loaded again has the stored turns and calls, each with what it came to. -/
def Rebuilds (codec : JsonCodec) (thread : Thread) : Prop :=
  (thread.reload codec).turns.map (Turn.keep fun call => call.result.bind Json.asStr) =
    thread.turns.map (Turn.keep fun call => some (call.truncatedOutcome codec))

def writtenFor (codec : JsonCodec) (result : Json) : List Json :=
  match GeneratedImageSentinel.fromValue codec result, result with
  | some sentinel, _ => [sentinel.value, sentinel.compactValueWithoutDataUrl]
  | none, .str _ => []
  | none, other => [other]

/-- The texts of a thread are read back, and no JSON text ends like one that was cut. -/
structure ReadsBack (codec : JsonCodec) (thread : Thread) : Prop where
  rows : ∀ turn ∈ thread.turns,
    codec.parse (codec.render (callsWrapper codec turn.turnNumber turn.toolCalls turn.narrative)) =
      some (callsWrapper codec turn.turnNumber turn.toolCalls turn.narrative)
  results : ∀ turn ∈ thread.turns, ∀ call ∈ turn.toolCalls, ∀ result ∈ call.result,
    ∀ value ∈ writtenFor codec result, codec.parse (codec.render value) = some value
  noText : ∀ text : Text, text.getLast? = some '.' ∨ text.getLast? = some '>' →
    codec.parse text = none

theorem getLast?_truncatePreview {maxBytes : Nat} {s : Text} (h : maxBytes < Text.byteLength s) :
    (truncatePreview maxBytes s).getLast? = some '.' ∨
      (truncatePreview maxBytes s).getLast? = some '>' := by
  rw [truncatePreview, if_neg (by omega)]
  dsimp only
  split_ifs
  · right
    rw [List.getLast?_append]
    rfl
  · left
    rw [List.getLast?_append]
    rfl

variable {sentinel : GeneratedImageSentinel}

theorem fromValue_eq_some {codec : JsonCodec} {value : Json}
    (h : GeneratedImageSentinel.fromValue codec value = some sentinel) :
    (sentinel.value.get "type".toList).bind Json.asStr = some "image_generated".toList := by
  obtain ⟨normalized, -, hif⟩ := Option.bind_eq_some_iff.mp h
  split_ifs at hif with htype
  cases hif
  exact htype

theorem fromValue_str {codec : JsonCodec} {text : Text} {value : Json}
    (hparse : codec.parse text = some value) (hvalue : ∀ s, value ≠ .str s) :
    GeneratedImageSentinel.fromValue codec (.str text) =
      GeneratedImageSentinel.fromValue codec value := by
  have hunwrap : unwrapLayers codec (maxEmbeddedJsonStringLayers - 1) value = some value := by
    cases value with
    | str s => exact absurd rfl (hvalue s)
    | _ => rfl
  have hnormalize : normalizeEmbeddedJson codec value = some value := by
    cases value with
    | str s => exact absurd rfl (hvalue s)
    | _ => rfl
  rw [GeneratedImageSentinel.fromValue, GeneratedImageSentinel.fromValue, normalizeEmbeddedJson,
    hparse, Option.bind_some, hunwrap, hnormalize]

theorem fromValue_of_type {codec : JsonCodec} {members : List (Text × Json)}
    (h : ((Json.obj members).get "type".toList).bind Json.asStr = some "image_generated".toList) :
    GeneratedImageSentinel.fromValue codec (.obj members) = some ⟨.obj members⟩ := by
  have hnormalize : normalizeEmbeddedJson codec (.obj members) = some (.obj members) := rfl
  rw [GeneratedImageSentinel.fromValue, hnormalize, Option.bind_some, if_pos h]

theorem value_eq_obj
    (h : (sentinel.value.get "type".toList).bind Json.asStr = some "image_generated".toList) :
    ∃ members, sentinel.value = .obj members := by
  obtain ⟨value⟩ := sentinel
  cases value with
  | obj members => exact ⟨members, rfl⟩
  | _ => cases h

theorem mediaType_compact (sentinel : GeneratedImageSentinel) :
    (GeneratedImageSentinel.mk sentinel.compactValueWithoutDataUrl).mediaType = sentinel.mediaType ∧
      (GeneratedImageSentinel.mk sentinel.compactValueWithoutDataUrl).path =
        sentinel.path.filter fun path => !path.isEmpty := by
  unfold GeneratedImageSentinel.compactValueWithoutDataUrl
  generalize sentinel.mediaType = mediaType
  generalize sentinel.path.filter _ = path
  cases mediaType <;> cases path <;> exact ⟨rfl, rfl⟩

theorem summary_compact (sentinel : GeneratedImageSentinel) :
    (GeneratedImageSentinel.mk sentinel.compactValueWithoutDataUrl).summaryForContext =
      sentinel.summaryForContext := by
  obtain ⟨hmedia, hpath⟩ := mediaType_compact sentinel
  unfold GeneratedImageSentinel.summaryForContext
  rw [hmedia, hpath]
  cases sentinel.path with
  | none => rfl
  | some path => cases path <;> rfl

theorem rebuild_recordContent {codec : JsonCodec}
    (htype : (sentinel.value.get "type".toList).bind Json.asStr = some "image_generated".toList)
    (hvalue : codec.parse (codec.render sentinel.value) = some sentinel.value)
    (hcompact : codec.parse (codec.render sentinel.compactValueWithoutDataUrl) =
      some sentinel.compactValueWithoutDataUrl) :
    toolResultContentForRebuild codec (sentinel.recordContent codec) =
      sentinel.summaryForContext := by
  have hread : ∀ {members : List (Text × Json)},
      codec.parse (codec.render (.obj members)) = some (.obj members) →
      ((Json.obj members).get "type".toList).bind Json.asStr = some "image_generated".toList →
      toolResultContentForRebuild codec (codec.render (.obj members)) =
        (GeneratedImageSentinel.mk (.obj members)).summaryForContext := by
    intro members hparse hmembers
    rw [toolResultContentForRebuild, fromValue_str hparse (by simp), fromValue_of_type hmembers]
  unfold GeneratedImageSentinel.recordContent
  dsimp only
  split_ifs
  · obtain ⟨members, hmembers⟩ := value_eq_obj htype
    rw [hmembers] at hvalue htype ⊢
    rw [hread hvalue htype, ← hmembers]
  · rw [GeneratedImageSentinel.compactValueWithoutDataUrl] at hcompact ⊢
    exact (hread hcompact rfl).trans (summary_compact sentinel)

theorem rebuild_of_none {codec : JsonCodec} {text : Text}
    (h : GeneratedImageSentinel.fromValue codec (.str text) = none) :
    toolResultContentForRebuild codec text = text := by
  rw [toolResultContentForRebuild, h]

theorem toolResultContent_roundtrip {codec : JsonCodec} {result : Json}
    (hread : ∀ value ∈ writtenFor codec result, codec.parse (codec.render value) = some value)
    (hnoText : ∀ text : Text, text.getLast? = some '.' ∨ text.getLast? = some '>' →
      codec.parse text = none) :
    toolResultContentForRebuild codec (toolResultContentForPersistence codec result) =
      match GeneratedImageSentinel.fromValue codec result with
      | some sentinel => sentinel.summaryForContext
      | none => truncatePreview 1000 (resultText codec result) := by
  unfold toolResultContentForPersistence
  unfold writtenFor at hread
  cases himage : GeneratedImageSentinel.fromValue codec result with
  | some sentinel =>
    rw [himage] at hread
    exact rebuild_recordContent (fromValue_eq_some himage) (hread _ mem_cons_self)
      (hread _ (List.mem_cons_of_mem _ mem_cons_self))
  | none =>
    rw [himage] at hread
    apply rebuild_of_none
    by_cases hlong : 1000 < Text.byteLength (resultText codec result)
    · -- what was cut is no JSON
      rw [GeneratedImageSentinel.fromValue, normalizeEmbeddedJson,
        hnoText _ (getLast?_truncatePreview hlong)]
      rfl
    · rw [truncatePreview, if_pos (by omega)]
      cases result with
      | str s => exact himage
      | _ => exact (fromValue_str (hread _ mem_cons_self) (by simp)).trans himage

section Calls

variable {codec : JsonCodec} {call : TurnToolCall}

variable (turnNumber i : Nat)

theorem rebuildCall_callSummary :
    rebuildCall (callSummary codec turnNumber i call) =
      ⟨callId turnNumber i, call.name, .obj [], call.rationale.map (truncatePreview 500)⟩ := by
  obtain ⟨name, parameters, result, error, rationale, toolCallId⟩ := call
  cases result <;> cases error <;> cases rationale <;> cases toolCallId <;> rfl

theorem isSome_callId :
    (textAt "call_id" (callSummary codec turnNumber i call)).isSome = true := rfl

theorem rebuildContent_callSummary
    (hread : ∀ result ∈ call.result, ∀ value ∈ writtenFor codec result,
      codec.parse (codec.render value) = some value)
    (hnoText : ∀ text : Text, text.getLast? = some '.' ∨ text.getLast? = some '>' →
      codec.parse text = none) :
    rebuildContent codec (callSummary codec turnNumber i call) = call.truncatedOutcome codec := by
  obtain ⟨name, parameters, result, error, rationale, toolCallId⟩ := call
  cases error with
  | some error =>
    -- an error goes before a result
    cases result <;> cases rationale <;> cases toolCallId <;> rfl
  | none =>
    cases result with
    | none => cases rationale <;> cases toolCallId <;> rfl
    | some result =>
      have hroundtrip := toolResultContent_roundtrip (hread result rfl) hnoText
      cases rationale <;> cases toolCallId <;> exact hroundtrip

theorem storedCalls_callsWrapper {turnNumber : Nat} {calls : List TurnToolCall}
    {narrative : Option Text}
    (h : codec.parse (codec.render (callsWrapper codec turnNumber calls narrative)) =
      some (callsWrapper codec turnNumber calls narrative)) :
    storedCalls codec (codec.render (callsWrapper codec turnNumber calls narrative)) =
      calls.mapIdx (callSummary codec turnNumber) := by
  rw [storedCalls, h]
  cases narrative <;> rfl

def answeredCall (codec : JsonCodec) (turnNumber i : Nat) (call : TurnToolCall) :
    ToolCall × Text :=
  (⟨callId turnNumber i, call.name, .obj [], call.rationale.map (truncatePreview 500)⟩,
    call.truncatedOutcome codec)

def answeredMessages : List (ToolCall × Text) → List ChatMessage
  | [] => []
  | answered => .assistantWithToolCalls none (answered.map Prod.fst) ::
      answered.map fun c => .toolResult c.1.id c.1.name c.2

end Calls

theorem map_mapIdx_eq {α β γ : Type} {l : List α} {f : Nat → α → β} {g : β → γ}
    {k : Nat → α → γ} (h : ∀ i, ∀ a ∈ l, g (f i a) = k i a) : (l.mapIdx f).map g = l.mapIdx k := by
  apply List.ext_getElem?
  intro i
  rw [List.getElem?_map, List.getElem?_mapIdx, List.getElem?_mapIdx]
  cases ha : l[i]? with
  | none => rfl
  | some a => exact congrArg some (h i a (List.mem_of_getElem? ha))

theorem mapIdx_const {α β : Type} (l : List α) (g : α → β) :
    l.mapIdx (fun _ a => g a) = l.map g := by
  apply List.ext_getElem?
  intro i
  rw [List.getElem?_mapIdx, List.getElem?_map]

section Turns

variable {codec : JsonCodec} {thread : Thread} {turn : Turn}

theorem rebuildMessages_toolCalls {content : Text} {calls : List Json}
    (hstored : storedCalls codec content = calls)
    (hid : ∀ c ∈ calls, (textAt "call_id" c).isSome = true) :
    rebuildMessages codec ⟨"tool_calls".toList, content⟩ =
      answeredMessages (calls.map fun c => (rebuildCall c, rebuildContent codec c)) := by
  have huser : ¬ "tool_calls".toList = "user".toList := by decide
  have hassistant : ¬ "tool_calls".toList = "assistant".toList := by decide
  unfold rebuildMessages
  refine (if_neg huser).trans ((if_neg hassistant).trans ((if_pos rfl).trans ?_))
  dsimp only
  rw [hstored]
  cases calls with
  | nil => rfl
  | cons first rest =>
    refine (if_pos (hid first mem_cons_self)).trans ?_
    simp only [map_cons, answeredMessages, map_map]
    rfl

theorem rebuild_persistToolCalls (hreads : ReadsBack codec thread) (hturn : turn ∈ thread.turns) :
    rebuildChatMessagesFromDb codec
        (persistToolCalls codec turn.turnNumber turn.toolCalls turn.narrative) =
      answeredMessages (turn.toolCalls.mapIdx (answeredCall codec turn.turnNumber)) := by
  unfold persistToolCalls
  split_ifs with hnone
  · rw [List.isEmpty_iff.mp hnone]
    rfl
  · have hstored := storedCalls_callsWrapper (hreads.rows turn hturn)
    have hmessages := rebuildMessages_toolCalls hstored fun c hc => by
      obtain ⟨i, hi, rfl⟩ := List.mem_mapIdx.mp hc
      exact isSome_callId turn.turnNumber i
    have hanswered : ∀ i, ∀ call ∈ turn.toolCalls,
        (rebuildCall (callSummary codec turn.turnNumber i call),
          rebuildContent codec (callSummary codec turn.turnNumber i call)) =
        answeredCall codec turn.turnNumber i call := fun i call hcall =>
      Prod.ext (rebuildCall_callSummary turn.turnNumber i) <|
        rebuildContent_callSummary turn.turnNumber i (hreads.results turn hturn call hcall)
          hreads.noText
    rw [map_mapIdx_eq hanswered] at hmessages
    exact (List.append_nil _).trans hmessages

theorem rebuild_persist (hreads : ReadsBack codec thread) (hturn : turn ∈ thread.turns) :
    rebuildChatMessagesFromDb codec (turn.persist codec) = .user turn.userInput ::
        (answeredMessages (turn.toolCalls.mapIdx (answeredCall codec turn.turnNumber)) ++
          (turn.response.map ChatMessage.assistant).toList) := by
  have hcalls := rebuild_persistToolCalls hreads hturn
  unfold rebuildChatMessagesFromDb at hcalls ⊢
  unfold Turn.persist
  rw [flatMap_append, flatMap_append, hcalls]
  cases turn.response <;> rfl

end Turns

def openCall (call : ToolCall) : TurnToolCall :=
  ⟨call.name, call.arguments, none, none, call.reasoning, some call.id⟩

def restoredCall (c : ToolCall × Text) : TurnToolCall :=
  ⟨c.1.name, c.1.arguments, some (.str c.2), none, c.1.reasoning, some c.1.id⟩

def restoredTurn (turnNumber : Nat) (userInput : Text) (answered : List (ToolCall × Text))
    (response : Option Text) : Turn where
  turnNumber := turnNumber
  userInput := userInput
  response := response
  toolCalls := answered.map restoredCall
  state := if response.isSome then .completed else .processing
  error := none
  narrative := none

theorem recordToolCalls_eq (turn : Turn) (calls : List ToolCall) :
    turn.recordToolCalls calls =
      { turn with toolCalls := turn.toolCalls ++ calls.map openCall } := by
  unfold Turn.recordToolCalls
  induction calls generalizing turn with
  | nil => rw [List.map_nil, List.append_nil]; rfl
  | cons call calls ih =>
    rw [List.foldl_cons, ih]
    simp only [Turn.recordToolCall, map_cons, append_assoc, List.singleton_append]
    rfl

theorem modify_length {α : Type} (front back : List α) (a : α) (f : α → α) :
    (front ++ a :: back).modify front.length f = front ++ f a :: back := by
  induction front with
  | nil => rfl
  | cons b front ih => exact congrArg (b :: ·) ih

variable (n : Nat)

theorem restoreTurns_results (turn : Turn) (front : List TurnToolCall)
    (answered : List (ToolCall × Text)) (rest : List ChatMessage) :
    restoreTurns n
        (some ⟨{ turn with toolCalls := front ++ (answered.map Prod.fst).map openCall },
          some front.length⟩)
        ((answered.map fun c => .toolResult c.1.id c.1.name c.2) ++ rest) =
      restoreTurns n
        (some ⟨{ turn with toolCalls := front ++ answered.map restoredCall },
          some (front.length + answered.length)⟩) rest := by
  induction answered generalizing front with
  | nil => rfl
  | cons c answered ih =>
    have hset : ({ turn with toolCalls := front ++ ((c :: answered).map Prod.fst).map openCall } :
        Turn).setResult front.length c.2 = { turn with
          toolCalls := (front ++ [restoredCall c]) ++ (answered.map Prod.fst).map openCall } := by
      simp only [Turn.setResult, map_cons, modify_length, append_assoc,
        List.singleton_append]
      rfl
    have hnext := ih (front ++ [restoredCall c])
    rw [List.length_append, List.length_singleton] at hnext
    rw [map_cons (f := fun c : ToolCall × Text => ChatMessage.toolResult c.1.id c.1.name c.2),
      List.cons_append, restoreTurns]
    dsimp only
    rw [hset, hnext]
    simp only [map_cons, append_assoc, List.singleton_append, List.length_cons,
      Nat.add_assoc, Nat.add_comm 1]

/-- Behind the messages of a turn comes the message of another one, or nothing. -/
def StartsTurn : List ChatMessage → Prop
  | [] => True
  | .user _ :: _ => True
  | _ => False

theorem restoreTurns_response (r : Restoring) (response : Option Text) {rest : List ChatMessage}
    (hrest : StartsTurn rest) :
    restoreTurns n (some r) ((response.map ChatMessage.assistant).toList ++ rest) =
      (response.elim r.turn fun text => r.turn.conclude (.completed text)) ::
        restoreTurns (n + 1) none rest := by
  cases response with
  | some text => rfl
  | none =>
    cases rest with
    | nil => rfl
    | cons message rest =>
      cases message with
      | user content => rfl
      | _ => cases hrest

theorem restoredTurn_eq (userInput : Text) (answered : List (ToolCall × Text))
    (response : Option Text) :
    (response.elim { Turn.new n userInput with toolCalls := answered.map restoredCall } fun text =>
      ({ Turn.new n userInput with toolCalls := answered.map restoredCall } : Turn).conclude
        (.completed text)) = restoredTurn n userInput answered response := by
  cases response <;> rfl

theorem restoreTurns_turn (userInput : Text) (answered : List (ToolCall × Text))
    (response : Option Text) {rest : List ChatMessage} (hrest : StartsTurn rest) :
    restoreTurns n none (.user userInput ::
        (answeredMessages answered ++ ((response.map ChatMessage.assistant).toList ++ rest))) =
      restoredTurn n userInput answered response :: restoreTurns (n + 1) none rest := by
  rw [← restoredTurn_eq]
  cases answered with
  | nil => exact restoreTurns_response n ⟨Turn.new n userInput, none⟩ response hrest
  | cons c answered =>
    have hcalls := recordToolCalls_eq (Turn.new n userInput) ((c :: answered).map Prod.fst)
    have hresults := restoreTurns_results n (Turn.new n userInput) [] (c :: answered)
      ((response.map ChatMessage.assistant).toList ++ rest)
    -- first the message with the calls, then their results, and then the response
    show restoreTurns n
        (some ⟨(Turn.new n userInput).recordToolCalls ((c :: answered).map Prod.fst), some 0⟩)
        (((c :: answered).map fun c => .toolResult c.1.id c.1.name c.2) ++
          ((response.map ChatMessage.assistant).toList ++ rest)) = _
    rw [hcalls]
    exact hresults.trans (restoreTurns_response n _ response hrest)

def reloadedTurn (codec : JsonCodec) (turn : Turn) : KeptTurn :=
  ⟨turn.userInput, turn.response, turn.toolCalls.map fun call =>
    ⟨call.name, .obj [], some (call.truncatedOutcome codec)⟩⟩

theorem keep_restoredTurn (codec : JsonCodec) (n : Nat) (turn : Turn) :
    (restoredTurn n turn.userInput (turn.toolCalls.mapIdx (answeredCall codec turn.turnNumber))
      turn.response).keep (fun call => call.result.bind Json.asStr) = reloadedTurn codec turn := by
  have hcalls : ((turn.toolCalls.mapIdx (answeredCall codec turn.turnNumber)).map restoredCall).map
      (fun call => (⟨call.name, call.parameters, call.result.bind Json.asStr⟩ : KeptCall)) =
      turn.toolCalls.map fun call => ⟨call.name, .obj [], some (call.truncatedOutcome codec)⟩ := by
    rw [map_map, map_mapIdx_eq fun i call _ => rfl]
    exact mapIdx_const turn.toolCalls fun call =>
      (⟨call.name, .obj [], some (call.truncatedOutcome codec)⟩ : KeptCall)
  exact congrArg (KeptTurn.mk turn.userInput turn.response) hcalls

theorem startsTurn_rebuild {codec : JsonCodec} {thread : Thread} (hreads : ReadsBack codec thread)
    {turns : List Turn} (hturns : ∀ turn ∈ turns, turn ∈ thread.turns) :
    StartsTurn (rebuildChatMessagesFromDb codec (turns.flatMap (Turn.persist codec))) := by
  cases turns with
  | nil => trivial
  | cons turn turns =>
    have hturn := rebuild_persist hreads (hturns turn mem_cons_self)
    unfold rebuildChatMessagesFromDb at hturn ⊢
    rw [List.flatMap_cons, flatMap_append, hturn]
    trivial

theorem keep_restoreTurns {codec : JsonCodec} {thread : Thread} (hreads : ReadsBack codec thread)
    {turns : List Turn} (hturns : ∀ turn ∈ turns, turn ∈ thread.turns) (n : Nat) :
    (restoreTurns n none (rebuildChatMessagesFromDb codec (turns.flatMap (Turn.persist codec)))).map
        (Turn.keep fun call => call.result.bind Json.asStr) = turns.map (reloadedTurn codec) := by
  induction turns generalizing n with
  | nil => rfl
  | cons turn turns ih =>
    have hrest : ∀ turn ∈ turns, turn ∈ thread.turns :=
      fun turn hturn => hturns turn (List.mem_cons_of_mem _ hturn)
    have hturn := rebuild_persist hreads (hturns turn mem_cons_self)
    have hstarts := startsTurn_rebuild hreads hrest
    have hih := ih hrest (n + 1)
    unfold rebuildChatMessagesFromDb at hturn hstarts hih ⊢
    rw [List.flatMap_cons, flatMap_append, hturn, List.cons_append, append_assoc,
      restoreTurns_turn n _ _ _ hstarts, map_cons, map_cons, hih, keep_restoredTurn]

/-- **A thread is rebuilt** just if no tool call had arguments, given that what was written reads
back. -/
theorem rebuilds_iff_without_arguments {codec : JsonCodec} {thread : Thread}
    (hreads : ReadsBack codec thread) : Rebuilds codec thread ↔
      ∀ turn ∈ thread.turns, ∀ call ∈ turn.toolCalls, call.parameters = .obj [] := by
  have hrestored := keep_restoreTurns hreads (fun turn hturn => hturn) 0
  have hiff : Rebuilds codec thread ↔ thread.turns.map (reloadedTurn codec) =
      thread.turns.map (Turn.keep fun call => some (call.truncatedOutcome codec)) := by
    rw [← hrestored]
    rfl
  rw [hiff, List.map_inj_left]
  refine forall₂_congr fun turn _ => ?_
  simp only [reloadedTurn, Turn.keep, KeptTurn.mk.injEq, true_and, List.map_inj_left,
    KeptCall.mk.injEq, and_true]
  exact forall₂_congr fun call _ => eq_comm

def listTurn (arguments : Json) : Turn where
  turnNumber := 0
  userInput := "find cats".toList
  response := some "done".toList
  toolCalls := [⟨"list".toList, arguments, some (.str "two files".toList), none, none, none⟩]
  state := .completed
  error := none
  narrative := none

def listThread (arguments : Json) : Thread := { Thread.new none with turns := [listTurn arguments] }

def listRow : Text :=
  "\x7b\"calls\":[\x7b\"call_id\":\"turn0_0\",\"name\":\"list\",".toList ++
    "\"result\":\"two files\",\"result_preview\":\"two files\"\x7d]\x7d".toList

def listWrapper : Json :=
  .obj [("calls".toList, .arr [.obj [("name".toList, .str "list".toList),
    ("call_id".toList, .str "turn0_0".toList), ("result_preview".toList, .str "two files".toList),
    ("result".toList, .str "two files".toList)]])]

def listCodec : JsonCodec where
  parse text := if text = listRow then some listWrapper else none
  render _ := listRow

theorem fromValue_two_files :
    GeneratedImageSentinel.fromValue listCodec (.str "two files".toList) = none := by
  have hne : ¬ "two files".toList = listRow := by decide +kernel
  have hparse : listCodec.parse "two files".toList = none := by
    show (if "two files".toList = listRow then some listWrapper else none) = none
    exact if_neg hne
  rw [GeneratedImageSentinel.fromValue, normalizeEmbeddedJson, hparse]
  rfl

theorem callsWrapper_listTurn (arguments : Json) :
    callsWrapper listCodec (listTurn arguments).turnNumber (listTurn arguments).toolCalls
      (listTurn arguments).narrative = listWrapper := by
  have hpreview : toolResultPreviewForPersistence listCodec (.str "two files".toList) =
      "two files".toList := by
    rw [toolResultPreviewForPersistence, fromValue_two_files]
    rfl
  have hcontent : toolResultContentForPersistence listCodec (.str "two files".toList) =
      "two files".toList := by
    rw [toolResultContentForPersistence, fromValue_two_files]
    rfl
  have hsummary : callSummary listCodec 0 0
      ⟨"list".toList, arguments, some (.str "two files".toList), none, none, none⟩ =
      .obj [("name".toList, .str "list".toList), ("call_id".toList, .str (callId 0 0)),
        ("result_preview".toList, .str "two files".toList),
        ("result".toList, .str "two files".toList)] := by
    rw [callSummary, Option.map_some, hpreview, hcontent]
    rfl
  show Json.obj [("calls".toList, .arr [callSummary listCodec 0 0 _])] = _
  rw [hsummary]
  rfl

theorem readsBack_listThread (arguments : Json) : ReadsBack listCodec (listThread arguments) where
  rows turn hturn := by
    rw [mem_singleton.mp hturn, callsWrapper_listTurn]
    show (if listRow = listRow then some listWrapper else none) = some listWrapper
    exact if_pos rfl
  results turn hturn call hcall result hresult value hvalue := by
    rw [mem_singleton.mp hturn] at hcall
    rw [mem_singleton.mp hcall] at hresult
    cases hresult
    cases hvalue
  noText text hlast := by
    refine if_neg ?_
    rintro rfl
    revert hlast
    decide

theorem listThread_rebuilds : Rebuilds listCodec (listThread (.obj [])) := by
  refine (rebuilds_iff_without_arguments (readsBack_listThread _)).mpr ?_
  intro turn hturn call hcall
  rw [mem_singleton.mp hturn] at hcall
  rw [mem_singleton.mp hcall]

/-- A tool called with arguments was called without any once the thread is loaded again. -/
theorem arguments_lost :
    let thread := listThread (.obj [("path".toList, .str "cats".toList)])
    ReadsBack listCodec thread ∧
      (thread.reload listCodec).turns.flatMap (·.toolCalls.map (·.parameters)) = [.obj []] ∧
      ¬ Rebuilds listCodec thread := by
  refine ⟨readsBack_listThread _, rfl, fun h => ?_⟩
  have hcalls := congrArg (fun turns => turns.flatMap fun turn => turn.calls.map (·.arguments)) h
  cases hcalls

end IronClaw.Agent
