import Mathlib.Data.List.Nodup
import IronClaw.Foundation.Json

/-!
# The transcript for the Python orchestrator

Messages are handed over as JSON values, and parsed when they come back. The parser uses the
constructor for the role, which has no argument for what the role does not have.
-/

namespace IronClaw.Orchestrator

open Foundation (Text Json)
open List (map_cons map_map nil_append)

abbrev Timestamp := Nat

inductive MessageRole where
  | system
  | user
  | assistant
  | actionResult
deriving DecidableEq

def MessageRole.debugName : MessageRole → Text
  | system => "System".toList
  | user => "User".toList
  | assistant => "Assistant".toList
  | actionResult => "ActionResult".toList

inductive Provenance where
  | user
  | system
  | toolOutput (actionName : Text)
  | llmGenerated
  | memoryRetrieval (docId : Nat)

structure ActionCall where
  id : Text
  actionName : Text
  parameters : Json

structure ThreadMessage where
  role : MessageRole
  content : Text
  provenance : Provenance
  actionCallId : Option Text
  actionName : Option Text
  actionCalls : Option (List ActionCall)
  timestamp : Timestamp

namespace ThreadMessage

variable (now : Timestamp)

def system (content : Text) : ThreadMessage := ⟨.system, content, .system, none, none, none, now⟩

def user (content : Text) : ThreadMessage := ⟨.user, content, .user, none, none, none, now⟩

def assistant (content : Text) : ThreadMessage :=
  ⟨.assistant, content, .llmGenerated, none, none, none, now⟩

def assistantWithActions (content : Option Text) (calls : List ActionCall) : ThreadMessage :=
  ⟨.assistant, content.getD [], .llmGenerated, none, none, some calls, now⟩

def actionResult (callId actionName content : Text) : ThreadMessage :=
  ⟨.actionResult, content, .toolOutput actionName, some callId, some actionName, none, now⟩

end ThreadMessage

/-- A value of the Python interpreter. A float that is no number or infinite has no text. -/
inductive MontyObject where
  | none
  | bool (b : Bool)
  | int (i : Int)
  | bigInt (i : Int)
  | float (repr : Option Text)
  | string (s : Text)
  | list (items : List MontyObject)
  | tuple (items : List MontyObject)
  | dict (pairs : List (MontyObject × MontyObject))
  | set (items : List MontyObject)
  | frozenSet (items : List MontyObject)
  | bytes (b : List UInt8)
  | other (debug : Text)

section Conversion

variable (asF64 : Int → Text) (debug : MontyObject → Text)

/-- An integer of 64 bits with a sign stays one, any other becomes a float. -/
def intToMonty (n : Int) : MontyObject :=
  if -2 ^ 63 ≤ n ∧ n < 2 ^ 63 then .int n else .float (some (asF64 n))

def jsonToMonty : Json → MontyObject
  | .null => .none
  | .bool b => .bool b
  | .int n => intToMonty asF64 n
  | .float repr => .float (some repr)
  | .str s => .string s
  | .arr values => .list (jsonsToMonty values)
  | .obj members => .dict (membersToMonty members)
where
  jsonsToMonty : List Json → List MontyObject
    | [] => []
    | j :: values => jsonToMonty j :: jsonsToMonty values
  membersToMonty : List (Text × Json) → List (MontyObject × MontyObject)
    | [] => []
    | (key, j) :: members => (.string key, jsonToMonty j) :: membersToMonty members

def montyKey : MontyObject → Text
  | .string s => s
  | other => debug other

def hexByte (b : UInt8) : Text := [Nat.digitChar (b.toNat / 16), Nat.digitChar (b.toNat % 16)]

def montyToJson : MontyObject → Json
  | .none => .null
  | .bool b => .bool b
  | .int i => .int i
  | .bigInt i => .str (toString i).toList
  | .float (some repr) => .float repr
  | .float .none => .null
  | .string s => .str s
  | .list items => .arr (montysToJson items)
  | .tuple items => .arr (montysToJson items)
  | .dict pairs => .obj (pairsToJson [] pairs)
  | .set items => .arr (montysToJson items)
  | .frozenSet items => .arr (montysToJson items)
  | .bytes b => .str (b.flatMap hexByte)
  | .other text => .str text
where
  montysToJson : List MontyObject → List Json
    | [] => []
    | m :: items => montyToJson m :: montysToJson items
  pairsToJson (members : List (Text × Json)) : List (MontyObject × MontyObject) → List (Text × Json)
    | [] => members
    | (key, m) :: pairs =>
      pairsToJson (Json.setMember (montyKey debug key) (montyToJson m) members) pairs

end Conversion

section Encoding

def ActionCall.toPythonJson (call : ActionCall) : Json :=
  .obj [("name".toList, .str call.actionName), ("call_id".toList, .str call.id),
    ("params".toList, call.parameters)]

def actionCallsToPythonJson (calls : List ActionCall) : List Json :=
  calls.map ActionCall.toPythonJson

def optionalText : Option Text → Json
  | some s => .str s
  | none => .null

def ThreadMessage.toContextJson (m : ThreadMessage) : Json :=
  .obj [("role".toList, .str m.role.debugName), ("content".toList, .str m.content),
    ("action_name".toList, optionalText m.actionName),
    ("action_call_id".toList, optionalText m.actionCallId),
    ("action_calls".toList,
      match m.actionCalls with
      | some calls => .arr (actionCallsToPythonJson calls)
      | none => .null)]

structure Thread where
  messages : List ThreadMessage
  internalMessages : List ThreadMessage
  goal : Text
  config : Json

def Thread.bootstrapMessages (thread : Thread) : List ThreadMessage :=
  if thread.internalMessages.isEmpty then thread.messages else thread.internalMessages

def buildOrchestratorInputs (asF64 : Int → Text) (thread : Thread) (persistedState : Json) :
    List (Text × MontyObject) :=
  [("context".toList,
      jsonToMonty asF64 (.arr (thread.bootstrapMessages.map ThreadMessage.toContextJson))),
    ("goal".toList, .string thread.goal),
    ("actions".toList, jsonToMonty asF64 (.arr [])),
    ("state".toList, jsonToMonty asF64 persistedState),
    ("config".toList, jsonToMonty asF64 thread.config)]

def pythonActionCall : Json → Option ActionCall
  | .obj members => do
    let name ← ((Json.obj members).get "name".toList).bind Json.asStr
    let callId ← ((Json.obj members).get "call_id".toList).bind Json.asStr
    let params ← (Json.obj members).get "params".toList
    return ⟨callId, name, params⟩
  | .arr [.str name, .str callId, params] => some ⟨callId, name, params⟩
  | _ => none

def pythonJsonToActionCalls : Json → Option (List ActionCall)
  | .arr values => values.mapM pythonActionCall
  | _ => none

def textOr (default : Text) (item : Json) (key : Text) : Text :=
  ((item.get key).bind Json.asStr).getD default

def jsonToThreadMessage (now : Timestamp) (item : Json) : ThreadMessage :=
  let role := textOr "User".toList item "role".toList
  let content := textOr [] item "content".toList
  let actionCalls := ((item.get "action_calls".toList).filter fun v => !v.isNull).bind
    pythonJsonToActionCalls
  if role = "System".toList ∨ role = "system".toList then .system now content
  else if role = "Assistant".toList ∨ role = "assistant".toList then
    match actionCalls with
    | some calls => .assistantWithActions now (some content) calls
    | none => .assistant now content
  else if role = "ActionResult".toList ∨ role = "action_result".toList then
    .actionResult now (textOr [] item "action_call_id".toList) (textOr [] item "action_name".toList)
      content
  else .user now content

def jsonToThreadMessages (now : Timestamp) : Json → Option (List ThreadMessage)
  | .arr values => some (values.map (jsonToThreadMessage now))
  | _ => none

end Encoding

/-- A value's integers have 64 bits with a sign, and its objects have each key once. -/
def Portable : Json → Prop
  | .int n => -2 ^ 63 ≤ n ∧ n < 2 ^ 63
  | .arr values => allPortable values
  | .obj members => (members.map Prod.fst).Nodup ∧ allMembersPortable members
  | _ => True
where
  allPortable : List Json → Prop
    | [] => True
    | j :: values => Portable j ∧ allPortable values
  allMembersPortable : List (Text × Json) → Prop
    | [] => True
    | (_, j) :: members => Portable j ∧ allMembersPortable members

section RoundTrip

variable {asF64 : Int → Text} {debug : MontyObject → Text}

variable (asF64 debug) in
def returned (j : Json) : Json := montyToJson debug (jsonToMonty asF64 j)

theorem returned_arr (values : List Json) :
    returned asF64 debug (.arr values) = .arr (values.map (returned asF64 debug)) := by
  have hvalues : montyToJson.montysToJson debug (jsonToMonty.jsonsToMonty asF64 values) =
      values.map (returned asF64 debug) := by
    induction values with
    | nil => rfl
    | cons j values ih =>
      rw [jsonToMonty.jsonsToMonty, montyToJson.montysToJson, ih]
      rfl
  rw [← hvalues]
  rfl

theorem pairsToJson_eq (acc members : List (Text × Json)) :
    montyToJson.pairsToJson debug acc (jsonToMonty.membersToMonty asF64 members) =
      members.foldl (fun acc m => Json.setMember m.1 (returned asF64 debug m.2) acc) acc := by
  induction members generalizing acc with
  | nil => rfl
  | cons m members ih =>
    rw [jsonToMonty.membersToMonty, montyToJson.pairsToJson, ih]
    rfl

theorem returned_obj (members : List (Text × Json)) : returned asF64 debug (.obj members) =
      .obj (members.foldl (fun acc m => Json.setMember m.1 (returned asF64 debug m.2) acc) []) := by
  rw [← pairsToJson_eq]
  rfl

theorem foldl_setMember {acc members : List (Text × Json)}
    (h : ((acc ++ members).map Prod.fst).Nodup) :
    members.foldl (fun acc m => Json.setMember m.1 (returned asF64 debug m.2) acc) acc =
      acc ++ members.map fun m => (m.1, returned asF64 debug m.2) := by
  induction members generalizing acc with
  | nil => simp
  | cons m members ih =>
    have hnew : m.1 ∉ acc.map Prod.fst := by
      rw [List.map_append, map_cons, List.nodup_append] at h
      exact fun hmem => h.2.2 m.1 hmem m.1 List.mem_cons_self rfl
    rw [List.foldl_cons, Json.setMember_of_not_mem hnew, ih]
    · simp
    · simpa using h

theorem nodup_foldl_setMember {acc members : List (Text × Json)} (h : (acc.map Prod.fst).Nodup) :
    ((members.foldl (fun acc m => Json.setMember m.1 (returned asF64 debug m.2) acc) acc).map
      Prod.fst).Nodup := by
  induction members generalizing acc with
  | nil => exact h
  | cons m members ih => exact ih (Json.nodup_setMember h _ _)

theorem montyToJson_jsonToMonty : (j : Json) → (returned asF64 debug j = j ↔ Portable j)
  | .null => by simp [returned, jsonToMonty, montyToJson, Portable]
  | .bool b => by simp [returned, jsonToMonty, montyToJson, Portable]
  | .float repr => by simp [returned, jsonToMonty, montyToJson, Portable]
  | .str s => by simp [returned, jsonToMonty, montyToJson, Portable]
  | .int n => by
    rw [returned, jsonToMonty, intToMonty, Portable]
    split_ifs with h
    · exact ⟨fun _ => h, fun _ => rfl⟩
    · exact ⟨nofun, fun hn => absurd hn h⟩
  | .arr values => by
    rw [returned_arr, Portable, Json.arr.injEq]
    exact map_returned values
  | .obj members => by
    rw [returned_obj, Portable, Json.obj.injEq]
    constructor
    · intro h
      have hnodup : (members.map Prod.fst).Nodup := by
        rw [← h]
        exact nodup_foldl_setMember List.nodup_nil
      rw [foldl_setMember (by simpa using hnodup), nil_append] at h
      exact ⟨hnodup, (map_returned_members members).mp h⟩
    · rintro ⟨hnodup, h⟩
      rw [foldl_setMember (by simpa using hnodup), nil_append]
      exact (map_returned_members members).mpr h
where
  map_returned : (values : List Json) →
      (values.map (returned asF64 debug) = values ↔ Portable.allPortable values)
    | [] => by simp [Portable.allPortable]
    | j :: values => by
      rw [map_cons, List.cons.injEq, montyToJson_jsonToMonty j, map_returned values,
        Portable.allPortable]
  map_returned_members : (members : List (Text × Json)) →
      ((members.map fun m => (m.1, returned asF64 debug m.2)) = members ↔
        Portable.allMembersPortable members)
    | [] => by simp [Portable.allMembersPortable]
    | (key, j) :: members => by
      rw [map_cons, List.cons.injEq, Prod.mk.injEq, montyToJson_jsonToMonty j,
        map_returned_members members, Portable.allMembersPortable]
      simp

variable (asF64 debug) in
/-- An action call whose parameters have been handed over and back. -/
def ActionCall.returned (call : ActionCall) : ActionCall :=
  { call with parameters := Orchestrator.returned asF64 debug call.parameters }

theorem returned_toPythonJson (call : ActionCall) :
    returned asF64 debug call.toPythonJson = (call.returned asF64 debug).toPythonJson := by
  rw [ActionCall.toPythonJson, returned_obj, foldl_setMember (by simp)]
  rfl

theorem returned_optionalText (s : Option Text) :
    returned asF64 debug (optionalText s) = optionalText s := by
  cases s <;> rfl

theorem returned_eq_self_iff (call : ActionCall) :
    call.returned asF64 debug = call ↔ Portable call.parameters := by
  have hiff : returned asF64 debug call.parameters = call.parameters ↔ Portable call.parameters :=
    montyToJson_jsonToMonty call.parameters
  rw [← hiff]
  refine ⟨fun h => congrArg ActionCall.parameters h, fun h => ?_⟩
  rw [ActionCall.returned, h]

theorem returned_calls (calls : List ActionCall) :
    returned asF64 debug (.arr (actionCallsToPythonJson calls)) =
      .arr (actionCallsToPythonJson (calls.map (ActionCall.returned asF64 debug))) := by
  rw [returned_arr, actionCallsToPythonJson, actionCallsToPythonJson, map_map, map_map]
  refine congrArg Json.arr (List.map_congr_left fun call _ => ?_)
  exact returned_toPythonJson call

variable (asF64 debug) in
/-- A message whose calls have been handed over and back. -/
def ThreadMessage.returned (m : ThreadMessage) : ThreadMessage :=
  { m with actionCalls := m.actionCalls.map (List.map (ActionCall.returned asF64 debug)) }

theorem returned_toContextJson (m : ThreadMessage) :
    returned asF64 debug m.toContextJson = (m.returned asF64 debug).toContextJson := by
  rw [ThreadMessage.toContextJson, returned_obj, foldl_setMember (by simp)]
  simp only [nil_append, map_cons, List.map_nil, returned_optionalText,
    ThreadMessage.toContextJson, ThreadMessage.returned]
  cases m.actionCalls with
  | none => rfl
  | some calls =>
    simp only [returned_calls, Option.map_some]
    rfl

end RoundTrip

section Parsing

variable {now : Timestamp}

theorem pythonActionCall_toPythonJson (call : ActionCall) :
    pythonActionCall call.toPythonJson = some call := by
  have hname : call.toPythonJson.get "name".toList = some (.str call.actionName) :=
    Json.get_obj_self _ _ _
  have hid : call.toPythonJson.get "call_id".toList = some (.str call.id) := by
    refine (Json.get_obj_of_ne ?_ _ _).trans (Json.get_obj_self _ _ _)
    decide
  have hparams : call.toPythonJson.get "params".toList = some call.parameters := by
    refine (Json.get_obj_of_ne ?_ _ _).trans ((Json.get_obj_of_ne ?_ _ _).trans
      (Json.get_obj_self _ _ _))
    · decide
    · decide
  show (do
    let name ← (call.toPythonJson.get "name".toList).bind Json.asStr
    let callId ← (call.toPythonJson.get "call_id".toList).bind Json.asStr
    let params ← call.toPythonJson.get "params".toList
    return ⟨callId, name, params⟩) = some call
  rw [hname, hid, hparams]
  rfl

theorem pythonJsonToActionCalls_calls (calls : List ActionCall) :
    pythonJsonToActionCalls (.arr (actionCallsToPythonJson calls)) = some calls := by
  change (calls.map ActionCall.toPythonJson).mapM pythonActionCall = some calls
  induction calls with
  | nil => rfl
  | cons call calls ih => simp [List.mapM_cons, pythonActionCall_toPythonJson, ih]

theorem textOr_of_get {item : Json} {key default text : Text}
    (h : item.get key = some (.str text)) : textOr default item key = text := by
  rw [textOr, h]
  rfl

theorem textOr_of_optionalText {item : Json} {key : Text} {text : Option Text}
    (h : item.get key = some (optionalText text)) : textOr [] item key = text.getD [] := by
  rw [textOr, h]
  cases text with
  | none => rfl
  | some text => rfl

theorem get_toContextJson (m : ThreadMessage) :
    textOr "User".toList m.toContextJson "role".toList = m.role.debugName ∧
      textOr [] m.toContextJson "content".toList = m.content ∧
      textOr [] m.toContextJson "action_name".toList = m.actionName.getD [] ∧
      textOr [] m.toContextJson "action_call_id".toList = m.actionCallId.getD [] ∧
      ((m.toContextJson.get "action_calls".toList).filter fun v => !v.isNull).bind
        pythonJsonToActionCalls = m.actionCalls := by
  have hkeys : ["role".toList, "content".toList, "action_name".toList, "action_call_id".toList,
    "action_calls".toList].Nodup := by decide
  simp only [List.nodup_cons, List.mem_cons, List.not_mem_nil, or_false, not_or] at hkeys
  obtain ⟨⟨h01, h02, h03, h04⟩, ⟨h12, h13, h14⟩, ⟨h23, h24⟩, h34, -⟩ := hkeys
  unfold ThreadMessage.toContextJson
  refine ⟨textOr_of_get ?_, textOr_of_get ?_, textOr_of_optionalText ?_,
    textOr_of_optionalText ?_, ?_⟩
  · rw [Json.get_obj_self]
  · rw [Json.get_obj_of_ne h01, Json.get_obj_self]
  · rw [Json.get_obj_of_ne h02, Json.get_obj_of_ne h12, Json.get_obj_self]
  · rw [Json.get_obj_of_ne h03, Json.get_obj_of_ne h13, Json.get_obj_of_ne h23, Json.get_obj_self]
  · rw [Json.get_obj_of_ne h04, Json.get_obj_of_ne h14, Json.get_obj_of_ne h24,
      Json.get_obj_of_ne h34,
      Json.get_obj_self, Option.filter_some]
    cases m.actionCalls with
    | none => rfl
    | some calls => exact pythonJsonToActionCalls_calls calls

theorem jsonToThreadMessage_toContextJson (m : ThreadMessage) :
    jsonToThreadMessage now m.toContextJson =
      match m.role with
      | .system => .system now m.content
      | .user => .user now m.content
      | .assistant =>
        match m.actionCalls with
        | some calls => .assistantWithActions now (some m.content) calls
        | none => .assistant now m.content
      | .actionResult =>
        .actionResult now (m.actionCallId.getD []) (m.actionName.getD []) m.content := by
  obtain ⟨hrole, hcontent, hname, hcallId, hcalls⟩ := get_toContextJson m
  unfold jsonToThreadMessage
  simp only [hrole, hcontent, hname, hcallId, hcalls]
  cases m.role with
  | system => rw [if_pos (by decide)]
  | user => rw [if_neg (by decide), if_neg (by decide), if_neg (by decide)]
  | assistant => rw [if_neg (by decide), if_pos (by decide)]
  | actionResult => rw [if_neg (by decide), if_neg (by decide), if_pos (by decide)]

/-- A message as its role's constructor builds it, with parameters that come back. -/
def Constructed (m : ThreadMessage) : Prop :=
  match m.role with
  | .system | .user => m.actionCallId = none ∧ m.actionName = none ∧ m.actionCalls = none
  | .assistant => m.actionCallId = none ∧ m.actionName = none ∧
      ∀ calls, m.actionCalls = some calls → ∀ call ∈ calls, Portable call.parameters
  | .actionResult => m.actionCallId ≠ none ∧ m.actionName ≠ none ∧ m.actionCalls = none

structure SameMessage (m m' : ThreadMessage) : Prop where
  role : m'.role = m.role
  content : m'.content = m.content
  actionCalls : m'.actionCalls = m.actionCalls
  actionCallId : m'.actionCallId = m.actionCallId
  actionName : m'.actionName = m.actionName

theorem same_iff_constructed {asF64 : Int → Text} {debug : MontyObject → Text}
    {m m' : ThreadMessage}
    (h : jsonToThreadMessage now (m.returned asF64 debug).toContextJson = m') :
    m'.role = m.role ∧ m'.content = m.content ∧ (SameMessage m m' ↔ Constructed m) := by
  rw [jsonToThreadMessage_toContextJson] at h
  subst h
  obtain ⟨role, content, provenance, callId, name, calls, timestamp⟩ := m
  cases role with
  | system =>
    refine ⟨rfl, rfl, fun h => ⟨h.actionCallId.symm, h.actionName.symm, h.actionCalls.symm⟩, ?_⟩
    rintro ⟨rfl, rfl, rfl⟩
    exact ⟨rfl, rfl, rfl, rfl, rfl⟩
  | user =>
    refine ⟨rfl, rfl, fun h => ⟨h.actionCallId.symm, h.actionName.symm, h.actionCalls.symm⟩, ?_⟩
    rintro ⟨rfl, rfl, rfl⟩
    exact ⟨rfl, rfl, rfl, rfl, rfl⟩
  | assistant =>
    cases calls with
    | none =>
      refine ⟨rfl, rfl, fun h => ⟨h.actionCallId.symm, h.actionName.symm, fun calls hcalls => ?_⟩,
        ?_⟩
      · cases hcalls
      · rintro ⟨rfl, rfl, -⟩
        exact ⟨rfl, rfl, rfl, rfl, rfl⟩
    | some calls =>
      have hcalls : calls.map (ActionCall.returned asF64 debug) = calls ↔
          ∀ call ∈ calls, Portable call.parameters := by
        have hmap := List.map_inj_left (l := calls) (f := ActionCall.returned asF64 debug) (g := id)
        rw [List.map_id] at hmap
        exact hmap.trans (forall₂_congr fun call _ => returned_eq_self_iff call)
      refine ⟨rfl, rfl, fun h => ⟨h.actionCallId.symm, h.actionName.symm, ?_⟩, ?_⟩
      · rintro _ ⟨⟩
        exact hcalls.mp (Option.some.inj h.actionCalls)
      · rintro ⟨rfl, rfl, h⟩
        exact ⟨rfl, rfl, congrArg some (hcalls.mpr (h calls rfl)), rfl, rfl⟩
  | actionResult =>
    constructor
    · rfl
    refine ⟨rfl, fun h => ⟨fun hnone => ?_, fun hnone => ?_, h.actionCalls.symm⟩, ?_⟩
    · cases hnone.symm.trans h.actionCallId.symm
    · cases hnone.symm.trans h.actionName.symm
    · rintro ⟨hcallId, hname, rfl⟩
      cases callId with
      | none => exact absurd rfl hcallId
      | some callId =>
        cases name with
        | none => exact absurd rfl hname
        | some name => exact ⟨rfl, rfl, rfl, rfl, rfl⟩

end Parsing

/-- **What comes back of a transcript**: the messages in order; one with calls and ids exactly if
its role's constructor builds it, with unchanged parameters. -/
theorem interchange_iff (asF64 : Int → Text) (debug : MontyObject → Text) (now : Timestamp)
    (thread : Thread) (persistedState : Json) : ∃ context parsed,
      (buildOrchestratorInputs asF64 thread persistedState).head? = some
        ("context".toList, context) ∧
      jsonToThreadMessages now (montyToJson debug context) = some parsed ∧
      List.Forall₂ (fun m m' => m'.role = m.role ∧ m'.content = m.content ∧
        (SameMessage m m' ↔ Constructed m)) thread.bootstrapMessages parsed := by
  refine ⟨_, thread.bootstrapMessages.map fun m =>
    jsonToThreadMessage now (m.returned asF64 debug).toContextJson, rfl, ?_, ?_⟩
  · change jsonToThreadMessages now (returned asF64 debug (.arr _)) = _
    rw [returned_arr, map_map, jsonToThreadMessages, map_map]
    refine congrArg some (List.map_congr_left fun m _ => ?_)
    exact congrArg (jsonToThreadMessage now) (returned_toContextJson m)
  · rw [List.forall₂_map_right_iff]
    exact List.forall₂_same.mpr fun m _ => same_iff_constructed rfl

/-- A user's message with a call id comes back without, a parameter of 2^63 as a float. -/
theorem call_id_lost :
    (∃ context parsed m',
      (buildOrchestratorInputs (fun _ => [])
        ⟨[], [⟨.user, "hi".toList, .user, some "c1".toList, none,
        none, 0⟩], [], .null⟩ .null).head? = some ("context".toList, context) ∧
      jsonToThreadMessages 0 (montyToJson (fun _ => []) context) = some parsed ∧
      parsed = [m'] ∧ m'.actionCallId = none) ∧
    ∃ context parsed m',
      (buildOrchestratorInputs (fun _ => "9.223372036854776e18".toList)
        ⟨[.assistantWithActions 0 none [⟨"c1".toList, "echo".toList, .int (2 ^ 63)⟩]],
          [], [], .null⟩
        .null).head? = some ("context".toList, context) ∧
      jsonToThreadMessages 0 (montyToJson (fun _ => []) context) = some parsed ∧
      parsed = [m'] ∧ m'.actionCalls =
        some [⟨"c1".toList, "echo".toList, .float "9.223372036854776e18".toList⟩] :=
  ⟨⟨_, _, _, rfl, rfl, rfl, rfl⟩, _, _, _, rfl, rfl, rfl, rfl⟩

end IronClaw.Orchestrator
