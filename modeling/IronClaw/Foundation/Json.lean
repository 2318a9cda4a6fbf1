import IronClaw.Foundation.Text

/-!
# JSON values

A parsed JSON value. An object lists its members by key, each key once; a member that is replaced
keeps its place.
-/

namespace IronClaw.Foundation

/-- A JSON value. Numbers that are no integers keep their text. -/
inductive Json where
  | null
  | bool (b : Bool)
  | int (n : Int)
  | float (repr : Text)
  | str (s : Text)
  | arr (values : List Json)
  | obj (members : List (Text × Json))

namespace Json

/-- The member of an object under a key. Other values have no members. -/
def get (key : Text) : Json → Option Json
  | obj members => (members.find? fun m => m.1 == key).map Prod.snd
  | _ => none

def at? (i : Nat) : Json → Option Json
  | arr values => values[i]?
  | _ => none

def asStr : Json → Option Text
  | str s => some s
  | _ => none

def asBool : Json → Option Bool
  | bool b => some b
  | _ => none

def asObject : Json → Option (List (Text × Json))
  | obj members => some members
  | _ => none

def asU64 : Json → Option Nat
  | int n => if 0 ≤ n ∧ n < 2 ^ 64 then some n.toNat else none
  | _ => none

def isObject : Json → Bool
  | obj _ => true
  | _ => false

def isNull : Json → Bool
  | null => true
  | _ => false

def setMember (key : Text) (value : Json) : List (Text × Json) → List (Text × Json)
  | [] => [(key, value)]
  | m :: members =>
    if m.1 = key then (key, value) :: members else m :: setMember key value members

def set (j : Json) (key : Text) (value : Json) : Json :=
  match j with
  | obj members => obj (setMember key value members)
  | j => j

/-- The strings and the keys of a value, at any depth. -/
def texts : Json → List Text
  | str s => [s]
  | arr values => textsOfValues values
  | obj members => textsOfMembers members
  | _ => []
where
  textsOfValues : List Json → List Text
    | [] => []
    | j :: values => texts j ++ textsOfValues values
  textsOfMembers : List (Text × Json) → List Text
    | [] => []
    | (key, j) :: members => key :: texts j ++ textsOfMembers members

theorem asU64_natCast {n : Nat} (h : n < 2 ^ 64) : (int n).asU64 = some n := by
  simp only [asU64]
  rw [if_pos (by omega)]
  rfl

variable (key : Text)

@[simp] theorem get_obj_nil : (obj []).get key = none := rfl

theorem get_obj_cons (m : Text × Json) (members : List (Text × Json)) :
    (obj (m :: members)).get key = if m.1 = key then some m.2 else (obj members).get key := by
  by_cases h : m.1 = key
  · simp [get, h]
  · have hbeq : (m.1 == key) = false := by simpa using h
    simp [get, h, hbeq]

theorem get_obj_self (value : Json) (members : List (Text × Json)) :
    (obj ((key, value) :: members)).get key = some value := by
  rw [get_obj_cons, if_pos rfl]

theorem get_obj_of_ne {key key' : Text} (h : key' ≠ key) (value : Json)
    (members : List (Text × Json)) :
    (obj ((key', value) :: members)).get key = (obj members).get key := by
  rw [get_obj_cons, if_neg h]

variable {members : List (Text × Json)}

theorem setMember_of_not_mem {key : Text} (h : key ∉ members.map Prod.fst) (value : Json) :
    setMember key value members = members ++ [(key, value)] := by
  induction members with
  | nil => rfl
  | cons m members ih =>
    rw [List.map_cons, List.mem_cons, not_or] at h
    rw [setMember, if_neg (Ne.symm h.1), ih h.2, List.cons_append]

theorem map_fst_setMember_of_mem {key : Text} (h : key ∈ members.map Prod.fst) (value : Json) :
    (setMember key value members).map Prod.fst = members.map Prod.fst := by
  induction members with
  | nil => cases h
  | cons m members ih =>
    rw [setMember]
    split_ifs with hm
    · simp [hm]
    · rcases List.mem_cons.mp h with heq | h
      · exact absurd heq.symm hm
      · rw [List.map_cons, ih h, List.map_cons]

theorem get_obj_setMember (key key' : Text) (value : Json) (members : List (Text × Json)) :
    (obj (setMember key value members)).get key' =
      if key = key' then some value else (obj members).get key' := by
  induction members with
  | nil => rw [setMember, get_obj_cons]
  | cons m members ih =>
    rw [setMember]
    by_cases hm : m.1 = key
    · rw [if_pos hm, get_obj_cons, get_obj_cons, hm]
      split_ifs <;> rfl
    · rw [if_neg hm, get_obj_cons, get_obj_cons, ih]
      by_cases hkey : key = key'
      · rw [if_pos hkey, if_neg (hkey ▸ hm), if_pos hkey]
      · rw [if_neg hkey, if_neg hkey]

theorem nodup_setMember (h : (members.map Prod.fst).Nodup) (key : Text) (value : Json) :
    ((setMember key value members).map Prod.fst).Nodup := by
  by_cases hmem : key ∈ members.map Prod.fst
  · rw [map_fst_setMember_of_mem hmem]
    exact h
  · rw [setMember_of_not_mem hmem, List.map_append, List.nodup_append]
    refine ⟨h, List.pairwise_singleton _ _, fun k hk k' hk' heq => hmem ?_⟩
    rw [heq, List.mem_singleton.mp hk'] at hk
    exact hk

example : (obj [(['a'], .null)]).set ['a'] (.int 1) = obj [(['a'], .int 1)] := rfl

end Json

end IronClaw.Foundation
