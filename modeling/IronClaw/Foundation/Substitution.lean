import IronClaw.Foundation.Json

/-!
# Replacing members

The members of an object under some keys get other values. Keys that it does not have are passed
over, and its other members stay.
-/

namespace IronClaw.Foundation.Json

/-- The value with others in its members under some keys, where it has them. -/
def substitute (values : Text → Json) (j : Json) (keys : List Text) : Json :=
  keys.foldl (fun j key => if (j.get key).isSome then j.set key (values key) else j) j

def substituteMembers (values : Text → Json) : List Text → List (Text × Json) → List (Text × Json)
  | _, [] => []
  | keys, m :: members =>
    (m.1, if m.1 ∈ keys then values m.1 else m.2) ::
      substituteMembers values (keys.filter (· ≠ m.1)) members

section Substitute

variable {values values' : Text → Json} {keys : List Text} {members : List (Text × Json)}

theorem get_of_not_object {j : Json} (h : j.isObject = false) (key : Text) : j.get key = none := by
  cases j with
  | obj members => cases h
  | null | bool b | int n | float repr | str s | arr elements => rfl

theorem substitute_of_not_object {j : Json} (h : j.isObject = false) (values : Text → Json)
    (keys : List Text) : substitute values j keys = j := by
  rw [substitute]
  induction keys with
  | nil => rfl
  | cons key keys ih =>
    rw [List.foldl_cons, get_of_not_object h]
    exact ih

theorem substitute_nil (keys : List Text) : substitute values (obj []) keys = obj [] := by
  rw [substitute]
  induction keys with
  | nil => rfl
  | cons key keys ih => exact ih

theorem substitute_cons (keys : List Text) (m : Text × Json) :
    ∀ rest, substitute values (obj members) (keys.filter (· ≠ m.1)) = obj rest →
      substitute values (obj (m :: members)) keys =
        obj ((m.1, if m.1 ∈ keys then values m.1 else m.2) :: rest) := by
  induction keys generalizing m members with
  | nil =>
    intro rest hrest
    obtain rfl := obj.inj hrest
    rfl
  | cons key keys ih =>
    intro rest hrest
    rw [substitute, List.foldl_cons, get_obj_cons]
    by_cases hm : m.1 = key
    · -- the member is replaced, and the key is not looked for in the others
      have hstep : (obj (m :: members)).set key (values key) =
          obj ((key, values key) :: members) := by
        rw [set, setMember, if_pos hm]
      rw [if_pos hm, Option.isSome_some, if_pos rfl, hstep]
      rw [List.filter_cons_of_neg (by simp [hm]), hm] at hrest
      have hkeys := ih (key, values key) rest hrest
      rw [substitute] at hkeys
      rw [hkeys, hm, ite_self, if_pos List.mem_cons_self]
    · -- the key is one for the others
      rw [if_neg hm]
      rw [List.filter_cons_of_pos (by simpa using Ne.symm hm), substitute, List.foldl_cons] at hrest
      have hmem : m.1 ∈ key :: keys ↔ m.1 ∈ keys := by simp [hm]
      simp only [hmem]
      by_cases hsome : ((obj members).get key).isSome
      · have hstep : (obj (m :: members)).set key (values key) =
            obj (m :: setMember key (values key) members) := by
          rw [set, setMember, if_neg hm]
        rw [if_pos hsome, hstep]
        rw [if_pos hsome] at hrest
        exact ih m rest hrest
      · rw [if_neg hsome]
        rw [if_neg hsome] at hrest
        exact ih m rest hrest

theorem substitute_obj (values : Text → Json) (keys : List Text) (members : List (Text × Json)) :
    substitute values (obj members) keys = obj (substituteMembers values keys members) := by
  induction members generalizing keys with
  | nil => exact substitute_nil keys
  | cons m members ih => exact substitute_cons keys m _ (ih _)

theorem get_substituteMembers (values : Text → Json) (keys : List Text)
    (members : List (Text × Json)) (key : Text) :
    (obj (substituteMembers values keys members)).get key =
      if key ∈ keys then ((obj members).get key).map fun _ => values key
      else (obj members).get key := by
  induction members generalizing keys with
  | nil => simp [substituteMembers]
  | cons m members ih =>
    rw [substituteMembers, get_obj_cons, get_obj_cons, ih]
    by_cases hm : m.1 = key
    · subst hm
      by_cases hkey : m.1 ∈ keys
      · simp [hkey]
      · simp [hkey]
    · have hmem : key ∈ keys.filter (· ≠ m.1) ↔ key ∈ keys := by simp [Ne.symm hm]
      simp only [hm, hmem, if_false]

theorem get_substitute (values : Text → Json) (j : Json) (keys : List Text) (key : Text) :
    (substitute values j keys).get key =
      if key ∈ keys then (j.get key).map fun _ => values key else j.get key := by
  cases hobject : j.isObject with
  | false =>
    rw [substitute_of_not_object hobject, get_of_not_object hobject]
    simp
  | true =>
    cases j with
    | obj members =>
      rw [substitute_obj]
      exact get_substituteMembers values keys members key
    | null | bool b | int n | float repr | str s | arr elements => cases hobject

theorem substituteMembers_substituteMembers (values values' : Text → Json) (keys : List Text)
    (members : List (Text × Json)) :
    substituteMembers values' keys (substituteMembers values keys members) =
      substituteMembers values' keys members := by
  induction members generalizing keys with
  | nil => rfl
  | cons m members ih =>
    rw [substituteMembers, substituteMembers, substituteMembers, ih]
    by_cases hmem : m.1 ∈ keys
    · simp only [hmem, if_true]
    · simp only [hmem, if_false]

theorem substitute_substitute (values values' : Text → Json) (j : Json) (keys : List Text) :
    substitute values' (substitute values j keys) keys = substitute values' j keys := by
  cases hobject : j.isObject with
  | false => rw [substitute_of_not_object hobject]
  | true =>
    cases j with
    | obj members =>
      rw [substitute_obj, substitute_obj, substitute_obj, substituteMembers_substituteMembers]
    | null | bool b | int n | float repr | str s | arr elements => cases hobject

end Substitute

end IronClaw.Foundation.Json
