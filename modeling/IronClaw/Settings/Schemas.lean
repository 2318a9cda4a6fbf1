import IronClaw.Memory.Path
import IronClaw.Foundation.Json

/-!
# Settings keys

A setting is kept in a document whose path is made of the key. Keys from which a path must not be
built are refused, and the known keys have a schema.
-/

namespace IronClaw.Settings

open Foundation (Text Json)
open Memory (normalizePath)

def str (s : String) : Json := .str s.toList

def object (members : List (String × Json)) : Json :=
  .obj (members.map fun m => (m.1.toList, m.2))

def ofType (type : String) : Json := object [("type", str type)]

def stringOrNull : Json := object [("type", .arr [str "string", str "null"])]

def schemaForKey (key : Text) : Option Json :=
  if key = "llm_backend".toList then
    some (object [("type", str "string"),
      ("description", str "Active LLM provider backend identifier")])
  else if key = "selected_model".toList then
    some (object [("type", str "string"),
      ("description", str "Currently selected model name")])
  else if key = "llm_custom_providers".toList then
    some (object [("type", str "array"),
      ("description", str "User-defined LLM provider configurations"),
      ("items", object [("type", str "object"),
        ("properties", object [("id", ofType "string"), ("name", ofType "string"),
          ("adapter", ofType "string"), ("base_url", stringOrNull),
          ("default_model", stringOrNull), ("api_key", stringOrNull),
          ("builtin", ofType "boolean")]),
        ("required", .arr [str "id", str "name", str "adapter"]),
        ("additionalProperties", .bool false)])])
  else if key = "llm_builtin_overrides".toList then
    some (object [("type", str "object"),
      ("description", str "API key overrides for built-in LLM providers"),
      ("additionalProperties", ofType "object")])
  else if "tool_permissions.".toList.isPrefixOf key then
    some (object [("type", str "string"),
      ("enum", .arr [str "always_allow", str "ask_each_time", str "disabled"]),
      ("description", str "Permission state for a tool")])
  else none

def settingsPrefix : Text := ".system/settings/".toList

def settingsPath (key : Text) : Text := settingsPrefix ++ key ++ ".json".toList

/-- Why a key is refused, with the path it would have led to. -/
structure InvalidPath where
  path : Text
  reason : String
deriving DecidableEq

def maxSettingsKeyLen : Nat := 128

def isKeyChar (c : Char) : Bool := c.isAlphanum || c == '_' || c == '-' || c == '.'

/-- Validate a settings key against path traversal. The first rule that is broken is told. -/
def validateSettingsKey (key : Text) : Except InvalidPath Unit :=
  let reject := fun reason => .error ⟨settingsPrefix ++ key, reason⟩
  if key.isEmpty then reject "key is empty"
  else if maxSettingsKeyLen < Text.byteLength key then
    reject ("key longer than " ++ toString maxSettingsKeyLen ++ " chars")
  else if key.contains '/' || key.contains '\\' then reject "path separators are not allowed"
  else if Text.hasInfix "..".toList key then reject "'..' is not allowed"
  else if key.head? = some '.' then reject "leading '.' is not allowed"
  else if !key.all isKeyChar then
    reject "only ASCII alphanumerics, '_', '-', and '.' are allowed"
  else .ok ()

def ValidKey (key : Text) : Prop := validateSettingsKey key = .ok ()

instance (key : Text) : Decidable (ValidKey key) :=
  match h : validateSettingsKey key with
  | .ok () => isTrue h
  | .error e => isFalse fun hok => by
    rw [ValidKey, h] at hok
    cases hok

theorem ValidKey.all_isKeyChar {key : Text} (h : ValidKey key) : ∀ c ∈ key, isKeyChar c = true := by
  rw [ValidKey, validateSettingsKey] at h
  dsimp only at h
  split_ifs at h with _ _ _ _ _ hchars
  simpa using hchars

theorem ValidKey.exists_error {key : Text} (h : ¬ValidKey key) :
    ∃ e, validateSettingsKey key = .error e := by
  cases hkey : validateSettingsKey key with
  | ok u => exact absurd hkey h
  | error e => exact ⟨e, rfl⟩

theorem plain_of_isKeyChar {c : Char} (h : isKeyChar c = true) :
    c ≠ '/' ∧ Text.isWhitespace c = false := by
  have hrange : c.toNat = 45 ∨ c.toNat = 46 ∨ (48 ≤ c.toNat ∧ c.toNat ≤ 122) := by
    have hle (lo hi : Char) (h : c.val ≥ lo.val ∧ c.val ≤ hi.val) :
        lo.toNat ≤ c.toNat ∧ c.toNat ≤ hi.toNat :=
      h.imp UInt32.le_iff_toNat_le.mp UInt32.le_iff_toNat_le.mp
    simp only [isKeyChar, Char.isAlphanum, Bool.or_eq_true, beq_iff_eq] at h
    rcases h with (((h | h) | rfl) | rfl) | rfl
    · rcases Bool.or_eq_true_iff.mp h with h | h
      · have h := hle 'A' 'Z' (of_decide_eq_true h)
        exact .inr (.inr ⟨Nat.le_trans (by decide) h.1, Nat.le_trans h.2 (by decide)⟩)
      · have h := hle 'a' 'z' ((Bool.and_eq_true_iff.mp h).imp of_decide_eq_true of_decide_eq_true)
        exact .inr (.inr ⟨Nat.le_trans (by decide) h.1, h.2⟩)
    · have h := hle '0' '9' ((Bool.and_eq_true_iff.mp h).imp of_decide_eq_true of_decide_eq_true)
      exact .inr (.inr ⟨h.1, Nat.le_trans h.2 (by decide)⟩)
    · exact .inr (.inr (by decide))
    · exact .inl rfl
    · exact .inr (.inl rfl)
  constructor
  · rintro rfl
    revert hrange
    decide
  · simp only [Text.isWhitespace, Bool.or_eq_false_iff, Bool.and_eq_false_iff, beq_eq_false_iff_ne,
      decide_eq_false_iff_not]
    omega

theorem plainSegment_of_all {seg : Text} (hne : seg ≠ []) (h : seg.all isKeyChar = true) :
    Memory.PlainSegment seg :=
  ⟨hne, fun c hc => plain_of_isKeyChar (List.all_eq_true.mp h c hc)⟩

theorem settingsPath_eq_join (key : Text) : settingsPath key =
    Memory.joinSegments [".system".toList, "settings".toList, key ++ ".json".toList] := by
  have hprefix : settingsPrefix = ".system".toList ++ '/' :: ("settings".toList ++ ['/']) := by
    decide
  rw [Memory.joinSegments_cons _ (List.cons_ne_nil _ _),
    Memory.joinSegments_cons _ (List.cons_ne_nil _ _), Memory.joinSegments_singleton, settingsPath,
    hprefix]
  simp only [List.append_assoc, List.cons_append, List.nil_append]

theorem normalizePath_settingsPath {key : Text} (h : ValidKey key) :
    normalizePath (settingsPath key) = settingsPath key := by
  rw [settingsPath_eq_join]
  apply Memory.normalizePath_joinSegments
  have hlast : Memory.PlainSegment (key ++ ".json".toList) := by
    refine plainSegment_of_all (by simp) ?_
    rw [List.all_append, List.all_eq_true.mpr h.all_isKeyChar]
    rfl
  intro seg hseg
  rcases List.mem_cons.mp hseg with rfl | hseg
  · exact plainSegment_of_all (List.cons_ne_nil _ _) rfl
  rcases List.mem_cons.mp hseg with rfl | hseg
  · exact plainSegment_of_all (List.cons_ne_nil _ _) rfl
  · rw [List.mem_singleton.mp hseg]
    exact hlast

theorem settingsPath_inj {key key' : Text} (h : settingsPath key = settingsPath key') :
    key = key' :=
  List.append_cancel_left (List.append_cancel_right h)

end IronClaw.Settings
