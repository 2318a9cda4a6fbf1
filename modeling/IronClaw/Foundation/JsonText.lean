import Mathlib.Data.Fintype.Basic
import Mathlib.Tactic.FinCases
import IronClaw.Foundation.Code

/-!
# JSON as bytes

Strings, arrays and optional members of objects as a compact JSON writer puts them, byte by byte,
with quotation marks, backslashes and control characters escaped.
-/

namespace IronClaw.Foundation

abbrev Bytes := List UInt8

def ascii (s : String) : Bytes := s.toList.map fun c => UInt8.ofNat c.toNat

namespace Json

def hexDigit (n : Nat) : UInt8 := UInt8.ofNat (if n < 10 then 48 + n else 87 + n)

def escape (b : UInt8) : Bytes :=
  if b = 34 then [92, 34]
  else if b = 92 then [92, 92]
  else if b = 8 then [92, 98]
  else if b = 9 then [92, 116]
  else if b = 10 then [92, 110]
  else if b = 12 then [92, 102]
  else if b = 13 then [92, 114]
  else if b < 32 then [92, 117, 48, 48, hexDigit (b.toNat / 16), hexDigit (b.toNat % 16)]
  else [b]

def writeString (s : Bytes) : Bytes := 34 :: writeSequence escape [34] s

def unescape : Bytes → Option (UInt8 × Bytes)
  | 92 :: 117 :: _ :: _ :: d :: e :: s =>
    let digit := fun c : UInt8 => if c.toNat < 58 then c.toNat - 48 else c.toNat - 87
    some (UInt8.ofNat (16 * digit d + digit e), s)
  | 92 :: 98 :: s => some (8, s)
  | 92 :: 116 :: s => some (9, s)
  | 92 :: 110 :: s => some (10, s)
  | 92 :: 102 :: s => some (12, s)
  | 92 :: 114 :: s => some (13, s)
  | 92 :: c :: s => some (c, s)
  | b :: s => some (b, s)
  | [] => none

theorem unescape_control (n : Fin 32) (s : Bytes) :
    unescape (escape (UInt8.ofNat n) ++ s) = some (UInt8.ofNat n, s) := by
  fin_cases n <;> rfl

theorem escape_plain {b : UInt8} (hcontrol : ¬ b < 32) (hquote : b ≠ 34) (hslash : b ≠ 92) :
    escape b = [b] := by
  have hne : ∀ c : UInt8, c < 32 → b ≠ c := fun c hc heq => hcontrol (heq ▸ hc)
  rw [escape, if_neg hquote, if_neg hslash, if_neg (hne 8 (by decide)), if_neg (hne 9 (by decide)),
    if_neg (hne 10 (by decide)), if_neg (hne 12 (by decide)), if_neg (hne 13 (by decide)),
    if_neg hcontrol]

theorem unescape_escape (b : UInt8) (s : Bytes) : unescape (escape b ++ s) = some (b, s) := by
  by_cases hcontrol : b < 32
  · have hb := unescape_control ⟨b.toNat, UInt8.lt_iff_toNat_lt.mp hcontrol⟩ s
    rwa [UInt8.ofNat_toNat] at hb
  · by_cases hquote : b = 34
    · subst hquote
      rfl
    · by_cases hslash : b = 92
      · subst hslash
        rfl
      · rw [escape_plain hcontrol hquote hslash, List.singleton_append, unescape]
        all_goals simp [hslash]

theorem escape_append_ne (b : UInt8) (s t : Bytes) : escape b ++ s ≠ [34] ++ t := by
  intro heq
  have hb := unescape_escape b s
  rw [heq] at hb
  have hquote : b = 34 := by
    have h34 : unescape ([34] ++ t) = some (34, t) := rfl
    rw [h34] at hb
    exact (Prod.mk.inj (Option.some.inj hb)).1.symm
  subst hquote
  cases (List.cons.inj heq).1

theorem selfDelimiting_writeString : SelfDelimiting writeString := by
  have hescape : ReadableBefore (fun _ => True) escape := by
    intro b c s t _ _ heq
    have hb := unescape_escape b s
    rw [heq, unescape_escape c t, Option.some.injEq, Prod.mk.injEq] at hb
    exact ⟨hb.1.symm, hb.2.symm⟩
  have hsequence : SelfDelimiting (writeSequence escape [34]) :=
    hescape.sequence (fun _ _ => trivial) (fun _ => trivial) escape_append_ne
  exact fun x y s t heq => hsequence x y s t (List.cons.inj heq).2

section Array

variable {α : Type*}

def writeArray (f : α → Bytes) : List α → Bytes
  | [] => ascii "[]"
  | a :: as => 91 :: (f a ++ writeSequence (fun a => 44 :: f a) [93] as)

/-- What may come behind a value: a comma, or a closing bracket. -/
def EndsValue : Bytes → Prop
  | c :: _ => c = 44 ∨ c = 93 ∨ c = 125
  | [] => False

/-- **An array ends** at its closing bracket, if its values can be told from it. -/
theorem selfDelimiting_writeArray {f : α → Bytes} (h : ReadableBefore EndsValue f)
    (hne : ∀ a s t, f a ++ s ≠ 93 :: t) : SelfDelimiting (writeArray f) := by
  have hrest : SelfDelimiting (writeSequence (fun a => 44 :: f a) [93]) :=
    (h.cons 44).sequence (fun _ _ => .inl rfl) (fun _ => .inr (.inl rfl)) fun a s t heq => by
      cases (List.cons.inj heq).1
  have hends : ∀ (as : List α) (s : Bytes),
      EndsValue (writeSequence (fun a => 44 :: f a) [93] as ++ s) := by
    intro as s
    cases as with
    | nil => exact .inr (.inl rfl)
    | cons a as => exact .inl rfl
  intro as bs s t heq
  cases as with
  | nil =>
    cases bs with
    | nil => exact ⟨rfl, List.append_cancel_left heq⟩
    | cons b bs =>
      have heq' : 93 :: s = f b ++ (writeSequence (fun a => 44 :: f a) [93] bs ++ t) := by
        simpa [writeArray, ascii] using heq
      exact absurd heq'.symm (hne b _ s)
  | cons a as =>
    cases bs with
    | nil =>
      have heq' : f a ++ (writeSequence (fun a => 44 :: f a) [93] as ++ s) = 93 :: t := by
        simpa [writeArray, ascii] using heq
      exact absurd heq' (hne a _ t)
    | cons b bs =>
      have heq' : f a ++ (writeSequence (fun a => 44 :: f a) [93] as ++ s) =
          f b ++ (writeSequence (fun a => 44 :: f a) [93] bs ++ t) := by
        simpa [writeArray] using heq
      obtain ⟨rfl, htail⟩ := h a b _ _ (hends as s) (hends bs t) heq'
      obtain ⟨rfl, hst⟩ := hrest as bs s t htail
      exact ⟨rfl, hst⟩

end Array

end Json

end IronClaw.Foundation
