import IronClaw.Foundation.Text

/-!
# Texts in UTF-8 and UTF-16

What a text is as bytes, and as units of sixteen bits. Bytes that are read as a text are those the
text is written as.
-/

namespace IronClaw.Foundation.Text

variable {s t : Text}

def utf8 (s : Text) : List UInt8 := s.flatMap String.utf8EncodeChar

def fromUtf8 (bytes : List UInt8) : Option Text :=
  (ByteArray.mk bytes.toArray).utf8Decode?.map Array.toList

theorem utf8_append (s t : Text) : utf8 (s ++ t) = utf8 s ++ utf8 t := List.flatMap_append

theorem utf8_eq (s : Text) : ByteArray.mk (utf8 s).toArray = List.utf8Encode s :=
  ByteArray.ext List.data_toByteArray.symm

theorem fromUtf8_eq_some_iff {bytes : List UInt8} : fromUtf8 bytes = some s ↔ bytes = utf8 s := by
  constructor
  · intro h
    obtain ⟨chars, hchars, rfl⟩ := Option.map_eq_some_iff.mp h
    obtain ⟨t, ht⟩ := ByteArray.isSome_utf8Decode?_iff.mp (Option.isSome_of_eq_some hchars)
    rw [ht, List.utf8Decode?_utf8Encode, Option.some.injEq] at hchars
    rw [← utf8_eq] at ht
    have hbytes := congrArg (fun b : ByteArray => b.data.toList) ht
    rw [← hchars]
    exact hbytes
  · rintro rfl
    rw [fromUtf8, utf8_eq, List.utf8Decode?_utf8Encode, Option.map_some]

/-- One or two units. -/
def utf16EncodeChar (c : Char) : List UInt16 :=
  if c.toNat < 0x10000 then [UInt16.ofNat c.toNat]
  else [UInt16.ofNat (0xD800 + (c.toNat - 0x10000) / 0x400),
    UInt16.ofNat (0xDC00 + (c.toNat - 0x10000) % 0x400)]

def utf16 (s : Text) : List UInt16 := s.flatMap utf16EncodeChar

theorem utf16_append (s t : Text) : utf16 (s ++ t) = utf16 s ++ utf16 t := List.flatMap_append

/-- The text that some units are, unless a surrogate is not one of a pair. -/
def fromUtf16 : List UInt16 → Option Text
  | [] => some []
  | u :: units =>
    if u.toNat < 0xD800 ∨ 0xE000 ≤ u.toNat then
      (fromUtf16 units).map (Char.ofNat u.toNat :: ·)
    else if 0xDC00 ≤ u.toNat then none
    else
      match units with
      | [] => none
      | v :: units =>
        if 0xDC00 ≤ v.toNat ∧ v.toNat < 0xE000 then
          (fromUtf16 units).map
            (Char.ofNat (0x10000 + (u.toNat - 0xD800) * 0x400 + (v.toNat - 0xDC00)) :: ·)
        else none

theorem toNat_ofNat_char {n : Nat} (h : n.isValidChar) : (Char.ofNat n).toNat = n := by
  rw [Char.ofNat, dif_pos h]
  rfl

theorem utf16EncodeChar_unit {u : UInt16} (hu : u.toNat < 0xD800 ∨ 0xE000 ≤ u.toNat) :
    utf16EncodeChar (Char.ofNat u.toNat) = [u] := by
  have hlt := u.toNat_lt
  have hvalid : u.toNat.isValidChar := by
    rw [Nat.isValidChar]
    omega
  rw [utf16EncodeChar, toNat_ofNat_char hvalid, if_pos hlt, UInt16.ofNat_toNat]

theorem utf16EncodeChar_pair {u v : UInt16} (hu : ¬ (u.toNat < 0xD800 ∨ 0xE000 ≤ u.toNat))
    (hu' : ¬ 0xDC00 ≤ u.toNat) (hv : 0xDC00 ≤ v.toNat ∧ v.toNat < 0xE000) : utf16EncodeChar
      (Char.ofNat (0x10000 + (u.toNat - 0xD800) * 0x400 + (v.toNat - 0xDC00))) = [u, v] := by
  have hvalid : (0x10000 + (u.toNat - 0xD800) * 0x400 + (v.toNat - 0xDC00)).isValidChar := by
    rw [Nat.isValidChar]
    omega
  have hfirst : 0xD800 + (0x10000 + (u.toNat - 0xD800) * 0x400 + (v.toNat - 0xDC00) - 0x10000) /
      0x400 = u.toNat := by omega
  have hsecond : 0xDC00 + (0x10000 + (u.toNat - 0xD800) * 0x400 + (v.toNat - 0xDC00) - 0x10000) %
      0x400 = v.toNat := by omega
  rw [utf16EncodeChar, toNat_ofNat_char hvalid, if_neg (by omega), hfirst, hsecond,
    UInt16.ofNat_toNat, UInt16.ofNat_toNat]

theorem utf16_of_fromUtf16 {units : List UInt16} (h : fromUtf16 units = some s) :
    units = utf16 s := by
  induction units using fromUtf16.induct generalizing s with
  | case1 =>
    cases h
    rfl
  | case2 u units hu ih =>
    rw [fromUtf16.eq_def] at h
    dsimp only at h
    rw [if_pos hu] at h
    obtain ⟨t, ht, rfl⟩ := Option.map_eq_some_iff.mp h
    rw [utf16, List.flatMap_cons, utf16EncodeChar_unit hu, ih ht]
    rfl
  | case3 u units hu hu' =>
    rw [fromUtf16.eq_def] at h
    dsimp only at h
    rw [if_neg hu, if_pos hu'] at h
    cases h
  | case4 u hu hu' =>
    rw [fromUtf16, if_neg hu, if_neg hu'] at h
    cases h
  | case5 u hu hu' v units hv ih =>
    rw [fromUtf16, if_neg hu, if_neg hu', if_pos hv] at h
    obtain ⟨t, ht, rfl⟩ := Option.map_eq_some_iff.mp h
    rw [utf16, List.flatMap_cons, utf16EncodeChar_pair hu hu' hv, ih ht]
    rfl
  | case6 u hu hu' v units hv =>
    rw [fromUtf16, if_neg hu, if_neg hu', if_neg hv] at h
    cases h

theorem fromUtf16_utf16 (s : Text) : fromUtf16 (utf16 s) = some s := by
  induction s with
  | nil => rfl
  | cons c s ih =>
    have hvalid : c.toNat.isValidChar := c.valid
    rw [Nat.isValidChar] at hvalid
    rw [utf16, List.flatMap_cons, ← utf16, utf16EncodeChar]
    split_ifs with hsmall
    · have hunit : (UInt16.ofNat c.toNat).toNat = c.toNat := by
        rw [UInt16.toNat_ofNat']
        exact Nat.mod_eq_of_lt hsmall
      rw [List.singleton_append, fromUtf16.eq_def]
      dsimp only
      rw [hunit, if_pos (by omega), ih, Option.map_some, Char.ofNat_toNat]
    · have hfirst : (UInt16.ofNat (0xD800 + (c.toNat - 0x10000) / 0x400)).toNat =
          0xD800 + (c.toNat - 0x10000) / 0x400 := by
        rw [UInt16.toNat_ofNat']
        exact Nat.mod_eq_of_lt (by omega)
      have hsecond : (UInt16.ofNat (0xDC00 + (c.toNat - 0x10000) % 0x400)).toNat =
          0xDC00 + (c.toNat - 0x10000) % 0x400 := by
        rw [UInt16.toNat_ofNat']
        exact Nat.mod_eq_of_lt (by omega)
      have hchar : 0x10000 + (0xD800 + (c.toNat - 0x10000) / 0x400 - 0xD800) * 0x400 +
          (0xDC00 + (c.toNat - 0x10000) % 0x400 - 0xDC00) = c.toNat := by omega
      rw [List.cons_append, List.singleton_append, fromUtf16, hfirst, hsecond, if_neg (by omega),
        if_neg (by omega), if_pos (by omega), hchar, ih, Option.map_some, Char.ofNat_toNat]

theorem fromUtf16_eq_some_iff {units : List UInt16} :
    fromUtf16 units = some s ↔ units = utf16 s := by
  refine ⟨utf16_of_fromUtf16, ?_⟩
  rintro rfl
  exact fromUtf16_utf16 s

def leBytes (units : List UInt16) : List UInt8 :=
  units.flatMap fun u => [UInt8.ofNat (u.toNat % 256), UInt8.ofNat (u.toNat / 256)]

/-- The units that some bytes are. A last byte without another one is left out. -/
def leUnits : List UInt8 → List UInt16
  | a :: b :: bytes => UInt16.ofNat (a.toNat + 256 * b.toNat) :: leUnits bytes
  | _ => []

theorem leBytes_append (us vs : List UInt16) : leBytes (us ++ vs) = leBytes us ++ leBytes vs :=
  List.flatMap_append

theorem leUnits_leBytes (units : List UInt16) : leUnits (leBytes units) = units := by
  induction units with
  | nil => rfl
  | cons u units ih =>
    have hlt := u.toNat_lt
    have hlow : (UInt8.ofNat (u.toNat % 256)).toNat = u.toNat % 256 := by
      rw [UInt8.toNat_ofNat']
      exact Nat.mod_eq_of_lt (by omega)
    have hhigh : (UInt8.ofNat (u.toNat / 256)).toNat = u.toNat / 256 := by
      rw [UInt8.toNat_ofNat']
      exact Nat.mod_eq_of_lt (by omega)
    rw [leBytes, List.flatMap_cons, ← leBytes, List.cons_append, List.singleton_append, leUnits,
      hlow, hhigh, ih, Nat.mod_add_div, UInt16.ofNat_toNat]

theorem leBytes_leUnits {bytes : List UInt8} (h : bytes.length % 2 = 0) :
    leBytes (leUnits bytes) = bytes := by
  induction bytes using leUnits.induct with
  | case1 a b bytes ih =>
    have hlength : bytes.length % 2 = 0 := by
      rw [List.length_cons, List.length_cons] at h
      omega
    have ha := a.toNat_lt
    have hb := b.toNat_lt
    have hunit : (UInt16.ofNat (a.toNat + 256 * b.toNat)).toNat = a.toNat + 256 * b.toNat := by
      rw [UInt16.toNat_ofNat']
      exact Nat.mod_eq_of_lt (by omega)
    have hlow : (a.toNat + 256 * b.toNat) % 256 = a.toNat := by omega
    have hhigh : (a.toNat + 256 * b.toNat) / 256 = b.toNat := by omega
    rw [leUnits, leBytes, List.flatMap_cons, hunit, hlow, hhigh, UInt8.ofNat_toNat,
      UInt8.ofNat_toNat, ← leBytes, ih hlength]
    rfl
  | case2 bytes hne =>
    match bytes with
    | [] => rfl
    | [a] => cases h
    | a :: b :: bytes => exact absurd rfl (hne a b bytes)

end IronClaw.Foundation.Text
