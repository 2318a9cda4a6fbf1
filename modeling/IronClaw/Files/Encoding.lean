import IronClaw.Files.History
import IronClaw.Foundation.Finding
import IronClaw.Foundation.Utf

/-!
# Encodings and line endings of files

A file is read as a text with one kind of line ending, and written back in its encoding, with the
kind that it had most of: one that mixes them is changed.
-/

namespace IronClaw.Files

open Foundation (Text)
open Tools (ToolError)
open List (flatMap_cons forall_mem_cons map_cons)

inductive FileEncoding where
  | utf8
  | utf16Le
deriving DecidableEq

inductive LineEnding where
  | lf
  | crLf
  | cr
deriving DecidableEq

def LineEnding.asStr : LineEnding → Text
  | lf => ['\n']
  | crLf => ['\r', '\n']
  | cr => ['\r']

def FileEncoding.mark : FileEncoding → Content
  | utf8 => []
  | utf16Le => [0xFF, 0xFE]

def detectEncoding (bytes : Content) : FileEncoding :=
  if bytes.take 2 = FileEncoding.utf16Le.mark then .utf16Le else .utf8

def detectLineEnding (content : Text) : LineEnding :=
  let crlf := Text.countMatches ['\r', '\n'] content
  let crOnly := Text.countMatches ['\r'] content - crlf
  let lfOnly := Text.countMatches ['\n'] content - crlf
  if lfOnly ≤ crlf ∧ crOnly ≤ crlf then
    if crlf = 0 then .lf else .crLf
  else if lfOnly < crOnly then .cr
  else .lf

/-- The text of some bytes. The library says what is wrong with bytes that are not UTF-8. -/
def decode (utf8Error : Content → String) (bytes : Content) : Except ToolError Text :=
  match detectEncoding bytes with
  | .utf8 =>
    match Text.fromUtf8 bytes with
    | some s => .ok s
    | none => .error (.executionFailed ("File is not valid UTF-8: " ++ utf8Error bytes))
  | .utf16Le =>
    match Text.fromUtf16 (Text.leUnits (bytes.drop 2)) with
    | some s => .ok s
    | none => .error (.executionFailed
        "File is not valid UTF-16LE: invalid utf-16: lone surrogate found")

/-- Every line ending folded to a line feed. -/
def toLf (raw : Text) : Text :=
  Text.replaceAll ['\r'] ['\n'] (Text.replaceAll ['\r', '\n'] ['\n'] raw)

def readFileWithEncoding (utf8Error : Content → String) (file : Except String Content) :
    Except ToolError (Text × FileEncoding × LineEnding) :=
  match file with
  | .error e => .error (.executionFailed ("Failed to read file: " ++ e))
  | .ok bytes =>
    (decode utf8Error bytes).map fun raw => (toLf raw, detectEncoding bytes, detectLineEnding raw)

/-- The line feeds turned back into line endings of a style. -/
def restore (ending : LineEnding) (content : Text) : Text :=
  match ending with
  | .lf => content
  | .crLf => Text.replaceAll ['\n'] ['\r', '\n'] content
  | .cr => Text.replaceAll ['\n'] ['\r'] content

/-- The bytes of a text, without what goes in front. -/
def FileEncoding.encode : FileEncoding → Text → Content
  | utf8, s => Text.utf8 s
  | utf16Le, s => Text.leBytes (Text.utf16 s)

def writeFileWithEncoding (content : Text) (encoding : FileEncoding) (ending : LineEnding) :
    Content :=
  encoding.mark ++ encoding.encode (restore ending content)

section Bytes

variable {encoding : FileEncoding} {s t : Text} {utf8Error : Content → String} {bytes : Content}
  {raw : Text}

theorem encode_append (encoding : FileEncoding) (s t : Text) :
    encoding.encode (s ++ t) = encoding.encode s ++ encoding.encode t := by
  cases encoding with
  | utf8 => exact Text.utf8_append s t
  | utf16Le => exact (congrArg Text.leBytes (Text.utf16_append s t)).trans (Text.leBytes_append _ _)

theorem encode_injective (h : encoding.encode s = encoding.encode t) : s = t := by
  cases encoding with
  | utf8 =>
    have hs : Text.fromUtf8 (Text.utf8 t) = some s := Text.fromUtf8_eq_some_iff.mpr h.symm
    have ht : Text.fromUtf8 (Text.utf8 t) = some t := Text.fromUtf8_eq_some_iff.mpr rfl
    exact Option.some.inj (hs.symm.trans ht)
  | utf16Le =>
    have hunits := congrArg Text.leUnits h
    rw [FileEncoding.encode, FileEncoding.encode, Text.leUnits_leBytes, Text.leUnits_leBytes,
      ← Text.fromUtf16_eq_some_iff, Text.fromUtf16_utf16] at hunits
    exact Option.some.inj hunits

theorem eq_of_decode (heven : detectEncoding bytes = .utf16Le → bytes.length % 2 = 0)
    (h : decode utf8Error bytes = .ok raw) :
    bytes = (detectEncoding bytes).mark ++ (detectEncoding bytes).encode raw := by
  rw [decode] at h
  cases hencoding : detectEncoding bytes with
  | utf8 =>
    rw [hencoding] at h
    dsimp only at h
    cases hread : Text.fromUtf8 bytes with
    | none =>
      rw [hread] at h
      cases h
    | some s =>
      rw [hread] at h
      cases h
      exact Text.fromUtf8_eq_some_iff.mp hread
  | utf16Le =>
    have hmark : bytes.take 2 = FileEncoding.utf16Le.mark := by
      rw [detectEncoding] at hencoding
      split_ifs at hencoding with hmark
      exact hmark
    have hlength : (bytes.drop 2).length % 2 = 0 := by
      have hbytes := heven hencoding
      rw [List.length_drop]
      omega
    rw [hencoding] at h
    dsimp only at h
    cases hread : Text.fromUtf16 (Text.leUnits (bytes.drop 2)) with
    | none =>
      rw [hread] at h
      cases h
    | some s =>
      rw [hread] at h
      cases h
      rw [← hmark, FileEncoding.encode, ← Text.fromUtf16_eq_some_iff.mp hread,
        Text.leBytes_leUnits hlength, List.take_append_drop]

theorem decode_of_utf8 (hencoding : detectEncoding bytes = .utf8) (h : bytes = Text.utf8 raw) :
    decode utf8Error bytes = .ok raw := by
  rw [decode, hencoding]
  dsimp only
  rw [Text.fromUtf8_eq_some_iff.mpr h]

theorem readFileWithEncoding_eq_ok_iff {content : Text} {ending : LineEnding} :
    readFileWithEncoding utf8Error (.ok bytes) = .ok (content, encoding, ending) ↔
      ∃ raw, decode utf8Error bytes = .ok raw ∧ content = toLf raw ∧
        encoding = detectEncoding bytes ∧ ending = detectLineEnding raw := by
  rw [readFileWithEncoding]
  cases decode utf8Error bytes with
  | error e =>
    refine iff_of_false nofun ?_
    rintro ⟨raw, h, -⟩
    cases h
  | ok raw =>
    constructor
    · intro h
      cases h
      exact ⟨raw, rfl, rfl, rfl, rfl⟩
    · rintro ⟨raw', h, rfl, rfl, rfl⟩
      cases h
      rfl

end Bytes

inductive Glyph where
  | char (c : Char)
  | lineEnd (ending : LineEnding)
deriving DecidableEq

namespace Glyph

def text : Glyph → Text
  | char c => [c]
  | lineEnd ending => ending.asStr

def folded : Glyph → Char
  | char c => c
  | lineEnd _ => '\n'

def styled (ending : LineEnding) : Glyph → Glyph
  | char c => char c
  | lineEnd _ => lineEnd ending

/-- A character is none that line endings are made of. -/
def Plain : Glyph → Prop
  | char c => c ≠ '\r' ∧ c ≠ '\n'
  | lineEnd _ => True

def ofChar (c : Char) : Glyph :=
  if c = '\r' then lineEnd .cr else if c = '\n' then lineEnd .lf else char c

theorem text_ofChar (c : Char) : (ofChar c).text = [c] := by
  rw [ofChar]
  split_ifs with hcr hlf
  · rw [hcr]
    rfl
  · rw [hlf]
    rfl
  · rfl

theorem folded_ofChar (c : Char) : (ofChar c).folded = if c = '\r' then '\n' else c := by
  rw [ofChar]
  split_ifs with hcr hlf
  · rfl
  · rw [hlf]
    rfl
  · rfl

theorem plain_ofChar (c : Char) : (ofChar c).Plain := by
  rw [ofChar]
  split_ifs with hcr hlf
  · exact trivial
  · exact trivial
  · exact ⟨hcr, hlf⟩

theorem ofChar_ne_crLf (c : Char) : ofChar c ≠ lineEnd .crLf := by
  rw [ofChar]
  split_ifs <;> simp

theorem Plain.styled {g : Glyph} (h : g.Plain) (ending : LineEnding) : (g.styled ending).Plain := by
  cases g with
  | char c => exact h
  | lineEnd e => exact trivial

end Glyph

def glyphs : Text → List Glyph
  | [] => []
  | '\r' :: '\n' :: s => .lineEnd .crLf :: glyphs s
  | c :: s => .ofChar c :: glyphs s

def glyphText (l : List Glyph) : Text := l.flatMap Glyph.text

def Uniform (raw : Text) : Prop := ∃ ending, ∀ e, .lineEnd e ∈ glyphs raw → e = ending

section Glyphs

variable {l : List Glyph} {ending : LineEnding}

theorem glyphText_append (l l' : List Glyph) : glyphText (l ++ l') = glyphText l ++ glyphText l' :=
  List.flatMap_append

theorem glyphText_cons (g : Glyph) (l : List Glyph) : glyphText (g :: l) = g.text ++ glyphText l :=
  flatMap_cons

theorem glyphText_glyphs (s : Text) : glyphText (glyphs s) = s := by
  induction s using glyphs.induct with
  | case1 => rfl
  | case2 s ih =>
    rw [glyphs, glyphText_cons, ih]
    rfl
  | case3 c s hne ih =>
    rw [glyphs, glyphText_cons, ih, Glyph.text_ofChar]
    · rfl
    · exact hne

theorem plain_of_mem_glyphs {s : Text} : ∀ g ∈ glyphs s, g.Plain := by
  induction s using glyphs.induct with
  | case1 => exact nofun
  | case2 s ih =>
    rw [glyphs]
    exact forall_mem_cons.mpr ⟨trivial, ih⟩
  | case3 c s hne ih =>
    rw [glyphs]
    · exact forall_mem_cons.mpr ⟨Glyph.plain_ofChar c, ih⟩
    · exact hne

theorem toLf_eq (s : Text) : toLf s = (glyphs s).map Glyph.folded := by
  rw [toLf, Text.replaceAll_singleton]
  induction s using glyphs.induct with
  | case1 => rfl
  | case2 s ih =>
    have hreplace : Text.replaceAll ['\r', '\n'] ['\n'] ('\r' :: '\n' :: s) =
        '\n' :: Text.replaceAll ['\r', '\n'] ['\n'] s :=
      Text.replaceAll_append (List.cons_ne_nil _ _) s
    rw [glyphs, map_cons, ← ih, hreplace]
    rfl
  | case3 c s hne ih =>
    have hprefix : ¬ ['\r', '\n'] <+: c :: s := by
      rintro ⟨t, ht⟩
      cases ht
      exact hne t rfl rfl
    rw [glyphs, map_cons, ← ih, Text.replaceAll_cons hprefix, flatMap_cons,
      Glyph.folded_ofChar]
    · split_ifs <;> rfl
    · exact hne

theorem restore_eq_flatMap (ending : LineEnding) (content : Text) : restore ending content =
    content.flatMap fun c => if c = '\n' then ending.asStr else [c] := by
  cases ending with
  | lf =>
    refine (List.flatMap_singleton' content).symm.trans (List.flatMap_congr fun c _ => ?_)
    split_ifs with hc
    · rw [hc]
      rfl
    · rfl
  | crLf => exact Text.replaceAll_singleton '\n' content
  | cr => exact Text.replaceAll_singleton '\n' content

theorem restore_append (ending : LineEnding) (s t : Text) :
    restore ending (s ++ t) = restore ending s ++ restore ending t := by
  rw [restore_eq_flatMap, restore_eq_flatMap, restore_eq_flatMap, List.flatMap_append]

theorem restore_eq (hplain : ∀ g ∈ l, g.Plain) (ending : LineEnding) :
    restore ending (l.map Glyph.folded) = glyphText (l.map (Glyph.styled ending)) := by
  rw [restore_eq_flatMap]
  induction l with
  | nil => rfl
  | cons g l ih =>
    obtain ⟨hg, hl⟩ := forall_mem_cons.mp hplain
    rw [map_cons, map_cons, flatMap_cons, glyphText_cons, ih hl]
    cases g with
    | char c => rw [Glyph.folded, if_neg hg.2]; rfl
    | lineEnd e => rfl

def endings (l : List Glyph) (ending : LineEnding) : Nat := l.count (.lineEnd ending)

theorem endings_cons (g : Glyph) (l : List Glyph) (e : LineEnding) :
    endings (g :: l) e = endings l e + if g = .lineEnd e then 1 else 0 := by
  rw [endings, List.count_cons]
  exact congrArg _ (if_congr beq_iff_eq rfl rfl)

theorem endings_styled (l : List Glyph) (ending e : LineEnding) :
    endings (l.map (Glyph.styled ending)) e =
      if e = ending then endings l .lf + endings l .crLf + endings l .cr else 0 := by
  induction l with
  | nil => split_ifs <;> rfl
  | cons g l ih =>
    rw [map_cons, endings_cons, ih, endings_cons, endings_cons, endings_cons]
    cases g with
    | char c => split_ifs <;> simp_all [Glyph.styled]
    | lineEnd e' => cases e' <;> cases e <;> cases ending <;> simp [Glyph.styled] <;> omega

theorem count_glyphText (hplain : ∀ g ∈ l, g.Plain) :
    (glyphText l).count '\n' = endings l .lf + endings l .crLf ∧
      (glyphText l).count '\r' = endings l .cr + endings l .crLf := by
  induction l with
  | nil => exact ⟨rfl, rfl⟩
  | cons g l ih =>
    obtain ⟨hg, hl⟩ := forall_mem_cons.mp hplain
    simp only [glyphText_cons, List.count_append, ih hl, endings_cons]
    cases g with
    | char c => simp [Glyph.text, hg.1, hg.2]
    | lineEnd e => cases e <;> simp [Glyph.text, LineEnding.asStr] <;> omega

theorem countMatches_crLf (s : Text) :
    Text.countMatches ['\r', '\n'] s = endings (glyphs s) .crLf := by
  induction s using glyphs.induct with
  | case1 => rfl
  | case2 s ih =>
    rw [glyphs, endings_cons, if_pos rfl, ← ih]
    exact Text.countMatches_pattern (List.cons_ne_nil _ _) s
  | case3 c s hne ih =>
    have hprefix : ¬ ['\r', '\n'] <+: c :: s := by
      rintro ⟨t, ht⟩
      cases ht
      exact hne t rfl rfl
    rw [glyphs, endings_cons, ← ih, Text.countMatches_cons_of_not_prefix hprefix,
      if_neg (Glyph.ofChar_ne_crLf c)]
    · rfl
    · exact hne

theorem endings_le_detectLineEnding (s : Text) (e : LineEnding) :
    endings (glyphs s) e ≤ endings (glyphs s) (detectLineEnding s) := by
  obtain ⟨hlf, hcr⟩ := count_glyphText (plain_of_mem_glyphs (s := s))
  rw [glyphText_glyphs] at hlf hcr
  rw [detectLineEnding, Text.countMatches_singleton, Text.countMatches_singleton, countMatches_crLf, hlf, hcr,
    Nat.add_sub_cancel, Nat.add_sub_cancel]
  split_ifs <;> cases e <;> omega

theorem uniform_iff (s : Text) :
    Uniform s ↔ ∀ e, endings (glyphs s) e ≠ 0 → e = detectLineEnding s := by
  have hmem : ∀ e, endings (glyphs s) e ≠ 0 ↔ .lineEnd e ∈ glyphs s := fun e => by
    rw [endings, ← Nat.pos_iff_ne_zero, List.count_pos_iff]
  constructor
  · rintro ⟨ending, huniform⟩ e he
    have hle := endings_le_detectLineEnding s e
    have hmost : endings (glyphs s) (detectLineEnding s) ≠ 0 := by omega
    exact (huniform e ((hmem e).mp he)).trans (huniform _ ((hmem _).mp hmost)).symm
  · exact fun h => ⟨detectLineEnding s, fun e he => h e ((hmem e).mpr he)⟩

theorem Uniform.styled_eq {s : Text} (h : Uniform s) {g : Glyph} (hg : g ∈ glyphs s) :
    g.styled (detectLineEnding s) = g := by
  cases g with
  | char c => rfl
  | lineEnd e =>
    have hsome : endings (glyphs s) e ≠ 0 := by
      rw [endings, ← Nat.pos_iff_ne_zero, List.count_pos_iff]
      exact hg
    rw [(uniform_iff s).mp h e hsome]
    rfl

theorem restore_toLf_eq_iff (s : Text) : restore (detectLineEnding s) (toLf s) = s ↔ Uniform s := by
  have hplain := plain_of_mem_glyphs (s := s)
  have hstyled : ∀ g ∈ (glyphs s).map (Glyph.styled (detectLineEnding s)), g.Plain := by
    rw [List.forall_mem_map]
    exact fun g hg => (hplain g hg).styled _
  rw [toLf_eq, restore_eq hplain, uniform_iff]
  constructor
  · -- both texts have as many line feeds and as many carriage returns
    intro h e he
    obtain ⟨hlf, hcr⟩ := count_glyphText hstyled
    rw [h, ← glyphText_glyphs s, (count_glyphText hplain).1, glyphText_glyphs, endings_styled,
      endings_styled] at hlf
    rw [h, ← glyphText_glyphs s, (count_glyphText hplain).2, glyphText_glyphs, endings_styled,
      endings_styled] at hcr
    cases hending : detectLineEnding s <;> cases e <;> simp [hending] at hlf hcr ⊢ <;> omega
  · intro h
    rw [← uniform_iff] at h
    have hsame : (glyphs s).map (Glyph.styled (detectLineEnding s)) = glyphs s :=
      (List.map_congr_left fun g hg => h.styled_eq hg).trans (List.map_id _)
    rw [hsame, glyphText_glyphs]

/-- **A file is written back as it was** exactly if its line endings are of one style. -/
theorem writeFileWithEncoding_eq_iff {utf8Error : Content → String} {bytes : Content} {raw : Text}
    (heven : detectEncoding bytes = .utf16Le → bytes.length % 2 = 0)
    (h : decode utf8Error bytes = .ok raw) :
    writeFileWithEncoding (toLf raw) (detectEncoding bytes) (detectLineEnding raw) = bytes ↔
      Uniform raw := by
  have hbytes := eq_of_decode heven h
  rw [← restore_toLf_eq_iff]
  constructor
  · exact fun hwritten => encode_injective (List.append_cancel_left (hwritten.trans hbytes))
  · intro hsame
    rw [writeFileWithEncoding, hsame]
    exact hbytes.symm

end Glyphs

end IronClaw.Files
