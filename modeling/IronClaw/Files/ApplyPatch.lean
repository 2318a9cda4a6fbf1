import IronClaw.Files.Encoding
import IronClaw.Files.Matching

/-!
# Patches are local

The matches are replaced in a text with line feeds, which is written with the line endings that the
file had most of. What is not replaced is written as it was, up to these.
-/

namespace IronClaw.Files

open Foundation (Text Sieve)
open Tools (ToolError)
open List (append_assoc flatMap_cons)

structure PatchRequest where
  path : String
  oldString : Text
  newString : Text
  replaceAll : Bool

/-- What was written, how many matches were replaced, and what was normalized to find them. -/
structure Patched where
  written : Content
  replacements : Nat
  matchMethod : MatchMethod

/-- The content with a text for some ranges, behind an offset. Slices are at character boundaries.
-/
def rebuild (content newString : Text) : Nat → List (Nat × Nat) → Option Text
  | last, [] => Text.dropBytes last content
  | last, (start, stop) :: ranges => do
    let kept ← Text.getRange? last start content
    let rest ← rebuild content newString stop ranges
    some (kept ++ newString ++ rest)

namespace PatchRequest

variable (req : PatchRequest)

def notFound : ToolError :=
  let preview :=
    if 200 < Text.byteLength req.oldString then String.ofList (req.oldString.take 200) ++ "..."
    else String.ofList req.oldString
  .executionFailed ("String to replace not found in " ++ req.path ++ ".\nold_string:\n" ++ preview ++
    "\n\nMake sure old_string matches the file content exactly, including whitespace and " ++
    "indentation.")

def notUnique (count : Nat) : ToolError :=
  .executionFailed ("Found " ++ toString count ++ " matches for the specified text in " ++ req.path ++
    ". Provide more context in old_string to make it unique, or set replace_all=true.")

def mismatch (count found : Nat) : ToolError :=
  .executionFailed ("Internal error: expected " ++ toString count ++ " matches in " ++ req.path ++
    ", but found " ++ toString found ++ " while applying replacements.")

def ranges (content : Text) (count : Nat) : Except ToolError (List (Nat × Nat)) :=
  if req.replaceAll then
    match matchRanges content req.oldString 0 with
    | .error e => .error e
    | .ok found => if found.length = count then .ok found else .error (req.mismatch count found.length)
  else
    match findMatch content req.oldString with
    | some m => .ok [(m.start, m.stop)]
    | none => .error (.executionFailed
        ("String to replace not found in " ++ req.path ++ " while applying the edit."))

end PatchRequest

/-- Replace matches in a file. -/
def applyPatch (utf8Error : Content → String) (file : Except String Content)
    (writeError : Option String) (req : PatchRequest) : Option (Except ToolError Patched) :=
  match readFileWithEncoding utf8Error file with
  | .error e => some (.error e)
  | .ok (content, encoding, ending) =>
    let counted := countMatches content req.oldString
    if counted.1 = 0 then some (.error req.notFound)
    else if !req.replaceAll ∧ 1 < counted.1 then some (.error (req.notUnique counted.1))
    else
      match req.ranges content counted.1 with
      | .error e => some (.error e)
      | .ok ranges => (rebuild content req.newString 0 ranges).map fun newContent =>
        match writeError with
        | some e => .error (.executionFailed ("Failed to write file: " ++ e))
        | none => .ok ⟨writeFileWithEncoding newContent encoding ending,
            if req.replaceAll then counted.1 else 1, counted.2⟩

/-- What is kept and what is replaced behind it, one after the other. -/
abbrev Cuts := List (List Glyph × List Glyph)

def cutRanges : Nat → Cuts → List (Nat × Nat)
  | _, [] => []
  | offset, (kept, replaced) :: cuts =>
    let start := offset + Text.byteLength (kept.map Glyph.folded)
    let stop := start + Text.byteLength (replaced.map Glyph.folded)
    (start, stop) :: cutRanges stop cuts

/-- The written bytes have the new text for some ranges, and the image of what is kept. -/
structure Edits (encoding : FileEncoding) (ending : LineEnding) (image : Glyph → Glyph)
    (newString : Text) (ranges : List (Nat × Nat)) (bytes written : Content) : Prop where
  exists_cuts : ∃ (cuts : Cuts) (last : List Glyph), cutRanges 0 cuts = ranges ∧
    bytes = encoding.mark ++ (cuts.flatMap fun cut =>
      encoding.encode (glyphText cut.1) ++ encoding.encode (glyphText cut.2)) ++
      encoding.encode (glyphText last) ∧
    written = encoding.mark ++ (cuts.flatMap fun cut =>
      encoding.encode (glyphText (cut.1.map image)) ++ encoding.encode (restore ending newString)) ++
      encoding.encode (glyphText (last.map image))

section Ranges

variable {content newString old front s : Text} {ranges : List (Nat × Nat)} {startOffset last : Nat}
  {m : FuzzyMatch} {req : PatchRequest} {count : Nat}

theorem start_le_stop (h : findMatchFrom content old startOffset = some m) : m.start ≤ m.stop := by
  obtain ⟨s, hdrop, -⟩ := dropBytes_of_findMatchFrom h
  rw [findMatchFrom_of_dropBytes hdrop] at h
  obtain ⟨stage, -, span, hspan, rfl⟩ := exists_of_search h
  obtain ⟨found, -, rfl⟩ := Option.map_eq_some_iff.mp hspan
  simp only [MatchSpan.matchAt, spanAt, Sieve.front_add, Text.byteLength_append]
  omega

theorem matchRanges_ordered (h : matchRanges content old startOffset = .ok ranges) :
    ∀ r ∈ ranges, r.1 ≤ r.2 := by
  induction ranges generalizing startOffset with
  | nil => exact nofun
  | cons r ranges ih =>
    rw [matchRanges_eq] at h
    cases hfound : findMatchFrom content old startOffset with
    | none =>
      rw [hfound] at h
      cases h
    | some m =>
      rw [hfound] at h
      dsimp only at h
      split_ifs at h with hempty
      cases hrest : matchRanges content old m.stop with
      | error e =>
        rw [hrest] at h
        cases h
      | ok rest =>
        rw [hrest] at h
        cases h
        exact List.forall_mem_cons.mpr ⟨start_le_stop hfound, ih hrest⟩

theorem ranges_ordered (h : req.ranges content count = .ok ranges) : ∀ r ∈ ranges, r.1 ≤ r.2 := by
  rw [PatchRequest.ranges] at h
  split_ifs at h
  · cases hfound : matchRanges content req.oldString 0 with
    | error e =>
      rw [hfound] at h
      cases h
    | ok found =>
      rw [hfound] at h
      dsimp only at h
      split_ifs at h
      cases h
      exact matchRanges_ordered hfound
  · cases hfound : findMatch content req.oldString with
    | none =>
      rw [hfound] at h
      cases h
    | some m =>
      rw [hfound] at h
      cases h
      exact List.forall_mem_singleton.mpr (start_le_stop hfound)

theorem dropBytes_of_rebuild (h : rebuild content newString last ranges = some s) :
    ∃ rest, Text.dropBytes last content = some rest := by
  cases ranges with
  | nil => exact ⟨s, h⟩
  | cons r ranges =>
    obtain ⟨kept, hkept, -⟩ := Option.bind_eq_some_iff.mp h
    obtain ⟨front, rest, rfl, rfl, -⟩ := Text.exists_of_getRange? hkept
    rw [append_assoc]
    exact ⟨_, Text.dropBytes_byteLength _ _⟩

theorem exists_of_rebuild (front : Text) {l : List Glyph} (hordered : ∀ r ∈ ranges, r.1 ≤ r.2)
    (h : rebuild (front ++ l.map Glyph.folded) newString (Text.byteLength front) ranges = some s) :
    ∃ (cuts : Cuts) (rest : List Glyph), cutRanges (Text.byteLength front) cuts = ranges ∧
      l = (cuts.flatMap fun cut => cut.1 ++ cut.2) ++ rest ∧
      s = (cuts.flatMap fun cut => cut.1.map Glyph.folded ++ newString) ++
        rest.map Glyph.folded := by
  induction ranges generalizing front l s with
  | nil =>
    rw [rebuild, Text.dropBytes_byteLength] at h
    cases h
    exact ⟨[], l, rfl, rfl, rfl⟩
  | cons r ranges ih =>
    obtain ⟨start, stop⟩ := r
    obtain ⟨hle, hrest⟩ := List.forall_mem_cons.mp hordered
    obtain ⟨kept, hkept, h⟩ := Option.bind_eq_some_iff.mp h
    obtain ⟨after, hafter, h⟩ := Option.bind_eq_some_iff.mp h
    cases h
    -- the content is cut at the start of the range, and at its end
    obtain ⟨front', rest, hcontent, hfront, rfl⟩ := Text.exists_of_getRange? hkept
    rw [append_assoc] at hcontent
    obtain ⟨rfl, hl⟩ := Text.append_inj_of_byteLength hcontent hfront
    obtain ⟨behind, hbehind⟩ := dropBytes_of_rebuild hafter
    obtain ⟨front', hcontent', rfl⟩ := Text.exists_of_dropBytes hbehind
    rw [hl, ← append_assoc] at hcontent'
    obtain ⟨replaced, rfl, rfl⟩ := Text.exists_of_append_eq hcontent' hle
    -- and so are the glyphs
    obtain ⟨lkept, l', rfl, rfl, hl'⟩ := List.map_eq_append_iff.mp hl
    obtain ⟨lreplaced, lbehind, rfl, rfl, rfl⟩ := List.map_eq_append_iff.mp hl'
    rw [List.map_append, List.map_append, ← append_assoc, ← append_assoc] at hafter
    obtain ⟨cuts, last, hcuts, rfl, rfl⟩ := ih _ hrest hafter
    refine ⟨(lkept, lreplaced) :: cuts, last, ?_, ?_, ?_⟩
    · rw [cutRanges, ← hcuts]
      simp only [Text.byteLength_append, Nat.add_assoc]
    · simp only [flatMap_cons, append_assoc]
    · simp only [flatMap_cons, append_assoc]

end Ranges

section Parts

variable {encoding : FileEncoding} {ending : LineEnding} {image : Glyph → Glyph} {newString : Text}
  {cuts : Cuts}

theorem encode_flatMap {α : Type} (encoding : FileEncoding) (f : α → Text) (l : List α) :
    encoding.encode (l.flatMap f) = l.flatMap fun a => encoding.encode (f a) := by
  induction l with
  | nil => cases encoding <;> rfl
  | cons a l ih => rw [flatMap_cons, flatMap_cons, encode_append, ih]

theorem glyphText_flatMap {α : Type} (f : α → List Glyph) (l : List α) :
    glyphText (l.flatMap f) = l.flatMap fun a => glyphText (f a) := by
  induction l with
  | nil => rfl
  | cons a l ih => rw [flatMap_cons, flatMap_cons, glyphText_append, ih]

theorem restore_flatMap {α : Type} (ending : LineEnding) (f : α → Text) (l : List α) :
    restore ending (l.flatMap f) = l.flatMap fun a => restore ending (f a) := by
  induction l with
  | nil => cases ending <;> rfl
  | cons a l ih => rw [flatMap_cons, flatMap_cons, restore_append, ih]

theorem encode_cuts (encoding : FileEncoding) (cuts : Cuts) (last : List Glyph) :
    encoding.encode (glyphText ((cuts.flatMap fun cut => cut.1 ++ cut.2) ++ last)) =
      (cuts.flatMap fun cut =>
        encoding.encode (glyphText cut.1) ++ encoding.encode (glyphText cut.2)) ++
      encoding.encode (glyphText last) := by
  simp only [glyphText_append, glyphText_flatMap, encode_append, encode_flatMap]

theorem encode_restore {cuts : Cuts} {last : List Glyph}
    (himage : ∀ g ∈ (cuts.flatMap fun cut => cut.1 ++ cut.2) ++ last,
      g.Plain ∧ g.styled ending = image g) :
    encoding.encode (restore ending ((cuts.flatMap fun cut =>
      cut.1.map Glyph.folded ++ newString) ++ last.map Glyph.folded)) = (cuts.flatMap fun cut =>
      encoding.encode (glyphText (cut.1.map image)) ++ encoding.encode (restore ending newString)) ++
      encoding.encode (glyphText (last.map image)) := by
  have hpart : ∀ l : List Glyph, (∀ g ∈ l, g.Plain ∧ g.styled ending = image g) →
      restore ending (l.map Glyph.folded) = glyphText (l.map image) := fun l hl => by
    rw [restore_eq (fun g hg => (hl g hg).1), List.map_congr_left fun g hg => (hl g hg).2]
  rw [restore_append, restore_flatMap, encode_append, encode_flatMap,
    hpart last fun g hg => himage g (List.mem_append_right _ hg)]
  refine congrArg (· ++ _) (List.flatMap_congr fun cut hcut => ?_)
  rw [restore_append, encode_append, hpart cut.1 fun g hg => himage g (List.mem_append_left _
    (List.mem_flatMap.mpr ⟨cut, hcut, List.mem_append_left _ hg⟩))]

end Parts

section Local

variable {utf8Error : Content → String} {bytes : Content} {raw newString newContent : Text}
  {ranges : List (Nat × Nat)} {image : Glyph → Glyph}

theorem exists_of_applyPatch {writeError : Option String} {req : PatchRequest} {patched : Patched}
    (h : applyPatch utf8Error (.ok bytes) writeError req = some (.ok patched)) :
    ∃ raw ranges newContent, decode utf8Error bytes = .ok raw ∧
      req.ranges (toLf raw) (countMatches (toLf raw) req.oldString).1 = .ok ranges ∧
      rebuild (toLf raw) req.newString 0 ranges = some newContent ∧ patched.written =
        writeFileWithEncoding newContent (detectEncoding bytes) (detectLineEnding raw) := by
  rw [applyPatch] at h
  cases hread : readFileWithEncoding utf8Error (.ok bytes) with
  | error e =>
    rw [hread] at h
    cases h
  | ok found =>
    obtain ⟨content, encoding, ending⟩ := found
    obtain ⟨raw, hdecode, rfl, rfl, rfl⟩ := readFileWithEncoding_eq_ok_iff.mp hread
    rw [hread] at h
    dsimp only at h
    by_cases hzero : (countMatches (toLf raw) req.oldString).1 = 0
    · rw [if_pos hzero] at h
      cases h
    rw [if_neg hzero] at h
    by_cases hmany : !req.replaceAll ∧ 1 < (countMatches (toLf raw) req.oldString).1
    · rw [if_pos hmany] at h
      cases h
    rw [if_neg hmany] at h
    cases hranges : req.ranges (toLf raw) (countMatches (toLf raw) req.oldString).1 with
    | error e =>
      rw [hranges] at h
      cases h
    | ok ranges =>
      rw [hranges] at h
      obtain ⟨newContent, hrebuild, h⟩ := Option.map_eq_some_iff.mp h
      cases writeError with
      | some e => cases h
      | none =>
        cases h
        exact ⟨raw, ranges, newContent, hdecode, hranges, hrebuild, rfl⟩

theorem edits_of_rebuild (heven : detectEncoding bytes = .utf16Le → bytes.length % 2 = 0)
    (hdecode : decode utf8Error bytes = .ok raw) (hordered : ∀ r ∈ ranges, r.1 ≤ r.2)
    (hrebuild : rebuild (toLf raw) newString 0 ranges = some newContent)
    (himage : ∀ g ∈ glyphs raw, g.styled (detectLineEnding raw) = image g) :
    Edits (detectEncoding bytes) (detectLineEnding raw) image newString ranges bytes
      (writeFileWithEncoding newContent (detectEncoding bytes) (detectLineEnding raw)) := by
  rw [toLf_eq] at hrebuild
  obtain ⟨cuts, last, hcuts, hglyphs, rfl⟩ := exists_of_rebuild [] hordered hrebuild
  refine ⟨cuts, last, hcuts, ?_, ?_⟩
  · rw [append_assoc, ← encode_cuts, ← hglyphs, glyphText_glyphs]
    exact eq_of_decode heven hdecode
  · rw [writeFileWithEncoding, encode_restore, append_assoc]
    rw [← hglyphs]
    exact fun g hg => ⟨plain_of_mem_glyphs g hg, himage g hg⟩

/-- **A patch is local**: what it does not replace is written as it was, but for line endings. -/
theorem applyPatch_local (utf8Error : Content → String) (bytes : Content)
    (heven : detectEncoding bytes = .utf16Le → bytes.length % 2 = 0) : (∀ writeError req patched,
      applyPatch utf8Error (.ok bytes) writeError req = some (.ok patched) →
      ∃ raw ranges, decode utf8Error bytes = .ok raw ∧
        req.ranges (toLf raw) (countMatches (toLf raw) req.oldString).1 = .ok ranges ∧
        (∀ e, endings (glyphs raw) e ≤ endings (glyphs raw) (detectLineEnding raw)) ∧
        Edits (detectEncoding bytes) (detectLineEnding raw) (Glyph.styled (detectLineEnding raw))
          req.newString ranges bytes patched.written ∧
        (Uniform raw → Edits (detectEncoding bytes) (detectLineEnding raw) id req.newString ranges
          bytes patched.written)) ∧ ∀ content encoding ending,
      readFileWithEncoding utf8Error (.ok bytes) = .ok (content, encoding, ending) →
      (writeFileWithEncoding content encoding ending = bytes ↔
        ∃ raw, decode utf8Error bytes = .ok raw ∧ Uniform raw) := by
  constructor
  · intro writeError req patched h
    obtain ⟨raw, ranges, newContent, hdecode, hranges, hrebuild, hwritten⟩ := exists_of_applyPatch h
    have hordered := ranges_ordered hranges
    rw [hwritten]
    exact ⟨raw, ranges, hdecode, hranges, endings_le_detectLineEnding raw,
      edits_of_rebuild heven hdecode hordered hrebuild fun g _ => rfl,
      fun huniform => edits_of_rebuild heven hdecode hordered hrebuild
        fun g hg => huniform.styled_eq hg⟩
  · intro content encoding ending h
    obtain ⟨raw, hdecode, rfl, rfl, rfl⟩ := readFileWithEncoding_eq_ok_iff.mp h
    rw [writeFileWithEncoding_eq_iff heven hdecode]
    constructor
    · exact fun huniform => ⟨raw, hdecode, huniform⟩
    · rintro ⟨raw', hdecode', huniform⟩
      rw [hdecode] at hdecode'
      cases hdecode'
      exact huniform

theorem utf16_line_local :
    writeFileWithEncoding "a\n".toList .utf16Le .crLf = [0xFF, 0xFE, 0x61, 0, 0x0D, 0, 0x0A, 0] ↔
      ∃ raw, decode (fun _ => "") [0xFF, 0xFE, 0x61, 0, 0x0D, 0, 0x0A, 0] = .ok raw ∧ Uniform raw :=
  (applyPatch_local (fun _ => "") [0xFF, 0xFE, 0x61, 0, 0x0D, 0, 0x0A, 0] (by decide)).2 _ _ _
    (by decide)

/-- A file with two kinds of line endings is not written back as it was. -/
theorem mixed_not_written_back :
    readFileWithEncoding (fun _ => "") (.ok [0x61, 0x0D, 0x0A, 0x62, 0x0A]) =
        .ok ("a\nb\n".toList, .utf8, .crLf) ∧
    writeFileWithEncoding "a\nb\n".toList .utf8 .crLf ≠ [0x61, 0x0D, 0x0A, 0x62, 0x0A] := by
  have hdecode : decode (fun _ => "") [0x61, 0x0D, 0x0A, 0x62, 0x0A] = .ok "a\r\nb\n".toList :=
    decode_of_utf8 (by decide) (by decide)
  exact ⟨readFileWithEncoding_eq_ok_iff.mpr ⟨_, hdecode, by decide, by decide, by decide⟩,
    by decide⟩

end Local

end IronClaw.Files
