import IronClaw.Foundation.Bytes
import IronClaw.Foundation.Finding
import IronClaw.Foundation.Sieve
import IronClaw.Safety.Sanitizer
import IronClaw.Tools.Tool

/-!
# Fuzzy matching of edits

A text is searched for as it stands, then without white space at the ends of lines, with straight
quotes, without and with both, and traced back to the file.
-/

namespace IronClaw.Files

open Foundation (Text Sieve)
open Tools (ToolError)
open List (append_nil cons_append dropLast_concat length_append length_cons map_cons mem_cons)

inductive MatchMethod where
  | exact
  | trailingWhitespace
  | quoteNormalization
  | both
deriving DecidableEq

structure MatchSpan where
  actual : Text
  start : Nat
  stop : Nat
deriving DecidableEq

structure FuzzyMatch extends MatchSpan where
  method : MatchMethod
deriving DecidableEq

def trimEnd (s : Text) : Text := Text.trimEndMatches Text.isWhitespace s

def stripTrailingWhitespace (s : Text) : Text :=
  Text.joinWith ['\n'] ((Safety.Sanitizer.lines s).map trimEnd)

def straightSingle (c : Char) : Char :=
  if c = '\u2018' ∨ c = '\u2019' ∨ c = '\u2032' then '\x27' else c

def straightDouble (c : Char) : Char :=
  if c = '\u201C' ∨ c = '\u201D' ∨ c = '\u2033' then '"' else c

def normalizeQuotes (s : Text) : Text := (s.map straightSingle).map straightDouble

def charToByteIdx (s : Text) (charIdx : Nat) : Option Nat :=
  if charIdx = s.length then some (Text.byteLength s)
  else if charIdx < s.length then some (Text.byteLength (s.take charIdx))
  else none

/-- The pieces of a text, each with the separator at its end. -/
def splitInclusive (sep : Char) : Text → List Text
  | [] => []
  | c :: s =>
    if c = sep then [c] :: splitInclusive sep s
    else
      match splitInclusive sep s with
      | [] => [[c]]
      | piece :: pieces => (c :: piece) :: pieces

def mapSegments (normalizedCharIdx : Nat) : Nat → Nat → List Text → Option Nat
  | normalizedSeen, originalByte, [] =>
    if normalizedCharIdx = normalizedSeen then some originalByte else none
  | normalizedSeen, originalByte, segment :: segments =>
    let hasNewline := segment.getLast? == some '\n'
    let line := if hasNewline then segment.dropLast else segment
    let trimmedChars := (trimEnd line).length
    if normalizedCharIdx ≤ normalizedSeen + trimmedChars then
      (charToByteIdx line (normalizedCharIdx - normalizedSeen)).map (originalByte + ·)
    else if hasNewline then
      if normalizedCharIdx = normalizedSeen + trimmedChars + 1 then
        some (originalByte + Text.byteLength line + 1)
      else mapSegments normalizedCharIdx (normalizedSeen + trimmedChars + 1)
        (originalByte + Text.byteLength line + 1) segments
    else mapSegments normalizedCharIdx (normalizedSeen + trimmedChars)
      (originalByte + Text.byteLength line) segments

def mapNormalizedCharToOriginalByte (original : Text) (normalizedCharIdx : Nat) : Option Nat :=
  if normalizedCharIdx = 0 then some 0
  else mapSegments normalizedCharIdx 0 0 (splitInclusive '\n' original)

def findOriginalSpan (original normalizedHaystack normalizedNeedle : Text) : Option MatchSpan := do
  let (before, _) ← Text.find? normalizedNeedle normalizedHaystack
  let start ← mapNormalizedCharToOriginalByte original before.length
  let stop ← mapNormalizedCharToOriginalByte original (before.length + normalizedNeedle.length)
  let actual ← Text.getRange? start stop original
  some ⟨actual, start, stop⟩

def MatchSpan.matchAt (span : MatchSpan) (startOffset : Nat) (method : MatchMethod) : FuzzyMatch :=
  ⟨⟨span.actual, startOffset + span.start, startOffset + span.stop⟩, method⟩

def findStraightened (search needle : Text) : Option (Option MatchSpan) :=
  (Text.find? (normalizeQuotes needle) (normalizeQuotes search)).map fun found => do
    let start ← charToByteIdx search found.1.length
    let stop ← charToByteIdx search (found.1.length + (normalizeQuotes needle).length)
    let actual ← Text.getRange? start stop search
    some ⟨actual, start, stop⟩

def findMatchFrom (haystack needle : Text) (startOffset : Nat) : Option FuzzyMatch := do
  let search ← Text.dropBytes startOffset haystack
  match Text.find? needle search with
  | some (before, _) =>
    let start := Text.byteLength before
    some (MatchSpan.matchAt ⟨needle, start, start + Text.byteLength needle⟩ startOffset .exact)
  | none =>
    let needleStripped := stripTrailingWhitespace needle
    let haystackStripped := stripTrailingWhitespace search
    match findOriginalSpan search haystackStripped needleStripped with
    | some span => some (span.matchAt startOffset .trailingWhitespace)
    | none =>
      match findStraightened search needle with
      | some span => span.map fun span => span.matchAt startOffset .quoteNormalization
      | none => (findOriginalSpan search (normalizeQuotes haystackStripped)
          (normalizeQuotes needleStripped)).map fun span => span.matchAt startOffset .both

def findMatch (haystack needle : Text) : Option FuzzyMatch := findMatchFrom haystack needle 0

def matchesCount (pat s : Text) : Nat :=
  if pat.isEmpty then s.length + 1 else Text.countMatches pat s

def countMatches (haystack needle : Text) : Nat × MatchMethod :=
  let exact := matchesCount needle haystack
  let needleStripped := stripTrailingWhitespace needle
  let haystackStripped := stripTrailingWhitespace haystack
  let strippedCount := matchesCount needleStripped haystackStripped
  let normalizedCount := matchesCount (normalizeQuotes needle) (normalizeQuotes haystack)
  let bothCount := matchesCount (normalizeQuotes needleStripped) (normalizeQuotes haystackStripped)
  if 0 < exact then (exact, .exact)
  else if 0 < strippedCount then (strippedCount, .trailingWhitespace)
  else if 0 < normalizedCount then (normalizedCount, .quoteNormalization)
  else if 0 < bothCount then (bothCount, .both)
  else (0, .exact)

theorem dropBytes_of_findMatchFrom {haystack needle : Text} {startOffset : Nat} {m : FuzzyMatch}
    (h : findMatchFrom haystack needle startOffset = some m) :
    ∃ search, Text.dropBytes startOffset haystack = some search ∧
      ∃ span : MatchSpan, m = span.matchAt startOffset m.method := by
  obtain ⟨search, hsearch, h⟩ := Option.bind_eq_some_iff.mp h
  refine ⟨search, hsearch, ?_⟩
  split at h
  · cases h
    exact ⟨_, rfl⟩
  · dsimp only at h
    split at h
    · cases h
      exact ⟨_, rfl⟩
    · split at h
      · obtain ⟨span, -, rfl⟩ := Option.map_eq_some_iff.mp h
        exact ⟨span, rfl⟩
      · obtain ⟨span, -, rfl⟩ := Option.map_eq_some_iff.mp h
        exact ⟨span, rfl⟩

def emptyMatch : ToolError :=
  .executionFailed "Internal error: apply_patch produced an empty match."

def matchRanges (content oldString : Text) (searchOffset : Nat) :
    Except ToolError (List (Nat × Nat)) :=
  match h : findMatchFrom content oldString searchOffset with
  | none => .ok []
  | some m =>
    if hempty : m.stop ≤ m.start then .error emptyMatch
    else (matchRanges content oldString m.stop).map ((m.start, m.stop) :: ·)
termination_by Text.byteLength content + 1 - searchOffset
decreasing_by
  obtain ⟨search, hsearch, span, hspan⟩ := dropBytes_of_findMatchFrom h
  obtain ⟨front, rfl, rfl⟩ := Text.exists_of_dropBytes hsearch
  have hstart : m.start = Text.byteLength front + span.start := by rw [hspan]; rfl
  rw [Text.byteLength_append]
  omega

section Lines

variable {p s rest : Text} {c : Char}

theorem trimEnd_eq_nil_iff : trimEnd s = [] ↔ ∀ c ∈ s, Text.isWhitespace c = true :=
  Text.trimEndMatches_eq_nil_iff

theorem trimEnd_cons (c : Char) (s : Text) : trimEnd (c :: s) =
    if !Text.isWhitespace c || s.any fun d => !Text.isWhitespace d then c :: trimEnd s
    else trimEnd s := by
  have hall : trimEnd s = [] ↔ (s.any fun d => !Text.isWhitespace d) = false := by
    rw [trimEnd_eq_nil_iff]
    simp
  rw [trimEnd, Text.trimEndMatches, List.reverse_cons, List.dropWhile_append]
  by_cases hs : trimEnd s = []
  · have hempty : s.reverse.dropWhile Text.isWhitespace = [] := List.reverse_eq_nil_iff.mp hs
    rw [hempty, List.isEmpty_nil, if_pos rfl, hall.mp hs, hs, Bool.or_false, List.dropWhile_cons]
    cases Text.isWhitespace c <;> rfl
  · have hne : (s.reverse.dropWhile Text.isWhitespace).isEmpty = false := by
      rw [List.isEmpty_eq_false_iff]
      exact fun h => hs (List.reverse_eq_nil_iff.mpr h)
    have hany : (s.any fun d => !Text.isWhitespace d) = true := by
      rwa [hall, Bool.not_eq_false] at hs
    rw [hne, if_neg Bool.false_ne_true, hany, Bool.or_true, if_pos rfl, List.reverse_append]
    rfl

theorem trimEnd_stripCarriageReturn (line : Text) :
    trimEnd (Safety.Sanitizer.stripCarriageReturn line) = trimEnd line := by
  rw [Safety.Sanitizer.stripCarriageReturn]
  split_ifs with hlast
  · obtain ⟨front, rfl⟩ := List.getLast?_eq_some_iff.mp hlast
    rw [dropLast_concat, trimEnd, trimEnd, Text.trimEndMatches, Text.trimEndMatches,
      List.reverse_append, List.reverse_singleton, List.singleton_append,
      List.dropWhile_cons_of_pos (by decide)]
  · rfl

def EndsLine (rest : Text) : Prop := rest = [] ∨ ∃ s, rest = '\n' :: s

theorem exists_line (s : Text) : ∃ p rest, s = p ++ rest ∧ '\n' ∉ p ∧ EndsLine rest := by
  induction s with
  | nil => exact ⟨[], [], rfl, List.not_mem_nil, .inl rfl⟩
  | cons c s ih =>
    by_cases hc : c = '\n'
    · exact ⟨[], c :: s, rfl, List.not_mem_nil, .inr ⟨s, by rw [hc]⟩⟩
    · obtain ⟨p, rest, rfl, hp, hrest⟩ := ih
      refine ⟨c :: p, rest, rfl, ?_, hrest⟩
      rw [mem_cons, not_or]
      exact ⟨Ne.symm hc, hp⟩

theorem lines_of_not_mem (hp : '\n' ∉ p) :
    Safety.Sanitizer.lines p = if p = [] then [] else [p] := by
  rw [Safety.Sanitizer.lines, Text.splitOn_of_not_mem hp]
  cases p <;> rfl

theorem lines_append (hp : '\n' ∉ p) (s : Text) : Safety.Sanitizer.lines (p ++ '\n' :: s) =
    Safety.Sanitizer.stripCarriageReturn p :: Safety.Sanitizer.lines s := by
  obtain ⟨pieces, piece, hs⟩ := Text.exists_splitOn_eq '\n' s
  have hwhole : Text.splitOn '\n' (p ++ '\n' :: s) = (p :: pieces) ++ [piece] := by
    rw [Text.splitOn_append_cons, Text.splitOn_of_not_mem hp, hs]
    rfl
  rw [Safety.Sanitizer.lines, Safety.Sanitizer.lines, hwhole, hs]
  rw [dropLast_concat, dropLast_concat, List.getLast?_concat, List.getLast?_concat]
  rfl

theorem lines_eq_nil_iff : Safety.Sanitizer.lines s = [] ↔ s = [] := by
  obtain ⟨p, rest, rfl, hp, rfl | ⟨s, rfl⟩⟩ := exists_line s
  · rw [append_nil, lines_of_not_mem hp]
    split_ifs with h
    · exact iff_of_true rfl h
    · exact iff_of_false nofun h
  · rw [lines_append hp]
    simp

theorem stripTrailingWhitespace_of_not_mem (hp : '\n' ∉ p) :
    stripTrailingWhitespace p = trimEnd p := by
  rw [stripTrailingWhitespace, lines_of_not_mem hp]
  split_ifs with h
  · rw [h]
    rfl
  · exact append_nil _

theorem stripTrailingWhitespace_append (hp : '\n' ∉ p) (s : Text) :
    stripTrailingWhitespace (p ++ '\n' :: s) =
      trimEnd p ++ if s = [] then [] else '\n' :: stripTrailingWhitespace s := by
  rw [stripTrailingWhitespace, lines_append hp, map_cons, trimEnd_stripCarriageReturn]
  split_ifs with hs
  · rw [lines_eq_nil_iff.mpr hs]
    rfl
  · obtain ⟨line, lines, hlines⟩ := List.exists_cons_of_ne_nil (mt lines_eq_nil_iff.mp hs)
    rw [stripTrailingWhitespace, hlines, map_cons, Text.joinWith_cons_cons]
    rfl

end Lines

/-- White space is kept if its line goes on with something else, and a line end if the text does. -/
def stripped : Sieve Char Char where
  keep c s :=
    if c = '\n' then !s.isEmpty
    else !Text.isWhitespace c || (s.takeWhile fun d => d != '\n').any fun d => !Text.isWhitespace d
  image := id

section Stripped

variable {p rest : Text} {c : Char}

theorem takeWhile_line (hp : '\n' ∉ p) (hrest : EndsLine rest) :
    (p ++ rest).takeWhile (fun d => d != '\n') = p := by
  rw [List.takeWhile_append_of_pos]
  · rcases hrest with rfl | ⟨s, rfl⟩
    · exact append_nil p
    · rw [List.takeWhile_cons_of_neg (by simp), append_nil]
  · intro d hd
    rw [bne_iff_ne]
    rintro rfl
    exact hp hd

theorem stripped_apply_line (hp : '\n' ∉ p) (hrest : EndsLine rest) :
    stripped.apply (p ++ rest) = trimEnd p ++ stripped.apply rest := by
  induction p with
  | nil => rfl
  | cons c p ih =>
    rw [mem_cons, not_or] at hp
    have hkeep : stripped.keep c (p ++ rest) =
        (!Text.isWhitespace c || p.any fun d => !Text.isWhitespace d) := by
      rw [stripped]
      dsimp only
      rw [if_neg (Ne.symm hp.1), takeWhile_line hp.2 hrest]
    rw [cons_append, Sieve.apply, hkeep, trimEnd_cons, ih hp.2]
    split_ifs <;> rfl

theorem stripped_apply_newline (s : Text) :
    stripped.apply ('\n' :: s) = if s = [] then [] else '\n' :: stripped.apply s := by
  cases s <;> rfl

theorem stripTrailingWhitespace_eq (s : Text) : stripTrailingWhitespace s = stripped.apply s := by
  induction hn : s.length using Nat.strong_induction_on generalizing s with
  | _ n ih =>
    obtain ⟨p, rest, rfl, hp, rfl | ⟨s, rfl⟩⟩ := exists_line s
    · rw [stripped_apply_line hp (.inl rfl), append_nil,
        stripTrailingWhitespace_of_not_mem hp, Sieve.apply_nil, append_nil]
    · have hlt : s.length < n := by
        rw [← hn, length_append, length_cons]
        omega
      rw [stripped_apply_line hp (.inr ⟨s, rfl⟩), stripTrailingWhitespace_append hp,
        stripped_apply_newline, ih s.length hlt s rfl]

theorem stripped_keep_line (hc : c ≠ '\n') (hp : '\n' ∉ p) (hrest : EndsLine rest) :
    (stripped.keep c (p ++ rest) = true ∧ trimEnd (c :: p) = c :: trimEnd p) ∨
      (stripped.keep c (p ++ rest) = false ∧ trimEnd (c :: p) = [] ∧ trimEnd p = []) := by
  have hkeep : stripped.keep c (p ++ rest) =
      (!Text.isWhitespace c || p.any fun d => !Text.isWhitespace d) := by
    rw [stripped]
    dsimp only
    rw [if_neg hc, takeWhile_line hp hrest]
  rw [trimEnd_cons, hkeep]
  split_ifs with h
  · exact .inl ⟨h, rfl⟩
  · rw [Bool.not_eq_true] at h
    have hblank : trimEnd p = [] := by
      rw [trimEnd_eq_nil_iff]
      simpa using (Bool.or_eq_false_iff.mp h).2
    exact .inr ⟨h, hblank, hblank⟩

theorem stripped_front_line (hp : '\n' ∉ p) (hrest : EndsLine rest) {k : Nat}
    (hk : k ≤ (trimEnd p).length) : stripped.front k (p ++ rest) = p.take k := by
  induction p generalizing k with
  | nil => rw [Nat.le_zero.mp hk, Sieve.front_zero, List.take_zero]
  | cons c p ih =>
    rw [mem_cons, not_or] at hp
    cases k with
    | zero => rw [Sieve.front_zero, List.take_zero]
    | succ k =>
      rcases stripped_keep_line (Ne.symm hp.1) hp.2 hrest with ⟨hkeep, htrim⟩ | ⟨-, htrim, -⟩
      · rw [htrim, length_cons] at hk
        rw [cons_append, Sieve.front_succ_of_keep hkeep, ih hp.2 (by omega), List.take_succ_cons]
      · rw [htrim] at hk
        cases hk

theorem stripped_front_behind_line (hp : '\n' ∉ p) (hrest : EndsLine rest) {k : Nat} (hk : 0 < k) :
    stripped.front ((trimEnd p).length + k) (p ++ rest) = p ++ stripped.front k rest := by
  induction p with
  | nil => exact congrArg (stripped.front · rest) (Nat.zero_add k)
  | cons c p ih =>
    rw [mem_cons, not_or] at hp
    have hsucc : (trimEnd p).length + k = (trimEnd p).length + k - 1 + 1 := by omega
    rcases stripped_keep_line (Ne.symm hp.1) hp.2 hrest with ⟨hkeep, htrim⟩ | ⟨hkeep, htrim, hblank⟩
    · rw [htrim, length_cons, Nat.add_right_comm, cons_append,
        Sieve.front_succ_of_keep hkeep, ih hp.2, cons_append]
    · rw [htrim, ← hblank, hsucc, cons_append, Sieve.front_succ_of_drop hkeep, ← hsucc, ih hp.2,
        cons_append]

theorem charToByteIdx_eq {s : Text} {k : Nat} (hk : k ≤ s.length) :
    charToByteIdx s k = some (Text.byteLength (s.take k)) := by
  rw [charToByteIdx]
  split_ifs with heq hlt
  · rw [heq, List.take_length]
  · rfl
  · omega

theorem splitInclusive_of_not_mem {sep : Char} {s : Text} (h : sep ∉ s) (hne : s ≠ []) :
    splitInclusive sep s = [s] := by
  induction s with
  | nil => exact absurd rfl hne
  | cons c s ih =>
    rw [mem_cons, not_or] at h
    rw [splitInclusive, if_neg (Ne.symm h.1)]
    by_cases hs : s = []
    · rw [hs]
      rfl
    · rw [ih h.2 hs]

theorem splitInclusive_append {sep : Char} {s : Text} (h : sep ∉ s) (rest : Text) :
    splitInclusive sep (s ++ sep :: rest) = (s ++ [sep]) :: splitInclusive sep rest := by
  induction s with
  | nil => exact if_pos rfl
  | cons c s ih =>
    rw [mem_cons, not_or] at h
    rw [cons_append, splitInclusive, if_neg (Ne.symm h.1), ih h.2]
    rfl

theorem mapSegments_eq (s : Text) {k : Nat} (hk : 0 < k) (hle : k ≤ (stripped.apply s).length)
    (seen byte : Nat) : mapSegments (seen + k) seen byte (splitInclusive '\n' s) =
      some (byte + Text.byteLength (stripped.front k s)) := by
  induction hn : s.length using Nat.strong_induction_on generalizing s k seen byte with
  | _ n ih =>
    obtain ⟨p, rest, rfl, hp, hrest⟩ := exists_line s
    have hprefix : (trimEnd p).length ≤ p.length := (Text.trimEndMatches_prefix _ p).length_le
    rw [stripped_apply_line hp hrest, length_append] at hle
    have hinLine (hin : k ≤ (trimEnd p).length) :
        (charToByteIdx p (seen + k - seen)).map (byte + ·) =
          some (byte + Text.byteLength (stripped.front k (p ++ rest))) := by
      rw [Nat.add_sub_cancel_left, charToByteIdx_eq (hin.trans hprefix), Option.map_some,
        stripped_front_line hp hrest hin]
    rcases hrest with rfl | ⟨s, rfl⟩
    · -- the last line
      have hin : k ≤ (trimEnd p).length := hle
      have hne : p ≠ [] := by
        rintro rfl
        exact absurd (Nat.lt_of_lt_of_le hk hin) (Nat.lt_irrefl 0)
      have hlast : (p.getLast? == some '\n') = false := by
        rw [beq_eq_false_iff_ne]
        exact fun h => hp (List.mem_of_getLast? h)
      rw [append_nil, splitInclusive_of_not_mem hp hne, mapSegments, hlast,
        if_neg Bool.false_ne_true, if_pos (by omega), hinLine hin, append_nil]
    · have hlast : ((p ++ ['\n']).getLast? == some '\n') = true := by
        rw [List.getLast?_concat]
        rfl
      rw [splitInclusive_append hp, mapSegments, hlast, if_pos rfl, if_pos rfl, dropLast_concat]
      by_cases hin : k ≤ (trimEnd p).length
      · rw [if_pos (by omega), hinLine hin]
      rw [if_neg (by omega)]
      -- the position is behind the line, and so behind its end
      have hs : s ≠ [] := by
        rintro rfl
        exact hin hle
      have hfront : ∀ j, stripped.front ((trimEnd p).length + (j + 1)) (p ++ '\n' :: s) =
          p ++ '\n' :: stripped.front j s := fun j => by
        have hkeep : stripped.keep '\n' s = true := by
          obtain ⟨c, s, rfl⟩ := List.exists_cons_of_ne_nil hs
          rfl
        rw [stripped_front_behind_line hp (.inr ⟨s, rfl⟩) (Nat.succ_pos j),
          Sieve.front_succ_of_keep hkeep]
      have hnewline : Char.utf8Size '\n' = 1 := rfl
      rw [stripped_apply_newline, if_neg hs, length_cons] at hle
      obtain ⟨j, rfl⟩ : ∃ j, k = (trimEnd p).length + (j + 1) :=
        ⟨k - (trimEnd p).length - 1, by omega⟩
      rw [hfront, Text.byteLength_append, Text.byteLength_cons, hnewline]
      by_cases hj : j = 0
      · rw [if_pos (by omega), hj, Sieve.front_zero, Text.byteLength_nil]
        congr 1
      · have hlt : s.length < n := by
          rw [← hn, length_append, length_cons]
          omega
        have hidx : seen + ((trimEnd p).length + (j + 1)) = seen + (trimEnd p).length + 1 + j := by
          omega
        rw [if_neg (by omega), hidx, ih s.length hlt s (by omega) (by omega) _ _ rfl]
        congr 1
        omega

/-- **Positions are traced back** to the end of the last character that they count. -/
theorem mapNormalizedCharToOriginalByte_eq (s : Text) {k : Nat}
    (hle : k ≤ (stripped.apply s).length) :
    mapNormalizedCharToOriginalByte s k = some (Text.byteLength (stripped.front k s)) := by
  rw [mapNormalizedCharToOriginalByte]
  split_ifs with hk
  · rw [hk, Sieve.front_zero]
    rfl
  · have hmap := mapSegments_eq s (Nat.pos_of_ne_zero hk) hle 0 0
    rwa [Nat.zero_add, Nat.zero_add] at hmap

end Stripped

end IronClaw.Files
