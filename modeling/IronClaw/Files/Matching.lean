import IronClaw.Files.FuzzyMatch

/-!
# What fuzzy matching finds

The search picks the first normalization that finds the text in what is left of the file, a count
the first one that does in the whole file. A later one can find more behind its last match.
-/

namespace IronClaw.Files

open Foundation (Text Sieve)
open List (append_assoc append_nil cons_append drop_left findSome?_cons findSome?_nil
  getLast?_cons_cons length_append length_map map_id map_map map_take mem_cons mem_cons_self
  take_left take_nil)
open Option (bind_eq_bind bind_some map_eq_some_iff map_some)
open Bool (not_eq_true or_eq_false_iff or_eq_true)

def straight (c : Char) : Char := straightDouble (straightSingle c)

theorem normalizeQuotes_eq (s : Text) : normalizeQuotes s = s.map straight := map_map

def stages : List (MatchMethod × Sieve Char Char) :=
  [(.exact, .all id), (.trailingWhitespace, stripped), (.quoteNormalization, .all straight),
    (.both, stripped.map straight)]

def Found (N : Sieve Char Char) (old s : Text) : Prop := N.apply old <:+: N.apply s

instance (N : Sieve Char Char) (old s : Text) : Decidable (Found N old s) :=
  inferInstanceAs (Decidable (_ <:+: _))

/-- The span of an occurrence in a normalized text, behind a number of characters there. -/
def spanAt (N : Sieve Char Char) (old s : Text) (before : Nat) : MatchSpan where
  actual := N.front (N.apply old).length (N.behind before s)
  start := Text.byteLength (N.front before s)
  stop := Text.byteLength (N.front (before + (N.apply old).length) s)

def spanOf (N : Sieve Char Char) (old s : Text) : Option MatchSpan :=
  (Text.find? (N.apply old) (N.apply s)).map fun found => spanAt N old s found.1.length

section Stages

variable {N : Sieve Char Char} {old s t : Text}

theorem spanOf_isSome_iff : (spanOf N old s).isSome = true ↔ Found N old s := by
  rw [spanOf, Option.isSome_map, Text.find?_isSome_iff, Found]

theorem spanOf_eq_none_iff : spanOf N old s = none ↔ ¬ Found N old s := by
  rw [← spanOf_isSome_iff, not_eq_true, Option.isSome_eq_false_iff, Option.isNone_iff_eq_none]

theorem Found.of_suffix (h : Found N old t) (hsuffix : t <:+ s) : Found N old s :=
  h.trans (Sieve.apply_suffix hsuffix).isInfix

theorem getRange?_front (N : Sieve Char Char) (j k : Nat) (s : Text) :
    Text.getRange? (Text.byteLength (N.front j s)) (Text.byteLength (N.front (j + k) s)) s =
      some (N.front k (N.behind j s)) := by
  have hs : N.front j s ++ N.front k (N.behind j s) ++ N.behind k (N.behind j s) = s := by
    rw [append_assoc, Sieve.front_append_behind, Sieve.front_append_behind]
  have hrange := Text.getRange?_append (N.front j s) (N.front k (N.behind j s))
    (N.behind k (N.behind j s))
  rwa [hs, ← Sieve.front_add] at hrange

theorem findOriginalSpan_eq (f : Char → Char) (old s : Text) :
    findOriginalSpan s ((stripped.map f).apply s) ((stripped.map f).apply old) =
      spanOf (stripped.map f) old s := by
  rw [findOriginalSpan, spanOf]
  cases hfound : Text.find? ((stripped.map f).apply old) ((stripped.map f).apply s) with
  | none => rfl
  | some found =>
    obtain ⟨before, after⟩ := found
    have hlength := congrArg List.length (Text.eq_append_of_find? hfound)
    rw [Sieve.apply_map f s, length_map, length_append, length_append] at hlength
    simp only [bind_eq_bind, bind_some, map_some, spanAt, Sieve.front_map,
      Sieve.behind_map]
    rw [mapNormalizedCharToOriginalByte_eq s (by omega),
      mapNormalizedCharToOriginalByte_eq s (by omega), bind_some, bind_some,
      getRange?_front, bind_some]

theorem findStraightened_eq (old s : Text) :
    findStraightened s old = (spanOf (.all straight) old s).map some := by
  rw [findStraightened, spanOf, Sieve.apply_all, Sieve.apply_all, normalizeQuotes_eq,
    normalizeQuotes_eq, Option.map_map]
  cases hfound : Text.find? (old.map straight) (s.map straight) with
  | none => rfl
  | some found =>
    obtain ⟨before, after⟩ := found
    have hlength := congrArg List.length (Text.eq_append_of_find? hfound)
    rw [length_map, length_append, length_append] at hlength
    have hrange := getRange?_front (.all straight) before.length (old.map straight).length s
    rw [Sieve.front_all, Sieve.front_all] at hrange
    simp only [map_some, Function.comp_apply, bind_eq_bind, spanAt, Sieve.apply_all]
    rw [charToByteIdx_eq (by omega), charToByteIdx_eq (by omega), bind_some, bind_some,
      hrange, bind_some, Sieve.front_all, Sieve.front_all, Sieve.front_all, Sieve.behind_all]

theorem spanOf_exact (old s : Text) : spanOf (.all id) old s = (Text.find? old s).map fun found =>
    ⟨old, Text.byteLength found.1, Text.byteLength found.1 + Text.byteLength old⟩ := by
  rw [spanOf, Sieve.apply_all, Sieve.apply_all, map_id, map_id]
  refine Option.map_congr fun found hfound => ?_
  obtain ⟨before, after⟩ := found
  rw [spanAt, Sieve.apply_all, map_id, Sieve.front_all, Sieve.front_all, Sieve.front_all,
    Sieve.behind_all, Text.eq_append_of_find? hfound]
  dsimp only
  rw [← length_append, take_left, append_assoc, take_left, drop_left,
    take_left, Text.byteLength_append]

theorem findMatchFrom_eq (haystack needle : Text) (startOffset : Nat) :
    findMatchFrom haystack needle startOffset = (Text.dropBytes startOffset haystack).bind fun s =>
      stages.findSome? fun stage =>
        (spanOf stage.2 needle s).map fun span => span.matchAt startOffset stage.1 := by
  refine Option.bind_congr fun s _ => ?_
  have hboth := findOriginalSpan_eq straight needle s
  rw [Sieve.apply_map, Sieve.apply_map, ← stripTrailingWhitespace_eq, ← stripTrailingWhitespace_eq,
    ← normalizeQuotes_eq, ← normalizeQuotes_eq] at hboth
  have hstripped : findOriginalSpan s (stripped.apply s) (stripped.apply needle) =
    spanOf stripped needle s := findOriginalSpan_eq id needle s
  rw [← stripTrailingWhitespace_eq, ← stripTrailingWhitespace_eq] at hstripped
  simp only [stages, findSome?_cons, findSome?_nil, spanOf_exact]
  cases Text.find? needle s with
  | some found => rfl
  | none =>
    simp only [Option.map_none, hstripped, findStraightened_eq, hboth]
    cases spanOf stripped needle s with
    | some span => rfl
    | none =>
      cases spanOf (.all straight) needle s with
      | some span => rfl
      | none =>
        cases spanOf (stripped.map straight) needle s with
        | some span => rfl
        | none => rfl

theorem countMatches_eq (haystack needle : Text) : countMatches haystack needle =
    (stages.findSome? fun stage =>
      let count := matchesCount (stage.2.apply needle) (stage.2.apply haystack)
      if 0 < count then some (count, stage.1) else none).getD (0, .exact) := by
  simp only [stages, findSome?_cons, findSome?_nil, Sieve.apply_all, Sieve.apply_map,
    ← stripTrailingWhitespace_eq, ← normalizeQuotes_eq, map_id, countMatches]
  split_ifs <;> rfl

end Stages

/-- The line goes on with something else than white space. -/
def hasWord (s : Text) : Bool := (s.takeWhile fun d => d != '\n').any fun d => !Text.isWhitespace d

/-- White space is kept if its line goes on with something else. All line ends are kept. -/
def trimmed : Sieve Char Char where
  keep c s := c == '\n' || !Text.isWhitespace c || hasWord s
  image := id

def trimLines (s : Text) : Text := trimmed.apply s

def Solid (c : Char) : Prop := c = '\n' ∨ Text.isWhitespace c = false

section Trimmed

variable {c : Char} {s old u : Text} {k : Nat}

theorem hasWord_cons (hc : c ≠ '\n') (s : Text) :
    hasWord (c :: s) = (!Text.isWhitespace c || hasWord s) := by
  rw [hasWord, List.takeWhile_cons, if_pos (bne_iff_ne.mpr hc), List.any_cons]
  rfl

theorem stripped_keep_newline (s : Text) : stripped.keep '\n' s = !s.isEmpty := rfl

theorem stripped_keep_of_ne (hc : c ≠ '\n') (s : Text) :
    stripped.keep c s = (!Text.isWhitespace c || hasWord s) := if_neg hc

theorem trimmed_keep_newline (s : Text) : trimmed.keep '\n' s = true := rfl

theorem trimmed_keep_of_ne (hc : c ≠ '\n') (s : Text) :
    trimmed.keep c s = (!Text.isWhitespace c || hasWord s) := by
  rw [trimmed]
  dsimp only
  rw [beq_eq_false_iff_ne.mpr hc, Bool.false_or]

theorem straight_cases (c : Char) : straight c = c ∨ ((c ≠ '\n' ∧ straight c ≠ '\n') ∧
      Text.isWhitespace c = false ∧ Text.isWhitespace (straight c) = false) := by
  by_cases hsingle : c = '\u2018' ∨ c = '\u2019' ∨ c = '\u2032'
  · rcases hsingle with rfl | rfl | rfl <;> exact .inr (by decide)
  by_cases hdouble : c = '\u201C' ∨ c = '\u201D' ∨ c = '\u2033'
  · rcases hdouble with rfl | rfl | rfl <;> exact .inr (by decide)
  · rw [straight, straightSingle, if_neg hsingle, straightDouble, if_neg hdouble]
    exact .inl rfl

theorem straight_eq_newline_iff : straight c = '\n' ↔ c = '\n' := by
  rcases straight_cases c with h | ⟨⟨hc, hstraight⟩, -⟩
  · rw [h]
  · exact iff_of_false hstraight hc

theorem isWhitespace_straight (c : Char) : Text.isWhitespace (straight c) = Text.isWhitespace c := by
  rcases straight_cases c with h | ⟨-, hc, hstraight⟩
  · rw [h]
  · rw [hc, hstraight]

theorem hasWord_map (s : Text) : hasWord (s.map straight) = hasWord s := by
  induction s with
  | nil => rfl
  | cons c s ih =>
    by_cases hc : c = '\n'
    · rw [hc]
      rfl
    · rw [List.map_cons, hasWord_cons (mt straight_eq_newline_iff.mp hc), hasWord_cons hc, ih,
        isWhitespace_straight]

theorem stripped_apply_map (s : Text) :
    stripped.apply (s.map straight) = (stripped.apply s).map straight := by
  refine Sieve.apply_map_of_keep (M := stripped) (f := straight) (fun c s => ?_) (fun _ => rfl) s
  by_cases hc : c = '\n'
  · rw [straight_eq_newline_iff.mpr hc, hc, stripped_keep_newline, stripped_keep_newline]
    cases s <;> rfl
  · rw [stripped_keep_of_ne (mt straight_eq_newline_iff.mp hc), stripped_keep_of_ne hc, hasWord_map,
      isWhitespace_straight]

theorem trimLines_map (s : Text) : trimLines (s.map straight) = (trimLines s).map straight := by
  refine Sieve.apply_map_of_keep (M := trimmed) (f := straight) (fun c s => ?_) (fun _ => rfl) s
  by_cases hc : c = '\n'
  · rw [straight_eq_newline_iff.mpr hc, hc]
    rfl
  · rw [trimmed_keep_of_ne (mt straight_eq_newline_iff.mp hc), trimmed_keep_of_ne hc, hasWord_map,
      isWhitespace_straight]

theorem count_newline_map (s : Text) : (s.map straight).count '\n' = s.count '\n' := by
  rw [List.count_eq_countP, List.count_eq_countP, List.countP_map]
  refine List.countP_congr fun c _ => ?_
  rw [Function.comp_apply, beq_iff_eq, beq_iff_eq, straight_eq_newline_iff]

theorem count_trimLines (s : Text) : (trimLines s).count '\n' = s.count '\n' := by
  induction s with
  | nil => rfl
  | cons c s ih =>
    rw [trimLines] at ih ⊢
    by_cases hc : c = '\n'
    · rw [hc, Sieve.apply_cons_of_keep (trimmed_keep_newline s), List.count_cons_self, ← ih]
      exact List.count_cons_self
    · cases hkeep : trimmed.keep c s with
      | true =>
        rw [Sieve.apply_cons_of_keep hkeep, List.count_cons_of_ne hc, ← ih]
        exact List.count_cons_of_ne hc
      | false => rw [Sieve.apply_cons_of_drop hkeep, List.count_cons_of_ne hc, ih]

theorem trimLines_eq (s : Text) : trimLines s =
    stripped.apply s ++ if s.getLast? = some '\n' then ['\n'] else [] := by
  induction s with
  | nil => rfl
  | cons c s ih =>
    rw [trimLines] at ih ⊢
    by_cases hc : c = '\n'
    · rw [hc, Sieve.apply_cons_of_keep (trimmed_keep_newline s), ih]
      cases s with
      | nil => rfl
      | cons d s =>
        rw [Sieve.apply_cons_of_keep (stripped_keep_newline (d :: s)), getLast?_cons_cons,
          cons_append]
        rfl
    · have hsame : stripped.keep c s = trimmed.keep c s := by
        rw [stripped_keep_of_ne hc, trimmed_keep_of_ne hc]
      have hlast : (c :: s).getLast? = some '\n' ↔ s.getLast? = some '\n' := by
        cases s with
        | nil => simpa using hc
        | cons d s => rw [getLast?_cons_cons]
      rw [if_congr hlast rfl rfl]
      cases hkeep : trimmed.keep c s with
      | true =>
        rw [Sieve.apply_cons_of_keep hkeep, Sieve.apply_cons_of_keep (hsame.trans hkeep), ih,
          cons_append]
        rfl
      | false =>
        rw [Sieve.apply_cons_of_drop hkeep, Sieve.apply_cons_of_drop (hsame.trans hkeep), ih]

theorem hasWord_iff_stripped :
    hasWord s = true ↔ ∃ c, (stripped.apply s).head? = some c ∧ c ≠ '\n' := by
  induction s with
  | nil => exact iff_of_false Bool.false_ne_true fun ⟨c, h, _⟩ => by cases h
  | cons c s ih =>
    by_cases hc : c = '\n'
    · rw [hc, stripped_apply_newline]
      refine iff_of_false Bool.false_ne_true fun ⟨d, h, hd⟩ => ?_
      split_ifs at h
      · cases h
      · cases h
        exact hd rfl
    · cases hkeep : stripped.keep c s with
      | true =>
        rw [hasWord_cons hc, ← stripped_keep_of_ne hc, Sieve.apply_cons_of_keep hkeep]
        exact iff_of_true hkeep ⟨c, rfl, hc⟩
      | false =>
        have hkeep' := hkeep
        rw [stripped_keep_of_ne hc, or_eq_false_iff] at hkeep'
        rw [hasWord_cons hc, hkeep'.1, Bool.false_or, Sieve.apply_cons_of_drop hkeep, ih]

theorem hasWord_iff_trimmed : hasWord s = true ↔ ∃ c, (trimLines s).head? = some c ∧ c ≠ '\n' := by
  rw [trimLines_eq, hasWord_iff_stripped]
  cases stripped.apply s with
  | nil =>
    refine iff_of_false (fun ⟨c, h, _⟩ => by cases h) fun ⟨c, h, hc⟩ => ?_
    split_ifs at h
    · cases h
      exact hc rfl
    · cases h
  | cons d front => rfl

theorem solid_of_getLast? (h : (stripped.apply s).getLast? = some c) : Solid c := by
  induction s with
  | nil => cases h
  | cons d s ih =>
    cases hkeep : stripped.keep d s with
    | false =>
      rw [Sieve.apply_cons_of_drop hkeep] at h
      exact ih h
    | true =>
      rw [Sieve.apply_cons_of_keep hkeep] at h
      cases hrest : stripped.apply s with
      | cons e rest =>
        rw [hrest, getLast?_cons_cons, ← hrest] at h
        exact ih h
      | nil =>
        rw [hrest] at h
        cases h
        by_cases hd : d = '\n'
        · exact .inl hd
        · -- nothing behind it is kept, so it is no white space itself
          have hword : hasWord s = false := by
            rw [← not_eq_true, hasWord_iff_stripped, hrest]
            rintro ⟨c, hc, -⟩
            cases hc
          rw [stripped_keep_of_ne hd, hword, Bool.or_false, Bool.not_eq_true'] at hkeep
          exact .inr hkeep

theorem trimLines_front (hk : k ≤ (stripped.apply s).length)
    (hlast : ∀ c, ((stripped.apply s).take k).getLast? = some c → Solid c) :
    trimLines (stripped.front k s) = (stripped.apply s).take k := by
  induction s generalizing k with
  | nil => rw [Sieve.front_nil, Sieve.apply_nil, take_nil]; rfl
  | cons c s ih =>
    cases k with
    | zero => rw [Sieve.front_zero, List.take_zero]; rfl
    | succ k =>
      cases hkeep : stripped.keep c s with
      | true =>
        rw [Sieve.apply_cons_of_keep hkeep, List.length_cons] at hk
        rw [Sieve.apply_cons_of_keep hkeep, List.take_succ_cons] at hlast ⊢
        rw [Sieve.front_succ_of_keep hkeep]
        have hrest : trimLines (stripped.front k s) = (stripped.apply s).take k := by
          refine ih (by omega) fun d hd => hlast d ?_
          obtain ⟨e, rest, he⟩ := List.exists_cons_of_ne_nil (l := (stripped.apply s).take k) (by
            intro hnil
            rw [hnil] at hd
            cases hd)
          rw [he] at hd ⊢
          rwa [getLast?_cons_cons]
        have hkeep' : trimmed.keep c (stripped.front k s) = true := by
          by_cases hc : c = '\n'
          · rw [hc]
            rfl
          rw [trimmed_keep_of_ne hc, or_eq_true]
          rw [stripped_keep_of_ne hc, or_eq_true] at hkeep
          rcases hkeep with hsolid | hword
          · exact .inl hsolid
          cases k with
          | zero =>
            -- the part ends with this character
            rcases hlast c rfl with hnewline | hsolid
            · exact absurd hnewline hc
            · exact .inl (by rw [hsolid]; rfl)
          | succ k =>
            right
            rwa [hasWord_iff_trimmed, hrest, List.head?_take, if_neg (Nat.succ_ne_zero k),
              ← hasWord_iff_stripped]
        rw [trimLines, Sieve.apply_cons_of_keep hkeep', ← trimLines, hrest]
        rfl
      | false =>
        rw [Sieve.apply_cons_of_drop hkeep] at hk hlast ⊢
        rw [Sieve.front_succ_of_drop hkeep]
        have hrest := ih hk hlast
        have hdrop : trimmed.keep c (stripped.front (k + 1) s) = false := by
          by_cases hc : c = '\n'
          · -- only the last character of a text can be a line end that is dropped
            rw [hc, stripped_keep_newline, Bool.not_eq_false', List.isEmpty_iff] at hkeep
            rw [hkeep] at hk
            cases hk
          · rw [stripped_keep_of_ne hc, or_eq_false_iff] at hkeep
            rw [trimmed_keep_of_ne hc, hkeep.1, Bool.false_or, ← not_eq_true,
              hasWord_iff_trimmed, hrest, List.head?_take, if_neg (Nat.succ_ne_zero k),
              ← hasWord_iff_stripped, hkeep.2]
            exact Bool.false_ne_true
        rw [trimLines, Sieve.apply_cons_of_drop hdrop, ← trimLines, hrest]

end Trimmed

/-- What is claimed of a match: where it is, and what it has in common with the text searched. -/
structure SoundMatch (content old : Text) (startOffset : Nat) (m : FuzzyMatch) : Prop where
  nonempty : m.start < m.stop
  behind : startOffset ≤ m.start
  within : ∃ before after, content = before ++ m.actual ++ after ∧
    m.start = Text.byteLength before ∧ m.stop = Text.byteLength (before ++ m.actual)
  text : normalizeQuotes (trimLines m.actual) = normalizeQuotes (trimLines old)
  lines : m.actual.count '\n' = old.count '\n'

section Sound

variable {N : Sieve Char Char} {f : Char → Char} {content old s : Text} {span : MatchSpan}
  {startOffset : Nat} {method : MatchMethod}

theorem exists_of_spanOf (hne : N.apply old ≠ []) (h : spanOf N old s = some span) :
    ∃ before u, s = before ++ u ∧ span.actual = N.front (N.apply old).length u ∧
      span.actual ≠ [] ∧ span.start = Text.byteLength before ∧
      span.stop = Text.byteLength (before ++ span.actual) ∧
      (N.apply u).take (N.apply old).length = N.apply old := by
  obtain ⟨⟨before, after⟩, hfound, rfl⟩ := map_eq_some_iff.mp h
  have happly : (N.apply (N.behind before.length s)).take (N.apply old).length = N.apply old := by
    rw [Sieve.apply_behind, Text.eq_append_of_find? hfound, append_assoc, drop_left,
      take_left]
  refine ⟨N.front before.length s, N.behind before.length s, (N.front_append_behind _ s).symm, rfl,
    Sieve.front_ne_nil (List.length_pos_of_ne_nil hne) ?_, rfl, ?_, happly⟩
  · intro hnil
    rw [hnil, Sieve.apply_nil, take_nil] at happly
    exact hne happly.symm
  · rw [spanAt]
    dsimp only
    rw [Sieve.front_add]

theorem start_lt_stop (hne : N.apply old ≠ []) (h : spanOf N old s = some span) :
    span.start < span.stop := by
  obtain ⟨before, u, -, -, hsome, hstart, hstop, -⟩ := exists_of_spanOf hne h
  have hpos := Text.byteLength_pos hsome
  rw [Text.byteLength_append] at hstop
  omega

theorem SoundMatch.of_span (hoffset : Text.dropBytes startOffset content = some s)
    (hne : N.apply old ≠ []) (h : spanOf N old s = some span)
    (htext : (trimLines span.actual).map straight = (trimLines old).map straight) :
    SoundMatch content old startOffset (span.matchAt startOffset method) := by
  obtain ⟨front, rfl, rfl⟩ := Text.exists_of_dropBytes hoffset
  obtain ⟨before, u, rfl, hactual, hsome, hstart, hstop, -⟩ := exists_of_spanOf hne h
  constructor
  case nonempty => exact Nat.add_lt_add_left (start_lt_stop hne h) _
  case behind => exact Nat.le_add_right _ _
  case within =>
    refine ⟨front ++ before, N.behind (N.apply old).length u, ?_, ?_, ?_⟩
    · simp only [MatchSpan.matchAt, hactual, append_assoc, Sieve.front_append_behind]
    · simp only [MatchSpan.matchAt, hstart, Text.byteLength_append]
    · simp only [MatchSpan.matchAt, hstop, Text.byteLength_append, Nat.add_assoc]
  case text =>
    rw [normalizeQuotes_eq, normalizeQuotes_eq]
    exact htext
  case lines =>
    have hcount := congrArg (List.count '\n') htext
    rwa [count_newline_map, count_newline_map, count_trimLines, count_trimLines] at hcount

theorem straight_straight (c : Char) : straight (straight c) = straight c := by
  by_cases hsingle : c = '\u2018' ∨ c = '\u2019' ∨ c = '\u2032'
  · rcases hsingle with rfl | rfl | rfl <;> decide
  by_cases hdouble : c = '\u201C' ∨ c = '\u201D' ∨ c = '\u2033'
  · rcases hdouble with rfl | rfl | rfl <;> decide
  · have hsame : straight c = c := by
      rw [straight, straightSingle, if_neg hsingle, straightDouble, if_neg hdouble]
    rw [hsame, hsame]

theorem map_straight_of_map (hf : ∀ c, straight (f c) = straight c) {t : Text}
    (h : s.map f = t.map f) : s.map straight = t.map straight := by
  have hmap := congrArg (List.map straight) h
  have hcomp : straight ∘ f = straight := funext hf
  rwa [map_map, map_map, hcomp] at hmap

theorem trimLines_of_all (hf : ∀ c, straight (f c) = straight c) (hne : old ≠ [])
    (h : spanOf (.all f) old s = some span) :
    (trimLines span.actual).map straight = (trimLines old).map straight := by
  have hne' : (Sieve.all f).apply old ≠ [] := by
    rw [Sieve.apply_all]
    simpa using hne
  obtain ⟨before, u, -, hactual, -, -, -, htake⟩ := exists_of_spanOf hne' h
  rw [Sieve.apply_all, Sieve.apply_all, ← map_take, length_map] at htake
  rw [Sieve.front_all, Sieve.apply_all, length_map] at hactual
  rw [← trimLines_map, ← trimLines_map, hactual, map_straight_of_map hf htake]

theorem trimLines_of_stripped (hf : ∀ c, straight (f c) = straight c) (hne : stripped.apply old ≠ [])
    (h : spanOf (stripped.map f) old s = some span) :
    (trimLines span.actual).map straight = (stripped.apply old).map straight := by
  have hne' : (stripped.map f).apply old ≠ [] := by
    rw [Sieve.apply_map]
    simpa using hne
  obtain ⟨before, u, -, hactual, -, -, -, htake⟩ := exists_of_spanOf hne' h
  rw [Sieve.apply_map, Sieve.apply_map, ← map_take, length_map] at htake
  rw [Sieve.front_map, Sieve.apply_map, length_map] at hactual
  have hstraight := map_straight_of_map hf htake
  have hlength := congrArg List.length htake
  rw [length_map, length_map, List.length_take] at hlength
  rw [hactual, trimLines_front (by omega) fun c hc => ?_, hstraight]
  -- the last character corresponds to the last one of the text that is searched
  have hlast := congrArg List.getLast? hstraight
  rw [List.getLast?_map, List.getLast?_map, hc] at hlast
  obtain ⟨d, hd, hcd⟩ := map_eq_some_iff.mp hlast.symm
  rcases solid_of_getLast? hd with hnewline | hsolid
  · exact .inl (straight_eq_newline_iff.mp (hcd.symm.trans (straight_eq_newline_iff.mpr hnewline)))
  · refine .inr ?_
    rw [← isWhitespace_straight, ← hcd, isWhitespace_straight, hsolid]

end Sound

section Chain

variable {s t old : Text}

theorem hasWord_append (h : hasWord s = true) (t : Text) : hasWord (s ++ t) = true := by
  induction s with
  | nil => cases h
  | cons c s ih =>
    by_cases hc : c = '\n'
    · rw [hc] at h
      cases h
    · rw [hasWord_cons hc, or_eq_true] at h
      rw [cons_append, hasWord_cons hc, or_eq_true]
      exact h.imp_right ih

theorem stripped_apply_eq_nil (h : hasWord s = false) (happend : hasWord (s ++ t) = true) :
    stripped.apply s = [] := by
  induction s with
  | nil => rfl
  | cons c s ih =>
    by_cases hc : c = '\n'
    · rw [hc] at happend
      cases happend
    · have hkeep : stripped.keep c s = false := (stripped_keep_of_ne hc s).trans
        ((hasWord_cons hc s).symm.trans h)
      rw [hasWord_cons hc, or_eq_false_iff] at h
      rw [cons_append, hasWord_cons hc, h.1, Bool.false_or] at happend
      rw [Sieve.apply_cons_of_drop hkeep, ih h.2 happend]

theorem stripped_apply_prefix (s t : Text) : stripped.apply s <+: stripped.apply (s ++ t) := by
  induction s with
  | nil => exact List.nil_prefix
  | cons c s ih =>
    rw [cons_append]
    cases hkeep : stripped.keep c s with
    | true =>
      have hkeep' : stripped.keep c (s ++ t) = true := by
        by_cases hc : c = '\n'
        · rw [hc, stripped_keep_newline] at hkeep ⊢
          cases s with
          | nil => cases hkeep
          | cons d s => rfl
        · rw [stripped_keep_of_ne hc, or_eq_true] at hkeep ⊢
          exact hkeep.imp_right fun h => hasWord_append h t
      rw [Sieve.apply_cons_of_keep hkeep, Sieve.apply_cons_of_keep hkeep']
      exact (List.prefix_cons_inj _).mpr ih
    | false =>
      rw [Sieve.apply_cons_of_drop hkeep]
      cases hkeep' : stripped.keep c (s ++ t) with
      | false =>
        rw [Sieve.apply_cons_of_drop hkeep']
        exact ih
      | true =>
        -- then nothing of the rest of the text was kept
        have hnil : stripped.apply s = [] := by
          by_cases hc : c = '\n'
          · rw [hc, stripped_keep_newline, Bool.not_eq_false', List.isEmpty_iff] at hkeep
            rw [hkeep]
            rfl
          · rw [stripped_keep_of_ne hc, or_eq_false_iff] at hkeep
            rw [stripped_keep_of_ne hc, hkeep.1, Bool.false_or] at hkeep'
            exact stripped_apply_eq_nil hkeep.2 hkeep'
        rw [hnil]
        exact List.nil_prefix

theorem stripped_apply_infix (h : s <:+: t) : stripped.apply s <:+: stripped.apply t := by
  obtain ⟨front, back, rfl⟩ := h
  rw [append_assoc]
  exact ( stripped_apply_prefix s back).isInfix.trans
    (Sieve.apply_suffix (List.suffix_append front _)).isInfix

theorem found_both {stage : MatchMethod × Sieve Char Char} (hstage : stage ∈ stages)
    (h : Found stage.2 old s) : Found (stripped.map straight) old s := by
  rw [Found, Sieve.apply_map, Sieve.apply_map]
  simp only [stages, mem_cons, List.not_mem_nil, or_false] at hstage
  rcases hstage with rfl | rfl | rfl | rfl
  · rw [Found, Sieve.apply_all, Sieve.apply_all, map_id, map_id] at h
    exact ( stripped_apply_infix h).map straight
  · exact List.IsInfix.map straight h
  · rw [Found, Sieve.apply_all, Sieve.apply_all] at h
    rw [← stripped_apply_map, ← stripped_apply_map]
    exact stripped_apply_infix h
  · rwa [Found, Sieve.apply_map, Sieve.apply_map] at h

theorem apply_ne_nil {stage : MatchMethod × Sieve Char Char} (hstage : stage ∈ stages)
    (hne : stripped.apply old ≠ []) : stage.2.apply old ≠ [] := by
  have hold : old ≠ [] := by
    rintro rfl
    exact hne rfl
  simp only [stages, mem_cons, List.not_mem_nil, or_false] at hstage
  rcases hstage with rfl | rfl | rfl | rfl
  · rw [Sieve.apply_all]
    simpa using hold
  · exact hne
  · rw [Sieve.apply_all]
    simpa using hold
  · rw [Sieve.apply_map]
    simpa using hne

end Chain

/-- What is behind the last match. A text has no more matches than characters. -/
def behindMatches (N : Sieve Char Char) (old : Text) : Nat → Text → Text
  | 0, s => s
  | fuel + 1, s =>
    match Text.find? (N.apply old) (N.apply s) with
    | some found => behindMatches N old fuel (N.behind (found.1.length + (N.apply old).length) s)
    | none => s

def countingStage (content old : Text) : Option (MatchMethod × Sieve Char Char) :=
  stages.find? fun stage => decide (Found stage.2 old content)

/-- The part of the file behind the last match that is counted. -/
def unmatched (content old : Text) : Text :=
  match countingStage content old with
  | some stage => behindMatches stage.2 old content.length content
  | none => content

section Repeated

variable {stage : MatchMethod × Sieve Char Char} {N : Sieve Char Char} {content old s : Text}
  {startOffset : Nat} {m : FuzzyMatch}

def search (old s : Text) (startOffset : Nat) : Option FuzzyMatch :=
  stages.findSome? fun stage =>
    (spanOf stage.2 old s).map fun span => span.matchAt startOffset stage.1

theorem findMatchFrom_of_dropBytes (h : Text.dropBytes startOffset content = some s) :
    findMatchFrom content old startOffset = search old s startOffset := by
  rw [findMatchFrom_eq, h]
  rfl

theorem dropBytes_front (hoffset : Text.dropBytes startOffset content = some s) (k : Nat) :
    Text.dropBytes (startOffset + Text.byteLength (N.front k s)) content = some (N.behind k s) := by
  obtain ⟨front, rfl, rfl⟩ := Text.exists_of_dropBytes hoffset
  have hdrop := Text.dropBytes_byteLength (front ++ N.front k s) (N.behind k s)
  rwa [Text.byteLength_append, append_assoc, Sieve.front_append_behind] at hdrop

theorem search_eq_none_iff : search old s startOffset = none ↔
    ¬ Found (stripped.map straight) old s := by
  rw [search, List.findSome?_eq_none_iff]
  simp only [Option.map_eq_none_iff, spanOf_eq_none_iff]
  refine ⟨fun h => h (.both, stripped.map straight) ?_, fun h stage hstage hfound =>
    h (found_both hstage hfound)⟩
  simp [stages]

theorem exists_of_search (h : search old s startOffset = some m) :
    ∃ stage ∈ stages, ∃ span, spanOf stage.2 old s = some span ∧
      m = span.matchAt startOffset stage.1 := by
  obtain ⟨stage, hstage, h⟩ := List.exists_of_findSome?_eq_some h
  obtain ⟨span, hspan, rfl⟩ := map_eq_some_iff.mp h
  exact ⟨stage, hstage, span, hspan, rfl⟩

theorem search_of_countingStage (startOffset : Nat)
    (hcounting : countingStage content old = some stage)
    (hsuffix : s <:+ content) {span : MatchSpan} (h : spanOf stage.2 old s = some span) :
    search old s startOffset = some (span.matchAt startOffset stage.1) := by
  obtain ⟨-, earlier, later, hstages, hnot⟩ := List.find?_eq_some_iff_append.mp hcounting
  have hearlier : (earlier.findSome? fun stage =>
      (spanOf stage.2 old s).map fun span => span.matchAt startOffset stage.1) = none := by
    rw [List.findSome?_eq_none_iff]
    intro stage' hmem
    rw [Option.map_eq_none_iff, spanOf_eq_none_iff]
    intro hfound
    have hnot' := hnot stage' hmem
    rw [Bool.not_eq_true', decide_eq_false_iff_not] at hnot'
    exact hnot' (hfound.of_suffix hsuffix)
  rw [search, hstages, List.findSome?_append, hearlier, Option.none_or, findSome?_cons, h]
  rfl

theorem matchRanges_eq (content old : Text) (startOffset : Nat) :
    matchRanges content old startOffset =
      match findMatchFrom content old startOffset with
      | none => .ok []
      | some m =>
        if m.stop ≤ m.start then .error emptyMatch
        else (matchRanges content old m.stop).map ((m.start, m.stop) :: ·) := by
  rw [matchRanges]
  split
  · next h => rw [h]
  · next m h => rw [h]; rfl

theorem matchRanges_ne_nil (hoffset : Text.dropBytes startOffset content = some s)
    (h : Found (stripped.map straight) old s) : matchRanges content old startOffset ≠ .ok [] := by
  rw [matchRanges_eq, findMatchFrom_of_dropBytes hoffset]
  cases hsearch : search old s startOffset with
  | none => exact absurd h (search_eq_none_iff.mp hsearch)
  | some m =>
    dsimp only
    split_ifs
    · exact nofun
    · cases matchRanges content old m.stop with
      | error e => exact nofun
      | ok ranges => exact nofun

/-- **The repeated search** finds as many matches as are counted, and goes on behind them. -/
theorem matchRanges_of_countingStage (hcounting : countingStage content old = some stage)
    (hne : stage.2.apply old ≠ []) {count fuel : Nat} (hfuel : count ≤ fuel)
    (hsuffix : s <:+ content) (hoffset : Text.dropBytes startOffset content = some s)
    (hcount : Text.countMatches (stage.2.apply old) (stage.2.apply s) = count) :
    ∃ ranges offset, ranges.length = count ∧
      Text.dropBytes offset content = some (behindMatches stage.2 old fuel s) ∧
      matchRanges content old startOffset = (matchRanges content old offset).map (ranges ++ ·) := by
  induction count generalizing fuel s startOffset with
  | zero =>
    have hnone : Text.find? (stage.2.apply old) (stage.2.apply s) = none := by
      rwa [Text.find?_eq_none_iff hne, ← Text.countMatches_eq_zero_iff hne]
    refine ⟨[], startOffset, rfl, ?_, ?_⟩
    · cases fuel with
      | zero => exact hoffset
      | succ fuel =>
        rw [behindMatches, hnone]
        exact hoffset
    · cases matchRanges content old startOffset <;> rfl
  | succ count ih =>
    cases fuel with
    | zero => exact absurd hfuel (Nat.not_succ_le_zero count)
    | succ fuel =>
      cases hfound : Text.find? (stage.2.apply old) (stage.2.apply s) with
      | none =>
        rw [Text.find?_eq_none_iff hne, ← Text.countMatches_eq_zero_iff hne, hcount] at hfound
        cases hfound
      | some found =>
        obtain ⟨before, after⟩ := found
        have hspan : spanOf stage.2 old s = some (spanAt stage.2 old s before.length) := by
          rw [spanOf, hfound]
          rfl
        have hlt := start_lt_stop hne hspan
        have hsearch := search_of_countingStage startOffset hcounting hsuffix hspan
        have hrest := dropBytes_front (N := stage.2) hoffset
          (before.length + (stage.2.apply old).length)
        have hcount' : Text.countMatches (stage.2.apply old) (stage.2.apply
            (stage.2.behind (before.length + (stage.2.apply old).length) s)) = count := by
          rw [Sieve.apply_behind, Text.eq_append_of_find? hfound, ← length_append,
            drop_left]
          rw [Text.countMatches_of_find?_eq_some hne hfound] at hcount
          exact Nat.succ.inj hcount
        obtain ⟨ranges, offset, hlength, hbehind, hranges⟩ := ih (Nat.le_of_succ_le_succ hfuel)
          ((Sieve.behind_suffix _ _ s).trans hsuffix) hrest hcount'
        refine ⟨(startOffset + (spanAt stage.2 old s before.length).start,
          startOffset + (spanAt stage.2 old s before.length).stop) :: ranges, offset,
          congrArg (· + 1) hlength, ?_, ?_⟩
        · rwa [behindMatches, hfound]
        · rw [matchRanges_eq, findMatchFrom_of_dropBytes hoffset, hsearch]
          dsimp only
          rw [if_neg (by simp only [MatchSpan.matchAt]; omega)]
          change (matchRanges content old (startOffset + _)).map _ = _
          rw [spanAt, hranges]
          cases matchRanges content old offset <;> rfl

theorem countMatches_of_nonblank (hne : stripped.apply old ≠ []) (content : Text) :
    countMatches content old = ((countingStage content old).map fun stage =>
      (Text.countMatches (stage.2.apply old) (stage.2.apply content), stage.1)).getD (0, .exact) := by
  rw [countMatches_eq, countingStage]
  refine congrArg (Option.getD · (0, MatchMethod.exact)) ?_
  have hcounts : ∀ stage ∈ stages, ∀ t : Text, matchesCount (stage.2.apply old) t =
      Text.countMatches (stage.2.apply old) t := fun stage hstage t => by
    rw [matchesCount, if_neg (by simpa using apply_ne_nil hstage hne)]
  have hfinds : ∀ stage ∈ stages, (0 < Text.countMatches (stage.2.apply old)
      (stage.2.apply content) ↔ Found stage.2 old content) := fun stage hstage => by
    rw [Nat.pos_iff_ne_zero, Ne, Text.countMatches_eq_zero_iff (apply_ne_nil hstage hne), not_not,
      Found]
  generalize stages = list at hcounts hfinds
  induction list with
  | nil => rfl
  | cons stage list ih =>
    rw [findSome?_cons, List.find?_cons, hcounts stage mem_cons_self]
    by_cases hfound : Found stage.2 old content
    · dsimp only
      rw [if_pos ((hfinds stage mem_cons_self).mpr hfound), decide_eq_true hfound]
      rfl
    · dsimp only
      rw [if_neg (mt (hfinds stage mem_cons_self).mp hfound), decide_eq_false hfound]
      exact ih (fun stage hstage => hcounts stage (List.mem_cons_of_mem _ hstage))
        fun stage hstage => hfinds stage (List.mem_cons_of_mem _ hstage)

theorem exists_of_matchRanges (hne : stripped.apply old ≠ []) (content : Text) :
    ∃ ranges offset, ranges.length = (countMatches content old).1 ∧
      Text.dropBytes offset content = some (unmatched content old) ∧
      matchRanges content old 0 = (matchRanges content old offset).map (ranges ++ ·) := by
  rw [countMatches_of_nonblank hne, unmatched]
  cases hcounting : countingStage content old with
  | none =>
    refine ⟨[], 0, rfl, Text.dropBytes_zero content, ?_⟩
    cases matchRanges content old 0 <;> rfl
  | some stage =>
    have hstage : stage ∈ stages := List.mem_of_find?_eq_some hcounting
    refine matchRanges_of_countingStage hcounting (apply_ne_nil hstage hne) ?_ List.suffix_rfl
      (Text.dropBytes_zero content) rfl
    exact (Text.countMatches_le_length _ _).trans (Sieve.length_apply_le _ content)

end Repeated

def KeepsWhitespace (old s : Text) : Prop :=
  Found (.all id) old s ∨ (Found (.all straight) old s ∧ ¬ Found stripped old s)

instance (old s : Text) : Decidable (KeepsWhitespace old s) :=
  inferInstanceAs (Decidable (_ ∨ _))

/-- Every match is sound, and the repeated search finds as many as are counted. -/
structure MatchesFaithfully (content old : Text) : Prop where
  sound : ∀ startOffset m, findMatchFrom content old startOffset = some m →
    SoundMatch content old startOffset m
  complete : ∃ ranges, matchRanges content old 0 = .ok ranges ∧
    ranges.length = (countMatches content old).1

/-- The text is not blank, no normalization finds its line end elsewhere first, and nothing is found
behind the counted matches. -/
structure Unambiguous (content old : Text) : Prop where
  nonblank : stripTrailingWhitespace old ≠ []
  lastLine : old.getLast? = some '\n' → ∀ t, t <:+ content →
    Found (stripped.map straight) old t → KeepsWhitespace old t
  exhausted : ¬ Found (stripped.map straight) old (unmatched content old)

section Faithful

variable {content old s : Text} {startOffset : Nat} {m : FuzzyMatch}

theorem search_cases (h : search old s startOffset = some m) :
    ∃ f, (∀ c, straight (f c) = straight c) ∧ ∃ span, m = span.matchAt startOffset m.method ∧
      ((KeepsWhitespace old s ∧ spanOf (.all f) old s = some span) ∨
        (¬ KeepsWhitespace old s ∧ spanOf (stripped.map f) old s = some span)) := by
  simp only [search, stages, findSome?_cons, findSome?_nil] at h
  cases hexact : spanOf (.all id) old s with
  | some span =>
    have hfound : Found (.all id) old s := by
      rw [← spanOf_isSome_iff, hexact]
      rfl
    rw [hexact] at h
    cases h
    exact ⟨id, fun _ => rfl, span, rfl, .inl ⟨.inl hfound, hexact⟩⟩
  | none =>
    have hnotExact := spanOf_eq_none_iff.mp hexact
    rw [hexact] at h
    cases hstripped : spanOf stripped old s with
    | some span =>
      have hfound : Found stripped old s := by
        rw [← spanOf_isSome_iff, hstripped]
        rfl
      rw [hstripped] at h
      cases h
      refine ⟨id, fun _ => rfl, span, rfl, .inr ⟨?_, hstripped⟩⟩
      rintro (hexact | ⟨-, hnot⟩)
      · exact hnotExact hexact
      · exact hnot hfound
    | none =>
      have hnotStripped := spanOf_eq_none_iff.mp hstripped
      rw [hstripped] at h
      cases hquotes : spanOf (.all straight) old s with
      | some span =>
        have hfound : Found (.all straight) old s := by
          rw [← spanOf_isSome_iff, hquotes]
          rfl
        rw [hquotes] at h
        cases h
        exact ⟨straight, straight_straight, span, rfl, .inl ⟨.inr ⟨hfound, hnotStripped⟩, hquotes⟩⟩
      | none =>
        have hnotQuotes := spanOf_eq_none_iff.mp hquotes
        rw [hquotes] at h
        cases hboth : spanOf (stripped.map straight) old s with
        | some span =>
          rw [hboth] at h
          cases h
          refine ⟨straight, straight_straight, span, rfl, .inr ⟨?_, hboth⟩⟩
          rintro (hexact | ⟨hquotes, -⟩)
          · exact hnotExact hexact
          · exact hnotQuotes hquotes
        | none =>
          rw [hboth] at h
          cases h

theorem not_sound_of_blank (content : Text) (hblank : stripped.apply old = []) :
    ∃ m, findMatchFrom content old (Text.byteLength content) = some m ∧
      ¬ SoundMatch content old (Text.byteLength content) m := by
  have hoffset : Text.dropBytes (Text.byteLength content) content = some [] := by
    have hdrop := Text.dropBytes_byteLength content []
    rwa [append_nil] at hdrop
  have hfound : Found (stripped.map straight) old [] := by
    rw [Found, Sieve.apply_map, hblank]
    exact List.infix_rfl
  rw [findMatchFrom_of_dropBytes hoffset]
  cases hsearch : search old [] (Text.byteLength content) with
  | none => exact absurd hfound (search_eq_none_iff.mp hsearch)
  | some m =>
    refine ⟨m, rfl, fun hsound => ?_⟩
    obtain ⟨before, after, hcontent, -, hstop⟩ := hsound.within
    have hlength : Text.byteLength content = m.stop + Text.byteLength after := by
      rw [hstop, ← Text.byteLength_append, ← hcontent]
    have hnonempty := hsound.nonempty
    have hbehind := hsound.behind
    omega

theorem soundMatch_iff (hne : stripped.apply old ≠ [])
    (hoffset : Text.dropBytes startOffset content = some s)
    (h : search old s startOffset = some m) : SoundMatch content old startOffset m ↔
      (old.getLast? = some '\n' → KeepsWhitespace old s) := by
  obtain ⟨f, hf, span, hm, ⟨hkeeps, hspan⟩ | ⟨hdrops, hspan⟩⟩ := search_cases h
  · have hold : old ≠ [] := by
      rintro rfl
      exact hne rfl
    have hne' : (Sieve.all f).apply old ≠ [] := by
      rw [Sieve.apply_all]
      simpa using hold
    rw [hm]
    exact iff_of_true (.of_span hoffset hne' hspan (trimLines_of_all hf hold hspan)) fun _ => hkeeps
  · have hne' : (stripped.map f).apply old ≠ [] := by
      rw [Sieve.apply_map]
      simpa using hne
    have hlines := trimLines_of_stripped hf hne hspan
    by_cases hlast : old.getLast? = some '\n'
    · -- the match lacks the line end
      refine iff_of_false (fun hsound => ?_) fun hkeeps => hdrops (hkeeps hlast)
      have hcount := congrArg (List.count '\n') hlines
      have hsame : span.actual.count '\n' = old.count '\n' := by
        have hlines' := hsound.lines
        rwa [hm] at hlines'
      rw [count_newline_map, count_newline_map, count_trimLines, hsame, ← count_trimLines old,
        trimLines_eq, if_pos hlast, List.count_append] at hcount
      exact absurd hcount (Nat.succ_ne_self _)
    · rw [hm]
      refine iff_of_true (.of_span hoffset hne' hspan ?_) fun hnewline => absurd hnewline hlast
      rw [hlines, trimLines_eq, if_neg hlast, append_nil]

theorem complete_iff (hne : stripped.apply old ≠ []) :
    (∃ ranges, matchRanges content old 0 = .ok ranges ∧
      ranges.length = (countMatches content old).1) ↔
    ¬ Found (stripped.map straight) old (unmatched content old) := by
  obtain ⟨ranges, offset, hlength, hoffset, hranges⟩ := exists_of_matchRanges hne content
  constructor
  · rintro ⟨all, hall, hcount⟩ hfound
    have hsome := matchRanges_ne_nil hoffset hfound
    rw [hranges] at hall
    cases hrest : matchRanges content old offset with
    | error e =>
      rw [hrest] at hall
      cases hall
    | ok rest =>
      rw [hrest] at hall hsome
      cases hall
      rw [length_append, hlength, Nat.add_eq_left, List.length_eq_zero_iff] at hcount
      exact hsome (congrArg Except.ok hcount)
  · intro hexhausted
    refine ⟨ranges, ?_, hlength⟩
    rw [hranges, matchRanges_eq, findMatchFrom_of_dropBytes hoffset,
      search_eq_none_iff.mpr hexhausted]
    exact congrArg Except.ok (append_nil ranges)

/-- **Fuzzy matching** is faithful exactly where the text is unambiguous. -/
theorem matchesFaithfully_iff (hold : old ≠ []) :
    MatchesFaithfully content old ↔ Unambiguous content old := by
  by_cases hblank : stripped.apply old = []
  · refine iff_of_false (fun hfaithful => ?_) fun hplain => ?_
    · obtain ⟨m, hfound, hnot⟩ := not_sound_of_blank content hblank
      exact hnot (hfaithful.sound _ m hfound)
    · exact hplain.nonblank ((stripTrailingWhitespace_eq old).trans hblank)
  constructor
  · intro hfaithful
    constructor
    case nonblank => rwa [stripTrailingWhitespace_eq]
    case lastLine =>
      rintro hlast t ⟨front, rfl⟩ hfound
      have hdrop := Text.dropBytes_byteLength front t
      cases hsearch : search old t (Text.byteLength front) with
      | none => exact absurd hfound (search_eq_none_iff.mp hsearch)
      | some m =>
        refine (soundMatch_iff hblank hdrop hsearch).mp (hfaithful.sound _ m ?_) hlast
        rw [findMatchFrom_of_dropBytes hdrop, hsearch]
    case exhausted => exact (complete_iff hblank).mp hfaithful.complete
  · intro hplain
    constructor
    case sound =>
      intro startOffset m hfound
      obtain ⟨s, hdrop, -⟩ := dropBytes_of_findMatchFrom hfound
      obtain ⟨front, rfl, -⟩ := Text.exists_of_dropBytes hdrop
      rw [findMatchFrom_of_dropBytes hdrop] at hfound
      refine (soundMatch_iff hblank hdrop hfound).mpr fun hlast =>
        hplain.lastLine hlast s (List.suffix_append front s) ?_
      by_contra hnot
      rw [search_eq_none_iff.mpr hnot] at hfound
      cases hfound
    case complete => exact (complete_iff hblank).mpr hplain.exhausted

/-- Two lines with a curly quote and white space, searched with neither. -/
theorem curly_matchesFaithfully : MatchesFaithfully "it\u2019s \nhere\n".toList "it's\nhere".toList :=
  (matchesFaithfully_iff (by decide)).mpr
    ⟨by decide, fun hlast => absurd hlast (by decide), by decide⟩

/-- One match is counted as it stands, and the repeated search finds also a curly one. -/
theorem straight_not_matchesFaithfully :
    ¬ MatchesFaithfully "it's\nit\u2019s".toList "it's".toList := fun hfaithful =>
  (complete_iff (by decide)).mp hfaithful.complete (by decide)

end Faithful

end IronClaw.Files
