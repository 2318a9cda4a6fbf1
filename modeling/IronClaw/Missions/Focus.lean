import IronClaw.Missions.Outcome
import IronClaw.Missions.RoundTrip

/-!
# The next focus of a response

The marker is found in the response in lower case, and the response is cut at the same byte. That is
right if what comes before takes as many bytes in lower case.
-/

namespace IronClaw.Missions

open Foundation (Text)
open Foundation.Text (byteLength find? toAsciiLowercase dropBytes Absent)
open List (append_assoc drop_left length_map take_left)
open Option (map_eq_some_iff map_some)

/-- What precedes and what follows the first focus marker of a text, in any case of its letters. -/
def focusSplit (text : Text) : Option (Text × Text) :=
  (find? focusMarker (toAsciiLowercase text)).map fun found =>
    (text.take found.1.length, text.drop (found.1.length + focusMarker.length))

/-- The focus of a text is the rest of the line behind its marker, and nothing breaks off. -/
def FocusRight (libs : Libraries) (text : Text) : Prop :=
  nextFocus (libs.toLowercase text) text =
    some ((focusSplit text).bind fun parts => focusLine parts.2)

/-- A text in lower case, where each character takes as many bytes wherever it stands. -/
structure LowercasesWide (width : Char → Nat) (lower : Text → Text) : Prop where
  pieces : ∀ s, ∃ ps : List Text, lower s = ps.flatten ∧
    List.Forall₂ (fun c p => LowercasePiece c p ∧ byteLength p = width c) s ps

section Focus

variable {libs : Libraries} {width : Char → Nat} {s before marker after w : Text} {ps : List Text}

theorem LowercasesWide.byteLength (h : LowercasesWide width libs.toLowercase) (s : Text) :
    byteLength (libs.toLowercase s) = (s.map width).sum := by
  obtain ⟨ps, hlower, hps⟩ := h.pieces s
  rw [hlower]
  clear hlower
  induction hps with
  | nil => rfl
  | cons hpiece _ ih =>
    rw [List.flatten_cons, Foundation.Text.byteLength_append, ih, hpiece.2, List.map_cons,
      List.sum_cons]

theorem prefix_flatten_iff (hw : isPlain w = true) (hk : 'k' ∉ w)
    (hps : List.Forall₂ LowercasePiece s ps) : w <+: ps.flatten ↔ w <+: toAsciiLowercase s := by
  constructor
  · intro h
    obtain ⟨front, rest, rfl, hfront⟩ := exists_spells hw hps h
    exact ⟨toAsciiLowercase rest, by
      rw [← toAsciiLowercase_of_spells hfront hk, toAsciiLowercase, toAsciiLowercase,
        toAsciiLowercase, List.map_append]⟩
  · rintro ⟨t, ht⟩
    obtain ⟨front, rest, rfl, hfront, -⟩ := List.map_eq_append_iff.mp ht.symm
    exact prefix_of_spells (spells_of_toAsciiLowercase hfront hw) hps

theorem absent_of_piece {c : Char} {p rest : Text} (hp : LowercasePiece c p)
    (hnot : ¬ focusMarker <+: p ++ rest) : Absent focusMarker p rest := by
  rw [LowercasePiece] at hp
  split_ifs at hp
  · subst hp
    exact ⟨hnot, trivial⟩
  · subst hp
    exact ⟨hnot, trivial⟩
  · subst hp
    exact Foundation.Text.absent_of_not_mem (by decide) rest
  · refine Foundation.Text.absent_of_not_mem (fun hmem => ?_) rest
    exact absurd (hp.2 _ hmem) (by decide)

theorem byteLength_find? (hps : List.Forall₂
      (fun c p => LowercasePiece c p ∧ byteLength p = width c) s ps) :
    (find? focusMarker ps.flatten).map (fun found => byteLength found.1) =
      (find? focusMarker (toAsciiLowercase s)).map fun found =>
        ((s.take found.1.length).map width).sum := by
  induction hps with
  | nil => rfl
  | @cons c p s ps hpiece hps ih =>
    have hiff : focusMarker <+: (p :: ps).flatten ↔ focusMarker <+: toAsciiLowercase (c :: s) :=
      prefix_flatten_iff (by decide) (by decide)
        (.cons hpiece.1 (hps.imp fun _ _ hpiece => hpiece.1))
    by_cases hmarker : focusMarker <+: (p :: ps).flatten
    · obtain ⟨t, ht⟩ := hmarker
      obtain ⟨u, hu⟩ := hiff.mp ⟨t, ht⟩
      rw [← ht, ← hu, Foundation.Text.find?_pattern (by decide),
        Foundation.Text.find?_pattern (by decide)]
      rfl
    · have hlower : find? focusMarker (toAsciiLowercase (c :: s)) =
          (find? focusMarker (toAsciiLowercase s)).map fun found => (c.toLower :: found.1, found.2) :=
        Foundation.Text.find?_cons_of_not_prefix (mt hiff.mpr hmarker)
      rw [hlower, List.flatten_cons, (absent_of_piece hpiece.1 hmarker).find?]
      have hshift := congrArg (Option.map (width c + ·)) ih
      simpa [Option.map_map, Function.comp_def, Foundation.Text.byteLength_append, hpiece.2]
        using hshift

theorem focusSplit_eq_some (h : focusSplit s = some (before, after)) :
    find? focusMarker (toAsciiLowercase s) =
      some (toAsciiLowercase before, toAsciiLowercase after) ∧
    ∃ marker, s = before ++ (marker ++ after) ∧ toAsciiLowercase marker = focusMarker := by
  obtain ⟨⟨b, a⟩, hfind, heq⟩ := map_eq_some_iff.mp h
  cases heq
  have hs := Foundation.Text.eq_append_of_find? hfind
  rw [append_assoc] at hs
  obtain ⟨before, rest, rfl, rfl, hrest⟩ := List.map_eq_append_iff.mp hs
  obtain ⟨marker, after, rfl, hmarker, rfl⟩ := List.map_eq_append_iff.mp hrest
  have hlength : marker.length = focusMarker.length := by rw [← hmarker, length_map]
  rw [length_map, take_left, ← hlength, ← List.drop_drop, drop_left, drop_left]
  exact ⟨hfind, marker, rfl, hmarker⟩

theorem byteLength_marker (h : toAsciiLowercase marker = focusMarker) :
    byteLength marker = byteLength focusMarker := by
  have hascii : ∀ c ∈ marker, c.toNat < 128 :=
    ascii_of_spells (spells_of_toAsciiLowercase h (by decide)) (by decide)
  rw [Foundation.Text.byteLength_of_ascii hascii, ← length_map (f := Char.toLower)]
  exact congrArg List.length h

theorem focusSplit_append (hsplit : focusSplit (before ++ marker) = some (before, []))
    (after : Text) : focusSplit (before ++ (marker ++ after)) = some (before, after) := by
  obtain ⟨hfind, marker', heq, hmarker⟩ := focusSplit_eq_some hsplit
  obtain rfl : marker = marker' := by simpa using heq
  have habsent := ((Foundation.Text.find?_eq_some_iff (by decide)).mp hfind).2
  have hfound : find? focusMarker (toAsciiLowercase (before ++ (marker ++ after))) =
      some (toAsciiLowercase before, toAsciiLowercase after) := by
    refine (Foundation.Text.find?_eq_some_iff (by decide)).mpr
      ⟨?_, (Foundation.Text.absent_congr _ _).mp habsent⟩
    rw [← hmarker]
    simp [toAsciiLowercase]
  have hlength : focusMarker.length = marker.length := by
    rw [← hmarker, toAsciiLowercase, length_map]
  rw [focusSplit, hfound, map_some, toAsciiLowercase, length_map, take_left,
    hlength, ← List.drop_drop, drop_left, drop_left]

theorem mem_dropWhile {p : Char → Bool} {c : Char} (h : c ∈ s) (hc : p c = false) :
    c ∈ s.dropWhile p := by
  induction s with
  | nil => exact h
  | cons d s ih =>
    rw [List.dropWhile_cons]
    split_ifs with hd
    · exact ih ((List.mem_cons.mp h).resolve_left fun heq => by simp [← heq, hc] at hd)
    · exact h

theorem mem_trim {c : Char} (h : c ∈ s) (hc : Text.isWhitespace c = false) : c ∈ s.trim :=
  List.mem_reverse.mpr (mem_dropWhile (List.mem_reverse.mpr (mem_dropWhile h hc)) hc)

theorem trim_of_focusLine {line : Text} (h : focusLine s = some line) :
    Text.trim (s.takeWhile fun c => c != '\n') = line := by
  unfold focusLine at h
  dsimp only at h
  split_ifs at h
  exact Option.some.inj h

theorem not_focusLine_append (hcolon : ':' ∈ s)
    (h : ∀ c, c = 'x' ∨ c = 'y' → focusLine (s ++ [c]) = some [c]) : False := by
  have hx := trim_of_focusLine (h 'x' (.inl rfl))
  have hy := trim_of_focusLine (h 'y' (.inr rfl))
  rw [List.takeWhile_append] at hx hy
  split_ifs at hx hy
  · have hmem := mem_trim (List.mem_append_left [('x' : Char)] hcolon) (by decide)
    rw [show List.takeWhile (fun c => c != '\n') ['x'] = ['x'] from rfl] at hx
    rw [hx] at hmem
    exact absurd hmem (by decide)
  · rw [hx] at hy
    exact absurd hy (by decide)

theorem colon_mem_marker (h : toAsciiLowercase marker = focusMarker) {front rest : Text}
    (heq : before ++ marker = front ++ rest) (hne : rest ≠ []) : ':' ∈ rest := by
  have hlast : (marker.map Char.toLower).getLast? = some ':' := by
    rw [show marker.map Char.toLower = focusMarker from h]
    decide
  rw [List.getLast?_map] at hlast
  obtain ⟨c, hc, hlower⟩ := map_eq_some_iff.mp hlast
  obtain rfl := Foundation.Text.eq_of_toLower (by decide) hlower
  have hends := congrArg List.getLast? heq
  rw [List.getLast?_append, List.getLast?_append, hc, List.getLast?_eq_some_getLast hne] at hends
  exact List.mem_of_getLast? (by rw [List.getLast?_eq_some_getLast hne]; exact hends.symm)

variable (h : LowercasesWide width libs.toLowercase)

include h

theorem nextFocus_eq (hsplit : focusSplit s = some (before, after)) :
    nextFocus (libs.toLowercase s) s =
      (dropBytes (byteLength (libs.toLowercase before) + byteLength focusMarker) s).map
        focusLine := by
  obtain ⟨ps, hlower, hps⟩ := h.pieces s
  obtain ⟨hfind, marker, rfl, -⟩ := focusSplit_eq_some hsplit
  have hposition := byteLength_find? hps
  rw [hfind, map_some, ← hlower] at hposition
  obtain ⟨found, hfound, hlength⟩ := map_eq_some_iff.mp hposition
  rw [nextFocus, hfound, h.byteLength]
  simp only [hlength, toAsciiLowercase, length_map, take_left]

theorem nextFocus_eq_none (hsplit : focusSplit s = none) :
    nextFocus (libs.toLowercase s) s = some none := by
  obtain ⟨ps, hlower, hps⟩ := h.pieces s
  have hposition := byteLength_find? hps
  rw [Option.map_eq_none_iff.mp hsplit, Option.map_none, Option.map_eq_none_iff, ← hlower]
    at hposition
  rw [nextFocus, hposition]

theorem focusRight_of_byteLength (hlength : ∀ before after, focusSplit s = some (before, after) →
    byteLength (libs.toLowercase before) = byteLength before) : FocusRight libs s := by
  unfold FocusRight
  cases hsplit : focusSplit s with
  | none => exact nextFocus_eq_none h hsplit
  | some parts =>
    obtain ⟨before, after⟩ := parts
    obtain ⟨-, marker, hs, hmarker⟩ := focusSplit_eq_some hsplit
    rw [nextFocus_eq h hsplit, hlength before after hsplit, hs,
      Foundation.Text.dropBytes_append, ← byteLength_marker hmarker,
      Foundation.Text.dropBytes_byteLength]
    rfl

theorem byteLength_of_focusRight (hsplit : focusSplit (before ++ marker) = some (before, []))
    (hright : ∀ after, FocusRight libs (before ++ (marker ++ after))) :
    byteLength (libs.toLowercase before) = byteLength before := by
  have hdrop : ∀ after, (dropBytes (byteLength (libs.toLowercase before) +
      byteLength focusMarker) (before ++ (marker ++ after))).map focusLine =
        some (focusLine after) := by
    intro after
    have hfocus := hright after
    rw [FocusRight, nextFocus_eq h (focusSplit_append hsplit after),
      focusSplit_append hsplit after] at hfocus
    exact hfocus
  obtain ⟨-, marker', heq, hmarker⟩ := focusSplit_eq_some hsplit
  obtain rfl : marker = marker' := by simpa using heq
  -- the cut is within the text even where it ends with the marker
  obtain ⟨rest, hrest, -⟩ := map_eq_some_iff.mp (hdrop [])
  rw [List.append_nil] at hrest
  obtain ⟨front, hfront, hlength⟩ := Foundation.Text.exists_of_dropBytes hrest
  have htotal := congrArg byteLength hfront
  rw [Foundation.Text.byteLength_append, Foundation.Text.byteLength_append,
    byteLength_marker hmarker] at htotal
  by_cases hne : rest = []
  · rw [hne, Foundation.Text.byteLength_nil] at htotal
    omega
  · refine (not_focusLine_append (colon_mem_marker hmarker hfront hne) fun c hc => ?_).elim
    have hcut := hdrop [c]
    rw [← append_assoc, hfront, append_assoc, hlength,
      Foundation.Text.dropBytes_byteLength, map_some] at hcut
    rw [Option.some.inj hcut]
    rcases hc with rfl | rfl <;> rfl

end Focus

/-- **The next focus is the rest of its line** where the text before takes as many bytes in lower
case, and else not for every text. -/
theorem nextFocus_exact {libs : Libraries} {width : Char → Nat}
    (h : LowercasesWide width libs.toLowercase) :
    (∀ text, (∀ before after, focusSplit text = some (before, after) →
      byteLength (libs.toLowercase before) = byteLength before) → FocusRight libs text) ∧
    ∀ before marker, focusSplit (before ++ marker) = some (before, []) →
      ((∀ after, FocusRight libs (before ++ (marker ++ after))) ↔
        byteLength (libs.toLowercase before) = byteLength before) := by
  refine ⟨fun text => focusRight_of_byteLength h, fun before marker hsplit =>
    ⟨byteLength_of_focusRight h hsplit, fun hlength after => focusRight_of_byteLength h ?_⟩⟩
  intro before' after' hsplit'
  rw [focusSplit_append hsplit after] at hsplit'
  cases hsplit'
  exact hlength

theorem lowercasesWide_plainLibs :
    LowercasesWide (fun c => byteLength (lowercasePiece c)) plainLibs.toLowercase := by
  refine ⟨fun s => ⟨s.map lowercasePiece, rfl, ?_⟩⟩
  rw [List.forall₂_map_right_iff]
  exact List.forall₂_same.mpr fun c _ => ⟨lowercasePiece_spec c, rfl⟩

theorem focusRight_plain : FocusRight plainLibs "Done.\nNext Focus: tests ".toList := by
  refine (nextFocus_exact lowercasesWide_plainLibs).1 _ fun before after h => ?_
  obtain ⟨rfl, -⟩ := Prod.mk.inj (Option.some.inj (h.symm.trans (by decide :
    focusSplit "Done.\nNext Focus: tests ".toList = some ("Done.\n".toList, " tests ".toList))))
  decide

/-- The cut behind a marker that follows a dotted capital `I` is behind the end. -/
theorem not_focusRight_dotted : LowercasesWide (fun c => byteLength (lowercasePiece c))
      plainLibs.toLowercase ∧ focusSplit (dottedI :: "next focus:".toList) = some ([dottedI], []) ∧
    nextFocus (plainLibs.toLowercase (dottedI :: "next focus:".toList))
      (dottedI :: "next focus:".toList) = none :=
  ⟨lowercasesWide_plainLibs, by decide, by decide⟩

end IronClaw.Missions
