import IronClaw.Foundation.Finding
import IronClaw.Memory.Operations

/-!
# Merging the profile into what the user wrote

A merge replaces the block of the profile in `USER.md`, or appends one. An end marker in the profile
breaks this, and so does a begin marker that nothing ends. What looks like the template is replaced
as a whole.
-/

namespace IronClaw.Memory

open Foundation (Text)
open Foundation.Text (Absent occurrences splitOn)
open List (append_assoc append_nil cons_append length_append length_cons nil_append suffix_append)

def dropTrailing (pieces : List Text) : List Text :=
  if pieces.getLast? = some [] then pieces.dropLast else pieces

def textLines (s : Text) : List Text := dropTrailing (splitOn '\n' s)

def outsideLines (e : Text) : List Text :=
  match profileSection? e with
  | none => textLines e
  | some (before, after) => (splitOn '\n' before).dropLast ++ (textLines after).drop 1

def trimEnd (s : Text) : Text := Text.trimEndMatches Text.isWhitespace s

def lostLines (e : Text) : List Text :=
  let kept := splitOn '\n' (trimEnd e)
  let rest := (textLines e).drop (kept.length - 1)
  if rest.head? = kept.getLast? then rest.tail else rest

def autoGeneratedHeader : Text := "<!-- Auto-generated from context/profile.json".toList

/-- Merging twice is merging the second profile alone, its block once and the lines outside in
order. -/
structure MergesWell (e c₁ c₂ : Text) : Prop where
  again : mergeProfileSection (mergeProfileSection e c₁) c₂ = mergeProfileSection e c₂
  once : occurrences (wrapProfileSection c₂) (mergeProfileSection e c₂) = 1
  kept : (outsideLines e).Sublist (textLines (mergeProfileSection e c₂))

/-- The first profile has no end marker, the second's block does not begin again behind it, and only
its lines are lost. -/
def KeepsMarkers (e c₁ c₂ : Text) : Prop :=
  ¬ profileSectionEnd <:+: c₁ ∧
    match profileSection? e with
    | some (_, after) => ¬ wrapProfileSection c₂ <:+: (wrapProfileSection c₂ ++ after).tail
    | none =>
      if isSeedTemplate e = true ∨ trimEnd e = [] then
        (textLines e).Sublist (textLines (wrapProfileSection c₂))
      else ¬ profileSectionBegin <:+: e ∧ (lostLines e).Sublist
        ([] :: textLines (wrapProfileSection c₂))

instance (e c₁ c₂ : Text) : Decidable (KeepsMarkers e c₁ c₂) :=
  match h : profileSection? e with
  | some (_, after) => decidable_of_iff (¬ profileSectionEnd <:+: c₁ ∧
      ¬ wrapProfileSection c₂ <:+: (wrapProfileSection c₂ ++ after).tail) (by rw [KeepsMarkers, h])
  | none => decidable_of_iff (¬ profileSectionEnd <:+: c₁ ∧
      if isSeedTemplate e = true ∨ trimEnd e = [] then
        (textLines e).Sublist (textLines (wrapProfileSection c₂))
      else ¬ profileSectionBegin <:+: e ∧ (lostLines e).Sublist
        ([] :: textLines (wrapProfileSection c₂))) (by rw [KeepsMarkers, h])

section Markers

variable {before after e c c₁ c₂ mid : Text}

theorem profileSectionBegin_ne_nil : profileSectionBegin ≠ [] := by decide

theorem profileSectionEnd_ne_nil : profileSectionEnd ≠ [] := by decide

theorem newline_not_mem_begin : '\n' ∉ profileSectionBegin := by decide

theorem newline_not_mem_end : '\n' ∉ profileSectionEnd := by decide

theorem absent_end_begin (rest : Text) : Absent profileSectionEnd profileSectionBegin rest := by
  have hopening : profileSectionBegin = '<' :: ("!-- ".toList ++ 'B' ::
      "EGIN:profile-sync -->".toList) := by decide
  have hending : profileSectionEnd = '<' :: ("!-- ".toList ++ 'E' ::
      "ND:profile-sync -->".toList) := by decide
  rw [hopening, hending]
  refine ⟨fun h => ?_, Foundation.Text.absent_of_not_mem (by decide) rest⟩
  -- the markers differ behind what both of them begin with
  rw [List.cons_prefix_cons, append_assoc, List.prefix_append_right_inj, cons_append,
    List.cons_prefix_cons] at h
  exact absurd h.2.1 (by decide)

theorem profileSection?_eq_some_iff : profileSection? e = some (before, after) ↔
    ∃ mid, e = before ++ profileSectionBegin ++ (mid ++ profileSectionEnd ++ after) ∧
      Absent profileSectionBegin before profileSectionBegin ∧
      Absent profileSectionEnd mid profileSectionEnd := by
  rw [profileSection?]
  constructor
  · intro h
    split at h
    · cases h
    · next front rest hbegin =>
      rw [(absent_end_begin rest).find?, Option.map_map] at h
      obtain ⟨⟨mid, after'⟩, hend, heq⟩ := Option.map_eq_some_iff.mp h
      cases heq
      obtain ⟨he, hfirst⟩ := (Text.find?_eq_some_iff profileSectionBegin_ne_nil).mp hbegin
      obtain ⟨hrest, hnext⟩ := (Text.find?_eq_some_iff profileSectionEnd_ne_nil).mp hend
      rw [hrest] at he
      refine ⟨mid, he, ?_, ?_⟩
      · simpa using (Text.absent_congr rest []).mp hfirst
      · simpa using (Text.absent_congr _ []).mp hnext
  · rintro ⟨mid, rfl, hfirst, hnext⟩
    have hbegin := (Text.find?_eq_some_iff (s := before ++ profileSectionBegin ++
      (mid ++ profileSectionEnd ++ after)) profileSectionBegin_ne_nil).mpr ⟨rfl, by
        simpa using (Text.absent_congr [] (mid ++ profileSectionEnd ++ after)).mp (by simpa using hfirst)⟩
    have hend := (Text.find?_eq_some_iff (s := mid ++ profileSectionEnd ++ after)
      profileSectionEnd_ne_nil).mpr ⟨rfl, by
        simpa using (Text.absent_congr [] after).mp (by simpa using hnext)⟩
    rw [hbegin]
    dsimp only
    rw [(absent_end_begin _).find?, hend]
    rfl

theorem not_infix_of_profileSection?_eq_none {rest : Text}
    (h : profileSection? (before ++ profileSectionBegin ++ rest) = none)
    (hfirst : Absent profileSectionBegin before profileSectionBegin) :
    ¬ profileSectionEnd <:+: rest := by
  rw [← Text.find?_eq_none_iff profileSectionEnd_ne_nil, Option.eq_none_iff_forall_ne_some]
  rintro ⟨mid, after⟩ hfound
  obtain ⟨rfl, hnext⟩ := (Text.find?_eq_some_iff profileSectionEnd_ne_nil).mp hfound
  have hsome : profileSection? (before ++ profileSectionBegin ++
      (mid ++ profileSectionEnd ++ after)) = some (before, after) :=
    profileSection?_eq_some_iff.mpr ⟨mid, rfl, hfirst, by
      simpa using (Text.absent_congr after []).mp hnext⟩
  rw [h] at hsome
  cases hsome

theorem mergeProfileSection_of_section (h : profileSection? e = some (before, after)) (c : Text) :
    mergeProfileSection e c = before ++ wrapProfileSection c ++ after := by
  rw [mergeProfileSection, h]

theorem wrapProfileSection_append (c after : Text) : wrapProfileSection c ++ after =
    profileSectionBegin ++ ('\n' :: (c ++ ['\n']) ++ profileSectionEnd ++ after) := by
  simp [wrapProfileSection]

theorem section_of_infix (hfirst : Absent profileSectionBegin before profileSectionBegin)
    (hinside : profileSectionEnd <:+: c) (after : Text) : ∃ rest,
      profileSection? (before ++ wrapProfileSection c ++ after) =
        some (before, rest ++ '\n' :: (profileSectionEnd ++ after)) := by
  cases hfound : Text.find? profileSectionEnd c with
  | none => exact absurd hinside ((Text.find?_eq_none_iff profileSectionEnd_ne_nil).mp hfound)
  | some p =>
    obtain ⟨mid, rest⟩ := p
    obtain ⟨hc, hnext⟩ := (Text.find?_eq_some_iff profileSectionEnd_ne_nil).mp hfound
    refine ⟨rest, profileSection?_eq_some_iff.mpr ⟨'\n' :: mid, ?_, hfirst, ?_⟩⟩
    · simp [wrapProfileSection, hc]
    · rw [Text.absent_cons_of_not_mem newline_not_mem_end profileSectionEnd_ne_nil]
      simpa using (Text.absent_congr rest []).mp hnext

/-- **The block is found again** if the profile does not contain the end marker. -/
theorem merge_wrapped_iff (hfirst : Absent profileSectionBegin before profileSectionBegin)
    (c₁ c₂ after : Text) : mergeProfileSection (before ++ wrapProfileSection c₁ ++ after) c₂ =
      before ++ wrapProfileSection c₂ ++ after ↔ ¬ profileSectionEnd <:+: c₁ := by
  by_cases hinside : profileSectionEnd <:+: c₁
  · obtain ⟨rest, hrest⟩ := section_of_infix hfirst hinside after
    rw [mergeProfileSection_of_section hrest]
    refine iff_of_false (fun h => ?_) (not_not.mpr hinside)
    have hlength := congrArg List.length h
    simp only [length_append, length_cons] at hlength
    omega
  · have hsection : profileSection? (before ++ wrapProfileSection c₁ ++ after) =
        some (before, after) := by
      refine profileSection?_eq_some_iff.mpr ⟨'\n' :: (c₁ ++ ['\n']), ?_, hfirst, ?_⟩
      · rw [append_assoc, wrapProfileSection_append, ← append_assoc]
      · rwa [Text.absent_cons_of_not_mem newline_not_mem_end profileSectionEnd_ne_nil,
          Text.absent_snoc_iff newline_not_mem_end profileSectionEnd_ne_nil]
    rw [mergeProfileSection_of_section hsection]
    exact iff_of_true rfl hinside

/-- **The block is there once** unless it begins again in itself and what follows. -/
theorem once_iff (hfirst : Absent profileSectionBegin before profileSectionBegin) (c after : Text) :
    occurrences (wrapProfileSection c) (before ++ wrapProfileSection c ++ after) = 1 ↔
      ¬ wrapProfileSection c <:+: (wrapProfileSection c ++ after).tail := by
  have hne : wrapProfileSection c ≠ [] := by simp [wrapProfileSection, profileSectionEnd_ne_nil]
  have hbegin : profileSectionBegin <+: wrapProfileSection c :=
    ⟨'\n' :: (c ++ ['\n'] ++ profileSectionEnd), by simp [wrapProfileSection]⟩
  have habsent : Absent profileSectionBegin before (wrapProfileSection c ++ after) := by
    rw [wrapProfileSection_append]
    exact (Text.absent_congr [] _).mp (by simpa using hfirst)
  rw [append_assoc, (habsent.of_prefix hbegin).occurrences]
  obtain ⟨d, rest, hrest⟩ := List.exists_cons_of_ne_nil (l := wrapProfileSection c ++ after)
    (by simp [hne])
  have hprefix : wrapProfileSection c <+: d :: rest := hrest ▸ List.prefix_append _ _
  rw [hrest, Text.occurrences_cons_of_prefix hprefix, List.tail_cons,
    ← Text.occurrences_eq_zero_iff hne]
  omega

theorem not_infix_tail (c : Text) :
    ¬ wrapProfileSection c <:+: (wrapProfileSection c ++ []).tail := by
  intro h
  have hlength := h.length_le
  have hpos : 0 < (wrapProfileSection c).length := by
    simp only [wrapProfileSection, length_append, length_cons]
    omega
  rw [List.length_tail, append_nil] at hlength
  omega

theorem mergeProfileSection_of_replaced (h : profileSection? e = none)
    (hreplaced : isSeedTemplate e = true ∨ trimEnd e = []) (c : Text) :
    mergeProfileSection e c = wrapProfileSection c := by
  rw [mergeProfileSection, h]
  dsimp only
  split_ifs with hheader hseed hempty
  · rfl
  · rfl
  · rfl
  · exact absurd (List.isEmpty_iff.mpr (hreplaced.resolve_left hseed)) hempty

theorem mergeProfileSection_of_appended (h : profileSection? e = none)
    (hheader : autoGeneratedHeader.isPrefixOf e = false) (hseed : isSeedTemplate e = false)
    (hne : trimEnd e ≠ []) (c : Text) :
    mergeProfileSection e c = trimEnd e ++ ['\n', '\n'] ++ wrapProfileSection c := by
  have hempty : (Text.trimEndMatches Text.isWhitespace e).isEmpty = false := by
    simpa [trimEnd] using hne
  have hheader' : "<!-- Auto-generated from context/profile.json".toList.isPrefixOf e = false :=
    hheader
  rw [mergeProfileSection, h]
  dsimp only
  rw [hheader', hseed, hempty]
  rfl

theorem infix_trimEnd_iff : profileSectionBegin <:+: trimEnd e ↔ profileSectionBegin <:+: e := by
  have hlast : profileSectionBegin = "<!-- BEGIN:profile-sync --".toList ++ ['>'] := by decide
  rw [hlast]
  exact Text.infix_trimEndMatches_iff (by decide)

theorem occurrences_end_wrapProfileSection (c after : Text) :
    occurrences profileSectionEnd (wrapProfileSection c ++ after) =
      occurrences profileSectionEnd c + occurrences profileSectionEnd (profileSectionEnd ++ after) := by
  have hsplit : wrapProfileSection c ++ after =
      profileSectionBegin ++ '\n' :: (c ++ '\n' :: (profileSectionEnd ++ after)) := by
    simp [wrapProfileSection]
  have hbegin : occurrences profileSectionEnd profileSectionBegin = 0 := by decide
  rw [hsplit, Text.occurrences_append_cons newline_not_mem_end profileSectionEnd_ne_nil,
    Text.occurrences_append_cons newline_not_mem_end profileSectionEnd_ne_nil, hbegin, Nat.zero_add]

/-- **A begin marker that nothing ends** is ended by the block that is appended. -/
theorem merge_ne_of_infix (h : profileSection? e = none)
    (hheader : autoGeneratedHeader.isPrefixOf e = false) (hseed : isSeedTemplate e = false)
    (hne : trimEnd e ≠ []) (hbegin : profileSectionBegin <:+: e) (c₁ c₂ : Text) :
    mergeProfileSection (mergeProfileSection e c₁) c₂ ≠ mergeProfileSection e c₂ := by
  obtain ⟨before, rest, htrimmed, hfirst, hrest⟩ : ∃ before rest,
      trimEnd e = before ++ profileSectionBegin ++ rest ∧
        Absent profileSectionBegin before profileSectionBegin ∧ ¬ profileSectionEnd <:+: rest := by
    rw [← infix_trimEnd_iff] at hbegin
    cases hfound : Text.find? profileSectionBegin (trimEnd e) with
    | none => exact absurd hbegin ((Text.find?_eq_none_iff profileSectionBegin_ne_nil).mp hfound)
    | some p =>
      obtain ⟨he, hfirst⟩ := (Text.find?_eq_some_iff profileSectionBegin_ne_nil).mp hfound
      have hfirst' : Absent profileSectionBegin p.1 profileSectionBegin := by
        simpa using (Text.absent_congr p.2 []).mp hfirst
      obtain ⟨blank, hblank⟩ := Text.trimEndMatches_prefix Text.isWhitespace e
      have he' : e = p.1 ++ profileSectionBegin ++ (p.2 ++ blank) := by
        rw [← append_assoc, ← he]
        exact hblank.symm
      rw [he'] at h
      exact ⟨p.1, p.2, he, hfirst', fun hinside => not_infix_of_profileSection?_eq_none h hfirst'
        (hinside.trans (List.prefix_append _ _).isInfix)⟩
  -- the marker is ended by what follows it in the appended text
  rw [mergeProfileSection_of_appended h hheader hseed hne,
    mergeProfileSection_of_appended h hheader hseed hne, htrimmed]
  cases hfound : Text.find? profileSectionEnd
      (rest ++ ['\n', '\n'] ++ wrapProfileSection c₁) with
  | none =>
    refine absurd ?_ ((Text.find?_eq_none_iff profileSectionEnd_ne_nil).mp hfound)
    exact ((suffix_append _ _).trans (suffix_append _ _)).isInfix
  | some p =>
    obtain ⟨mid, after⟩ := p
    obtain ⟨hsplit, hnext⟩ := (Text.find?_eq_some_iff profileSectionEnd_ne_nil).mp hfound
    have hsection : profileSection? (before ++ profileSectionBegin ++ rest ++ ['\n', '\n'] ++
        wrapProfileSection c₁) = some (before, after) := by
      refine profileSection?_eq_some_iff.mpr ⟨mid, ?_, hfirst, ?_⟩
      · rw [← hsplit]
        simp only [append_assoc]
      · simpa using (Text.absent_congr after []).mp hnext
    rw [mergeProfileSection_of_section hsection]
    intro heq
    have heq' : wrapProfileSection c₂ ++ after =
        profileSectionBegin ++ rest ++ '\n' :: '\n' :: wrapProfileSection c₂ := by
      simpa only [append_assoc, List.append_cancel_left_eq, cons_append,
        nil_append] using heq
    -- what follows the block is as long as the marker and contains no end marker
    have hlong : profileSectionEnd.length ≤ after.length := by
      have hlength := congrArg List.length heq'
      have hmarkers : profileSectionEnd.length ≤ profileSectionBegin.length := by decide
      simp only [length_append, length_cons] at hlength
      omega
    have hnone : ¬ profileSectionEnd <:+: after := by
      have hcount := congrArg (occurrences profileSectionEnd) heq'
      have hrest' : occurrences profileSectionEnd (profileSectionBegin ++ rest) = 0 := by
        rw [(absent_end_begin rest).occurrences]
        exact (Text.occurrences_eq_zero_iff profileSectionEnd_ne_nil).mpr hrest
      have hend : occurrences profileSectionEnd profileSectionEnd = 1 := by decide
      have hwrap := occurrences_end_wrapProfileSection c₂ []
      rw [append_nil, append_nil, hend] at hwrap
      rw [occurrences_end_wrapProfileSection,
        Text.occurrences_append_cons newline_not_mem_end profileSectionEnd_ne_nil, hrest',
        Text.occurrences_cons_of_not_mem newline_not_mem_end profileSectionEnd_ne_nil,
        hwrap] at hcount
      have hle := Text.occurrences_pattern_append profileSectionEnd_ne_nil after
      rw [← Text.occurrences_eq_zero_iff profileSectionEnd_ne_nil]
      omega
    -- but the appended block ends with one
    have hsuffix : profileSectionEnd <:+ after := by
      have hblock : profileSectionEnd <:+ mid ++ profileSectionEnd ++ after := by
        rw [← hsplit]
        exact (suffix_append _ _).trans (suffix_append _ _)
      exact List.suffix_of_suffix_length_le hblock (suffix_append _ _) hlong
    exact hnone hsuffix.isInfix

end Markers

section Lines

variable {before after e c : Text}

theorem dropTrailing_append_cons {piece : Text} (h : piece ≠ []) (front back : List Text) :
    dropTrailing (front ++ piece :: back) = front ++ piece :: dropTrailing back := by
  cases back with
  | nil =>
    have hlast : (front ++ [piece]).getLast? = some piece := List.getLast?_concat
    rw [dropTrailing, hlast, if_neg (by simpa using h)]
    rfl
  | cons next back =>
    have hlast : (front ++ piece :: next :: back).getLast? = (next :: back).getLast? := by
      rw [List.append_cons, List.getLast?_append_of_ne_nil _ (List.cons_ne_nil _ _)]
    have hdrop : (front ++ piece :: next :: back).dropLast =
        front ++ piece :: (next :: back).dropLast := by simp
    rw [dropTrailing, dropTrailing, hlast, hdrop]
    split_ifs <;> rfl

theorem drop_one_dropTrailing (piece : Text) (pieces : List Text) :
    (dropTrailing (piece :: pieces)).drop 1 = dropTrailing pieces := by
  cases pieces with
  | nil =>
    rw [dropTrailing]
    split_ifs <;> rfl
  | cons next pieces =>
    have hlast : (piece :: next :: pieces).getLast? = (next :: pieces).getLast? := by simp
    rw [dropTrailing, dropTrailing, hlast]
    split_ifs <;> rfl

theorem splitOn_wrapProfileSection (c : Text) : splitOn '\n' (wrapProfileSection c) =
      (profileSectionBegin :: splitOn '\n' c) ++ [profileSectionEnd] := by
  have hsplit : wrapProfileSection c =
      profileSectionBegin ++ '\n' :: (c ++ '\n' :: profileSectionEnd) := by simp [wrapProfileSection]
  rw [hsplit, Text.splitOn_append newline_not_mem_begin, Text.splitOn_append_cons,
    Text.splitOn_of_not_mem newline_not_mem_end]
  rfl

theorem textLines_wrapProfileSection (c : Text) : textLines (wrapProfileSection c) =
      (profileSectionBegin :: splitOn '\n' c) ++ [profileSectionEnd] := by
  rw [textLines, splitOn_wrapProfileSection, dropTrailing_append_cons profileSectionEnd_ne_nil]
  rfl

/-- **Lines outside the block stay** when the block is replaced. -/
theorem sublist_textLines_of_section (before after c : Text) :
    ((splitOn '\n' before).dropLast ++ (textLines after).drop 1).Sublist
      (textLines (before ++ wrapProfileSection c ++ after)) := by
  obtain ⟨pieces, piece, hbefore⟩ := Text.exists_splitOn_eq '\n' before
  obtain ⟨first, more, hafter⟩ := List.exists_cons_of_ne_nil (Text.splitOn_ne_nil '\n' after)
  have hfront : splitOn '\n' (before ++ wrapProfileSection c) =
      (pieces ++ (piece ++ profileSectionBegin) :: splitOn '\n' c) ++ [profileSectionEnd] := by
    have hwrap := splitOn_wrapProfileSection c
    rw [cons_append] at hwrap
    rw [Text.splitOn_append_of_eq hbefore hwrap]
    simp
  have hne : profileSectionEnd ++ first ≠ [] := by simp [profileSectionEnd_ne_nil]
  rw [textLines, textLines, Text.splitOn_append_of_eq hfront hafter,
    dropTrailing_append_cons hne, hafter, drop_one_dropTrailing, hbefore, List.dropLast_concat,
    append_assoc, List.append_sublist_append_left]
  exact (List.sublist_cons_self _ _).trans (List.sublist_append_right _ _)

theorem exists_splitOn_trimEnd (hne : trimEnd e ≠ []) :
    ∃ pieces piece, splitOn '\n' (trimEnd e) = pieces ++ [piece] ∧ piece ≠ [] := by
  obtain ⟨-, -, -, hhead⟩ := Text.exists_dropWhile e.reverse
  obtain ⟨front, c, hfront⟩ : ∃ front c, trimEnd e = front ++ [c] :=
    ⟨_, _, (List.dropLast_append_getLast hne).symm⟩
  have hvisible : Text.isWhitespace c = false := by
    refine hhead c ?_
    have hreverse := congrArg List.reverse hfront
    rw [trimEnd, Text.trimEndMatches, List.reverse_reverse] at hreverse
    rw [hreverse, List.reverse_append]
    rfl
  have hc : c ≠ '\n' := by
    rintro rfl
    exact absurd hvisible (by decide)
  obtain ⟨pieces, piece, hpieces⟩ := Text.exists_splitOn_eq '\n' front
  have hsingle : splitOn '\n' [c] = [[c]] := Text.splitOn_of_not_mem (by simpa using Ne.symm hc)
  refine ⟨pieces, piece ++ [c], ?_, by simp⟩
  rw [hfront, Text.splitOn_append_of_eq hpieces hsingle]

/-- **Lines stay in front of an appended block** if those that trimming takes off recur. -/
theorem sublist_textLines_of_appended (hne : trimEnd e ≠ []) (c : Text) :
    (textLines e).Sublist (textLines (trimEnd e ++ ['\n', '\n'] ++ wrapProfileSection c)) ↔
      (lostLines e).Sublist ([] :: textLines (wrapProfileSection c)) := by
  obtain ⟨pieces, piece, hkept, hpiece⟩ := exists_splitOn_trimEnd hne
  obtain ⟨blank, hblank⟩ := Text.trimEndMatches_prefix Text.isWhitespace e
  obtain ⟨first, more, hmore⟩ := List.exists_cons_of_ne_nil (Text.splitOn_ne_nil '\n' blank)
  have hlines : textLines e = pieces ++ (piece ++ first) :: dropTrailing more := by
    have hsplit := Text.splitOn_append_of_eq hkept hmore
    rw [show trimEnd e ++ blank = e from hblank] at hsplit
    rw [textLines, hsplit, dropTrailing_append_cons (by simp [hpiece])]
  have hmerged : textLines (trimEnd e ++ ['\n', '\n'] ++ wrapProfileSection c) =
      pieces ++ piece :: [] :: textLines (wrapProfileSection c) := by
    have hsplit : trimEnd e ++ ['\n', '\n'] ++ wrapProfileSection c =
        trimEnd e ++ '\n' :: '\n' :: wrapProfileSection c := by simp
    have hpieces : splitOn '\n' (trimEnd e ++ '\n' :: '\n' :: wrapProfileSection c) =
        (pieces ++ piece :: [] :: profileSectionBegin :: splitOn '\n' c) ++ [profileSectionEnd] := by
      rw [Text.splitOn_append_cons, hkept, Text.splitOn_cons_self, splitOn_wrapProfileSection]
      simp
    rw [textLines_wrapProfileSection, textLines, hsplit, hpieces,
      dropTrailing_append_cons profileSectionEnd_ne_nil, dropTrailing]
    simp
  have hlost : lostLines e =
      if piece ++ first = piece then dropTrailing more
      else (piece ++ first) :: dropTrailing more := by
    have hlength : (pieces ++ [piece]).length - 1 = pieces.length := by simp
    rw [lostLines, hkept, hlines, hlength, List.drop_left, List.head?_cons, List.getLast?_concat]
    simp only [Option.some.injEq, List.tail_cons]
  rw [hlines, hmerged, List.append_sublist_append_left, hlost]
  split_ifs with hsame
  · rw [hsame, List.cons_sublist_cons]
  · -- the line that was shortened can only recur later
    rw [List.cons_sublist_cons']
    exact or_iff_left fun h => hsame h.1

end Lines

/-- **Exactly when a merge does what it should.** -/
theorem mergesWell_iff {e : Text} (hheader : autoGeneratedHeader.isPrefixOf e = false)
    (c₁ c₂ : Text) : MergesWell e c₁ c₂ ↔ KeepsMarkers e c₁ c₂ := by
  -- a merge puts the block between two texts, of which the first has no begin marker
  have hparts : ∀ {before after : Text}, (∀ c, mergeProfileSection e c =
      before ++ wrapProfileSection c ++ after) →
      Absent profileSectionBegin before profileSectionBegin →
      (MergesWell e c₁ c₂ ↔ ¬ profileSectionEnd <:+: c₁ ∧
        ¬ wrapProfileSection c₂ <:+: (wrapProfileSection c₂ ++ after).tail ∧
        (outsideLines e).Sublist (textLines (before ++ wrapProfileSection c₂ ++ after))) := by
    intro before after hmerge hfirst
    rw [← merge_wrapped_iff hfirst c₁ c₂ after, ← once_iff hfirst, ← hmerge, ← hmerge]
    exact ⟨fun h => ⟨h.again, h.once, h.kept⟩, fun h => ⟨h.1, h.2.1, h.2.2⟩⟩
  rw [KeepsMarkers]
  cases hsection : profileSection? e with
  | some p =>
    obtain ⟨before, after⟩ := p
    obtain ⟨-, -, hfirst, -⟩ := profileSection?_eq_some_iff.mp hsection
    have hkept := sublist_textLines_of_section before after c₂
    rw [hparts (mergeProfileSection_of_section hsection) hfirst, outsideLines, hsection]
    exact and_congr_right fun _ => and_iff_left hkept
  | none =>
    have houtside : outsideLines e = textLines e := by rw [outsideLines, hsection]
    dsimp only
    split_ifs with hreplaced
    · have hmerge : ∀ c, mergeProfileSection e c = [] ++ wrapProfileSection c ++ [] := by
        intro c
        rw [mergeProfileSection_of_replaced hsection hreplaced, nil_append, append_nil]
      have htail : ¬ wrapProfileSection c₂ <:+: (wrapProfileSection c₂).tail := by
        simpa using not_infix_tail c₂
      rw [hparts hmerge trivial, houtside, nil_append, append_nil]
      exact and_congr_right fun _ => and_iff_right htail
    · obtain ⟨hseed, hne⟩ := not_or.mp hreplaced
      rw [Bool.not_eq_true] at hseed
      by_cases hbegin : profileSectionBegin <:+: e
      · exact iff_of_false
          (fun h => merge_ne_of_infix hsection hheader hseed hne hbegin c₁ c₂ h.again)
          fun h => h.2.1 hbegin
      · have hmerge : ∀ c, mergeProfileSection e c =
            (trimEnd e ++ ['\n', '\n']) ++ wrapProfileSection c ++ [] := by
          intro c
          rw [mergeProfileSection_of_appended hsection hheader hseed hne, append_nil]
        have hfirst : Absent profileSectionBegin (trimEnd e ++ ['\n', '\n'])
            profileSectionBegin := by
          rw [Text.absent_append]
          refine ⟨?_, Text.absent_of_not_mem (by decide) _⟩
          rw [cons_append, Text.absent_append_cons_iff newline_not_mem_begin
            profileSectionBegin_ne_nil, infix_trimEnd_iff]
          exact hbegin
        have hkept := sublist_textLines_of_appended hne c₂
        rw [← append_nil (_ ++ wrapProfileSection c₂)] at hkept
        rw [hparts hmerge hfirst, houtside, hkept, and_iff_right (not_infix_tail c₂),
          and_iff_right hbegin]

def userNotes : Text := "# Me\nTea, no coffee.\n".toList

theorem mergesWell_userNotes : MergesWell userNotes "old".toList "new".toList :=
  (mergesWell_iff (by decide) _ _).mpr (by decide)

/-- A profile with the end marker in it is not replaced as a whole: its last line stays. -/
theorem not_mergesWell_of_end :
    autoGeneratedHeader.isPrefixOf userNotes = false ∧ isSeedTemplate userNotes = false ∧
    mergeProfileSection (mergeProfileSection userNotes
        (profileSectionEnd ++ "\nold".toList)) "new".toList =
      mergeProfileSection userNotes "new".toList ++ "\nold\n".toList ++ profileSectionEnd ∧
    ¬ MergesWell userNotes (profileSectionEnd ++ "\nold".toList) "new".toList := by
  have hmerged : mergeProfileSection (mergeProfileSection userNotes
      (profileSectionEnd ++ "\nold".toList)) "new".toList =
        mergeProfileSection userNotes "new".toList ++ "\nold\n".toList ++ profileSectionEnd := by
    decide
  refine ⟨by decide, by decide, hmerged, fun h => ?_⟩
  have hagain := h.again
  rw [hmerged] at hagain
  have hlength := congrArg List.length hagain
  simp only [length_append] at hlength
  have hpos : 0 < profileSectionEnd.length := by decide
  omega

end IronClaw.Memory
