import IronClaw.Foundation.Rewriting
import IronClaw.Foundation.Splitting
import IronClaw.Safety.Layer
import Mathlib.Data.Bool.AllAny

/-!
# The boundary around the output of a tool

The output of a tool is wrapped between tags. A closing tag in it is broken by a zero-width space,
and unwrapping removes one from every end tag.
-/

namespace IronClaw.Safety

open Foundation (Text)
open Foundation.Text (Bare Blank rfind?)
open List (append_assoc cons_append cons_prefix_cons getLast?_cons_cons length_cons mem_cons
  suffix_cons_iff)

def brokenEndTag : Text := ['<', zeroWidthSpace, '/']

def unescapeToolOutputClose (s : Text) : Text := Text.replaceAll brokenEndTag "</".toList s

/-- What is left behind a text at the head of another one. -/
def stripPrefix (pat s : Text) : Option Text :=
  if pat.isPrefixOf s then some (s.drop pat.length) else none

def unwrapToolOutput (content : Text) : Option Text :=
  match stripPrefix "<tool_output".toList (Text.trim content) with
  | none => none
  | some rest =>
    match rest.dropWhile (· ≠ '>') with
    | [] => none
    | _ :: inner =>
      (rfind? "</tool_output>".toList inner).map fun r =>
        unescapeToolOutputClose (Text.trim r.1)

/-- A closing tag comes at the end only, and unwrapping gives back the trimmed content. -/
structure Bounded (toolName content : Text) : Prop where
  closed : "</tool_output>".toList <:+ wrapForLlm toolName content
  once : ∀ s, s <:+ wrapForLlm toolName content → closingTag <+: Text.toAsciiLowercase s →
    s = "</tool_output>".toList
  unwrapped : unwrapToolOutput (wrapForLlm toolName content) = some (Text.trim content)

section Escape

theorem escapeToolOutputCloseFrom_eq (k : Nat) (s : Text) :
    escapeToolOutputCloseFrom k s = s.take k ++ escapeToolOutputClose (s.drop k) := by
  induction s generalizing k with
  | nil => cases k <;> rfl
  | cons c s ih =>
    cases k with
    | zero => rfl
    | succ k => exact congrArg (c :: ·) (ih k)

theorem toAsciiLowercase_cons (c : Char) (s : Text) :
    Text.toAsciiLowercase (c :: s) = c.toLower :: Text.toAsciiLowercase s := rfl

variable {c : Char} {s : Text}

theorem closing_cons (h : closingTag <+: Text.toAsciiLowercase (c :: s)) :
    c = '<' ∧ "/tool_output".toList <+: Text.toAsciiLowercase s := by
  rw [toAsciiLowercase_cons] at h
  obtain ⟨hc, hs⟩ := cons_prefix_cons.mp (show '<' :: "/tool_output".toList <+: _ from h)
  exact ⟨Text.eq_of_toLower (by decide) hc.symm, hs⟩

theorem escape_cons_of_not (h : ¬ closingTag <+: Text.toAsciiLowercase (c :: s)) :
    escapeToolOutputClose (c :: s) = c :: escapeToolOutputClose s := by
  change escapeToolOutputCloseFrom 0 (c :: s) = _
  rw [escapeToolOutputCloseFrom, if_neg (by simpa using h)]
  rfl

theorem escape_append {w : Text} (h : '<' ∉ w) (s : Text) :
    escapeToolOutputClose (w ++ s) = w ++ escapeToolOutputClose s := by
  induction w with
  | nil => rfl
  | cons c w ih =>
    rw [mem_cons, not_or] at h
    rw [cons_append, escape_cons_of_not fun hclosing => h.1 (closing_cons hclosing).1.symm,
      ih h.2, cons_append]

theorem escape_cons_of_closing (h : closingTag <+: Text.toAsciiLowercase (c :: s)) :
    escapeToolOutputClose (c :: s) = '<' :: zeroWidthSpace :: escapeToolOutputClose s := by
  obtain ⟨rfl, htag⟩ := closing_cons h
  change escapeToolOutputCloseFrom 0 ('<' :: s) = _
  rw [escapeToolOutputCloseFrom, if_pos (by simpa using h), escapeToolOutputCloseFrom_eq]
  have hfront : '<' ∉ s.take (closingTag.length - 1) := by
    intro hmem
    -- what follows in the tag has no such character
    have hlower : Text.toAsciiLowercase (s.take (closingTag.length - 1)) =
        "/tool_output".toList := by
      rw [Text.toAsciiLowercase, List.map_take]
      exact List.prefix_iff_eq_take.mp htag |>.symm
    have hmem' : Char.toLower '<' ∈ Text.toAsciiLowercase (s.take (closingTag.length - 1)) :=
      List.mem_map_of_mem hmem
    rw [hlower] at hmem'
    revert hmem'
    decide
  rw [← escape_append hfront, List.take_append_drop]

theorem prefix_of_prefix_escape {w : Text} (hw : '<' ∉ w)
    (h : w <+: Text.toAsciiLowercase (escapeToolOutputClose s)) :
    w <+: Text.toAsciiLowercase s := by
  induction w generalizing s with
  | nil => exact List.nil_prefix
  | cons a w ih =>
    rw [mem_cons, not_or] at hw
    cases s with
    | nil => simp [escapeToolOutputClose, escapeToolOutputCloseFrom, Text.toAsciiLowercase] at h
    | cons c s =>
      by_cases hclosing : closingTag <+: Text.toAsciiLowercase (c :: s)
      · -- a closing tag begins with a `<`, which is not read
        rw [escape_cons_of_closing hclosing] at h
        exact absurd (cons_prefix_cons.mp h).1.symm hw.1
      · rw [escape_cons_of_not hclosing, toAsciiLowercase_cons, cons_prefix_cons] at h
        rw [toAsciiLowercase_cons, cons_prefix_cons]
        exact ⟨h.1, ih hw.2 h.2⟩

theorem not_closing_of_suffix_escape {content s : Text}
    (h : s <:+ escapeToolOutputClose content) : ¬ closingTag <+: Text.toAsciiLowercase s := by
  induction content with
  | nil =>
    rw [List.suffix_nil.mp h]
    decide
  | cons c content ih =>
    by_cases hclosing : closingTag <+: Text.toAsciiLowercase (c :: content)
    · -- from the `<` the tag does not go on with a slash, and the space is no `<`
      rw [escape_cons_of_closing hclosing] at h
      rcases suffix_cons_iff.mp h with rfl | h
      · intro htag
        have htail : '/' :: "tool_output".toList <+: _ := (closing_cons htag).2
        have hspace := (cons_prefix_cons.mp htail).1
        revert hspace
        decide
      · rcases suffix_cons_iff.mp h with rfl | h
        · intro htag
          have hspace := (closing_cons htag).1
          revert hspace
          decide
        · exact ih h
    · rw [escape_cons_of_not hclosing] at h
      rcases suffix_cons_iff.mp h with rfl | h
      · -- a tag that is there after escaping was there before
        intro htag
        refine hclosing ?_
        obtain ⟨rfl, htail⟩ := closing_cons htag
        have hprefix := prefix_of_prefix_escape (by decide) htail
        exact cons_prefix_cons.mpr ⟨rfl, hprefix⟩
      · exact ih h

theorem unescape_cons (h : ¬ brokenEndTag <+: c :: s) :
    unescapeToolOutputClose (c :: s) = c :: unescapeToolOutputClose s :=
  Text.replaceAll_cons h

theorem unescape_brokenEndTag (s : Text) :
    unescapeToolOutputClose (brokenEndTag ++ s) = "</".toList ++ unescapeToolOutputClose s :=
  Text.replaceAll_append (by decide) s

theorem head?_escape (s : Text) : (escapeToolOutputClose s).head? = s.head? := by
  cases s with
  | nil => rfl
  | cons c s =>
    by_cases hclosing : closingTag <+: Text.toAsciiLowercase (c :: s)
    · rw [escape_cons_of_closing hclosing, (closing_cons hclosing).1]
      rfl
    · rw [escape_cons_of_not hclosing]
      rfl

theorem slash_prefix_iff : ['/'] <+: s ↔ s.head? = some '/' := by
  cases s <;> simp [eq_comm]

theorem brokenEndTag_prefix_escape_iff :
    brokenEndTag <+: c :: escapeToolOutputClose s ↔ brokenEndTag <+: c :: s := by
  have htail : [zeroWidthSpace, '/'] <+: escapeToolOutputClose s ↔ [zeroWidthSpace, '/'] <+: s := by
    cases s with
    | nil => exact Iff.rfl
    | cons d s =>
      by_cases hd : d = zeroWidthSpace
      · have hclosing : ¬ closingTag <+: Text.toAsciiLowercase (d :: s) := fun hclosing => by
          have heq := hd.symm.trans (closing_cons hclosing).1
          revert heq
          decide
        rw [escape_cons_of_not hclosing, cons_prefix_cons, cons_prefix_cons,
          slash_prefix_iff, slash_prefix_iff, head?_escape]
      · have hescape : (escapeToolOutputClose (d :: s)).head? = some d := head?_escape (d :: s)
        obtain ⟨rest, hrest⟩ := List.head?_eq_some_iff.mp hescape
        rw [hrest, cons_prefix_cons, cons_prefix_cons]
        exact iff_of_false (fun h => hd h.1.symm) (fun h => hd h.1.symm)
  change '<' :: [zeroWidthSpace, '/'] <+: _ ↔ '<' :: [zeroWidthSpace, '/'] <+: _
  rw [cons_prefix_cons, cons_prefix_cons, htail]

theorem exists_slash_of_closing (h : "/tool_output".toList <+: Text.toAsciiLowercase s) :
    ∃ s', s = '/' :: s' := by
  cases s with
  | nil => simp [Text.toAsciiLowercase] at h
  | cons d s =>
    change '/' :: "tool_output".toList <+: _ at h
    have hd := (cons_prefix_cons.mp h).1
    exact ⟨s, by rw [Text.eq_of_toLower (by decide) hd.symm]⟩

theorem unescape_escape (s : Text) :
    unescapeToolOutputClose (escapeToolOutputClose s) = unescapeToolOutputClose s := by
  generalize hn : s.length = n
  induction n using Nat.strong_induction_on generalizing s with
  | _ n ih =>
    cases s with
    | nil => rfl
    | cons c s =>
      rw [length_cons] at hn
      have hrest := ih s.length (by omega) s rfl
      by_cases hclosing : closingTag <+: Text.toAsciiLowercase (c :: s)
      · obtain ⟨rfl, htag⟩ := closing_cons hclosing
        -- the tag goes on with a slash, before which the space is put in and taken out
        obtain ⟨s, rfl⟩ := exists_slash_of_closing htag
        have hslash : escapeToolOutputClose ('/' :: s) = '/' :: escapeToolOutputClose s :=
          escape_append (w := ['/']) (by decide) s
        have hno : ∀ t, ¬ brokenEndTag <+: '/' :: t := by simp [brokenEndTag]
        have hno' : ∀ t, ¬ brokenEndTag <+: '<' :: '/' :: t := by
          intro t h
          have hspace := (cons_prefix_cons.mp (cons_prefix_cons.mp h).2).1
          revert hspace
          decide
        rw [hslash, unescape_cons (hno _), unescape_cons (hno _)] at hrest
        rw [escape_cons_of_closing hclosing, hslash]
        change unescapeToolOutputClose (brokenEndTag ++ escapeToolOutputClose s) = _
        rw [unescape_brokenEndTag, unescape_cons (hno' s), unescape_cons (hno s),
          (List.cons.inj hrest).2]
        rfl
      · rw [escape_cons_of_not hclosing]
        by_cases hbroken : brokenEndTag <+: c :: s
        · -- a broken end tag is passed over as a whole, on both sides
          obtain ⟨rest, hsplit⟩ := hbroken
          change '<' :: zeroWidthSpace :: '/' :: rest = c :: s at hsplit
          obtain ⟨rfl, hs⟩ := List.cons.inj hsplit
          have hescape : escapeToolOutputClose s =
              zeroWidthSpace :: '/' :: escapeToolOutputClose rest := by
            rw [← hs]
            exact escape_append (w := [zeroWidthSpace, '/']) (by decide) rest
          rw [hescape, ← hs]
          change unescapeToolOutputClose (brokenEndTag ++ escapeToolOutputClose rest) =
            unescapeToolOutputClose (brokenEndTag ++ rest)
          have hshorter : rest.length < n := by
            rw [← hs, length_cons, length_cons] at hn
            omega
          rw [unescape_brokenEndTag, unescape_brokenEndTag, ih rest.length hshorter rest rfl]
        · rw [unescape_cons hbroken, unescape_cons (mt brokenEndTag_prefix_escape_iff.mp hbroken),
            hrest]

theorem not_mem_of_blank (h : Blank s) (hc : Text.isWhitespace c = false) : c ∉ s := fun hmem => by
  rw [h c hmem] at hc
  cases hc

theorem closing_prefix_append_iff {s back : Text}
    (hback : ∀ c ∈ back.head?, Text.isWhitespace c = true) :
    closingTag <+: Text.toAsciiLowercase (s ++ back) ↔ closingTag <+: Text.toAsciiLowercase s := by
  cases back with
  | nil => rw [List.append_nil]
  | cons d back =>
    have hd : Text.isWhitespace d = true := hback d rfl
    have hnot : d ∉ closingTag := by
      intro hmem
      have hvisible : ∀ c ∈ closingTag, Text.isWhitespace c = false :=
        List.all_iff_forall_prop.mp (by decide)
      rw [hvisible d hmem] at hd
      cases hd
    rw [Text.toAsciiLowercase, Text.toAsciiLowercase, List.map_append, List.map_cons,
      Text.toLower_of_isWhitespace hd, Text.prefix_append_cons_iff hnot]

theorem escape_append_blank {s back : Text} (hback : Blank back) :
    escapeToolOutputClose (s ++ back) = escapeToolOutputClose s ++ back := by
  induction s with
  | nil =>
    have hescape := escape_append (not_mem_of_blank hback (by decide : _ = false)) []
    simpa [escapeToolOutputClose, escapeToolOutputCloseFrom] using hescape
  | cons c s ih =>
    have hiff : closingTag <+: Text.toAsciiLowercase (c :: (s ++ back)) ↔ _ :=
      closing_prefix_append_iff (s := c :: s) fun d hd => hback d (List.mem_of_mem_head? hd)
    by_cases hclosing : closingTag <+: Text.toAsciiLowercase (c :: s)
    · rw [cons_append, escape_cons_of_closing (hiff.mpr hclosing),
        escape_cons_of_closing hclosing, ih]
      rfl
    · rw [cons_append, escape_cons_of_not (mt hiff.mp hclosing), escape_cons_of_not hclosing,
        ih]
      rfl

theorem getLast?_escape (s : Text) : (escapeToolOutputClose s).getLast? = s.getLast? := by
  induction s with
  | nil => rfl
  | cons c s ih =>
    by_cases hclosing : closingTag <+: Text.toAsciiLowercase (c :: s)
    · have hne : s ≠ [] := by
        rintro rfl
        exact absurd (closing_cons hclosing).2.length_le (by decide)
      obtain ⟨d, s, rfl⟩ := List.exists_cons_of_ne_nil hne
      obtain ⟨rest, hrest⟩ := List.head?_eq_some_iff.mp (head?_escape (d :: s))
      rw [escape_cons_of_closing hclosing]
      rw [hrest] at ih ⊢
      rw [getLast?_cons_cons, getLast?_cons_cons, ih, getLast?_cons_cons]
    · rw [escape_cons_of_not hclosing]
      cases s with
      | nil => rfl
      | cons d s =>
        obtain ⟨rest, hrest⟩ := List.head?_eq_some_iff.mp (head?_escape (d :: s))
        rw [hrest] at ih ⊢
        rw [getLast?_cons_cons, ih, getLast?_cons_cons]

theorem Bare.escape (h : Bare s) : Bare (escapeToolOutputClose s) where
  head := by
    rw [head?_escape]
    exact h.head
  last := by
    rw [getLast?_escape]
    exact h.last

theorem trim_inner (content : Text) :
    Text.trim ("\n".toList ++ escapeToolOutputClose content ++ "\n".toList) =
      escapeToolOutputClose (Text.trim content) := by
  obtain ⟨front, back, hsplit, hfront, hback, hbare⟩ := Text.exists_trim content
  -- escaping leaves the white space around the content alone
  have hescape : escapeToolOutputClose content =
      front ++ escapeToolOutputClose (Text.trim content) ++ back := by
    conv_lhs => rw [hsplit]
    rw [append_assoc, escape_append (not_mem_of_blank hfront (by decide : _ = false)),
      escape_append_blank hback, append_assoc]
  have hline : Blank "\n".toList := by
    intro c hc
    rw [List.mem_singleton.mp hc]
    rfl
  rw [hescape]
  have hassoc : "\n".toList ++ (front ++ escapeToolOutputClose (Text.trim content) ++ back) ++
      "\n".toList = ("\n".toList ++ front) ++ escapeToolOutputClose (Text.trim content) ++
        (back ++ "\n".toList) := by simp
  rw [hassoc]
  exact Text.trim_append (List.forall_mem_append.mpr ⟨hline, hfront⟩) (Bare.escape hbare)
    (List.forall_mem_append.mpr ⟨hback, hline⟩)

end Escape

section Boundary

variable (toolName content : Text)

/-- What comes before the content, behind the name of the tag. -/
def headerOf : Text := " name=\"".toList ++ escapeXmlAttr toolName ++ "\"".toList

theorem not_mem_escapeXmlAttr {c : Char} (hc : c = '<' ∨ c = '>') : c ∉ escapeXmlAttr toolName := by
  intro hmem
  obtain ⟨d, -, hd⟩ := List.mem_flatMap.mp hmem
  have hfixed : ∀ s ∈ ["&amp;".toList, "&quot;".toList, "&lt;".toList, "&gt;".toList], c ∉ s := by
    rcases hc with rfl | rfl <;> decide
  split at hd
  · exact hfixed _ (by simp) hd
  · split at hd
    · exact hfixed _ (by simp) hd
    · split at hd
      · exact hfixed _ (by simp) hd
      · split at hd
        · exact hfixed _ (by simp) hd
        · rw [List.mem_singleton.mp hd] at hc
          rcases hc with rfl | rfl <;> contradiction

theorem not_mem_headerOf {c : Char} (hc : c = '<' ∨ c = '>') : c ∉ headerOf toolName := by
  have hfixed : c ∉ " name=\"".toList ∧ c ∉ "\"".toList := by
    rcases hc with rfl | rfl <;> decide
  intro hmem
  rcases List.mem_append.mp hmem with hmem | hmem
  · rcases List.mem_append.mp hmem with hmem | hmem
    · exact hfixed.1 hmem
    · exact not_mem_escapeXmlAttr toolName hc hmem
  · exact hfixed.2 hmem

theorem wrapForLlm_eq : wrapForLlm toolName content =
    "<tool_output".toList ++ (headerOf toolName ++ '>' :: ("\n".toList ++
      escapeToolOutputClose content ++ "\n".toList ++ "</tool_output>".toList)) := by
  have hopening : "<tool_output name=\"".toList = "<tool_output".toList ++ " name=\"".toList := by
    decide
  have hopened : "\">\n".toList = "\"".toList ++ '>' :: "\n".toList := by decide
  have hclosing : "\n</tool_output>".toList = "\n".toList ++ "</tool_output>".toList := by decide
  calc wrapForLlm toolName content
      = "<tool_output".toList ++ " name=\"".toList ++ escapeXmlAttr toolName ++
          ("\"".toList ++ '>' :: "\n".toList) ++ escapeToolOutputClose content ++
          ("\n".toList ++ "</tool_output>".toList) := by
        rw [← hopening, ← hopened, ← hclosing]
        rfl
    _ = _ := by
        unfold headerOf
        simp only [append_assoc, cons_append]

theorem closed_wrapForLlm : "</tool_output>".toList <:+ wrapForLlm toolName content := by
  rw [wrapForLlm_eq]
  refine ⟨"<tool_output".toList ++ (headerOf toolName ++ '>' :: ("\n".toList ++
    escapeToolOutputClose content ++ "\n".toList)), ?_⟩
  simp only [append_assoc, cons_append]

theorem unwrapToolOutput_wrapForLlm : unwrapToolOutput (wrapForLlm toolName content) =
      some (unescapeToolOutputClose (Text.trim content)) := by
  have hbare : Bare (wrapForLlm toolName content) := by
    obtain ⟨front, hfront⟩ := closed_wrapForLlm toolName content
    have hlast : (wrapForLlm toolName content).getLast? = some '>' := by
      have hend : "</tool_output>".toList.getLast? = some '>' := by decide
      rw [← hfront, List.getLast?_append, hend]
      rfl
    refine ⟨fun c hc => ?_, fun c hc => ?_⟩
    · rw [wrapForLlm_eq] at hc
      cases hc
      rfl
    · rw [hlast] at hc
      cases hc
      rfl
  -- the name of the tool does not end the opening tag
  have hdrop : ∀ rest, (headerOf toolName ++ '>' :: rest).dropWhile (· ≠ '>') = '>' :: rest := by
    intro rest
    rw [List.dropWhile_append_of_pos]
    · simp
    · intro c hc
      have hne : c ≠ '>' := fun heq => not_mem_headerOf toolName (.inr rfl) (heq ▸ hc)
      simpa using hne
  unfold unwrapToolOutput
  rw [hbare.trim_eq, wrapForLlm_eq]
  have hstrip : ∀ rest : Text, stripPrefix "<tool_output".toList ("<tool_output".toList ++ rest) =
      some rest := by
    intro rest
    rw [stripPrefix, if_pos (by simp), List.drop_left]
  rw [hstrip]
  dsimp only
  rw [hdrop]
  dsimp only
  rw [Text.rfind?_append (by decide), Option.map_some, trim_inner, unescape_escape]

theorem suffix_of_not_mem {w s rest : Text} (hw : '<' ∉ w) (hs : s.head? = some '<')
    (h : s <:+ w ++ rest) : s <:+ rest := by
  induction w with
  | nil => exact h
  | cons c w ih =>
    rw [mem_cons, not_or] at hw
    rcases suffix_cons_iff.mp h with rfl | h
    · exact absurd (Option.some.inj hs).symm hw.1
    · exact ih hw.2 h

theorem suffix_or_of_suffix_append {s w rest : Text} (h : s <:+ w ++ rest) :
    s <:+ rest ∨ ∃ s', s' <:+ w ∧ s = s' ++ rest := by
  induction w with
  | nil => exact .inl h
  | cons c w ih =>
    rcases suffix_cons_iff.mp h with rfl | h
    · exact .inr ⟨c :: w, List.suffix_rfl, rfl⟩
    · rcases ih h with hrest | ⟨s', hs', hs⟩
      · exact .inl hrest
      · exact .inr ⟨s', hs'.trans (List.suffix_cons c w), hs⟩

theorem eq_of_suffix_closing {s : Text} (h : s <:+ "\n</tool_output>".toList)
    (htag : closingTag <+: Text.toAsciiLowercase s) : s = "</tool_output>".toList := by
  have hall : ∀ s ∈ "\n</tool_output>".toList.tails, closingTag <+: Text.toAsciiLowercase s →
      s = "</tool_output>".toList := by
    decide
  exact hall s ((List.mem_tails _ _).mpr h) htag

theorem closing_at_end {s : Text} (h : s <:+ wrapForLlm toolName content)
    (htag : closingTag <+: Text.toAsciiLowercase s) : s = "</tool_output>".toList := by
  have hhead : s.head? = some '<' := by
    cases s with
    | nil => exact absurd htag.length_le (by decide)
    | cons c s => rw [(closing_cons htag).1, List.head?_cons]
  have hopening : wrapForLlm toolName content = '<' :: ("tool_output".toList ++
      (headerOf toolName ++ (">\n".toList ++
        (escapeToolOutputClose content ++ "\n</tool_output>".toList)))) := by
    rw [wrapForLlm_eq]
    simp
  rw [hopening] at h
  -- the opening tag does not begin like a closing one, and its header has no other one
  rcases suffix_cons_iff.mp h with rfl | h
  · have htail : '/' :: "tool_output".toList <+: _ := (closing_cons htag).2
    have hslash := (cons_prefix_cons.mp htail).1
    exact absurd hslash (by decide : '/' ≠ Char.toLower 't')
  · have hbody := suffix_of_not_mem (by decide) hhead
      (suffix_of_not_mem (not_mem_headerOf toolName (.inl rfl)) hhead
        (suffix_of_not_mem (by decide) hhead h))
    rcases suffix_or_of_suffix_append hbody with hend | ⟨inner, hinner, rfl⟩
    · exact eq_of_suffix_closing hend htag
    · -- the line break behind the content ends a tag that begins in it
      rw [closing_prefix_append_iff (by rintro _ ⟨⟩; decide)] at htag
      exact absurd htag (not_closing_of_suffix_escape hinner)

/-- The boundary holds, and unwrapping gives the content back, **if and only if** no end tag is
broken by a zero-width space. -/
theorem bounded_iff : Bounded toolName content ↔ ¬ brokenEndTag <:+: content := by
  have hiff : unescapeToolOutputClose (Text.trim content) = Text.trim content ↔
      ¬ brokenEndTag <:+: content := by
    have htrim : brokenEndTag <:+: Text.trim content ↔ brokenEndTag <:+: content :=
      Text.infix_trim_iff (by decide) (List.all_iff_forall_prop.mp (by decide))
    rw [← htrim]
    exact Text.replaceAll_eq_self_iff (by decide) (by decide)
  have hunwrap := unwrapToolOutput_wrapForLlm toolName content
  constructor
  · intro h
    have hsome := hunwrap.symm.trans h.unwrapped
    exact hiff.mp (Option.some.inj hsome)
  · intro h
    refine ⟨closed_wrapForLlm toolName content, fun s => closing_at_end toolName content, ?_⟩
    rw [hunwrap, hiff.mpr h]

end Boundary

/-- A tag that was broken before it was wrapped is mended. -/
theorem not_bounded_broken : ¬ Bounded "echo".toList ['<', zeroWidthSpace, '/', 'b', '>'] :=
  fun h => (by decide : ¬ _) h.unwrapped

end IronClaw.Safety
