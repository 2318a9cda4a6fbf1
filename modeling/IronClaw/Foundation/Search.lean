import Mathlib.Data.List.Infix

/-!
# Search without overlap

Several needles are looked for. The one that ends first is taken, the longest of them if there are
several, and the search starts afresh behind it.
-/

namespace IronClaw.Foundation

open List (append_assoc append_inj' append_nil length_append mem_cons prefix_append
  prefix_of_prefix_length_le reverse_cons suffix_append)

variable {α : Type*}

def longest : List (List α) → Option (List α)
  | [] => none
  | s :: rest =>
    match longest rest with
    | none => some s
    | some t => if t.length ≤ s.length then some s else some t

theorem longest_eq_none {ls : List (List α)} : longest ls = none ↔ ls = [] := by
  cases ls with
  | nil => exact ⟨fun _ => rfl, fun _ => rfl⟩
  | cons s rest =>
    refine ⟨fun h => ?_, nofun⟩
    rw [longest] at h
    split at h
    · cases h
    · split_ifs at h

theorem longest_eq_some {ls : List (List α)} {l : List α} (h : longest ls = some l) :
    l ∈ ls ∧ ∀ t ∈ ls, t.length ≤ l.length := by
  induction ls generalizing l with
  | nil => cases h
  | cons s rest ih =>
    rw [longest] at h
    split at h
    · rename_i hnone
      cases h
      rw [longest_eq_none.mp hnone]
      simp
    · rename_i t hsome
      obtain ⟨hmem, hle⟩ := ih hsome
      split_ifs at h with hts
      · cases h
        refine ⟨List.mem_cons_self, fun u hu => ?_⟩
        rcases mem_cons.mp hu with rfl | hu
        · exact Nat.le_refl _
        · exact Nat.le_trans (hle u hu) hts
      · cases h
        refine ⟨List.mem_cons_of_mem s hmem, fun u hu => ?_⟩
        rcases mem_cons.mp hu with rfl | hu
        · omega
        · exact hle u hu

section Search

variable [DecidableEq α] (needles : List (List α))

def endingNeedles (seen : List α) : List (List α) :=
  needles.filter fun needle => needle.reverse.isPrefixOf seen

/-- The needles taken. `seen` is what has been read since the last one, backwards. -/
def search (seen : List α) : List α → List (List α)
  | [] => []
  | c :: s =>
    match longest (endingNeedles needles (c :: seen)) with
    | some needle => needle :: search [] s
    | none => search (c :: seen) s

end Search

/-- A needle occurs before a rest, none ends earlier, and no longer one at the same place. -/
structure Takes (needles : List (List α)) (text found rest : List α) : Prop where
  mem : found ∈ needles
  split : ∃ before, text = before ++ found ++ rest
  first : ∀ needle ∈ needles, ∀ before after, text = before ++ needle ++ after →
    after.length ≤ rest.length ∧ (after.length = rest.length → needle.length ≤ found.length)

inductive Finds (needles : List (List α)) : List α → List α → Prop where
  | here {text found rest} (h : Takes needles text found rest) : Finds needles text found
  | later {text first rest found} (h : Takes needles text first rest)
      (hrest : Finds needles rest found) : Finds needles text found

section Spec

variable {needles : List (List α)} {text found rest found' rest' : List α}

theorem Takes.unique (h : Takes needles text found rest) (h' : Takes needles text found' rest') :
    found = found' ∧ rest = rest' := by
  obtain ⟨before, hsplit⟩ := h.split
  obtain ⟨before', hsplit'⟩ := h'.split
  obtain ⟨hle, hlonger⟩ := h.first found' h'.mem before' rest' hsplit'
  obtain ⟨hle', hlonger'⟩ := h'.first found h.mem before rest hsplit
  have hlength : rest'.length = rest.length := Nat.le_antisymm hle hle'
  have hfound : found.length = found'.length :=
    Nat.le_antisymm (hlonger' hlength.symm) (hlonger hlength)
  have heq := hsplit.symm.trans hsplit'
  obtain ⟨hfront, hrest⟩ := append_inj' heq hlength.symm
  exact ⟨(append_inj' hfront hfound).2, hrest⟩

theorem finds_iff_of_takes (h : Takes needles text found rest) {needle : List α} :
    Finds needles text needle ↔ needle = found ∨ Finds needles rest needle := by
  constructor
  · rintro (h' | ⟨h', hrest⟩)
    · exact .inl (h'.unique h).1
    · rw [(h'.unique h).2] at hrest
      exact .inr hrest
  · rintro (rfl | hrest)
    · exact .here h
    · exact .later h hrest

def Quiet (needles : List (List α)) (text : List α) : Prop :=
  ∀ needle ∈ needles, ¬ needle <:+: text

theorem not_finds_of_quiet (h : Quiet needles text) : ¬ Finds needles text found := by
  rintro (h' | ⟨h', -⟩) <;>
  · obtain ⟨before, hsplit⟩ := h'.split
    exact h _ h'.mem ⟨before, _, hsplit.symm⟩

variable [DecidableEq α]

theorem mem_endingNeedles {seen needle : List α} :
    needle ∈ endingNeedles needles seen ↔ needle ∈ needles ∧ needle <:+ seen.reverse := by
  rw [endingNeedles, List.mem_filter, List.isPrefixOf_iff_prefix, ← List.reverse_suffix,
    List.reverse_reverse]

theorem Quiet.snoc {c : α} (h : Quiet needles text)
    (hnone : ∀ needle ∈ needles, ¬ needle <:+ text ++ [c]) : Quiet needles (text ++ [c]) := by
  intro needle hneedle hoccurs
  rcases List.infix_concat_iff.mp hoccurs with hsuffix | hoccurs
  · exact hnone needle hneedle hsuffix
  · exact h needle hneedle hoccurs

theorem quiet_nil (h : [] ∉ needles) : Quiet needles [] := by
  intro needle hneedle hoccurs
  rw [List.infix_nil.mp hoccurs] at hneedle
  exact h hneedle

theorem takes_of_longest {seen : List α} {c : α} {needle : List α}
    (hquiet : Quiet needles seen.reverse)
    (h : longest (endingNeedles needles (c :: seen)) = some needle) (s : List α) :
    Takes needles (seen.reverse ++ c :: s) needle s := by
  obtain ⟨hmem, hlongest⟩ := longest_eq_some h
  obtain ⟨hneedle, before, hbefore⟩ := mem_endingNeedles.mp hmem
  rw [reverse_cons] at hbefore
  have htext : seen.reverse ++ c :: s = (seen.reverse ++ [c]) ++ s := by simp
  refine ⟨hneedle, ⟨before, by rw [htext, ← hbefore]⟩, fun other hother before' after hsplit => ?_⟩
  rw [htext] at hsplit
  have hle : after.length ≤ s.length := by
    by_contra hlt
    -- it would occur in what has been read before
    have hfront : before' ++ other <+: seen.reverse ++ [c] ++ s := ⟨after, hsplit.symm⟩
    have hseen : seen.reverse <+: seen.reverse ++ [c] ++ s := ⟨[c] ++ s, by simp⟩
    have hprefix : before' ++ other <+: seen.reverse := by
      refine prefix_of_prefix_length_le hfront hseen ?_
      have hlength := congrArg List.length hsplit
      simp only [length_append, List.length_singleton] at hlength ⊢
      omega
    exact hquiet other hother ((suffix_append before' other).isInfix.trans hprefix.isInfix)
  refine ⟨hle, fun hlength => hlongest other (mem_endingNeedles.mpr ⟨hother, before', ?_⟩)⟩
  rw [reverse_cons]
  exact (append_inj' hsplit.symm hlength).1

theorem Quiet.cons_of_longest {seen : List α} {c : α} (h : Quiet needles seen.reverse)
    (hnone : longest (endingNeedles needles (c :: seen)) = none) :
    Quiet needles (c :: seen).reverse := by
  rw [reverse_cons]
  refine h.snoc fun other hother hsuffix => ?_
  have hmem : other ∈ endingNeedles needles (c :: seen) := by
    rw [mem_endingNeedles, reverse_cons]
    exact ⟨hother, hsuffix⟩
  rw [longest_eq_none.mp hnone] at hmem
  cases hmem

/-- **The search takes what it should.** -/
theorem mem_search_iff (hnil : [] ∉ needles) {seen s needle : List α}
    (hquiet : Quiet needles seen.reverse) :
    needle ∈ search needles seen s ↔ Finds needles (seen.reverse ++ s) needle := by
  induction s generalizing seen with
  | nil =>
    rw [append_nil, search]
    simpa using not_finds_of_quiet hquiet
  | cons c s ih =>
    rw [search]
    split
    · rename_i found hfound
      rw [mem_cons, finds_iff_of_takes (takes_of_longest hquiet hfound s),
        ih (by simpa using quiet_nil hnil)]
      rfl
    · rename_i hnone
      rw [ih (hquiet.cons_of_longest hnone), reverse_cons, append_assoc]
      rfl

theorem exists_takes {seen s needle : List α} (hquiet : Quiet needles seen.reverse)
    (h : needle ∈ needles) (hoccurs : needle <:+: seen.reverse ++ s) :
    ∃ found rest, Takes needles (seen.reverse ++ s) found rest := by
  induction s generalizing seen with
  | nil =>
    rw [append_nil] at hoccurs
    exact absurd hoccurs (hquiet needle h)
  | cons c s ih =>
    cases hlongest : longest (endingNeedles needles (c :: seen)) with
    | some found => exact ⟨found, s, takes_of_longest hquiet hlongest s⟩
    | none =>
      have htext : seen.reverse ++ c :: s = (c :: seen).reverse ++ s := by simp
      rw [htext] at hoccurs ⊢
      exact ih (hquiet.cons_of_longest hlongest) hoccurs

/-- **Something of an occurrence is taken.** It ends in it, wherever it starts. -/
theorem exists_finds (hnil : [] ∉ needles) {needle before after : List α} (h : needle ∈ needles)
    (hsplit : text = before ++ needle ++ after) :
    ∃ found, Finds needles text found ∧ found ∈ needles ∧ ∃ before' after',
      text = before' ++ found ++ after' ∧ before.length < before'.length + found.length ∧
      before'.length + found.length ≤ before.length + needle.length := by
  generalize hn : text.length = n
  induction n using Nat.strong_induction_on generalizing text before with
  | _ n ih =>
    have hoccurs : needle <:+: [].reverse ++ text := ⟨before, after, hsplit.symm⟩
    obtain ⟨found, rest, htakes⟩ := exists_takes (quiet_nil hnil) h hoccurs
    change Takes needles text found rest at htakes
    obtain ⟨first, hfirst⟩ := htakes.split
    have hlength := congrArg List.length (hfirst.symm.trans hsplit)
    simp only [length_append] at hlength
    have hends := (htakes.first needle h before after hsplit).1
    by_cases hin : before.length < first.length + found.length
    · exact ⟨found, .here htakes, htakes.mem, first, rest, hfirst, hin, by omega⟩
    · -- it ends before the occurrence, and the search goes on behind it
      have hfront : first ++ found <+: text := ⟨rest, hfirst.symm⟩
      have hbefore : before <+: text := ⟨needle ++ after, by rw [hsplit, append_assoc]⟩
      have hprefix : first ++ found <+: before := by
        refine prefix_of_prefix_length_le hfront hbefore ?_
        rw [length_append]
        omega
      obtain ⟨between, hbetween⟩ := hprefix
      have hrest : rest = between ++ needle ++ after := by
        have heq := hfirst.symm.trans hsplit
        rw [← hbetween, append_assoc, append_assoc] at heq
        simpa using heq
      have hne : found ≠ [] := fun heq => hnil (heq ▸ htakes.mem)
      have hpos : 0 < found.length := List.length_pos_of_ne_nil hne
      have hshorter : rest.length < n := by
        rw [← hn, hfirst, length_append, length_append]
        omega
      obtain ⟨found', hfinds, hmem, before', after', hsplit', hgt, hle⟩ :=
        ih rest.length hshorter hrest rfl
      have hbefore := congrArg List.length hbetween
      simp only [length_append] at hbefore
      refine ⟨found', .later htakes hfinds, hmem, first ++ found ++ before', after', ?_, ?_, ?_⟩
      · rw [hfirst, hsplit']
        simp
      · simp only [length_append]
        omega
      · simp only [length_append]
        omega

def endsIn (found needle : List α) : Bool :=
  needle.inits.tail.any fun front => found.isSuffixOf front || front.isSuffixOf found

theorem endsIn_iff {needle : List α} : endsIn found needle = true ↔
    ∃ front, front ≠ [] ∧ front <+: needle ∧ (found <:+ front ∨ front <:+ found) := by
  have hmem : ∀ front, front ∈ needle.inits.tail ↔ front ≠ [] ∧ front <+: needle := by
    intro front
    cases needle with
    | nil => simp
    | cons c needle =>
      rw [List.inits_cons, List.tail_cons, List.mem_map]
      constructor
      · rintro ⟨rest, hrest, rfl⟩
        exact ⟨List.cons_ne_nil _ _, List.cons_prefix_cons.mpr ⟨rfl, (List.mem_inits _ _).mp hrest⟩⟩
      · rintro ⟨hne, hprefix⟩
        obtain ⟨d, rest, rfl⟩ := List.exists_cons_of_ne_nil hne
        obtain ⟨rfl, hrest⟩ := List.cons_prefix_cons.mp hprefix
        exact ⟨rest, (List.mem_inits _ _).mpr hrest, rfl⟩
  simp only [endsIn, List.any_eq_true, hmem, Bool.or_eq_true, List.isSuffixOf_iff_suffix, and_assoc]

theorem exists_front {needle before after before' after' : List α}
    (hsplit : text = before ++ needle ++ after) (hsplit' : text = before' ++ found ++ after')
    (hlt : before.length < before'.length + found.length)
    (hle : before'.length + found.length ≤ before.length + needle.length) :
    ∃ front, front ≠ [] ∧ front <+: needle ∧ before' ++ found = before ++ front := by
  have hfound : before' ++ found <+: text := ⟨after', hsplit'.symm⟩
  have hneedle : before ++ needle <+: text := ⟨after, hsplit.symm⟩
  have hbefore : before <+: text := (prefix_append before needle).trans hneedle
  obtain ⟨front, hfront⟩ := prefix_of_prefix_length_le hbefore hfound
    (by rw [length_append]; omega)
  have hinside := prefix_of_prefix_length_le hfound hneedle
    (by rw [length_append, length_append]; omega)
  refine ⟨front, fun hnil => ?_, ?_, hfront.symm⟩
  · have hlength := congrArg List.length hfront
    rw [hnil, append_nil, length_append] at hlength
    omega
  · rw [← hfront, List.prefix_append_right_inj] at hinside
    exact hinside

theorem exists_finds_endsIn (hnil : [] ∉ needles) {needle before after : List α}
    (h : needle ∈ needles) (hsplit : text = before ++ needle ++ after) :
    ∃ found ∈ needles, Finds needles text found ∧ ∃ front, front ≠ [] ∧ front <+: needle ∧
      found <:+ before ++ front ∧ endsIn found needle = true := by
  obtain ⟨found, hfinds, hmem, before', after', hsplit', hlt, hle⟩ := exists_finds hnil h hsplit
  obtain ⟨front, hne, hprefix, heq⟩ := exists_front hsplit hsplit' hlt hle
  have hfound : found <:+ before ++ front := ⟨before', heq⟩
  have hends : found <:+ front ∨ front <:+ found :=
    List.suffix_or_suffix_of_suffix hfound (suffix_append before front)
  exact ⟨found, hmem, hfinds, front, hne, hprefix, hfound,
    endsIn_iff.mpr ⟨front, hne, hprefix, hends⟩⟩

theorem Finds.exists_takes (h : Finds needles text found) :
    ∃ skipped text' rest, text = skipped ++ text' ∧ Takes needles text' found rest ∧
      (skipped = [] ∨ ∃ first ∈ needles, first <:+ skipped) := by
  induction h with
  | here htakes => exact ⟨[], _, _, rfl, htakes, .inl rfl⟩
  | @later text first rest found htakes _ ih =>
    obtain ⟨before, hsplit⟩ := htakes.split
    obtain ⟨skipped, text', rest', hrest, hfound, hskipped⟩ := ih
    refine ⟨before ++ first ++ skipped, text', rest', ?_, hfound, .inr ?_⟩
    · rw [hsplit, hrest]
      simp only [append_assoc]
    · rcases hskipped with rfl | ⟨other, hother, hsuffix⟩
      · exact ⟨first, htakes.mem, by simp⟩
      · exact ⟨other, hother, hsuffix.trans (suffix_append _ _)⟩

/-- **What is found is not swallowed** by a start of a needle before it, unless something else ends
in that start. -/
theorem Finds.exists_unswallowed (h : Finds needles text found) :
    ∃ front after, text = front ++ found ++ after ∧
      ∀ before common rest, found = common ++ rest → rest ≠ [] → before ++ common ∈ needles →
        (∀ other ∈ needles, endsIn other before = false) → ¬ before <:+ front := by
  obtain ⟨skipped, text', after, htext, htakes, hskipped⟩ := h.exists_takes
  obtain ⟨between, hbetween⟩ := htakes.split
  refine ⟨skipped ++ between, after, by rw [htext, hbetween]; simp, ?_⟩
  rintro before common rest hrest hpos hswallower hnone ⟨front, hfront⟩
  rcases Nat.lt_or_ge front.length skipped.length with hlt | hge
  · -- it starts in what is skipped, so that something else ends in it
    have hprefix : front <+: skipped :=
      prefix_of_prefix_length_le ⟨before, hfront⟩ (prefix_append _ _) hlt.le
    obtain ⟨common', rfl⟩ := hprefix
    have hne : common' ≠ [] := by
      rintro rfl
      simp at hlt
    rw [append_assoc, List.append_cancel_left_eq] at hfront
    rcases hskipped with hnil | ⟨first, hfirst, hsuffix'⟩
    · exact hne (List.append_eq_nil_iff.mp hnil).2
    · have hends : first <:+ common' ∨ common' <:+ first :=
        List.suffix_or_suffix_of_suffix hsuffix' (suffix_append front common')
      have htrue := endsIn_iff.mpr ⟨common', hne, ⟨between, hfront.symm⟩, hends⟩
      rw [hnone first hfirst] at htrue
      cases htrue
  · -- it is read before what is found
    have hprefix : skipped <+: front :=
      prefix_of_prefix_length_le (prefix_append _ _) ⟨before, hfront⟩ hge
    obtain ⟨middle, rfl⟩ := hprefix
    rw [append_assoc, List.append_cancel_left_eq] at hfront
    have hsplit : text' = middle ++ (before ++ common) ++ (rest ++ after) := by
      rw [hbetween, ← hfront, hrest]
      simp only [append_assoc]
    have hearlier := (htakes.first _ hswallower middle (rest ++ after) hsplit).1
    rw [length_append] at hearlier
    exact hpos (List.length_eq_zero_iff.mp (by omega))

end Spec

end IronClaw.Foundation
