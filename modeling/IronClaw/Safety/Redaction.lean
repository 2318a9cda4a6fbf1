import IronClaw.Foundation.Masking
import IronClaw.Safety.Prefilter

/-!
# Redaction

The ranges that match are taken in the order of their start, and what lies between two is kept. So
behind a range inside of another one, the rest of the outer one is kept.
-/

namespace IronClaw.Safety

open Foundation (Covered Ordered Piece Text Touched collapse cutFrom keep mask)
open LeakDetector (applyRedactions applyRedactionsFrom patternMatches slice)
open List (append_assoc length_take mem_append mem_cons mem_cons_of_mem mem_cons_self mem_singleton)

def slice? (content : Text) (start stop : Nat) : Option Text :=
  if start ≤ stop ∧ stop ≤ content.length then some (slice content start stop) else none

def kept? (content : Text) (lastEnd start : Nat) : Option Text :=
  if lastEnd < start then slice? content lastEnd start else some []

def applyRedactionsChecked (content : Text) (lastEnd : Nat) : List (Nat × Nat) → Option Text
  | [] => kept? content lastEnd content.length
  | (start, stop) :: ranges => do
    let kept ← kept? content lastEnd start
    let rest ← applyRedactionsChecked content stop ranges
    return kept ++ "[REDACTED]".toList ++ rest

theorem slice_of_le {content : Text} {start stop : Nat} (h : stop ≤ start) :
    slice content start stop = [] := by
  rw [slice, List.drop_eq_nil_iff, length_take]
  omega

theorem kept?_eq {content : Text} {lastEnd start : Nat} (h : start ≤ content.length) :
    kept? content lastEnd start = some (slice content lastEnd start) := by
  unfold kept?
  split_ifs with hlt
  · rw [slice?, if_pos ⟨hlt.le, h⟩]
  · rw [slice_of_le (Nat.le_of_not_lt hlt)]

theorem applyRedactionsChecked_eq {content : Text} {lastEnd : Nat} {ranges : List (Nat × Nat)}
    (h : ∀ r ∈ ranges, r.1 ≤ content.length) : applyRedactionsChecked content lastEnd ranges =
      some (applyRedactionsFrom content lastEnd ranges) := by
  induction ranges generalizing lastEnd with
  | nil =>
    rw [applyRedactionsChecked, kept?_eq le_rfl, slice, List.take_length]
    rfl
  | cons r ranges ih =>
    obtain ⟨start, stop⟩ := r
    rw [applyRedactionsChecked, kept?_eq (h _ mem_cons_self),
      ih fun r hr => h r (mem_cons_of_mem _ hr)]
    rfl

/-- The places that are kept behind `lastEnd`, and a marker for each range. -/
def pieces (lastEnd length : Nat) : List (Nat × Nat) → List Piece
  | [] => keep lastEnd length
  | r :: ranges => keep lastEnd r.1 ++ none :: pieces r.2 length ranges

def Piece.text (content : Text) : Piece → Text
  | some i => content[i]?.toList
  | none => "[REDACTED]".toList

def render (content : Text) (ps : List Piece) : Text := ps.flatMap (Piece.text content)

section Render

variable {content : Text}

theorem render_keep {start stop : Nat} (h : stop ≤ content.length) :
    render content (keep start stop) = slice content start stop := by
  rw [render, keep, List.flatMap_map, slice]
  induction hn : stop - start generalizing start with
  | zero =>
    rw [List.drop_eq_nil_of_le (by rw [length_take]; omega)]
    rfl
  | succ n ih =>
    have hin : start < content.length := by omega
    have hlt : start < (content.take stop).length := by
      rw [length_take]
      omega
    have hpiece : Piece.text content (some start) = [content[start]] :=
      congrArg Option.toList (List.getElem?_eq_getElem hin)
    rw [List.range'_succ, List.flatMap_cons, ih (by omega), List.drop_eq_getElem_cons hlt,
      List.getElem_take, hpiece]
    rfl

theorem applyRedactions_eq_render {ranges : List (Nat × Nat)}
    (h : ∀ r ∈ ranges, r.1 ≤ content.length) :
    applyRedactions content ranges = render content (pieces 0 content.length ranges) := by
  have hfrom : ∀ lastEnd, applyRedactionsFrom content lastEnd ranges =
      render content (pieces lastEnd content.length ranges) := by
    induction ranges with
    | nil =>
      intro lastEnd
      rw [pieces, render_keep le_rfl, slice, List.take_length]
      rfl
    | cons r ranges ih =>
      intro lastEnd
      have hkeep : (keep lastEnd r.1).flatMap (Piece.text content) = slice content lastEnd r.1 :=
        render_keep (h r mem_cons_self)
      rw [applyRedactionsFrom, ih fun r hr => h r (mem_cons_of_mem _ hr), pieces, render,
        render, List.flatMap_append, List.flatMap_cons, hkeep, append_assoc]
      rfl
  exact hfrom 0

theorem render_congr {other : Text} {ps : List Piece}
    (h : ∀ i, some i ∈ ps → other[i]? = content[i]?) : render other ps = render content ps := by
  refine List.flatMap_congr fun p hp => ?_
  cases p with
  | none => rfl
  | some i => exact congrArg Option.toList (h i hp)

end Render

/-- A range that ends in an earlier one is followed up. The first argument is how far they reach. -/
def Settled (reached : Nat) : List (Nat × Nat) → Prop
  | [] => True
  | r :: ranges =>
    (r.2 < reached → ∃ next ∈ ranges.head?, next.1 ≤ r.2) ∧ Settled (max reached r.2) ranges

section Settled

variable {length : Nat} {ranges : List (Nat × Nat)}

theorem pieces_eq_cutFrom {lastEnd reached : Nat} (hreached : lastEnd ≤ reached)
    (hlast : lastEnd < reached → ∃ next ∈ ranges.head?, next.1 ≤ lastEnd)
    (h : Settled reached ranges) :
    pieces lastEnd length ranges = cutFrom reached length ranges := by
  induction ranges generalizing lastEnd reached with
  | nil =>
    have heq : lastEnd = reached := by
      refine Nat.le_antisymm hreached (Nat.le_of_not_lt fun hlt => ?_)
      obtain ⟨next, hnext, -⟩ := hlast hlt
      cases hnext
    rw [heq]
    rfl
  | cons r ranges ih =>
    -- nothing is kept in front of a range that starts before the last end
    have hkeep : keep lastEnd r.1 = keep reached r.1 := by
      rcases Nat.eq_or_lt_of_le hreached with rfl | hlt
      · rfl
      · obtain ⟨next, hnext, hle⟩ := hlast hlt
        cases hnext
        rw [Foundation.keep_of_le hle, Foundation.keep_of_le (hle.trans hreached)]
    rw [pieces, cutFrom, hkeep, ih (Nat.le_max_right _ _) (fun hlt => ?_) h.2]
    exact h.1 (by omega)

theorem mem_pieces_of_not_covered {lastEnd i : Nat} (hle : lastEnd ≤ i) (hlt : i < length)
    (h : ¬ Covered ranges i) : some i ∈ pieces lastEnd length ranges := by
  induction ranges generalizing lastEnd with
  | nil => exact Foundation.mem_keep.mpr ⟨hle, hlt⟩
  | cons r ranges ih =>
    rw [Foundation.covered_cons_iff, not_or] at h
    rw [pieces, mem_append, mem_cons]
    rcases Nat.lt_or_ge i r.1 with hi | hi
    · exact .inl (Foundation.mem_keep.mpr ⟨hle, hi⟩)
    · exact .inr (.inr (ih (by omega) h.2))

theorem settled_of_not_mem {lastEnd reached from' : Nat} (h : Ordered length ranges)
    (hfrom : ∀ r ∈ ranges, from' ≤ r.1) (hreached : reached ≤ length)
    (hkept : ∀ i, some i ∈ pieces lastEnd length ranges → ¬ Covered ranges i ∧
      ¬ (from' ≤ i ∧ i < reached)) : Settled reached ranges := by
  induction ranges generalizing lastEnd reached from' with
  | nil => trivial
  | cons r ranges ih =>
    obtain ⟨hle, hstop⟩ := h.within r mem_cons_self
    have hrest : ∀ i, some i ∈ pieces r.2 length ranges →
        some i ∈ pieces lastEnd length (r :: ranges) := fun i hi =>
      mem_append.mpr (.inr (mem_cons_of_mem _ hi))
    refine ⟨fun hlt => ?_, ?_⟩
    · -- otherwise the place behind this range is kept, inside of the earlier one
      by_contra hnext
      have hin : from' ≤ r.2 := (hfrom r mem_cons_self).trans hle
      refine (hkept r.2 (hrest r.2 ?_)).2 ⟨hin, hlt⟩
      cases ranges with
      | nil => exact Foundation.mem_keep.mpr ⟨le_rfl, by omega⟩
      | cons next ranges =>
        have hgt : ¬ next.1 ≤ r.2 := fun hle => hnext ⟨next, rfl, hle⟩
        exact mem_append.mpr (.inl (Foundation.mem_keep.mpr ⟨le_rfl, by omega⟩))
    · have hafter : ∀ r' ∈ ranges, r.1 ≤ r'.1 := fun r' hr' =>
        List.rel_of_pairwise_cons h.sorted hr'
      have hnot : ∀ i, some i ∈ pieces r.2 length ranges → ¬ Covered ranges i ∧
          ¬ (r.1 ≤ i ∧ i < r.2) ∧ ¬ (from' ≤ i ∧ i < reached) := by
        intro i hi
        obtain ⟨hcovered, hbefore⟩ := hkept i (hrest i hi)
        rw [Foundation.covered_cons_iff, not_or] at hcovered
        exact ⟨hcovered.2, hcovered.1, hbefore⟩
      -- the range that ends last is this one or an earlier one
      rcases Nat.le_total r.2 reached with hmax | hmax
      · rw [Nat.max_eq_left hmax]
        exact ih h.tail (fun r' hr' => hfrom r' (mem_cons_of_mem r hr')) hreached
          fun i hi => ⟨(hnot i hi).1, (hnot i hi).2.2⟩
      · rw [Nat.max_eq_right hmax]
        exact ih h.tail hafter hstop fun i hi => ⟨(hnot i hi).1, (hnot i hi).2.1⟩

theorem le_of_mem_pieces {lastEnd low i : Nat} (hlow : low ≤ lastEnd)
    (h : ∀ r ∈ ranges, low ≤ r.1 ∧ r.1 ≤ r.2) (hi : some i ∈ pieces lastEnd length ranges) :
    low ≤ i := by
  induction ranges generalizing lastEnd with
  | nil => exact hlow.trans (Foundation.mem_keep.mp hi).1
  | cons r ranges ih =>
    obtain ⟨hstart, hle⟩ := h r mem_cons_self
    rcases mem_append.mp hi with hi | hi
    · exact hlow.trans (Foundation.mem_keep.mp hi).1
    · rcases mem_cons.mp hi with heq | hi
      · cases heq
      · exact ih (hstart.trans hle) (fun r' hr' => h r' (mem_cons_of_mem r hr')) hi

theorem pieces_split {lastEnd place : Nat} (h : Ordered length ranges)
    (hplace : (place, place) ∈ ranges) :
    ∃ front back, pieces lastEnd length ranges = front ++ none :: back ∧
      (∀ i, some i ∈ front → i < place) ∧ ∀ i, some i ∈ back → place ≤ i := by
  induction ranges generalizing lastEnd with
  | nil => cases hplace
  | cons r ranges ih =>
    have hafter : ∀ r' ∈ ranges, r.1 ≤ r'.1 ∧ r'.1 ≤ r'.2 := fun r' hr' =>
      ⟨List.rel_of_pairwise_cons h.sorted hr', (h.within r' (mem_cons_of_mem r hr')).1⟩
    rcases mem_cons.mp hplace with rfl | hplace
    · exact ⟨keep lastEnd place, pieces place length ranges, rfl,
        fun i hi => (Foundation.mem_keep.mp hi).2, fun i hi => le_of_mem_pieces le_rfl hafter hi⟩
    · obtain ⟨front, back, heq, hfront, hback⟩ := @ih r.2 h.tail hplace
      refine ⟨keep lastEnd r.1 ++ none :: front, back, ?_, fun i hi => ?_, hback⟩
      · rw [pieces, heq, append_assoc]
        rfl
      · rcases mem_append.mp hi with hi | hi
        · exact Nat.lt_of_lt_of_le (Foundation.mem_keep.mp hi).2 (hafter _ hplace).1
        · exact hfront i ((mem_cons.mp hi).resolve_left nofun)

def isBefore (place : Nat) : Piece → Bool
  | none => true
  | some i => decide (i < place)

theorem touched_of_collapse_eq {masked : Nat → Prop} [DecidablePred masked] {place : Nat}
    (h : Ordered length ranges) (hplace : (place, place) ∈ ranges)
    (heq : collapse (pieces 0 length ranges) = collapse (mask masked 0 length)) :
    masked place ∨ 0 < place ∧ masked (place - 1) := by
  by_contra hnot
  rw [not_or, not_and] at hnot
  have hle := (h.within _ hplace).2
  have hlast := Foundation.getLast?_takeWhile_collapse (q := isBefore place) rfl heq
  -- in front of the place, the pieces end with a marker
  have hpieces : ((pieces 0 length ranges).takeWhile (isBefore place)).getLast? = some none := by
    obtain ⟨front, back, hsplit, hfront, hback⟩ := @pieces_split length ranges 0 place h hplace
    have hall : ∀ p ∈ front ++ [none], isBefore place p = true := by
      intro p hp
      rcases mem_append.mp hp with hp | hp
      · cases p with
        | none => rfl
        | some i => exact decide_eq_true (hfront i hp)
      · rw [mem_singleton.mp hp]
        rfl
    -- behind the marker, nothing before the place is kept
    have hnone : ∀ p ∈ none :: back.takeWhile (isBefore place), p = none := by
      intro p hp
      rcases mem_cons.mp hp with rfl | hp
      · rfl
      · cases p with
        | none => rfl
        | some i =>
          have hbefore : isBefore place (some i) = true := List.mem_takeWhile_imp hp
          have hlt : i < place := of_decide_eq_true hbefore
          have hge := hback i ((List.takeWhile_sublist _).subset hp)
          omega
    have hsplit' : pieces 0 length ranges = (front ++ [none]) ++ back := by
      rw [hsplit, append_assoc]
      rfl
    rw [hsplit', List.takeWhile_append_of_pos hall, append_assoc, List.getLast?_append,
      List.singleton_append]
    obtain ⟨p, hp⟩ := Option.ne_none_iff_exists'.mp
      (mt List.getLast?_eq_none_iff.mp (List.cons_ne_nil none (back.takeWhile (isBefore place))))
    rw [hp, hnone p (List.mem_of_getLast? hp)]
    rfl
  -- but masking leaves the place before it there
  have hmask : (mask masked 0 length).takeWhile (isBefore place) = mask masked 0 place := by
    rw [← Foundation.mask_append (Nat.zero_le place) hle, List.takeWhile_append_of_pos]
    · rcases Nat.eq_or_lt_of_le hle with rfl | hlt
      · simp [mask]
      · rw [Foundation.mask_cons hlt, if_neg hnot.1,
          List.takeWhile_cons_of_neg (by simp [isBefore]), List.append_nil]
    · intro p hp
      cases p with
      | none => rfl
      | some i => exact decide_eq_true (Foundation.mem_mask.mp hp).1.2
  rw [hpieces, hmask] at hlast
  cases place with
  | zero => cases hlast
  | succ place =>
    have hkept : ¬ masked place := hnot.2 (Nat.succ_pos place)
    rw [← Foundation.mask_append (Nat.zero_le place) (Nat.le_succ place),
      Foundation.mask_cons (Nat.lt_succ_self place), if_neg hkept] at hlast
    simp [mask] at hlast

/-- **The pieces are those of masking** exactly if the ranges cover what they should, none ends in
an earlier one before something is kept, and empty ones touch something covered. -/
theorem collapse_pieces_iff {all : List (Nat × Nat)} (h : Ordered length ranges)
    (hall : ∀ i, Covered all i → i < length) (hsub : ∀ i, Covered ranges i → Covered all i) :
    collapse (pieces 0 length ranges) = collapse (mask (Covered all) 0 length) ↔
      (∀ i, Covered all i → Covered ranges i) ∧ Settled 0 ranges ∧
        ∀ place, (place, place) ∈ ranges → Touched all place := by
  constructor
  · intro heq
    -- merging markers does not change what is kept
    have hkept : ∀ i, some i ∈ pieces 0 length ranges → ¬ Covered all i := by
      intro i hi
      rw [← Foundation.mem_collapse, heq, Foundation.mem_collapse, Foundation.mem_mask] at hi
      exact hi.2
    refine ⟨fun i hi => ?_, ?_, fun place hplace => ?_⟩
    · by_contra hnot
      exact hkept i (mem_pieces_of_not_covered (Nat.zero_le i) (hall i hi) hnot) hi
    · exact @settled_of_not_mem length ranges 0 0 0 h (fun r _ => Nat.zero_le _) (Nat.zero_le _)
        fun i hi => ⟨mt (hsub i) (hkept i hi), fun hin => Nat.not_lt_zero i hin.2⟩
    · exact touched_of_collapse_eq h hplace heq
  · rintro ⟨hcovers, hsettled, hempty⟩
    have hiff : ∀ i, Covered all i ↔ Covered ranges i := fun i => ⟨hcovers i, hsub i⟩
    rw [pieces_eq_cutFrom le_rfl (by simp) hsettled, Foundation.mask_congr fun i _ _ => hiff i]
    refine Foundation.collapse_cutFrom h fun place hplace => ?_
    exact (hempty place hplace).imp (hcovers _) fun hbefore => ⟨hbefore.1, hcovers _ hbefore.2⟩

end Settled

section Traces

variable (regexes : Regexes) (patterns : List LeakPattern) (content : Text)

def redactMatches : List (Nat × Nat) :=
  (patterns.filter fun pattern => pattern.action == .redact).flatMap fun pattern =>
    regexes.findIter pattern.regex content

def redactRanges : List (Nat × Nat) :=
  ((((withPatterns patterns).matchesAt regexes content
      ((withPatterns patterns).candidateIndices content)).filter fun m => m.action == .redact).map
    fun m => (m.start, m.stop)).insertionSort fun r r' => r.1 ≤ r'.1

def redacted : Text :=
  ((withPatterns patterns).scan regexes content).redactedContent.getD content

/-- Each block that a redacting pattern covers is replaced by markers, the rest is kept, within
bounds. -/
structure Redacts : Prop where
  safe : applyRedactionsChecked content 0 (redactRanges regexes patterns content) =
    some (redacted regexes patterns content)
  rendered : redacted regexes patterns content =
    render content (pieces 0 content.length (redactRanges regexes patterns content))
  masked : collapse (pieces 0 content.length (redactRanges regexes patterns content)) =
    collapse (mask (Covered (redactMatches regexes patterns content)) 0 content.length)
  blind : ∀ other : Text, other.length = content.length →
    redactRanges regexes patterns other = redactRanges regexes patterns content →
    (∀ i, ¬ Covered (redactMatches regexes patterns content) i → other[i]? = content[i]?) →
    redacted regexes patterns other = redacted regexes patterns content

/-- What a redacting pattern covers is reached, a range that ends in an earlier one is followed up,
and empty ranges touch something covered. -/
structure Unbroken : Prop where
  reached : ∀ i, Covered (redactMatches regexes patterns content) i →
    ∃ pattern ∈ patterns, pattern.action = .redact ∧ Reached patterns content pattern ∧
      Covered (regexes.findIter pattern.regex content) i
  settled : Settled 0 (redactRanges regexes patterns content)
  touched : ∀ place, (place, place) ∈ redactRanges regexes patterns content →
    Touched (redactMatches regexes patterns content) place

end Traces

def Regexes.Within (regexes : Regexes) : Prop :=
  ∀ regex content, ∀ r ∈ regexes.findIter regex content, r.1 ≤ r.2 ∧ r.2 ≤ content.length

section Iff

variable {regexes : Regexes} {patterns : List LeakPattern} {content : Text}

theorem covered_redactMatches_iff {i : Nat} : Covered (redactMatches regexes patterns content) i ↔
      ∃ pattern ∈ patterns, pattern.action = .redact ∧
        Covered (regexes.findIter pattern.regex content) i := by
  simp only [Covered, redactMatches, List.mem_flatMap, List.mem_filter, beq_iff_eq]
  constructor
  · rintro ⟨r, ⟨pattern, ⟨hpattern, haction⟩, hr⟩, hin⟩
    exact ⟨pattern, hpattern, haction, r, hr, hin⟩
  · rintro ⟨pattern, hpattern, haction, r, hr, hin⟩
    exact ⟨r, ⟨pattern, ⟨hpattern, haction⟩, hr⟩, hin⟩

theorem mem_redactRanges {r : Nat × Nat} : r ∈ redactRanges regexes patterns content ↔
      ∃ pattern ∈ patterns, pattern.action = .redact ∧ Reached patterns content pattern ∧
        r ∈ regexes.findIter pattern.regex content := by
  rw [redactRanges, List.mem_insertionSort]
  simp only [Detector.matchesAt, patternMatches, List.mem_map, List.mem_filter, List.mem_flatMap,
    List.mem_filterMap, beq_iff_eq]
  constructor
  · rintro ⟨m, ⟨⟨pattern, ⟨idx, hidx, hget⟩, ⟨start, stop⟩, hmatch, rfl⟩, haction⟩, rfl⟩
    obtain ⟨pattern', hget', hreached⟩ := mem_candidateIndices.mp hidx
    have heq : pattern' = pattern := Option.some.inj (hget'.symm.trans hget)
    rw [heq] at hreached
    exact ⟨pattern, List.mem_of_getElem? hget, haction, hreached, hmatch⟩
  · rintro ⟨pattern, hpattern, haction, hreached, hmatch⟩
    obtain ⟨idx, hget⟩ := List.mem_iff_getElem?.mp hpattern
    exact ⟨_, ⟨⟨pattern, ⟨idx, mem_candidateIndices.mpr ⟨pattern, hget, hreached⟩, hget⟩, r,
      hmatch, rfl⟩, haction⟩, rfl⟩

theorem ordered_redactRanges (h : regexes.Within) :
    Ordered content.length (redactRanges regexes patterns content) := by
  refine ⟨?_, fun r hr => ?_⟩
  · have htotal : Std.Total fun r r' : Nat × Nat => r.1 ≤ r'.1 :=
      ⟨fun r r' => Nat.le_total r.1 r'.1⟩
    have htrans : IsTrans (Nat × Nat) fun r r' => r.1 ≤ r'.1 := ⟨fun _ _ _ => Nat.le_trans⟩
    exact List.pairwise_insertionSort _ _
  · obtain ⟨pattern, -, -, -, hmatch⟩ := mem_redactRanges.mp hr
    exact h pattern.regex content r hmatch

theorem redacted_eq : redacted regexes patterns content =
    applyRedactions content (redactRanges regexes patterns content) := by
  change (if (redactRanges regexes patterns content).isEmpty then none else
    some (applyRedactions content (redactRanges regexes patterns content))).getD content = _
  split_ifs with hempty
  · rw [List.isEmpty_iff.mp hempty]
    rfl
  · rfl

/-- **Redaction leaves no trace** if and only if the ranges are unbroken. -/
theorem redacts_iff (regexes : Regexes) (patterns : List LeakPattern) (content : Text)
    (h : regexes.Within) :
    Redacts regexes patterns content ↔ Unbroken regexes patterns content := by
  have hordered : Ordered content.length (redactRanges regexes patterns content) :=
    ordered_redactRanges h
  have hinside : ∀ r ∈ redactRanges regexes patterns content, r.1 ≤ content.length := fun r hr =>
    (hordered.within r hr).1.trans (hordered.within r hr).2
  have hmatches : ∀ i, Covered (redactMatches regexes patterns content) i →
      i < content.length := by
    intro i hi
    obtain ⟨pattern, -, -, r, hr, hin⟩ := covered_redactMatches_iff.mp hi
    exact Nat.lt_of_lt_of_le hin.2 (h pattern.regex content r hr).2
  have hreached : ∀ i, Covered (redactRanges regexes patterns content) i ↔
      ∃ pattern ∈ patterns, pattern.action = .redact ∧ Reached patterns content pattern ∧
        Covered (regexes.findIter pattern.regex content) i := by
    intro i
    constructor
    · rintro ⟨r, hr, hin⟩
      obtain ⟨pattern, hpattern, haction, hreached, hmatch⟩ := mem_redactRanges.mp hr
      exact ⟨pattern, hpattern, haction, hreached, r, hmatch, hin⟩
    · rintro ⟨pattern, hpattern, haction, hreached, r, hmatch, hin⟩
      exact ⟨r, mem_redactRanges.mpr ⟨pattern, hpattern, haction, hreached, hmatch⟩, hin⟩
  have hsub : ∀ i, Covered (redactRanges regexes patterns content) i →
      Covered (redactMatches regexes patterns content) i := by
    intro i hi
    obtain ⟨pattern, hpattern, haction, -, hcovered⟩ := (hreached i).mp hi
    exact covered_redactMatches_iff.mpr ⟨pattern, hpattern, haction, hcovered⟩
  have hiff := collapse_pieces_iff hordered hmatches hsub
  constructor
  · intro hredacts
    obtain ⟨hcovers, hsettled, htouched⟩ := hiff.mp hredacts.masked
    exact ⟨fun i hi => (hreached i).mp (hcovers i hi), hsettled, htouched⟩
  · intro hunbroken
    have hmasked := hiff.mpr ⟨fun i hi => (hreached i).mpr (hunbroken.reached i hi),
      hunbroken.settled, hunbroken.touched⟩
    have hrender : redacted regexes patterns content = _ :=
      redacted_eq.trans (applyRedactions_eq_render hinside)
    refine ⟨?_, hrender, hmasked, fun other hlength hranges hother => ?_⟩
    · rw [applyRedactionsChecked_eq hinside, redacted_eq]
      rfl
    · rw [redacted_eq, hranges, applyRedactions_eq_render (hlength ▸ hinside), hlength, hrender]
      refine render_congr fun i hi => hother i ?_
      -- a place that is kept is not covered
      rw [← Foundation.mem_collapse, hmasked, Foundation.mem_collapse, Foundation.mem_mask] at hi
      exact hi.2

end Iff

def sessionPatterns : List LeakPattern :=
  [⟨"session".toList, "session=[a-z]+".toList, .high, .redact⟩,
    ⟨"dead_code".toList, "dead".toList, .high, .redact⟩]

def sessionRegexes : Regexes where
  findIter regex content :=
    if regex = "session=[a-z]+".toList ∧ content = "session=beef ok".toList then [(0, 12)]
    else if regex = "session=[a-z]+".toList ∧ content = "session=deadbeef".toList then [(0, 16)]
    else if regex = "dead".toList ∧ content = "session=deadbeef".toList then [(8, 12)]
    else []

theorem within_sessionRegexes : sessionRegexes.Within := by
  intro regex content r hr
  simp only [sessionRegexes] at hr
  split_ifs at hr with hbeef hdead hcode
  · rw [mem_singleton.mp hr, hbeef.2]
    decide
  · rw [mem_singleton.mp hr, hdead.2]
    decide
  · rw [mem_singleton.mp hr, hcode.2]
    decide
  · cases hr

theorem redacts_session : Redacts sessionRegexes sessionPatterns "session=beef ok".toList := by
  have hranges : redactRanges sessionRegexes sessionPatterns "session=beef ok".toList =
      [(0, 12)] := by decide
  refine (redacts_iff _ _ _ within_sessionRegexes).mpr ⟨fun i hi => ?_, ?_, ?_⟩
  · refine ⟨_, mem_cons_self, rfl, fun literal hliteral => ?_, ?_⟩
    · cases hliteral
      exact ⟨"session=".toList, mem_search_prefixes.mp (by decide), by decide⟩
    · exact hi
  · rw [hranges]
    exact ⟨by simp, trivial⟩
  · intro place hplace
    rw [hranges] at hplace
    cases mem_singleton.mp hplace

/-- Behind a match inside of another one, the rest of the outer one shows. -/
theorem not_redacts_nested : redacted sessionRegexes sessionPatterns "session=deadbeef".toList =
        "[REDACTED][REDACTED]beef".toList ∧
      ¬ Redacts sessionRegexes sessionPatterns "session=deadbeef".toList := by
  refine ⟨by decide, fun h => ?_⟩
  have hmasked := h.masked
  revert hmasked
  decide

end IronClaw.Safety
