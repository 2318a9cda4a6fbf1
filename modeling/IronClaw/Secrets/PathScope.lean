import IronClaw.Foundation.JsonText

/-!
# The scope of a credential

A request path is in the scope of a prefix if it goes on behind it at the end of a segment, and no
segment decodes to dots or a slash. The query counts as path.
-/

namespace IronClaw.Secrets

open Foundation (Bytes ascii)
open List (any_cons any_eq_false append_assoc append_nil cons_append cons_ne_nil length_cons
  map_append nil_append prefix_append splitOn_cons_eq_if_modifyHead)

def slash : UInt8 := 0x2F

def questionMark : UInt8 := 0x3F

def percent : UInt8 := 0x25

def dot : UInt8 := 0x2E

def hexNibble (b : UInt8) : Option UInt8 :=
  if 0x30 ≤ b ∧ b ≤ 0x39 then some (b - 0x30)
  else if 0x61 ≤ b ∧ b ≤ 0x66 then some (b - 0x61 + 10)
  else if 0x41 ≤ b ∧ b ≤ 0x46 then some (b - 0x41 + 10)
  else none

def escapedByte : Bytes → Option UInt8
  | b :: hi :: lo :: _ =>
    if b = percent then
      match hexNibble hi, hexNibble lo with
      | some hi, some lo => some (hi <<< 4 ||| lo)
      | _, _ => none
    else none
  | _ => none

def percentDecodeFrom : Nat → Bytes → Bytes
  | _, [] => []
  | skip + 1, _ :: bytes => percentDecodeFrom skip bytes
  | 0, b :: bytes =>
    match escapedByte (b :: bytes) with
    | some decoded => decoded :: percentDecodeFrom 2 bytes
    | none => b :: percentDecodeFrom 0 bytes

def percentDecodeBytes (bytes : Bytes) : Bytes := percentDecodeFrom 0 bytes

def isTraversalSegment (segment : Bytes) : Bool :=
  let decoded := percentDecodeBytes segment
  decoded == [dot] || decoded == [dot, dot] || decoded.contains slash

def pathHasDotSegment (path : Bytes) : Bool := (path.splitOn slash).any isTraversalSegment

def stripSlash (path : Bytes) : Bytes :=
  if path.getLast? = some slash then path.dropLast else path

def pathMatchesPrefix (path pathPrefix : Bytes) : Bool :=
  if pathHasDotSegment path then false
  else
    let path := stripSlash path
    let pathPrefix := stripSlash pathPrefix
    if path = pathPrefix then true
    else if pathPrefix.length < path.length ∧ pathPrefix.isPrefixOf path then
      match path[pathPrefix.length]? with
      | some nextChar => nextChar == slash || nextChar == questionMark
      | none => false
    else false

example : pathMatchesPrefix (ascii "/api/v1/users?page=1") (ascii "/api/v1/") = true := by decide

example : pathMatchesPrefix (ascii "/api/v1/.%2E/admin") (ascii "/api/v1") = false := by decide

def pathPart (path : Bytes) : Bytes := path.takeWhile (· ≠ questionMark)

def queryPart (path : Bytes) : Bytes := path.dropWhile (· ≠ questionMark)

/-- One more segment. Two dots take one back, but not the root. -/
def push (segments : List Bytes) (segment : Bytes) : List Bytes :=
  if segment = [dot] then segments
  else if segment = [dot, dot] then if segments = [[]] then segments else segments.dropLast
  else segments ++ [segment]

def resolve (path : Bytes) : List Bytes :=
  ((path.splitOn slash).map percentDecodeBytes).foldl push []

/-- A path is a prefix, or goes on behind it at the end of a segment. -/
def Continues (path pathPrefix : Bytes) : Prop :=
  ∃ rest, path = pathPrefix ++ rest ∧ (rest = [] ∨ rest.head? = some slash ∨
    rest.head? = some questionMark ∨ pathPrefix.getLast? = some slash)

/-- A match resolves to segments that begin with the prefix's. What continues it without traversal
matches. -/
structure Scoped (path pathPrefix : Bytes) : Prop where
  inside : pathMatchesPrefix path pathPrefix = true →
    resolve (stripSlash pathPrefix) <+: resolve (pathPart path)
  complete : Continues path pathPrefix →
    (∀ segment ∈ (pathPart path).splitOn slash, isTraversalSegment segment = false) →
      pathMatchesPrefix path pathPrefix = true

section Decode

variable {c : UInt8} {bytes rest : Bytes}

theorem escapedByte_append (hc : hexNibble c = none) (b : UInt8) (bytes rest : Bytes) :
    escapedByte (b :: (bytes ++ c :: rest)) = escapedByte (b :: bytes) := by
  rcases bytes with _ | ⟨hi, _ | ⟨lo, bytes⟩⟩
  · cases rest with
    | nil => rfl
    | cons d rest =>
      simp only [nil_append, escapedByte, hc]
      split_ifs <;> rfl
  · simp only [cons_append, nil_append, escapedByte, hc]
    split_ifs with hb
    · cases hexNibble hi <;> rfl
    · rfl
  · rfl

theorem two_le_length_of_escapedByte {b d : UInt8} (h : escapedByte (b :: bytes) = some d) :
    2 ≤ bytes.length := by
  rcases bytes with _ | ⟨hi, _ | ⟨lo, bytes⟩⟩
  · cases h
  · cases h
  · rw [length_cons, length_cons]
    omega

theorem percentDecodeFrom_append (hc : hexNibble c = none) (hpercent : c ≠ percent) (rest : Bytes)
    {skip : Nat} (h : skip ≤ bytes.length) : percentDecodeFrom skip (bytes ++ c :: rest) =
      percentDecodeFrom skip bytes ++ c :: percentDecodeBytes rest := by
  induction bytes generalizing skip with
  | nil =>
    obtain rfl : skip = 0 := Nat.le_zero.mp h
    -- what is no digit ends an escape, and begins none
    have hescaped : escapedByte (c :: rest) = none := by
      rcases rest with _ | ⟨hi, _ | ⟨lo, rest⟩⟩
      · rfl
      · rfl
      · rw [escapedByte, if_neg hpercent]
    simp only [nil_append, percentDecodeFrom, hescaped]
    rfl
  | cons b bytes ih =>
    rw [length_cons] at h
    cases skip with
    | succ skip => exact ih (by omega)
    | zero =>
      rw [cons_append, percentDecodeFrom, escapedByte_append hc]
      cases hescaped : escapedByte (b :: bytes) with
      | none =>
        simp only [percentDecodeFrom, hescaped]
        exact congrArg (b :: ·) (ih (Nat.zero_le _))
      | some d =>
        simp only [percentDecodeFrom, hescaped]
        exact congrArg (d :: ·) (ih (two_le_length_of_escapedByte hescaped))

theorem percentDecodeBytes_questionMark (bytes rest : Bytes) :
    percentDecodeBytes (bytes ++ questionMark :: rest) =
      percentDecodeBytes bytes ++ questionMark :: percentDecodeBytes rest :=
  percentDecodeFrom_append (by decide) (by decide) rest (Nat.zero_le _)

theorem percentDecodeBytes_eq_nil_iff : percentDecodeBytes bytes = [] ↔ bytes = [] := by
  cases bytes with
  | nil => exact iff_of_true rfl rfl
  | cons b bytes =>
    refine iff_of_false ?_ (cons_ne_nil b bytes)
    rw [percentDecodeBytes, percentDecodeFrom]
    cases escapedByte (b :: bytes) with
    | none => exact cons_ne_nil _ _
    | some d => exact cons_ne_nil _ _

theorem isTraversalSegment_questionMark (bytes rest : Bytes) :
    isTraversalSegment (bytes ++ questionMark :: rest) =
      ((percentDecodeBytes bytes).contains slash || isTraversalSegment (questionMark :: rest)) := by
  have hdots : ∀ front back : Bytes, front ++ questionMark :: back ≠ [dot] ∧
      front ++ questionMark :: back ≠ [dot, dot] := by
    intro front back
    have hmem : questionMark ∈ front ++ questionMark :: back := by simp
    constructor
    · intro heq
      rw [heq] at hmem
      revert hmem
      decide
    · intro heq
      rw [heq] at hmem
      revert hmem
      decide
  -- with a question mark in it, a segment is no dots, and only a slash is left to look for
  have hquery : isTraversalSegment (questionMark :: rest) =
      (questionMark :: percentDecodeBytes rest).contains slash := by
    have hdecode : percentDecodeBytes (questionMark :: rest) = _ :=
      percentDecodeBytes_questionMark [] rest
    obtain ⟨hone, htwo⟩ := hdots (percentDecodeBytes []) (percentDecodeBytes rest)
    simp only [isTraversalSegment, hdecode]
    rw [beq_false_of_ne hone, beq_false_of_ne htwo]
    rfl
  obtain ⟨hone, htwo⟩ := hdots (percentDecodeBytes bytes) (percentDecodeBytes rest)
  rw [hquery, isTraversalSegment, percentDecodeBytes_questionMark,
    beq_false_of_ne hone, beq_false_of_ne htwo, List.contains_append]
  rfl

end Decode

theorem exists_last_segment (path : Bytes) : ∃ front last, path.splitOn slash = front ++ [last] ∧
      ∀ rest, (path ++ rest).splitOn slash =
        front ++ (rest.splitOn slash).modifyHead (last ++ ·) := by
  induction path with
  | nil =>
    refine ⟨[], [], rfl, fun rest => ?_⟩
    cases h : rest.splitOn slash with
    | nil => exact absurd h (List.splitOn_ne_nil slash rest)
    | cons segment segments => simp [h]
  | cons c path ih =>
    obtain ⟨front, last, hsplit, happend⟩ := ih
    by_cases hc : c = slash
    · refine ⟨[] :: front, last, ?_, fun rest => ?_⟩
      · rw [splitOn_cons_eq_if_modifyHead, if_pos (by simp [hc]), hsplit]
        rfl
      · rw [cons_append, splitOn_cons_eq_if_modifyHead, if_pos (by simp [hc]), happend]
        rfl
    · have hne : ¬ (c == slash) = true := by simpa using hc
      cases front with
      | nil =>
        refine ⟨[], c :: last, ?_, fun rest => ?_⟩
        · rw [splitOn_cons_eq_if_modifyHead, if_neg hne, hsplit]
          rfl
        · rw [cons_append, splitOn_cons_eq_if_modifyHead, if_neg hne, happend]
          cases rest.splitOn slash <;> rfl
      | cons segment front =>
        refine ⟨(c :: segment) :: front, last, ?_, fun rest => ?_⟩
        · rw [splitOn_cons_eq_if_modifyHead, if_neg hne, hsplit]
          rfl
        · rw [cons_append, splitOn_cons_eq_if_modifyHead, if_neg hne, happend]
          rfl

theorem foldl_push_of_not_dots {segments : List Bytes}
    (h : ∀ segment ∈ segments, segment ≠ [dot] ∧ segment ≠ [dot, dot]) (acc : List Bytes) :
    segments.foldl push acc = acc ++ segments := by
  induction segments generalizing acc with
  | nil => simp
  | cons segment segments ih =>
    obtain ⟨⟨hone, htwo⟩, hrest⟩ := List.forall_mem_cons.mp h
    rw [List.foldl_cons, push, if_neg hone, if_neg htwo, ih hrest, append_assoc]
    rfl

section Boundary

variable {path pathPrefix rest : Bytes}

theorem stripSlash_append_slash (path : Bytes) : stripSlash (path ++ [slash]) = path := by
  rw [stripSlash, if_pos (by simp), List.dropLast_concat]

theorem stripSlash_of_ne (h : path.getLast? ≠ some slash) : stripSlash path = path := by
  rw [stripSlash, if_neg h]

theorem eq_stripSlash_or (path : Bytes) :
    (path = stripSlash path ∧ path.getLast? ≠ some slash) ∨ path = stripSlash path ++ [slash] := by
  by_cases hlast : path.getLast? = some slash
  · obtain ⟨front, rfl⟩ := List.getLast?_eq_some_iff.mp hlast
    exact .inr (by rw [stripSlash_append_slash])
  · exact .inl ⟨(stripSlash_of_ne hlast).symm, hlast⟩

theorem stripSlash_append (hne : rest ≠ []) (path : Bytes) :
    stripSlash (path ++ rest) = path ++ stripSlash rest := by
  rcases eq_stripSlash_or rest with ⟨-, hlast⟩ | heq
  · rw [stripSlash_of_ne hlast, stripSlash_of_ne]
    rwa [List.getLast?_append_of_ne_nil path hne]
  · rw [heq, ← append_assoc, stripSlash_append_slash, stripSlash_append_slash]

theorem head?_stripSlash {c : UInt8} (h : rest.head? = some c) :
    rest = [slash] ∨ (stripSlash rest).head? = some c := by
  rcases eq_stripSlash_or rest with ⟨-, hlast⟩ | heq
  · rw [stripSlash_of_ne hlast]
    exact .inr h
  · cases hstrip : stripSlash rest with
    | nil =>
      rw [hstrip] at heq
      exact .inl heq
    | cons d front =>
      rw [heq, hstrip] at h
      exact .inr h

theorem next_iff {p : UInt8 → Bool} :
    (pathPrefix.length < path.length ∧ pathPrefix.isPrefixOf path = true ∧
      (match path[pathPrefix.length]? with
        | some nextChar => p nextChar
        | none => false) = true) ↔
      ∃ rest c, path = pathPrefix ++ rest ∧ rest.head? = some c ∧ p c = true := by
  constructor
  · rintro ⟨hlt, hbegins, hnext⟩
    obtain ⟨rest, rfl⟩ := List.isPrefixOf_iff_prefix.mp hbegins
    rw [List.getElem?_append_right (Nat.le_refl _), Nat.sub_self] at hnext
    cases rest with
    | nil => simp at hlt
    | cons c rest => exact ⟨c :: rest, c, rfl, rfl, hnext⟩
  · rintro ⟨rest, c, rfl, hhead, hc⟩
    obtain ⟨rest', rfl⟩ := List.head?_eq_some_iff.mp hhead
    refine ⟨by simp, List.isPrefixOf_iff_prefix.mpr (prefix_append _ _), ?_⟩
    rw [List.getElem?_append_right (Nat.le_refl _), Nat.sub_self]
    exact hc

/-- **A match goes on at a boundary** behind the prefix without its slash. -/
theorem pathMatchesPrefix_iff : pathMatchesPrefix path pathPrefix = true ↔
    pathHasDotSegment path = false ∧ ((path = stripSlash pathPrefix ∧ path.getLast? ≠ some slash) ∨
        ∃ rest, path = stripSlash pathPrefix ++ rest ∧
          (rest.head? = some slash ∨ rest.head? = some questionMark)) := by
  have hmatch : pathMatchesPrefix path pathPrefix = true ↔ pathHasDotSegment path = false ∧
      (stripSlash path = stripSlash pathPrefix ∨ ∃ rest c,
        stripSlash path = stripSlash pathPrefix ++ rest ∧ rest.head? = some c ∧
          (c == slash || c == questionMark) = true) := by
    rw [← next_iff (p := fun c => c == slash || c == questionMark)]
    unfold pathMatchesPrefix
    cases pathHasDotSegment path with
    | true => simp
    | false =>
      by_cases heq : stripSlash path = stripSlash pathPrefix
      · simp [heq]
      · simp only [heq, false_or, Bool.false_eq_true, if_false, true_and]
        split_ifs with hlonger
        · exact ⟨fun h => ⟨hlonger.1, hlonger.2, h⟩, fun h => h.2.2⟩
        · exact iff_of_false not_false fun h => hlonger ⟨h.1, h.2.1⟩
  rw [hmatch]
  refine and_congr_right fun _ => ?_
  simp only [Bool.or_eq_true, beq_iff_eq]
  constructor
  · rintro (heq | ⟨rest, c, heq, hhead, hc⟩)
    · rcases eq_stripSlash_or path with ⟨hpath, hlast⟩ | hpath
      · exact .inl ⟨hpath.trans heq, hlast⟩
      · exact .inr ⟨[slash], by rw [← heq]; exact hpath, .inl rfl⟩
    · have hboundary : rest.head? = some slash ∨ rest.head? = some questionMark := by
        rcases hc with rfl | rfl
        · exact .inl hhead
        · exact .inr hhead
      rcases eq_stripSlash_or path with ⟨hpath, -⟩ | hpath
      · exact .inr ⟨rest, hpath.trans heq, hboundary⟩
      · -- the slash that is left out comes behind
        have hlonger : (rest ++ [slash]).head? = rest.head? := by
          rw [List.head?_append, hhead]
          rfl
        refine .inr ⟨rest ++ [slash], ?_, by rwa [hlonger]⟩
        rw [← append_assoc, ← heq]
        exact hpath
  · rintro (⟨heq, hlast⟩ | ⟨rest, heq, hhead⟩)
    · exact .inl (by rw [stripSlash_of_ne hlast]; exact heq)
    · have hne : rest ≠ [] := by
        rintro rfl
        rcases hhead with h | h <;> cases h
      rw [heq, stripSlash_append hne]
      rcases hhead with hhead | hhead
      · rcases head?_stripSlash hhead with rfl | hstrip
        · exact .inl (by rw [show stripSlash [slash] = [] from rfl, append_nil])
        · exact .inr ⟨_, slash, rfl, hstrip, .inl rfl⟩
      · rcases head?_stripSlash hhead with rfl | hstrip
        · cases hhead
        · exact .inr ⟨_, questionMark, rfl, hstrip, .inr rfl⟩

theorem Continues.boundary (h : Continues path pathPrefix) :
    (path = stripSlash pathPrefix ∧ path.getLast? ≠ some slash) ∨
      ∃ rest, path = stripSlash pathPrefix ++ rest ∧
        (rest.head? = some slash ∨ rest.head? = some questionMark) := by
  obtain ⟨rest, hpath, hboundary⟩ := h
  rcases eq_stripSlash_or pathPrefix with ⟨heq, hlast⟩ | heq
  · rcases hboundary with rfl | hslash | hquestion | hslash
    · rw [append_nil] at hpath
      exact .inl ⟨hpath.trans heq, by rw [hpath]; exact hlast⟩
    · exact .inr ⟨rest, by rw [← heq]; exact hpath, .inl hslash⟩
    · exact .inr ⟨rest, by rw [← heq]; exact hpath, .inr hquestion⟩
    · exact absurd hslash hlast
  · refine .inr ⟨slash :: rest, ?_, .inl rfl⟩
    rw [hpath, heq, append_assoc, stripSlash_append_slash]
    rfl

end Boundary

section Query

variable {path : Bytes}

theorem pathPart_append_queryPart (path : Bytes) : pathPart path ++ queryPart path = path :=
  List.takeWhile_append_dropWhile

theorem pathPart_append {front : Bytes} (h : questionMark ∉ front) (rest : Bytes) :
    pathPart (front ++ rest) = front ++ pathPart rest :=
  List.takeWhile_append_of_pos fun c hc => by
    simpa using fun heq : c = questionMark => h (heq ▸ hc)

theorem queryPart_eq_nil_or (path : Bytes) :
    queryPart path = [] ∨ ∃ rest, queryPart path = questionMark :: rest := by
  cases h : queryPart path with
  | nil => exact .inl rfl
  | cons c rest =>
    have hhead := List.head?_dropWhile_not (· ≠ questionMark) path
    rw [show path.dropWhile (· ≠ questionMark) = c :: rest from h] at hhead
    have hc : c = questionMark := by simpa using hhead
    exact .inr ⟨rest, by rw [hc]⟩

theorem splitOn_questionMark (rest : Bytes) : ∃ first segments,
      (questionMark :: rest).splitOn slash = (questionMark :: first) :: segments := by
  obtain ⟨first, segments, h⟩ := List.exists_cons_of_ne_nil (List.splitOn_ne_nil slash rest)
  refine ⟨first, segments, ?_⟩
  rw [splitOn_cons_eq_if_modifyHead, if_neg (by decide), h]
  rfl

theorem pathHasDotSegment_eq
    (h : ∀ segment ∈ (pathPart path).splitOn slash, isTraversalSegment segment = false) :
    pathHasDotSegment path = pathHasDotSegment (queryPart path) := by
  obtain ⟨front, last, hsplit, happend⟩ := exists_last_segment (pathPart path)
  rw [hsplit] at h
  have hfront : front.any isTraversalSegment = false :=
    any_eq_false.mpr fun segment hsegment => by
      simp [h segment (List.mem_append_left _ hsegment)]
  have hlast := h last (by simp)
  rw [pathHasDotSegment, ← pathPart_append_queryPart path, happend,
    pathPart_append_queryPart, List.any_append, hfront, Bool.false_or]
  rcases queryPart_eq_nil_or path with hquery | ⟨rest, hquery⟩
  · rw [hquery]
    simp only [List.splitOn_nil, List.modifyHead_cons, append_nil, any_cons, hlast,
      List.any_nil]
    rfl
  · obtain ⟨first, segments, hsegments⟩ := splitOn_questionMark rest
    have hslash : (percentDecodeBytes last).contains slash = false := by
      rw [isTraversalSegment, Bool.or_eq_false_iff] at hlast
      exact hlast.2
    rw [hquery, pathHasDotSegment, hsegments, List.modifyHead_cons, any_cons, any_cons,
      isTraversalSegment_questionMark, hslash, Bool.false_or]

theorem not_dots_of_not_traversal {segment : Bytes} (h : isTraversalSegment segment = false) :
    percentDecodeBytes segment ≠ [dot] ∧ percentDecodeBytes segment ≠ [dot, dot] := by
  rw [isTraversalSegment, Bool.or_eq_false_iff, Bool.or_eq_false_iff] at h
  exact ⟨ne_of_beq_false h.1.1, ne_of_beq_false h.1.2⟩

theorem foldl_push_map {segments : List Bytes}
    (h : ∀ segment ∈ segments, isTraversalSegment segment = false) (acc : List Bytes) :
    (segments.map percentDecodeBytes).foldl push acc = acc ++ segments.map percentDecodeBytes := by
  refine foldl_push_of_not_dots (fun segment hsegment => ?_) acc
  obtain ⟨raw, hraw, rfl⟩ := List.mem_map.mp hsegment
  exact not_dots_of_not_traversal (h raw hraw)

theorem map_decode_eq_root_iff {path : Bytes} :
    (path.splitOn slash).map percentDecodeBytes = [[]] ↔ path = [] := by
  constructor
  · intro h
    obtain ⟨segment, hsegment, hdecode⟩ := List.map_eq_singleton_iff.mp h
    have hjoin : [slash].intercalate (path.splitOn slash) = path := List.intercalate_splitOn slash
    rw [hsegment, List.intercalate_singleton, percentDecodeBytes_eq_nil_iff.mp hdecode] at hjoin
    exact hjoin.symm
  · rintro rfl
    rfl

end Query

/-- No segment climbs out before the query unless rejected, and queries have no traversal segment.
-/
structure InBounds (path pathPrefix : Bytes) : Prop where
  noClimb : ∀ segment rest,
    path = stripSlash pathPrefix ++ slash :: (segment ++ questionMark :: rest) →
      percentDecodeBytes segment = [dot, dot] →
        stripSlash pathPrefix = [] ∨ pathHasDotSegment path = true
  query : Continues path pathPrefix →
    (∀ segment ∈ (pathPart path).splitOn slash, isTraversalSegment segment = false) →
      pathHasDotSegment (queryPart path) = false

section Scoped

variable {path pathPrefix : Bytes}

theorem not_mem_stripSlash {c : UInt8} (h : c ∉ pathPrefix) : c ∉ stripSlash pathPrefix := by
  unfold stripSlash
  split_ifs
  · exact fun hmem => h (List.mem_of_mem_dropLast hmem)
  · exact h

theorem not_mem_of_decode_eq_dots {segment : Bytes} (h : percentDecodeBytes segment = [dot, dot])
    {c : UInt8} (hc : hexNibble c = none) (hpercent : c ≠ percent) (hdot : c ≠ dot) :
    c ∉ segment := by
  intro hmem
  obtain ⟨front, back, rfl⟩ := List.append_of_mem hmem
  have hdecode : percentDecodeBytes (front ++ c :: back) = _ :=
    percentDecodeFrom_append hc hpercent back (Nat.zero_le _)
  have hmem' : c ∈ [dot, dot] := by
    rw [← h, hdecode]
    simp
  exact hdot (by simpa using hmem')

theorem any_splitOn_append_slash (front rest : Bytes) : pathHasDotSegment (front ++ slash :: rest) =
      (pathHasDotSegment front || pathHasDotSegment rest) := by
  rw [pathHasDotSegment, List.splitOn_append_cons_self, List.any_append]
  rfl

theorem resolve_eq_map (h : pathHasDotSegment path = false) :
    resolve path = (path.splitOn slash).map percentDecodeBytes := by
  rw [resolve, foldl_push_map fun segment hsegment => by
    simpa using any_eq_false.mp h segment hsegment]
  rfl

theorem prefix_resolve_append {scope rest : Bytes}
    (h : pathHasDotSegment (scope ++ slash :: rest) = false)
    (hclimb : ∀ segment query, rest = segment ++ questionMark :: query →
      percentDecodeBytes segment = [dot, dot] → scope = []) :
    resolve scope <+: resolve (scope ++ slash :: pathPart rest) := by
  rw [any_splitOn_append_slash, Bool.or_eq_false_iff] at h
  obtain ⟨front, last, hsplit, happend⟩ := exists_last_segment (pathPart rest)
  have hrest : ∀ segment ∈ rest.splitOn slash, isTraversalSegment segment = false :=
    fun segment hsegment => by simpa using any_eq_false.mp h.2 segment hsegment
  have hsplit' := happend (queryPart rest)
  rw [pathPart_append_queryPart] at hsplit'
  have hscope : ∀ segment ∈ scope.splitOn slash, isTraversalSegment segment = false :=
    fun segment hsegment => by simpa using any_eq_false.mp h.1 segment hsegment
  have hfront : ∀ segment ∈ scope.splitOn slash ++ front, isTraversalSegment segment = false := by
    intro segment hsegment
    rcases List.mem_append.mp hsegment with hsegment | hsegment
    · exact hscope segment hsegment
    · exact hrest segment (by rw [hsplit']; exact List.mem_append_left _ hsegment)
  have hresolve : resolve (scope ++ slash :: pathPart rest) =
      push ((scope.splitOn slash).map percentDecodeBytes ++ front.map percentDecodeBytes)
        (percentDecodeBytes last) := by
    rw [resolve, List.splitOn_append_cons_self, hsplit, ← append_assoc, map_append,
      List.foldl_append, foldl_push_map hfront, map_append]
    rfl
  rw [hresolve, resolve_eq_map h.1]
  unfold push
  split_ifs with hone htwo hroot
  · exact prefix_append _ _
  · exact prefix_append _ _
  · -- the last segment climbs
    cases front with
    | cons segment front =>
      rw [List.dropLast_append_of_ne_nil (by simp)]
      exact prefix_append _ _
    | nil =>
      exfalso
      rw [List.map_nil, append_nil] at hroot
      refine hroot (map_decode_eq_root_iff.mpr ?_)
      have hpart : pathPart rest = last := by
        have hjoin : [slash].intercalate ((pathPart rest).splitOn slash) = pathPart rest :=
          List.intercalate_splitOn slash
        rw [hsplit, nil_append, List.intercalate_singleton] at hjoin
        exact hjoin.symm
      rcases queryPart_eq_nil_or rest with hquery | ⟨query, hquery⟩
      · -- without a query it is rejected
        have hlast := hrest last (by rw [hsplit', hquery]; simp)
        exact absurd htwo (not_dots_of_not_traversal hlast).2
      · refine hclimb last query ?_ htwo
        rw [← hpart, ← hquery, pathPart_append_queryPart]
  · rw [append_assoc]
    exact prefix_append _ _

theorem not_prefix_resolve_climb {scope segment : Bytes} (h : pathHasDotSegment scope = false)
    (hscope : scope ≠ []) (hsegment : percentDecodeBytes segment = [dot, dot]) :
    ¬ resolve scope <+: resolve (scope ++ slash :: segment) := by
  have hslash : slash ∉ segment :=
    not_mem_of_decode_eq_dots hsegment (by decide) (by decide) (by decide)
  have hroot : (scope.splitOn slash).map percentDecodeBytes ≠ [[]] :=
    mt map_decode_eq_root_iff.mp hscope
  have hresolve : resolve (scope ++ slash :: segment) =
      ((scope.splitOn slash).map percentDecodeBytes).dropLast := by
    have hfold : ((scope.splitOn slash).map percentDecodeBytes).foldl push [] = [] ++ _ :=
      foldl_push_map (fun s hs => by simpa using any_eq_false.mp h s hs) []
    rw [resolve, List.splitOn_append_cons_self, List.splitOn_eq_singleton hslash, map_append,
      List.foldl_append, hfold, List.map_singleton, hsegment, List.foldl_cons, List.foldl_nil,
      nil_append, push, if_neg (by decide), if_pos rfl, if_neg hroot]
  intro hle
  have hlength := hle.length_le
  have hpos : 0 < (scope.splitOn slash).length :=
    List.length_pos_of_ne_nil (List.splitOn_ne_nil slash scope)
  rw [hresolve, resolve_eq_map h, List.length_dropLast, List.length_map] at hlength
  omega

/-- **Paths are scoped** exactly if no segment climbs out of the prefix, and no query looks like
traversal. -/
theorem scoped_iff (path pathPrefix : Bytes) (h : questionMark ∉ pathPrefix) :
    Scoped path pathPrefix ↔ InBounds path pathPrefix := by
  have hscope : questionMark ∉ stripSlash pathPrefix := not_mem_stripSlash h
  have hbehind : ∀ rest, pathPart (stripSlash pathPrefix ++ slash :: rest) =
      stripSlash pathPrefix ++ slash :: pathPart rest := fun rest => by
    rw [pathPart_append hscope]
    rfl
  constructor
  · intro hscoped
    refine ⟨fun segment rest hpath hsegment => ?_, fun hcontinues hclean => ?_⟩
    · -- it would match, and resolve to what is outside
      by_contra hnot
      rw [not_or, Bool.not_eq_true] at hnot
      have hmatch := pathMatchesPrefix_iff.mpr
        ⟨hnot.2, .inr ⟨slash :: (segment ++ questionMark :: rest), hpath, .inl rfl⟩⟩
      have hquestion : questionMark ∉ segment :=
        not_mem_of_decode_eq_dots hsegment (by decide) (by decide) (by decide)
      have hpart : pathPart path = stripSlash pathPrefix ++ slash :: segment := by
        rw [hpath, hbehind, pathPart_append hquestion]
        simp [pathPart]
      have hinside := hscoped.inside hmatch
      have hdots := hnot.2
      rw [hpath, any_splitOn_append_slash, Bool.or_eq_false_iff] at hdots
      rw [hpart] at hinside
      exact not_prefix_resolve_climb hdots.1 hnot.1 hsegment hinside
    · have hmatch := hscoped.complete hcontinues hclean
      rw [← pathHasDotSegment_eq hclean]
      exact (pathMatchesPrefix_iff.mp hmatch).1
  · intro hbounds
    refine ⟨fun hmatch => ?_, fun hcontinues hclean => ?_⟩
    · obtain ⟨hdots, hboundary⟩ := pathMatchesPrefix_iff.mp hmatch
      rcases hboundary with ⟨rfl, -⟩ | ⟨rest, hpath, hhead⟩
      · have hpart : pathPart (stripSlash pathPrefix) = stripSlash pathPrefix := by
          have hall := pathPart_append hscope []
          rwa [append_nil, show pathPart [] = [] from rfl, append_nil] at hall
        rw [hpart]
      · rcases hhead with hhead | hhead
        · obtain ⟨rest, rfl⟩ := List.head?_eq_some_iff.mp hhead
          rw [hpath, hbehind]
          refine prefix_resolve_append (hpath ▸ hdots) fun segment query hrest hsegment => ?_
          refine (hbounds.noClimb segment query (by rw [hpath, hrest]) hsegment).resolve_right ?_
          rw [hdots]
          exact Bool.false_ne_true
        · obtain ⟨rest, rfl⟩ := List.head?_eq_some_iff.mp hhead
          rw [hpath, pathPart_append hscope]
          simp [pathPart]
    · refine pathMatchesPrefix_iff.mpr ⟨?_, hcontinues.boundary⟩
      rw [pathHasDotSegment_eq hclean]
      exact hbounds.query hcontinues hclean

theorem scoped_users : Scoped (ascii "/api/v1/users?page=1") (ascii "/api/v1") := by
  refine (scoped_iff _ _ (by decide)).mpr ⟨fun segment rest hpath hsegment => ?_, fun _ _ => ?_⟩
  · have hquestion : questionMark ∉ segment :=
      not_mem_of_decode_eq_dots hsegment (by decide) (by decide) (by decide)
    have hrest : ascii "users?page=1" = segment ++ questionMark :: rest := by
      have hpath' : ascii "/api/v1/" ++ ascii "users?page=1" =
          ascii "/api/v1/" ++ (segment ++ questionMark :: rest) := hpath
      exact List.append_cancel_left hpath'
    have hpart := congrArg pathPart hrest
    rw [pathPart_append hquestion] at hpart
    have husers : ascii "users" = segment := by
      have hnone : pathPart (questionMark :: rest) = [] := by simp [pathPart]
      rw [hnone, append_nil] at hpart
      exact hpart
    rw [← husers] at hsegment
    revert hsegment
    decide
  · decide

/-- Two dots in front of a question mark are not seen, and a slash in a query is. -/
theorem not_scoped_climb : pathMatchesPrefix (ascii "/api/v1/%2e%2e?x") (ascii "/api/v1") = true ∧
      resolve (pathPart (ascii "/api/v1/%2e%2e?x")) = [[], ascii "api"] ∧
      ¬ Scoped (ascii "/api/v1/%2e%2e?x") (ascii "/api/v1") ∧
      ¬ Scoped (ascii "/api/v1?next=%2Fhome") (ascii "/api/v1") := by
  refine ⟨by decide, by decide, fun h => ?_, fun h => ?_⟩
  · have hinside := h.inside (by decide)
    revert hinside
    decide
  · have hmatch := h.complete ⟨ascii "?next=%2Fhome", by decide, .inr (.inr (.inl rfl))⟩ (by decide)
    revert hmatch
    decide

end Scoped

end IronClaw.Secrets
