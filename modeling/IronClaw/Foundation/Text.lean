import Mathlib.Data.List.TakeWhile
import Mathlib.Algebra.GroupWithZero.Nat
import Mathlib.Algebra.Group.Int.Defs

/-!
# Texts

A text whose characters matter is a list of characters. The operations are the ones of a string
library, with those that disregard ASCII case.
-/

namespace IronClaw.Foundation

abbrev Text := List Char

instance : LawfulBEq Text := List.instLawfulBEq

namespace Text

def replaceChar (a b : Char) (s : Text) : Text := s.map fun c => if c = a then b else c

/-- The characters with Unicode's `White_Space` property. -/
def isWhitespace (c : Char) : Bool :=
  let n := c.toNat
  (9 ≤ n && n ≤ 13) || n == 0x20 || n == 0x85 || n == 0xA0 || n == 0x1680 ||
    (0x2000 ≤ n && n ≤ 0x200A) || n == 0x2028 || n == 0x2029 || n == 0x202F || n == 0x205F ||
    n == 0x3000

def toAsciiLowercase (s : Text) : Text := s.map Char.toLower

def eqIgnoreAsciiCase (s t : Text) : Bool := toAsciiLowercase s == toAsciiLowercase t

def trimStartMatches (p : Char → Bool) (s : Text) : Text := s.dropWhile p

def trimEndMatches (p : Char → Bool) (s : Text) : Text := (s.reverse.dropWhile p).reverse

def trimMatches (p : Char → Bool) (s : Text) : Text := trimEndMatches p (trimStartMatches p s)

/-- The text without leading and trailing white space. -/
def trim (s : Text) : Text := trimMatches isWhitespace s

variable {p : Char → Bool} {s : Text}

theorem trimEndMatches_eq_nil_iff : trimEndMatches p s = [] ↔ ∀ c ∈ s, p c = true := by
  rw [trimEndMatches, List.reverse_eq_nil_iff, List.dropWhile_eq_nil_iff]
  simp only [List.mem_reverse]

theorem trimMatches_eq_nil_iff : trimMatches p s = [] ↔ ∀ c ∈ s, p c = true := by
  rw [trimMatches, trimEndMatches_eq_nil_iff, trimStartMatches]
  constructor
  · intro h
    rw [← List.dropWhile_eq_nil_iff]
    by_contra hne
    -- the first character that stays does not pass
    have hhead := List.head_dropWhile_not p hne
    have hpass := h _ (List.head_mem hne)
    rw [hpass] at hhead
    cases hhead
  · exact fun h c hc => h c ((List.dropWhile_sublist p).mem hc)

theorem trimEndMatches_prefix (p : Char → Bool) (s : Text) : trimEndMatches p s <+: s := by
  have hsuffix := List.dropWhile_suffix p (l := s.reverse)
  rw [← List.reverse_prefix, List.reverse_reverse] at hsuffix
  exact hsuffix

theorem head?_trimMatches {c : Char} (hc : p c = false) (s : Text) :
    (trimMatches p (c :: s)).head? = some c := by
  have hstart : trimStartMatches p (c :: s) = c :: s := by simp [trimStartMatches, hc]
  rw [trimMatches, hstart]
  have hprefix := trimEndMatches_prefix p (c :: s)
  cases h : trimEndMatches p (c :: s) with
  | nil =>
    have hpass := trimEndMatches_eq_nil_iff.mp h c (List.mem_cons_self ..)
    rw [hc] at hpass
    cases hpass
  | cons d t =>
    rw [h] at hprefix
    rw [(List.cons_prefix_cons.mp hprefix).1]
    rfl

theorem trim_eq_self (h : ∀ c ∈ s, isWhitespace c = false) : trim s = s := by
  have hdrop : ∀ t : Text, (∀ c ∈ t, isWhitespace c = false) → t.dropWhile isWhitespace = t := by
    intro t ht
    cases t with
    | nil => rfl
    | cons c t => rw [List.dropWhile_cons_of_neg (by simp [ht c List.mem_cons_self])]
  rw [trim, trimMatches, trimStartMatches, hdrop s h, trimEndMatches,
    hdrop _ fun c hc => h c (List.mem_reverse.mp hc), List.reverse_reverse]

/-- The pieces between the occurrences. -/
def splitOn (sep : Char) : Text → List Text
  | [] => [[]]
  | c :: s =>
    if c = sep then [] :: splitOn sep s
    else
      match splitOn sep s with
      | [] => [[c]]
      | piece :: pieces => (c :: piece) :: pieces

def rsplitOnce (sep : Char) : Text → Option (Text × Text)
  | [] => none
  | c :: s =>
    match rsplitOnce sep s with
    | some (front, back) => some (c :: front, back)
    | none => if c = sep then some ([], s) else none

theorem rsplitOnce_eq_none_iff {sep : Char} : rsplitOnce sep s = none ↔ sep ∉ s := by
  induction s with
  | nil => simp [rsplitOnce]
  | cons c s ih =>
    rw [rsplitOnce, List.mem_cons, not_or, ← ih]
    cases h : rsplitOnce sep s <;> simp [eq_comm]

theorem rsplitOnce_eq_some_iff {sep : Char} {s front back : Text} :
    rsplitOnce sep s = some (front, back) ↔ s = front ++ sep :: back ∧ sep ∉ back := by
  induction s generalizing front back with
  | nil => simp [rsplitOnce]
  | cons c s ih =>
    cases front with
    | nil =>
      rw [rsplitOnce, List.nil_append, List.cons.injEq]
      cases h : rsplitOnce sep s with
      | some p =>
        obtain ⟨hs, -⟩ := ih.mp h
        simp only [Option.some.injEq, Prod.mk.injEq, reduceCtorEq, false_and, false_iff, not_and,
          Classical.not_not]
        rintro ⟨-, rfl⟩
        rw [hs]
        exact List.mem_append_right _ List.mem_cons_self
      | none =>
        have hmem := rsplitOnce_eq_none_iff.mp h
        constructor
        · intro heq
          dsimp only at heq
          split_ifs at heq with hc
          cases heq
          exact ⟨⟨hc, rfl⟩, hmem⟩
        · rintro ⟨⟨hc, rfl⟩, -⟩
          exact if_pos hc
    | cons d front =>
      rw [rsplitOnce, List.cons_append, List.cons.injEq, and_assoc, ← ih]
      cases h : rsplitOnce sep s with
      | some p => simp [eq_comm, Prod.ext_iff, and_assoc]
      | none => simp

def joinWith (sep : Text) (pieces : List Text) : Text := sep.intercalate pieces

def find? (pat : Text) : Text → Option (Text × Text)
  | [] => if pat.isEmpty then some ([], []) else none
  | c :: s =>
    if pat.isPrefixOf (c :: s) then some ([], (c :: s).drop pat.length)
    else (find? pat s).map fun r => (c :: r.1, r.2)

def hasInfix (pat s : Text) : Bool := (find? pat s).isSome

/-- Every occurrence of a nonempty pattern replaced; the first argument counts characters still
inside the last one. -/
def replaceAllFrom (old new : Text) : Nat → Text → Text
  | _, [] => []
  | skip + 1, _ :: s => replaceAllFrom old new skip s
  | 0, c :: s =>
    if old.isPrefixOf (c :: s) then new ++ replaceAllFrom old new (old.length - 1) s
    else c :: replaceAllFrom old new 0 s

def replaceAll (old new s : Text) : Text := replaceAllFrom old new 0 s

def countMatchesFrom (pat : Text) : Nat → Text → Nat
  | _, [] => 0
  | skip + 1, _ :: s => countMatchesFrom pat skip s
  | 0, c :: s =>
    if pat.isPrefixOf (c :: s) then countMatchesFrom pat (pat.length - 1) s + 1
    else countMatchesFrom pat 0 s

def countMatches (pat s : Text) : Nat := countMatchesFrom pat 0 s

def byteLength (s : Text) : Nat := (s.map Char.utf8Size).sum

/-- The text from a byte on, unless it ends before, or that lies inside a character. -/
def dropBytes : Nat → Text → Option Text
  | 0, s => some s
  | _ + 1, [] => none
  | n + 1, c :: s => if c.utf8Size ≤ n + 1 then dropBytes (n + 1 - c.utf8Size) s else none

def replaceFirst (old new s : Text) : Text :=
  match find? old s with
  | some (before, after) => before ++ new ++ after
  | none => s

end Text

end IronClaw.Foundation
