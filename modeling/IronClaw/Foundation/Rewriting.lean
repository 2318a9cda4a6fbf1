import Mathlib.Data.List.Infix
import IronClaw.Foundation.Text

/-!
# Rewriting texts

What trimming and replacing leave of a text, and the last occurrence of a text in another one.
-/

namespace IronClaw.Foundation.Text

open List (append_assoc cons_append cons_ne_nil cons_prefix_cons length_append length_cons mem_cons
  mem_reverse reverse_append)

theorem eq_of_toLower {c d : Char} (hd : d.isLower = false) (h : c.toLower = d) : c = d := by
  unfold Char.toLower at h
  split at h
  · next hupper =>
    have hle : 65 ≤ c.toNat := UInt32.le_iff_toNat_le.mp hupper.1
    have hge : c.toNat ≤ 90 := UInt32.le_iff_toNat_le.mp hupper.2
    -- a small letter is 32 places behind its capital
    have hval : d.toNat = c.toNat + 32 := by
      rw [← h]
      change (c.val + 32).toNat = c.val.toNat + 32
      rw [UInt32.toNat_add]
      refine Nat.mod_eq_of_lt ?_
      change c.toNat + 32 < 2 ^ 32
      omega
    have hlower : d.isLower = true := by
      refine Bool.and_eq_true_iff.mpr ⟨decide_eq_true ?_, decide_eq_true ?_⟩
      · refine UInt32.le_iff_toNat_le.mpr ?_
        change 97 ≤ d.toNat
        omega
      · refine UInt32.le_iff_toNat_le.mpr ?_
        change d.toNat ≤ 122
        omega
    rw [hlower] at hd
    cases hd
  · exact h

theorem toLower_of_isWhitespace {c : Char} (h : isWhitespace c = true) : c.toLower = c := by
  unfold Char.toLower
  refine dif_neg fun hupper => ?_
  have hle : 65 ≤ c.toNat := UInt32.le_iff_toNat_le.mp hupper.1
  have hge : c.toNat ≤ 90 := UInt32.le_iff_toNat_le.mp hupper.2
  simp only [isWhitespace, Bool.or_eq_true, Bool.and_eq_true, decide_eq_true_eq, beq_iff_eq] at h
  omega

def Blank (s : Text) : Prop := ∀ c ∈ s, isWhitespace c = true

/-- A text that does not begin or end with white space. -/
structure Bare (s : Text) : Prop where
  head : ∀ c ∈ s.head?, isWhitespace c = false
  last : ∀ c ∈ s.getLast?, isWhitespace c = false

theorem dropWhile_append_of_blank {front s : Text} (h : Blank front) :
    (front ++ s).dropWhile isWhitespace = s.dropWhile isWhitespace := by
  induction front with
  | nil => rfl
  | cons c front ih =>
    obtain ⟨hc, hfront⟩ := List.forall_mem_cons.mp h
    rw [cons_append, List.dropWhile_cons_of_pos hc]
    exact ih hfront

theorem dropWhile_of_head {s : Text} (h : ∀ c ∈ s.head?, isWhitespace c = false) :
    s.dropWhile isWhitespace = s := by
  cases s with
  | nil => rfl
  | cons c s => rw [List.dropWhile_cons_of_neg (by simp [h c rfl])]

theorem trim_append {front s back : Text} (hfront : Blank front) (hs : Bare s)
    (hback : Blank back) : trim (front ++ s ++ back) = s := by
  have hreverse : Blank back.reverse := fun c hc => hback c (mem_reverse.mp hc)
  rw [trim, trimMatches, trimStartMatches, trimEndMatches, append_assoc,
    dropWhile_append_of_blank hfront]
  cases s with
  | nil =>
    have hnil : ([] ++ back).dropWhile isWhitespace = [] := List.dropWhile_eq_nil_iff.mpr hback
    rw [hnil]
    rfl
  | cons c s =>
    have hhead : (c :: s ++ back).dropWhile isWhitespace = c :: s ++ back :=
      dropWhile_of_head fun d hd => hs.head d hd
    have hlast : ∀ d ∈ (c :: s).reverse.head?, isWhitespace d = false := by
      rw [List.head?_reverse]
      exact hs.last
    rw [hhead, reverse_append, dropWhile_append_of_blank hreverse, dropWhile_of_head hlast,
      List.reverse_reverse]

theorem Bare.trim_eq {s : Text} (h : Bare s) : trim s = s := by
  have htrim : trim ([] ++ s ++ []) = s := trim_append nofun h nofun
  simpa using htrim

theorem exists_dropWhile (s : Text) : ∃ front, s = front ++ s.dropWhile isWhitespace ∧ Blank front ∧
      ∀ c ∈ (s.dropWhile isWhitespace).head?, isWhitespace c = false := by
  refine ⟨s.takeWhile isWhitespace, List.takeWhile_append_dropWhile.symm,
    fun c => List.mem_takeWhile_imp, fun c hc => ?_⟩
  have hfind := List.head?_dropWhile_not isWhitespace s
  rw [hc] at hfind
  simpa using hfind

theorem exists_trim (s : Text) :
    ∃ front back, s = front ++ trim s ++ back ∧ Blank front ∧ Blank back ∧ Bare (trim s) := by
  obtain ⟨front, hs, hfront, hhead⟩ := exists_dropWhile s
  obtain ⟨back, hrest, hback, hlast⟩ := exists_dropWhile (s.dropWhile isWhitespace).reverse
  have htrim : trim s = ((s.dropWhile isWhitespace).reverse.dropWhile isWhitespace).reverse := rfl
  -- the white space at the end is dropped from the reversed rest
  have hsplit : s.dropWhile isWhitespace = trim s ++ back.reverse := by
    rw [htrim, ← reverse_append, ← hrest, List.reverse_reverse]
  refine ⟨front, back.reverse, ?_, hfront, fun c hc => hback c (mem_reverse.mp hc), ?_, ?_⟩
  · rw [append_assoc, ← hsplit, ← hs]
  · intro c hc
    refine hhead c ?_
    rw [hsplit, Option.mem_def, List.head?_append, hc]
    rfl
  · rw [htrim, List.getLast?_reverse]
    exact hlast

theorem infix_append_iff_of_blank_front {c : Char} {pat front s : Text} (hc : isWhitespace c = false)
    (hfront : Blank front) : c :: pat <:+: front ++ s ↔ c :: pat <:+: s := by
  induction front with
  | nil => rfl
  | cons d front ih =>
    obtain ⟨hd, hfront⟩ := List.forall_mem_cons.mp hfront
    rw [cons_append, List.infix_cons_iff, ih hfront]
    -- the pattern does not begin with white space
    refine or_iff_right fun hprefix => ?_
    rw [(cons_prefix_cons.mp hprefix).1, hd] at hc
    cases hc

theorem infix_append_iff_of_blank {pat front s : Text} (hpat : pat ≠ [])
    (hvisible : ∀ c ∈ pat, isWhitespace c = false) (hfront : Blank front) :
    pat <:+: front ++ s ↔ pat <:+: s := by
  obtain ⟨d, pat, rfl⟩ := List.exists_cons_of_ne_nil hpat
  exact infix_append_iff_of_blank_front (hvisible d List.mem_cons_self) hfront

theorem infix_trimEndMatches_iff {c : Char} {pat s : Text} (hc : isWhitespace c = false) :
    pat ++ [c] <:+: trimEndMatches isWhitespace s ↔ pat ++ [c] <:+: s := by
  obtain ⟨front, hs, hfront, -⟩ := exists_dropWhile s.reverse
  rw [trimEndMatches, ← List.reverse_infix, List.reverse_reverse, ← @List.reverse_infix _ _ s]
  conv_rhs => rw [hs]
  rw [reverse_append, List.reverse_singleton, List.singleton_append,
    infix_append_iff_of_blank_front hc hfront]

theorem infix_trim_iff {pat s : Text} (hpat : pat ≠ [])
    (hvisible : ∀ c ∈ pat, isWhitespace c = false) : pat <:+: trim s ↔ pat <:+: s := by
  obtain ⟨front, back, hs, hfront, hback, -⟩ := exists_trim s
  conv_rhs => rw [hs, append_assoc]
  rw [infix_append_iff_of_blank hpat hvisible hfront, ← List.reverse_infix,
    ← @List.reverse_infix _ _ (trim s ++ back), reverse_append,
    infix_append_iff_of_blank (by simpa using hpat) (by simpa using hvisible)
      fun c hc => hback c (mem_reverse.mp hc)]

/-- What precedes and what follows the last occurrence of a nonempty pattern. -/
def rfind? (pat : Text) : Text → Option (Text × Text)
  | [] => none
  | c :: s =>
    match rfind? pat s with
    | some r => some (c :: r.1, r.2)
    | none => if pat.isPrefixOf (c :: s) then some ([], (c :: s).drop pat.length) else none

theorem rfind?_eq_none {pat s : Text} (h : s.length < pat.length) : rfind? pat s = none := by
  induction s with
  | nil => rfl
  | cons c s ih =>
    have hprefix : ¬ pat <+: c :: s := fun hprefix => by
      have hle := hprefix.length_le
      omega
    rw [rfind?, ih (by rw [length_cons] at h; omega)]
    simp [ hprefix]

theorem rfind?_append {pat : Text} (hpat : pat ≠ []) (front : Text) :
    rfind? pat (front ++ pat) = some (front, []) := by
  induction front with
  | nil =>
    obtain ⟨c, s, rfl⟩ := List.exists_cons_of_ne_nil hpat
    rw [List.nil_append, rfind?, rfind?_eq_none (by simp)]
    simp
  | cons c front ih => rw [cons_append, rfind?, ih]

section Replace

variable {old new : Text}

theorem replaceAllFrom_eq_drop (k : Nat) (s : Text) :
    replaceAllFrom old new k s = replaceAll old new (s.drop k) := by
  induction s generalizing k with
  | nil => cases k <;> rfl
  | cons c s ih =>
    cases k with
    | zero => rfl
    | succ k => exact ih k

@[simp] theorem replaceAll_nil : replaceAll old new [] = [] := rfl

theorem replaceAll_append (hold : old ≠ []) (s : Text) :
    replaceAll old new (old ++ s) = new ++ replaceAll old new s := by
  obtain ⟨c, rest, rfl⟩ := List.exists_cons_of_ne_nil hold
  have hprefix : (c :: rest).isPrefixOf (c :: rest ++ s) = true := by simp
  change replaceAllFrom _ new 0 (c :: (rest ++ s)) = _
  rw [replaceAllFrom]
  change (if (c :: rest).isPrefixOf (c :: rest ++ s) = true then _ else _) = _
  rw [if_pos hprefix, replaceAllFrom_eq_drop]
  simp

theorem replaceAll_cons {c : Char} {s : Text} (h : ¬ old <+: c :: s) :
    replaceAll old new (c :: s) = c :: replaceAll old new s := by
  change replaceAllFrom old new 0 (c :: s) = _
  rw [replaceAllFrom, if_neg (by simpa using h)]
  rfl

theorem replaceAll_singleton (c : Char) (s : Text) :
    replaceAll [c] new s = s.flatMap fun d => if d = c then new else [d] := by
  induction s with
  | nil => rfl
  | cons d s ih =>
    rw [List.flatMap_cons, ← ih]
    by_cases hd : d = c
    · rw [if_pos hd, hd]
      exact replaceAll_append (cons_ne_nil c []) s
    · rw [if_neg hd, replaceAll_cons fun h => hd (cons_prefix_cons.mp h).1.symm]
      rfl

theorem replaceAll_length_le (hold : old ≠ []) (h : new.length ≤ old.length) (s : Text) :
    (replaceAll old new s).length ≤ s.length := by
  -- by the length, as an occurrence is passed over as a whole
  generalize hn : s.length = n
  induction n using Nat.strong_induction_on generalizing s with
  | _ n ih =>
    cases s with
    | nil => simp
    | cons c s =>
      by_cases hprefix : old <+: c :: s
      · obtain ⟨rest, hrest⟩ := hprefix
        rw [← hrest, length_append] at hn
        have hpos := List.length_pos_of_ne_nil hold
        have hle := ih rest.length (by omega) rest rfl
        rw [← hrest, replaceAll_append hold, length_append]
        omega
      · rw [length_cons] at hn
        have hle := ih s.length (by omega) s rfl
        rw [replaceAll_cons hprefix, length_cons]
        omega

/-- Where a shorter text is put in, **nothing is replaced exactly if nothing occurs**. -/
theorem replaceAll_eq_self_iff (hold : old ≠ []) (h : new.length < old.length) {s : Text} :
    replaceAll old new s = s ↔ ¬ old <:+: s := by
  induction s with
  | nil => simpa using hold
  | cons c s ih =>
    by_cases hprefix : old <+: c :: s
    · -- an occurrence makes the text shorter
      refine iff_of_false (fun heq => ?_) (not_not_intro hprefix.isInfix)
      obtain ⟨rest, hrest⟩ := hprefix
      rw [← hrest, replaceAll_append hold] at heq
      have hlength := congrArg List.length heq
      have hle := replaceAll_length_le hold h.le rest
      rw [length_append, length_append] at hlength
      omega
    · rw [replaceAll_cons hprefix, List.cons_eq_cons, List.infix_cons_iff, ih]
      simp [ hprefix]

end Replace

section Insert

variable {a b x c : Char} {w s : Text}

theorem replaceAll_append_of_not_mem {new front : Text} (h : a ∉ front) (s : Text) :
    replaceAll (a :: w) new (front ++ s) = front ++ replaceAll (a :: w) new s := by
  induction front with
  | nil => rfl
  | cons c front ih =>
    rw [mem_cons, not_or] at h
    rw [cons_append, replaceAll_cons fun hprefix => h.1 (cons_prefix_cons.mp hprefix).1,
      ih h.2, cons_append]

theorem replaceAll_insert (ha : a ∉ w) (c : Char) (s : Text) :
    replaceAll (a :: w) (x :: a :: w) (c :: s) =
      (if (a :: w).isPrefixOf (c :: s) then [x] else []) ++
        c :: replaceAll (a :: w) (x :: a :: w) s := by
  by_cases hprefix : a :: w <+: c :: s
  · obtain ⟨rfl, rest, rfl⟩ := cons_prefix_cons.mp hprefix
    rw [if_pos (by simp), ← cons_append, replaceAll_append (cons_ne_nil a w),
      replaceAll_append_of_not_mem ha]
    rfl
  · rw [if_neg (by simpa using hprefix), replaceAll_cons hprefix]
    rfl

theorem replaceAll_insert_between (hb : b ≠ a) (c : Char) (s : Text) :
    replaceAll [a, b] [a, x, b] (c :: s) = c :: ((if [a, b].isPrefixOf (c :: s) then [x] else []) ++
        replaceAll [a, b] [a, x, b] s) := by
  by_cases hprefix : [a, b] <+: c :: s
  · obtain ⟨rfl, rest, rfl⟩ := cons_prefix_cons.mp hprefix
    rw [if_pos (by simp), ← cons_append, replaceAll_append (cons_ne_nil a [b]),
      replaceAll_append_of_not_mem (by simpa using hb.symm)]
    rfl
  · rw [if_neg (by simpa using hprefix), replaceAll_cons hprefix]
    rfl

theorem prefix_replaceAll_iff {u v : Text} (ha : a ∉ u) (hx : x ∉ u) :
    u <+: replaceAll (a :: w) (x :: v) s ↔ u <+: s := by
  induction u generalizing s with
  | nil => exact ⟨fun _ => List.nil_prefix, fun _ => List.nil_prefix⟩
  | cons d u ih =>
    rw [mem_cons, not_or] at ha hx
    cases s with
    | nil => rfl
    | cons c s =>
      by_cases hprefix : a :: w <+: c :: s
      · -- `u` can begin neither with `x` nor with `a`
        obtain ⟨rfl, rest, rfl⟩ := cons_prefix_cons.mp hprefix
        rw [← cons_append, replaceAll_append (cons_ne_nil a w), cons_append,
          cons_append, cons_prefix_cons, cons_prefix_cons]
        exact iff_of_false (fun h => hx.1 h.1.symm) fun h => ha.1 h.1.symm
      · rw [replaceAll_cons hprefix, cons_prefix_cons, cons_prefix_cons, ih ha.2 hx.2]

end Insert

end IronClaw.Foundation.Text
