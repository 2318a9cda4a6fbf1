import Mathlib.Data.List.Infix
import IronClaw.Foundation.Text

/-!
# Splitting texts

The pieces of a text between the occurrences of a separator, and where a token occurs in them. A
token without the separator occurs in a text where it occurs in a piece.
-/

namespace IronClaw.Foundation.Text

open List (cons_append cons_ne_nil exists_cons_of_ne_nil mem_cons mem_cons_of_mem mem_cons_self
  nil_append prefix_nil)

section Pieces

variable {sep c : Char} {piece s : Text}

theorem splitOn_ne_nil (sep : Char) (s : Text) : splitOn sep s ≠ [] := by
  cases s with
  | nil => simp [splitOn]
  | cons c s =>
    rw [splitOn]
    split_ifs
    · exact cons_ne_nil _ _
    · split
      · exact cons_ne_nil _ _
      · exact cons_ne_nil _ _

@[simp] theorem splitOn_cons_self (sep : Char) (s : Text) :
    splitOn sep (sep :: s) = [] :: splitOn sep s := by rw [splitOn, if_pos rfl]

theorem splitOn_cons_of_ne (h : c ≠ sep) {pieces : List Text}
    (hs : splitOn sep s = piece :: pieces) : splitOn sep (c :: s) = (c :: piece) :: pieces := by
  rw [splitOn, if_neg h, hs]

theorem splitOn_append (h : sep ∉ piece) (s : Text) :
    splitOn sep (piece ++ sep :: s) = piece :: splitOn sep s := by
  induction piece with
  | nil => exact splitOn_cons_self sep s
  | cons c piece ih =>
    rw [mem_cons, not_or] at h
    exact splitOn_cons_of_ne (Ne.symm h.1) (ih h.2)

theorem splitOn_of_not_mem (h : sep ∉ s) : splitOn sep s = [s] := by
  induction s with
  | nil => rfl
  | cons c s ih =>
    rw [mem_cons, not_or] at h
    exact splitOn_cons_of_ne (Ne.symm h.1) (ih h.2)

theorem not_mem_of_mem_splitOn (h : piece ∈ splitOn sep s) : sep ∉ piece := by
  induction s generalizing piece with
  | nil =>
    rw [List.mem_singleton.mp h]
    exact List.not_mem_nil
  | cons c s ih =>
    by_cases hc : c = sep
    · rw [hc, splitOn_cons_self] at h
      rcases mem_cons.mp h with rfl | h
      · exact List.not_mem_nil
      · exact ih h
    · obtain ⟨head, pieces, hs⟩ := exists_cons_of_ne_nil (splitOn_ne_nil sep s)
      rw [splitOn_cons_of_ne hc hs] at h
      rcases mem_cons.mp h with rfl | h
      · rw [mem_cons, not_or]
        exact ⟨Ne.symm hc, ih (hs ▸ mem_cons_self)⟩
      · exact ih (hs ▸ mem_cons_of_mem head h)

theorem mem_of_mem_splitOn (h : piece ∈ splitOn sep s) (hc : c ∈ piece) : c ∈ s := by
  induction s generalizing piece with
  | nil =>
    rw [List.mem_singleton.mp h] at hc
    exact hc
  | cons d s ih =>
    by_cases hd : d = sep
    · rw [hd, splitOn_cons_self] at h
      rcases mem_cons.mp h with rfl | h
      · cases hc
      · exact mem_cons_of_mem d (ih h hc)
    · obtain ⟨head, pieces, hs⟩ := exists_cons_of_ne_nil (splitOn_ne_nil sep s)
      rw [splitOn_cons_of_ne hd hs] at h
      rcases mem_cons.mp h with rfl | h
      · rcases mem_cons.mp hc with rfl | hc
        · exact mem_cons_self
        · exact mem_cons_of_mem d (ih (hs ▸ mem_cons_self) hc)
      · exact mem_cons_of_mem d (ih (hs ▸ mem_cons_of_mem head h) hc)

theorem eq_or_append_of_splitOn {pieces : List Text} (h : splitOn sep s = piece :: pieces) :
    (s = piece ∧ pieces = []) ∨ ∃ rest, s = piece ++ sep :: rest ∧ splitOn sep rest = pieces := by
  induction s generalizing piece pieces with
  | nil =>
    obtain ⟨rfl, rfl⟩ := List.cons.inj h
    exact .inl ⟨rfl, rfl⟩
  | cons c s ih =>
    by_cases hc : c = sep
    · rw [hc, splitOn_cons_self] at h
      obtain ⟨rfl, hrest⟩ := List.cons.inj h
      exact .inr ⟨s, by rw [hc]; rfl, hrest⟩
    · obtain ⟨head, pieces', hs⟩ := exists_cons_of_ne_nil (splitOn_ne_nil sep s)
      rw [splitOn_cons_of_ne hc hs] at h
      obtain ⟨rfl, rfl⟩ := List.cons.inj h
      rcases ih hs with ⟨rfl, rfl⟩ | ⟨rest, rfl, hrest⟩
      · exact .inl ⟨rfl, rfl⟩
      · exact .inr ⟨rest, rfl, hrest⟩

theorem joinWith_cons_cons (between piece next : Text) (pieces : List Text) :
    joinWith between (piece :: next :: pieces) =
      piece ++ (between ++ joinWith between (next :: pieces)) := by
  simp [joinWith, List.intercalate]

theorem mem_joinWith {between : Text} {pieces : List Text} (hc : c ∈ joinWith between pieces) :
    c ∈ between ∨ ∃ piece ∈ pieces, c ∈ piece := by
  induction pieces with
  | nil => cases hc
  | cons piece pieces ih =>
    cases pieces with
    | nil =>
      have hjoin : joinWith between [piece] = piece := by simp [joinWith, List.intercalate]
      rw [hjoin] at hc
      exact .inr ⟨piece, mem_cons_self, hc⟩
    | cons next pieces =>
      rw [joinWith_cons_cons, List.mem_append, List.mem_append] at hc
      rcases hc with hc | hc | hc
      · exact .inr ⟨piece, mem_cons_self, hc⟩
      · exact .inl hc
      · exact (ih hc).imp_right fun ⟨p, hp, hcp⟩ => ⟨p, mem_cons_of_mem piece hp, hcp⟩

theorem splitOn_joinWith {pieces : List Text} (hne : pieces ≠ []) (h : ∀ p ∈ pieces, sep ∉ p) :
    splitOn sep (joinWith [sep] pieces) = pieces := by
  induction pieces with
  | nil => exact absurd rfl hne
  | cons piece pieces ih =>
    obtain ⟨hpiece, hpieces⟩ := List.forall_mem_cons.mp h
    cases pieces with
    | nil =>
      have hjoin : joinWith [sep] [piece] = piece := by simp [joinWith, List.intercalate]
      rw [hjoin, splitOn_of_not_mem hpiece]
    | cons next pieces =>
      rw [joinWith_cons_cons, List.singleton_append, splitOn_append hpiece,
        ih (cons_ne_nil next pieces) hpieces]

end Pieces

section Append

variable {sep : Char} {s t piece next : Text} {pieces rest : List Text}

theorem splitOn_append_of_eq (hs : splitOn sep s = pieces ++ [piece])
    (ht : splitOn sep t = next :: rest) :
    splitOn sep (s ++ t) = pieces ++ (piece ++ next) :: rest := by
  induction s generalizing pieces piece with
  | nil =>
    obtain ⟨rfl, rfl⟩ : pieces = [] ∧ piece = [] := by
      cases pieces with
      | nil => exact ⟨rfl, (List.cons.inj hs).1.symm⟩
      | cons p ps => cases ps <;> cases hs
    exact ht
  | cons c s ih =>
    by_cases hc : c = sep
    · subst hc
      rw [splitOn_cons_self] at hs
      cases pieces with
      | nil => exact absurd (List.cons.inj hs).2 (splitOn_ne_nil _ s)
      | cons p ps =>
        obtain ⟨rfl, hrest⟩ := List.cons.inj hs
        rw [cons_append, splitOn_cons_self, ih hrest]
        rfl
    · obtain ⟨head, more, hmore⟩ := exists_cons_of_ne_nil (splitOn_ne_nil sep s)
      rw [splitOn_cons_of_ne hc hmore] at hs
      cases pieces with
      | nil =>
        obtain ⟨rfl, rfl⟩ := List.cons.inj hs
        have hlast : splitOn sep s = [] ++ [head] := hmore
        rw [cons_append, splitOn_cons_of_ne hc (ih hlast)]
        rfl
      | cons p ps =>
        obtain ⟨rfl, rfl⟩ := List.cons.inj hs
        have hlast : splitOn sep s = (head :: ps) ++ [piece] := hmore
        rw [cons_append, splitOn_cons_of_ne hc (ih hlast)]
        rfl

theorem exists_splitOn_eq (sep : Char) (s : Text) :
    ∃ pieces piece, splitOn sep s = pieces ++ [piece] :=
  ⟨_, _, (List.dropLast_append_getLast (splitOn_ne_nil sep s)).symm⟩

theorem splitOn_append_cons (sep : Char) (s t : Text) :
    splitOn sep (s ++ sep :: t) = splitOn sep s ++ splitOn sep t := by
  obtain ⟨pieces, piece, hs⟩ := exists_splitOn_eq sep s
  rw [splitOn_append_of_eq hs (splitOn_cons_self sep t), hs]
  simp

end Append

theorem prefix_append_cons_iff {x : Char} {w : Text} (h : x ∉ w) (s rest : Text) :
    w <+: s ++ x :: rest ↔ w <+: s := by
  induction w generalizing s with
  | nil => exact ⟨fun _ => List.nil_prefix, fun _ => List.nil_prefix⟩
  | cons c w ih =>
    rw [mem_cons, not_or] at h
    cases s with
    | nil =>
      rw [nil_append, List.cons_prefix_cons]
      exact iff_of_false (fun hprefix => h.1 hprefix.1.symm) (by simp)
    | cons d s => rw [cons_append, List.cons_prefix_cons, List.cons_prefix_cons, ih h.2]

/-- What stands in front of each occurrence of a token passes a test; in front of the text, `last`.
-/
def Guarded (ok : Option Char → Prop) (token : Text) : Option Char → Text → Prop
  | _, [] => True
  | last, c :: s => (token <+: c :: s → ok last) ∧ Guarded ok token (some c) s

section Guarded

variable {ok : Option Char → Prop} {token s : Text} {last : Option Char}

theorem guarded_iff (hne : token ≠ []) : Guarded ok token last s ↔
    ∀ front back, s = front ++ token ++ back → ok (front.getLast?.or last) := by
  induction s generalizing last with
  | nil =>
    refine iff_of_true trivial fun front back h => ?_
    exact absurd (List.append_eq_nil_iff.mp (List.append_eq_nil_iff.mp h.symm).1).2 hne
  | cons c s ih =>
    rw [Guarded, ih]
    -- in front of the rest stands `c`, unless more of the rest precedes the token
    constructor
    · rintro ⟨hhead, hrest⟩ front back h
      cases front with
      | nil => exact hhead ⟨back, h.symm⟩
      | cons d front =>
        obtain ⟨rfl, hs⟩ := List.cons.inj h
        have hok := hrest front back hs
        rw [List.getLast?_cons]
        cases hlast : front.getLast? with
        | none => rw [hlast] at hok; exact hok
        | some e => rw [hlast] at hok; exact hok
    · intro h
      refine ⟨fun ⟨back, hback⟩ => h [] back hback.symm, fun front back hs => ?_⟩
      have hok := h (c :: front) back (by rw [hs]; rfl)
      rw [List.getLast?_cons] at hok
      cases hlast : front.getLast? with
      | none => rw [hlast] at hok; exact hok
      | some e => rw [hlast] at hok; exact hok

theorem guarded_congr {last' : Option Char} (h : ok last ↔ ok last') :
    Guarded ok token last s ↔ Guarded ok token last' s := by
  cases s with
  | nil => rfl
  | cons c s => rw [Guarded, Guarded, h]

theorem guarded_of_not_begins (h : ¬ token <+: s) (last last' : Option Char) :
    Guarded ok token last s ↔ Guarded ok token last' s := by
  cases s with
  | nil => rfl
  | cons c s => simp only [Guarded, h, false_implies, true_and]

theorem guarded_append_cons_iff {x : Char} {w : Text} (hne : token ≠ []) (hx : x ∉ token)
    (hw : ¬ token <:+: w) : Guarded ok token last (w ++ x :: s) ↔ Guarded ok token (some x) s := by
  induction w generalizing last with
  | nil =>
    have hnot : ¬ token <+: x :: s := by
      rw [← nil_append (x :: s), prefix_append_cons_iff hx, prefix_nil]
      exact hne
    rw [nil_append, Guarded, and_iff_right fun hprefix => absurd hprefix hnot]
  | cons c w ih =>
    rw [List.infix_cons_iff, not_or] at hw
    rw [cons_append, Guarded, ← cons_append, prefix_append_cons_iff hx, ih hw.2,
      and_iff_right fun hprefix => absurd hprefix hw.1]

theorem guarded_append_singleton_iff {x : Char} (hne : token ≠ []) (hx : x ∉ token) :
    Guarded ok token last (s ++ [x]) ↔ Guarded ok token last s := by
  induction s generalizing last with
  | nil =>
    refine iff_of_true ⟨fun hprefix => ?_, trivial⟩ trivial
    rw [← nil_append [x], prefix_append_cons_iff hx, prefix_nil] at hprefix
    exact absurd hprefix hne
  | cons c s ih =>
    rw [cons_append, Guarded, Guarded, ih, ← cons_append, prefix_append_cons_iff hx]

/-- **A text is guarded if and only if its pieces are.** -/
theorem guarded_splitOn_iff {sep : Char} (hne : token ≠ []) (hsep : sep ∉ token)
    (hok : ok (some sep) ↔ ok none) :
    Guarded ok token none s ↔ ∀ piece ∈ splitOn sep s, Guarded ok token none piece := by
  -- in front of the first piece may stand anything, and in front of the others the separator
  have hpieces : ∀ last piece pieces, splitOn sep s = piece :: pieces →
      (Guarded ok token last s ↔
        Guarded ok token last piece ∧ ∀ p ∈ pieces, Guarded ok token none p) := by
    induction s with
    | nil =>
      intro last piece pieces h
      obtain ⟨rfl, rfl⟩ := List.cons.inj h
      simp
    | cons c s ih =>
      intro last piece pieces h
      obtain ⟨head, rest, hs⟩ := exists_cons_of_ne_nil (splitOn_ne_nil sep s)
      by_cases hc : c = sep
      · -- a new piece begins
        rw [hc, splitOn_cons_self, hs] at h
        obtain ⟨rfl, rfl⟩ := List.cons.inj h
        have hnot : ¬ token <+: sep :: s := by
          rw [← nil_append (sep :: s), prefix_append_cons_iff hsep, prefix_nil]
          exact hne
        have hcons : Guarded ok token last (sep :: s) ↔ Guarded ok token none s := by
          change (token <+: sep :: s → ok last) ∧ Guarded ok token (some sep) s ↔ _
          rw [guarded_congr hok, and_iff_right fun hprefix => absurd hprefix hnot]
        rw [hc, hcons, ih none head rest hs, List.forall_mem_cons]
        simp [Guarded]
      · rw [splitOn_cons_of_ne hc hs] at h
        obtain ⟨rfl, rfl⟩ := List.cons.inj h
        -- the token does not reach beyond its piece
        have hprefix : token <+: c :: s ↔ token <+: c :: head := by
          rcases eq_or_append_of_splitOn hs with ⟨rfl, -⟩ | ⟨after, rfl, -⟩
          · rfl
          · exact prefix_append_cons_iff hsep (c :: head) after
        rw [Guarded, Guarded, ih (some c) head rest hs, hprefix, and_assoc]
  obtain ⟨piece, pieces, hs⟩ := exists_cons_of_ne_nil (splitOn_ne_nil sep s)
  rw [hpieces none piece pieces hs, hs, List.forall_mem_cons]

end Guarded

end IronClaw.Foundation.Text
