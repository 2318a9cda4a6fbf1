import IronClaw.Foundation.Rewriting
import IronClaw.Foundation.Splitting
import IronClaw.Safety.Sanitizer
import Mathlib.Data.Bool.AllAny

/-!
# What escaping leaves

Special tokens get a backslash, null bytes are removed, and lines that begin with a role get a
notice. A token with a null byte inside has no backslash then.
-/

namespace IronClaw.Safety.Sanitizer

open Foundation (Text)
open Foundation.Text (Guarded replaceAll)
open List (all_iff_forall_prop cons_ne_nil cons_prefix_cons mem_map mem_singleton nil_append
  nil_prefix not_mem_nil singleton_append)

def addSlashes (content : Text) : Text :=
  replaceAll "[/INST]".toList "\\[/INST]".toList
    (replaceAll "[INST]".toList "\\[INST]".toList
      (replaceAll "|>".toList "|\\>".toList (replaceAll "<|".toList "\\<|".toList content)))

def withoutNull (s : Text) : Text := s.filter fun c => c.toNat != 0

def hasRoleMarker (line : Text) : Bool :=
  let trimmed := Text.toAsciiLowercase (Text.trimStartMatches Text.isWhitespace line)
  "system:".toList.isPrefixOf trimmed || "user:".toList.isPrefixOf trimmed ||
    "assistant:".toList.isPrefixOf trimmed

def escapeLine (line : Text) : Text :=
  if hasRoleMarker line then "[ESCAPED] ".toList ++ line else line

variable (content : Text)

theorem escapeContent_eq : escapeContent content =
      Text.joinWith ['\n'] ((lines (withoutNull (addSlashes content))).map escapeLine) := rfl

def slash (token s : Text) : Text := if token.isPrefixOf s then ['\\'] else []

def slashed : Text → Text
  | [] => []
  | c :: s =>
    slash "<|".toList (c :: s) ++ (slash "[INST]".toList (c :: s) ++
      (slash "[/INST]".toList (c :: s) ++ c :: (slash "|>".toList (c :: s) ++ slashed s)))

theorem slash_of_begins {token s : Text} (h : token <+: s) : slash token s = ['\\'] := by
  rw [slash, if_pos (by simpa using h)]

theorem slash_of_not_begins {token s : Text} (h : ¬ token <+: s) : slash token s = [] := by
  rw [slash, if_neg (by simpa using h)]

theorem not_mem_slash {x : Char} (hx : x ≠ '\\') (token s : Text) : x ∉ slash token s := by
  unfold slash
  split_ifs
  · simpa using hx
  · exact not_mem_nil

theorem slash_cons_congr {a c : Char} {w s s' : Text} (h : c = a → (w <+: s ↔ w <+: s')) :
    slash (a :: w) (c :: s) = slash (a :: w) (c :: s') := by
  have hiff : a :: w <+: c :: s ↔ a :: w <+: c :: s' := by
    rw [cons_prefix_cons, cons_prefix_cons]
    exact and_congr_right fun hc => h hc.symm
  by_cases hprefix : a :: w <+: c :: s
  · rw [slash_of_begins hprefix, slash_of_begins (hiff.mp hprefix)]
  · rw [slash_of_not_begins hprefix, slash_of_not_begins (mt hiff.mpr hprefix)]

theorem slash_of_ne {a c : Char} (h : c ≠ a) (w s : Text) : slash (a :: w) (c :: s) = [] :=
  slash_of_not_begins fun hprefix => h (cons_prefix_cons.mp hprefix).1.symm

theorem addSlashes_cons (c : Char) (s : Text) : addSlashes (c :: s) =
      slash "<|".toList (c :: s) ++ (slash "[INST]".toList (c :: s) ++
        (slash "[/INST]".toList (c :: s) ++
          c :: (slash "|>".toList (c :: s) ++ addSlashes s))) := by
  have hopen : "<|".toList = ['<', '|'] ∧ "\\<|".toList = ['\\', '<', '|'] := by decide
  have hclose : "|>".toList = ['|', '>'] ∧ "|\\>".toList = ['|', '\\', '>'] := by decide
  have hinst : "[INST]".toList = '[' :: "INST]".toList ∧
      "\\[INST]".toList = '\\' :: '[' :: "INST]".toList := by decide
  have hend : "[/INST]".toList = '[' :: "/INST]".toList ∧
      "\\[/INST]".toList = '\\' :: '[' :: "/INST]".toList := by decide
  simp only [addSlashes, hopen, hclose, hinst, hend]
  -- what the four replacements make of the rest, one after the other
  generalize hA : replaceAll ['<', '|'] ['\\', '<', '|'] s = A
  have hclosing : slash ['|', '>'] (c :: A) = slash ['|', '>'] (c :: s) := by
    refine slash_cons_congr fun _ => ?_
    rw [← hA]
    exact Text.prefix_replaceAll_iff (by decide) (by decide)
  generalize hB : replaceAll ['|', '>'] ['|', '\\', '>'] A = B
  have hsame : ∀ u : Text, '<' ∉ u → '|' ∉ u → '\\' ∉ u → (u <+: B ↔ u <+: s) := by
    intro u hlt hbar hslash
    rw [← hB, Text.prefix_replaceAll_iff hbar hbar, ← hA, Text.prefix_replaceAll_iff hlt hslash]
  generalize hC : replaceAll ('[' :: "INST]".toList) ('\\' :: '[' :: "INST]".toList) B = C
  -- behind a bracket, a closing token has no backslash
  have hbracket : ∀ u T : Text, (u <+: T ↔ u <+: s) →
      slash ('[' :: u) (c :: (slash ['|', '>'] (c :: s) ++ T)) = slash ('[' :: u) (c :: s) := by
    intro u T hT
    refine slash_cons_congr fun hc => ?_
    rw [hc, slash_of_ne (by decide), nil_append, hT]
  have hfirst : replaceAll ['<', '|'] ['\\', '<', '|'] (c :: s) =
      slash ['<', '|'] (c :: s) ++ c :: A := by
    rw [← hA]
    exact Text.replaceAll_insert (by decide) c s
  have hsecond : replaceAll ['|', '>'] ['|', '\\', '>'] (c :: A) =
      c :: (slash ['|', '>'] (c :: s) ++ B) := by
    rw [← hclosing, ← hB]
    exact Text.replaceAll_insert_between (by decide) c A
  have hthird : replaceAll ('[' :: "INST]".toList) ('\\' :: '[' :: "INST]".toList)
        (c :: (slash ['|', '>'] (c :: s) ++ B)) =
      slash ('[' :: "INST]".toList) (c :: s) ++ c :: (slash ['|', '>'] (c :: s) ++ C) := by
    rw [← hbracket _ B (hsame _ (by decide) (by decide) (by decide)), ← hC,
      ← Text.replaceAll_append_of_not_mem (not_mem_slash (by decide) ['|', '>'] (c :: s))]
    exact Text.replaceAll_insert (by decide) c _
  have hfourth : replaceAll ('[' :: "/INST]".toList) ('\\' :: '[' :: "/INST]".toList)
        (c :: (slash ['|', '>'] (c :: s) ++ C)) =
      slash ('[' :: "/INST]".toList) (c :: s) ++ c :: (slash ['|', '>'] (c :: s) ++
        replaceAll ('[' :: "/INST]".toList) ('\\' :: '[' :: "/INST]".toList) C) := by
    have hprefix : "/INST]".toList <+: C ↔ "/INST]".toList <+: s := by
      rw [← hC, Text.prefix_replaceAll_iff (by decide) (by decide),
        hsame _ (by decide) (by decide) (by decide)]
    rw [← hbracket _ C hprefix,
      ← Text.replaceAll_append_of_not_mem (not_mem_slash (by decide) ['|', '>'] (c :: s))]
    exact Text.replaceAll_insert (by decide) c _
  -- a backslash that was put in is in no token that comes later
  have hskip : ∀ {a : Char} {w new : Text} (ha : a ≠ '\\') (token t rest : Text),
      replaceAll (a :: w) new (slash token t ++ rest) =
        slash token t ++ replaceAll (a :: w) new rest := fun ha token t rest =>
    Text.replaceAll_append_of_not_mem (not_mem_slash ha token t) rest
  rw [hfirst, hskip (by decide), hsecond, hskip (by decide), hthird, hskip (by decide),
    hskip (by decide), hfourth]

theorem addSlashes_eq_slashed : addSlashes content = slashed content := by
  induction content with
  | nil => rfl
  | cons c content ih => rw [addSlashes_cons, ih, slashed]

variable {c : Char}

theorem withoutNull_cons_of_null (hc : c.toNat = 0) (s : Text) :
    withoutNull (c :: s) = withoutNull s := by
  rw [withoutNull, List.filter_cons_of_neg (by simp [hc])]
  rfl

theorem withoutNull_cons (hc : c.toNat ≠ 0) (s : Text) :
    withoutNull (c :: s) = c :: withoutNull s := by
  rw [withoutNull, List.filter_cons_of_pos (by simpa using hc)]
  rfl

theorem withoutNull_append (s t : Text) : withoutNull (s ++ t) = withoutNull s ++ withoutNull t :=
  List.filter_append ..

theorem withoutNull_slash (token s : Text) : withoutNull (slash token s) = slash token s := by
  unfold slash
  split_ifs <;> rfl

def opened (s : Text) : Text :=
  slash "<|".toList s ++ (slash "[INST]".toList s ++ slash "[/INST]".toList s)

def escapedTokens (s : Text) : Text := withoutNull (slashed s)

@[simp] theorem escapedTokens_nil : escapedTokens [] = [] := rfl

theorem escapedTokens_cons (c : Char) (s : Text) : escapedTokens (c :: s) =
      opened (c :: s) ++ (withoutNull [c] ++ (slash "|>".toList (c :: s) ++ escapedTokens s)) := by
  have hsplit : slashed (c :: s) =
      opened (c :: s) ++ ([c] ++ (slash "|>".toList (c :: s) ++ slashed s)) := by
    simp only [slashed, opened, List.append_assoc, List.cons_append, nil_append]
  rw [escapedTokens, hsplit]
  simp only [opened, withoutNull_append, withoutNull_slash]
  rfl

theorem opened_of_ne {c : Char} (hlt : c ≠ '<') (hbracket : c ≠ '[') (s : Text) :
    opened (c :: s) = [] := by
  have hopen : slash "<|".toList (c :: s) = [] := slash_of_ne (w := ['|']) hlt s
  have hinst : slash "[INST]".toList (c :: s) = [] := slash_of_ne (w := "INST]".toList) hbracket s
  have hend : slash "[/INST]".toList (c :: s) = [] := slash_of_ne (w := "/INST]".toList) hbracket s
  rw [opened, hopen, hinst, hend]
  rfl

theorem slash_closing_of_ne (hbar : c ≠ '|') (s : Text) :
    slash "|>".toList (c :: s) = [] := slash_of_ne (w := ['>']) hbar s

theorem escapedTokens_cons_of_null (hc : c.toNat = 0) (s : Text) :
    escapedTokens (c :: s) = escapedTokens s := by
  have hne : ∀ d : Char, d.toNat ≠ 0 → c ≠ d := fun d hd heq => hd (heq ▸ hc)
  rw [escapedTokens_cons, opened_of_ne (hne _ (by decide)) (hne _ (by decide)),
    slash_closing_of_ne (hne _ (by decide)), withoutNull_cons_of_null hc]
  rfl

/-- The rest of a token: no backslash in front of a character, and one behind the last only. -/
structure Plain (w : Text) : Prop where
  chars : ∀ c ∈ w, c ≠ '<' ∧ c ≠ '[' ∧ c ≠ '\\' ∧ c.toNat ≠ 0
  bar : '|' ∉ w.dropLast

theorem escapedTokens_cons_of_ne_null (hc : c.toNat ≠ 0) (s : Text) : escapedTokens (c :: s) =
      opened (c :: s) ++ c :: (slash "|>".toList (c :: s) ++ escapedTokens s) := by
  rw [escapedTokens_cons, withoutNull_cons hc]
  rfl

theorem slash_eq_nil_or (token s : Text) : slash token s = [] ∨ slash token s = ['\\'] := by
  unfold slash
  split_ifs
  · exact .inr rfl
  · exact .inl rfl

variable (s : Text)

theorem opened_eq_nil_or : opened s = [] ∨ opened s = ['\\'] := by
  by_cases hopen : "<|".toList <+: s
  · obtain ⟨rest, rfl⟩ := hopen
    exact .inr rfl
  · by_cases hinst : "[INST]".toList <+: s
    · obtain ⟨rest, rfl⟩ := hinst
      exact .inr rfl
    · rw [opened, slash_of_not_begins hopen, slash_of_not_begins hinst]
      exact slash_eq_nil_or _ s

theorem prefix_escapedTokens_iff {w : Text} (hw : Plain w) (s : Text) :
    w <+: escapedTokens s ↔ w <+: withoutNull s := by
  induction s generalizing w with
  | nil => rfl
  | cons c s ih =>
    by_cases hc : c.toNat = 0
    · rw [escapedTokens_cons_of_null hc, withoutNull_cons_of_null hc, ih hw]
    rw [escapedTokens_cons_of_ne_null hc, withoutNull_cons hc]
    cases w with
    | nil => exact ⟨fun _ => nil_prefix, fun _ => nil_prefix⟩
    | cons d w =>
      obtain ⟨hlt, hbracket, hslash, -⟩ := hw.chars d List.mem_cons_self
      rw [cons_prefix_cons]
      by_cases hd : d = c
      · rw [opened_of_ne (hd ▸ hlt) (hd ▸ hbracket), nil_append, cons_prefix_cons]
        refine and_congr_right fun _ => ?_
        cases w with
        | nil => exact ⟨fun _ => nil_prefix, fun _ => nil_prefix⟩
        | cons e w =>
          -- the bar of a closing token comes last
          have hbar : d ∉ ['|'] := by
            intro hmem
            refine hw.bar ?_
            rw [← mem_singleton.mp hmem]
            simp
          have hrest : Plain (e :: w) := by
            refine ⟨fun x hx => hw.chars x (List.mem_cons_of_mem d hx), fun hmem => hw.bar ?_⟩
            rw [List.dropLast_cons_of_ne_nil (cons_ne_nil e w)]
            exact List.mem_cons_of_mem d hmem
          rw [slash_closing_of_ne (by simpa [← hd] using hbar), nil_append, ih hrest]
      · -- another character, or a backslash in front of it
        refine iff_of_false (fun hprefix => ?_) fun h => hd h.1
        rcases opened_eq_nil_or (c :: s) with hopened | hopened
        · rw [hopened, nil_append, cons_prefix_cons] at hprefix
          exact hd hprefix.1
        · rw [hopened, singleton_append, cons_prefix_cons] at hprefix
          exact hslash hprefix.1

/-- The rest of a token follows once null bytes are removed, but not before. -/
def Interrupted (rest after : Text) : Prop := rest <+: withoutNull after ∧ ¬ rest <+: after

instance (rest after : Text) : Decidable (Interrupted rest after) :=
  inferInstanceAs (Decidable (rest <+: withoutNull after ∧ ¬ rest <+: after))

section Guarded

variable {ok : Option Char → Prop} {a : Char} {w : Text}

theorem forall_split_cons {c : Char} {s : Text} {P : Text → Text → Prop} :
    (∀ before after, c :: s = before ++ a :: after → P before after) ↔
      (c = a → P [] s) ∧ ∀ before after, s = before ++ a :: after → P (c :: before) after := by
  constructor
  · exact fun h => ⟨fun hc => h [] s (by rw [hc]; rfl), fun before after hs =>
      h (c :: before) after (by rw [hs]; rfl)⟩
  · rintro ⟨hhead, hrest⟩ before after hs
    cases before with
    | nil =>
      obtain ⟨hc, rfl⟩ := List.cons.inj hs
      exact hhead hc
    | cons d before =>
      obtain ⟨rfl, hrest'⟩ := List.cons.inj hs
      exact hrest before after hrest'

/-- What stands in front of a character once backslashes are put in. -/
def slashedLast (last : Option Char) (s : Text) : Option Char :=
  if opened s = [] then last else some '\\'

theorem guarded_escapedTokens_iff (ha : a.toNat ≠ 0 ∧ a ≠ '\\' ∧ a ≠ '>') (hlocal : ∀ last s,
      (w <+: slash "|>".toList (a :: s) ++ escapedTokens s → ok (slashedLast last (a :: s))) ↔
        (Interrupted w s → ok last)) (last : Option Char) (s : Text) :
    Guarded ok (a :: w) last (escapedTokens s) ↔ ∀ before after, s = before ++ a :: after →
        Interrupted w after → ok ((withoutNull before).getLast?.or last) := by
  induction s generalizing last with
  | nil => simp [Guarded]
  | cons c s ih =>
    rw [forall_split_cons]
    by_cases hc : c.toNat = 0
    · -- a null byte leaves no trace
      have hne : c ≠ a := fun heq => ha.1 (heq ▸ hc)
      rw [escapedTokens_cons_of_null hc, ih, and_iff_right fun heq => absurd heq hne]
      simp only [withoutNull_cons_of_null hc]
    -- a backslash in front begins no token, and one behind does not either
    have hopened : Guarded ok (a :: w) last (escapedTokens (c :: s)) ↔
        Guarded ok (a :: w) (slashedLast last (c :: s))
          (c :: (slash "|>".toList (c :: s) ++ escapedTokens s)) := by
      rw [escapedTokens_cons_of_ne_null hc, slashedLast]
      rcases opened_eq_nil_or (c :: s) with heq | heq
      · rw [heq, if_pos rfl]
        rfl
      · rw [heq, if_neg (by simp), singleton_append, Guarded, cons_prefix_cons,
          and_iff_right fun h => absurd h.1 ha.2.1]
    have hbehind : Guarded ok (a :: w) (some c) (slash "|>".toList (c :: s) ++ escapedTokens s) ↔
        Guarded ok (a :: w) (some c) (escapedTokens s) := by
      by_cases hclosing : "|>".toList <+: c :: s
      · -- what follows the backslash is the end of a closing token
        obtain ⟨rest, hrest⟩ := hclosing
        obtain ⟨rfl, rfl⟩ := List.cons.inj (show '|' :: '>' :: rest = c :: s from hrest)
        have hnot : ¬ a :: w <+: escapedTokens ('>' :: rest) := by
          rw [escapedTokens_cons_of_ne_null (by decide), opened_of_ne (by decide) (by decide),
            nil_append, cons_prefix_cons]
          exact fun h => ha.2.2 h.1
        have hslash : slash "|>".toList ('|' :: '>' :: rest) = ['\\'] :=
          slash_of_begins ⟨rest, hrest⟩
        rw [hslash, singleton_append, Guarded, cons_prefix_cons,
          and_iff_right fun h => absurd h.1 ha.2.1]
        exact Text.guarded_of_not_begins hnot _ _
      · rw [slash_of_not_begins hclosing]
        rfl
    rw [hopened, Guarded, hbehind, ih, cons_prefix_cons]
    refine and_congr ?_ (forall₃_congr fun before after _ => imp_congr_right fun _ => ?_)
    · by_cases heq : c = a
      · subst heq
        have hlast : (withoutNull []).getLast?.or last = last := rfl
        rw [hlast, ← hlocal last s]
        simp only [true_and, true_implies]
      · simp [heq, Ne.symm heq]
    · rw [withoutNull_cons hc, List.getLast?_cons]
      cases (withoutNull before).getLast? <;> rfl

end Guarded

def isBackslash (last : Option Char) : Prop := last = some '\\'

instance : DecidablePred isBackslash := fun last => inferInstanceAs (Decidable (last = some '\\'))

section Tokens

variable {a : Char} {w : Text}

theorem opening_local (hw : Plain w) (ha : a ≠ '|')
    (hopened : ∀ s, w <+: withoutNull s → (opened (a :: s) = [] ↔ ¬ w <+: s))
    (last : Option Char) (s : Text) :
    (w <+: slash "|>".toList (a :: s) ++ escapedTokens s →
        isBackslash (slashedLast last (a :: s))) ↔ (Interrupted w s → isBackslash last) := by
  rw [slash_closing_of_ne ha, nil_append, prefix_escapedTokens_iff hw, Interrupted, and_imp]
  refine imp_congr_right fun hprefix => ?_
  by_cases hbegins : w <+: s
  · rw [slashedLast, if_neg (by rw [hopened s hprefix]; exact not_not_intro hbegins)]
    exact iff_of_true rfl fun hnot => absurd hbegins hnot
  · rw [slashedLast, if_pos ((hopened s hprefix).mpr hbegins)]
    exact ⟨fun h _ => h, fun h => h hbegins⟩

theorem opened_bracket_iff (s : Text) :
    opened ('[' :: s) = [] ↔ ¬ "INST]".toList <+: s ∧ ¬ "/INST]".toList <+: s := by
  have hopen : slash "<|".toList ('[' :: s) = [] := slash_of_ne (w := ['|']) (by decide) s
  have hslash : ∀ u : Text, slash ('[' :: u) ('[' :: s) = [] ↔ ¬ u <+: s := by
    intro u
    by_cases hu : u <+: s
    · rw [slash_of_begins (cons_prefix_cons.mpr ⟨rfl, hu⟩)]
      exact iff_of_false (cons_ne_nil _ _) (not_not_intro hu)
    · rw [slash_of_not_begins fun h => hu (cons_prefix_cons.mp h).2]
      exact iff_of_true rfl hu
  rw [opened, hopen, nil_append, List.append_eq_nil_iff]
  exact and_congr (hslash "INST]".toList) (hslash "/INST]".toList)

theorem not_prefix_of_withoutNull {c d : Char} {u v s : Text} (hcd : c ≠ d) (hd : d.toNat ≠ 0)
    (h : c :: u <+: withoutNull s) : ¬ d :: v <+: s := by
  rintro ⟨rest, rfl⟩
  rw [List.cons_append, withoutNull_cons hd] at h
  exact hcd (cons_prefix_cons.mp h).1

end Tokens

theorem guarded_pipe_iff : Guarded isBackslash "<|".toList none (escapedTokens s) ↔
    ∀ before after, s = before ++ '<' :: after → Interrupted ['|'] after →
      isBackslash (withoutNull before).getLast? := by
  have hplain : Plain ['|'] := ⟨all_iff_forall_prop.mp (by decide), by decide⟩
  refine (guarded_escapedTokens_iff (a := '<') (w := ['|']) (by decide)
    (opening_local hplain (by decide) fun s _ => ?_) none s).trans (by simp)
  have hinst : slash "[INST]".toList ('<' :: s) = [] :=
    slash_of_ne (w := "INST]".toList) (by decide) s
  have hend : slash "[/INST]".toList ('<' :: s) = [] :=
    slash_of_ne (w := "/INST]".toList) (by decide) s
  rw [opened, hinst, hend, List.append_nil, List.append_nil]
  by_cases hbegins : ['|'] <+: s
  · have hslash : slash "<|".toList ('<' :: s) = ['\\'] :=
      slash_of_begins (cons_prefix_cons.mpr ⟨rfl, hbegins⟩)
    rw [hslash]
    exact iff_of_false (cons_ne_nil _ _) (not_not_intro hbegins)
  · have hslash : slash "<|".toList ('<' :: s) = [] :=
      slash_of_not_begins fun h => hbegins (cons_prefix_cons.mp h).2
    rw [hslash]
    exact iff_of_true rfl hbegins

theorem guarded_inst_iff : Guarded isBackslash "[INST]".toList none (escapedTokens s) ↔
    ∀ before after, s = before ++ '[' :: after → Interrupted "INST]".toList after →
      isBackslash (withoutNull before).getLast? := by
  have hplain : Plain "INST]".toList := ⟨all_iff_forall_prop.mp (by decide), by decide⟩
  refine (guarded_escapedTokens_iff (a := '[') (w := "INST]".toList) (by decide)
    (opening_local hplain (by decide) fun s hs => ?_) none s).trans (by simp)
  rw [opened_bracket_iff, and_iff_left]
  exact not_prefix_of_withoutNull (c := 'I') (d := '/') (by decide) (by decide) hs

theorem guarded_end_iff : Guarded isBackslash "[/INST]".toList none (escapedTokens s) ↔
    ∀ before after, s = before ++ '[' :: after → Interrupted "/INST]".toList after →
      isBackslash (withoutNull before).getLast? := by
  have hplain : Plain "/INST]".toList := ⟨all_iff_forall_prop.mp (by decide), by decide⟩
  refine (guarded_escapedTokens_iff (a := '[') (w := "/INST]".toList) (by decide)
    (opening_local hplain (by decide) fun s hs => ?_) none s).trans (by simp)
  rw [opened_bracket_iff, and_iff_right]
  exact not_prefix_of_withoutNull (c := '/') (d := 'I') (by decide) (by decide) hs

theorem guarded_closing_iff : Guarded (fun _ => False) "|>".toList none (escapedTokens s) ↔
      ∀ before after, s = before ++ '|' :: after → ¬ Interrupted ['>'] after := by
  have hplain : Plain ['>'] := ⟨all_iff_forall_prop.mp (by decide), by decide⟩
  refine guarded_escapedTokens_iff (a := '|') (w := ['>']) (by decide) (fun last s => ?_) none s
  by_cases hbegins : ['>'] <+: s
  · have hslash : slash "|>".toList ('|' :: s) = ['\\'] :=
      slash_of_begins (cons_prefix_cons.mpr ⟨rfl, hbegins⟩)
    rw [hslash, singleton_append, cons_prefix_cons]
    exact iff_of_true (fun h => absurd h.1 (by decide)) fun h => h.2 hbegins
  · have hslash : slash "|>".toList ('|' :: s) = [] :=
      slash_of_not_begins fun h => hbegins (cons_prefix_cons.mp h).2
    rw [hslash, nil_append, prefix_escapedTokens_iff hplain, Interrupted, and_iff_left hbegins]

section Lines

theorem stripCarriageReturn_eq_or (line : Text) :
    stripCarriageReturn line = line ∨ line = stripCarriageReturn line ++ ['\r'] := by
  unfold stripCarriageReturn
  split_ifs with hlast
  · obtain ⟨front, hfront⟩ := List.getLast?_eq_some_iff.mp hlast
    refine .inr ?_
    rw [hfront, List.dropLast_concat]
  · exact .inl rfl

theorem forall_lines_iff {P : Text → Prop} (hnil : P [])
    (hreturn : ∀ line, P (line ++ ['\r']) ↔ P line) (s : Text) :
    (∀ line ∈ lines s, P line) ↔ ∀ piece ∈ Text.splitOn '\n' s, P piece := by
  have hstrip : ∀ line, P (stripCarriageReturn line) ↔ P line := by
    intro line
    rcases stripCarriageReturn_eq_or line with heq | heq
    · rw [heq]
    · conv_rhs => rw [heq, hreturn]
  -- the last piece is a line only if it is not empty
  have hne := Text.splitOn_ne_nil '\n' s
  conv_rhs => rw [← List.dropLast_concat_getLast hne]
  rw [lines, List.getLast?_eq_some_getLast hne, List.forall_mem_append, List.forall_mem_append,
    List.forall_mem_map, List.forall_mem_singleton]
  refine and_congr (forall₂_congr fun piece _ => hstrip piece) ?_
  simp only [Option.toList_some, List.mem_filter, mem_singleton, Bool.not_eq_true',
    List.isEmpty_eq_false_iff, and_imp, forall_eq]
  by_cases hlast : (Text.splitOn '\n' s).getLast hne = []
  · simp [hlast, hnil]
  · simp [hlast]

theorem not_mem_of_mem_lines {s line : Text} (h : line ∈ lines s) : '\n' ∉ line := by
  have hall : ∀ piece ∈ Text.splitOn '\n' s, '\n' ∉ piece := fun piece hpiece =>
    Text.not_mem_of_mem_splitOn hpiece
  refine (forall_lines_iff (P := fun line => '\n' ∉ line) not_mem_nil (fun line => ?_) s).mpr
    hall line h
  simp

theorem not_mem_escapeLine {line : Text} {c : Char} (h : c ∉ line)
    (hc : c ∉ "[ESCAPED] ".toList) : c ∉ escapeLine line := by
  unfold escapeLine
  split_ifs
  · rw [List.mem_append, not_or]
    exact ⟨hc, h⟩
  · exact h

theorem splitOn_escaped (s : Text) (hne : (lines s).map escapeLine ≠ []) :
    Text.splitOn '\n' (Text.joinWith ['\n'] ((lines s).map escapeLine)) =
      (lines s).map escapeLine := by
  refine Text.splitOn_joinWith hne fun line hline => ?_
  obtain ⟨before, hbefore, rfl⟩ := mem_map.mp hline
  exact not_mem_escapeLine (not_mem_of_mem_lines hbefore) (by decide)

variable {ok : Option Char → Prop} {token : Text}

structure Inline (token : Text) : Prop where
  nonempty : token ≠ []
  lineEnd : '\n' ∉ token
  carriageReturn : '\r' ∉ token
  space : ' ' ∉ token
  notice : ¬ token <:+: "[ESCAPED]".toList

theorem guarded_lines_iff (hok : ∀ last, ok last → last = some '\\') (h : Inline token) (s : Text) :
    Guarded ok token none (Text.joinWith ['\n'] ((lines s).map escapeLine)) ↔
      Guarded ok token none s := by
  have hnone : ¬ ok none := fun hnone => by cases hok none hnone
  -- a line end or the space of the notice guards no more than the start of a text
  have hnot : ∀ c, c ≠ '\\' → (ok (some c) ↔ ok none) := fun c hc =>
    iff_of_false (fun hsome => hc (Option.some.inj (hok (some c) hsome))) hnone
  have hline : ∀ line, Guarded ok token none (escapeLine line) ↔ Guarded ok token none line := by
    intro line
    unfold escapeLine
    split_ifs
    · have hnotice : "[ESCAPED] ".toList ++ line = "[ESCAPED]".toList ++ ' ' :: line := by
        have heq : "[ESCAPED] ".toList = "[ESCAPED]".toList ++ [' '] := by decide
        rw [heq, List.append_assoc, singleton_append]
      rw [hnotice, Text.guarded_append_cons_iff h.nonempty h.space h.notice]
      exact Text.guarded_congr (hnot ' ' (by decide))
    · rfl
  have hlines : Guarded ok token none s ↔ ∀ line ∈ lines s, Guarded ok token none line := by
    rw [Text.guarded_splitOn_iff h.nonempty h.lineEnd (hnot '\n' (by decide))]
    exact (forall_lines_iff trivial
      (fun line => Text.guarded_append_singleton_iff h.nonempty h.carriageReturn) s).symm
  rw [hlines]
  by_cases hne : (lines s).map escapeLine = []
  · rw [List.map_eq_nil_iff.mp hne]
    simp [Text.joinWith, Guarded]
  · rw [Text.guarded_splitOn_iff h.nonempty h.lineEnd (hnot '\n' (by decide)),
      splitOn_escaped s hne, List.forall_mem_map]
    exact forall₂_congr fun line _ => hline line

end Lines

def roles : List Text := ["system:".toList, "user:".toList, "assistant:".toList]

/-- No null byte or closing token is left, others are escaped, and no line begins with a role. -/
structure Neutral (s : Text) : Prop where
  noNull : ∀ c ∈ s, c.toNat ≠ 0
  closing : ¬ "|>".toList <:+: s
  opening : ∀ token ∈ ["<|".toList, "[INST]".toList, "[/INST]".toList], ∀ front back,
    s = front ++ token ++ back → front.getLast? = some '\\'
  lines : ∀ line ∈ lines s, ∀ role ∈ roles, ¬ role <+: Text.toAsciiLowercase (Text.trim line)

/-- No token has null bytes inside, unless it is an opening one behind a backslash. -/
structure Uninterrupted (s : Text) : Prop where
  closing : ∀ before after, s = before ++ '|' :: after → ¬ Interrupted ['>'] after
  opening : ∀ token ∈ [('<', ['|']), ('[', "INST]".toList), ('[', "/INST]".toList)],
    ∀ before after, s = before ++ token.1 :: after → Interrupted token.2 after →
      (withoutNull before).getLast? = some '\\'

theorem hasRoleMarker_iff {line : Text} : hasRoleMarker line = true ↔ ∃ role ∈ roles,
    role <+: Text.toAsciiLowercase (Text.trimStartMatches Text.isWhitespace line) := by
  simp only [hasRoleMarker, roles, Bool.or_eq_true, List.isPrefixOf_iff_prefix, List.mem_cons,
    not_mem_nil, or_false, exists_eq_or_imp, exists_eq_left, or_assoc]

theorem hasRoleMarker_append_return (line : Text) :
    hasRoleMarker (line ++ ['\r']) = true ↔ hasRoleMarker line = true := by
  rw [hasRoleMarker_iff, hasRoleMarker_iff]
  refine exists_congr fun role => and_congr_right fun hrole => ?_
  have hreturn : '\r' ∉ role := by
    have hall : ∀ role ∈ roles, '\r' ∉ role := by decide
    exact hall role hrole
  rw [Text.trimStartMatches, Text.trimStartMatches, List.dropWhile_append]
  split_ifs with hblank
  · rw [List.isEmpty_iff.mp hblank]
    rfl
  · rw [Text.toAsciiLowercase, Text.toAsciiLowercase, List.map_append]
    exact Text.prefix_append_cons_iff hreturn _ []

theorem hasRoleMarker_escapeLine (line : Text) : ¬ hasRoleMarker (escapeLine line) = true := by
  unfold escapeLine
  split_ifs with hmarker
  · rw [hasRoleMarker_iff]
    rintro ⟨role, hrole, hprefix⟩
    have hhead : ∀ role ∈ roles, ∀ s : Text, ¬ role <+: '[' :: s := by
      simp [roles]
    exact hhead role hrole _ hprefix
  · exact hmarker

theorem not_hasRole_of_mem_lines {content line role : Text}
    (h : line ∈ lines (escapeContent content)) (hrole : role ∈ roles) :
    ¬ role <+: Text.toAsciiLowercase (Text.trim line) := by
  intro hprefix
  -- it would begin with the role before its end is trimmed, too
  have hmarker : hasRoleMarker line = true := hasRoleMarker_iff.mpr ⟨role, hrole,
    hprefix.trans ((Text.trimEndMatches_prefix Text.isWhitespace _).map Char.toLower)⟩
  refine (forall_lines_iff (P := fun line => ¬ hasRoleMarker line = true) (by decide)
    (fun line => not_congr (hasRoleMarker_append_return line)) _).mpr ?_ line h hmarker
  rw [escapeContent_eq]
  by_cases hne : (lines (withoutNull (addSlashes content))).map escapeLine = []
  · rw [hne]
    decide
  · rw [splitOn_escaped _ hne, List.forall_mem_map]
    exact fun line _ => hasRoleMarker_escapeLine line

theorem noNull_escapeContent {content : Text} (h : c ∈ escapeContent content) : c.toNat ≠ 0 := by
  intro hnull
  have hne : ∀ d : Char, d.toNat ≠ 0 → c ≠ d := fun d hd heq => hd (heq ▸ hnull)
  have hlines : ∀ line ∈ lines (withoutNull (addSlashes content)), c ∉ line := by
    refine (forall_lines_iff not_mem_nil (fun line => ?_) _).mpr fun piece hpiece hc => ?_
    · simp [hne '\r' (by decide)]
    · have hmem := (List.mem_filter.mp (Text.mem_of_mem_splitOn hpiece hc)).2
      simp [hnull] at hmem
  rw [escapeContent_eq] at h
  rcases Text.mem_joinWith h with hc | ⟨line, hline, hc⟩
  · exact hne '\n' (by decide) (mem_singleton.mp hc)
  · obtain ⟨before, hbefore, rfl⟩ := mem_map.mp hline
    refine not_mem_escapeLine (hlines before hbefore) (fun hmem => ?_) hc
    have hnotice : ∀ d ∈ "[ESCAPED] ".toList, d.toNat ≠ 0 :=
      all_iff_forall_prop.mp (by decide)
    exact hnotice c hmem hnull

/-- **Escaped content is neutral** if and only if no token is interrupted. -/
theorem neutral_iff : Neutral (escapeContent content) ↔ Uninterrupted content := by
  have hguarded : ∀ {ok token}, (∀ last, ok last → last = some '\\') → Inline token →
      (Guarded ok token none (escapeContent content) ↔
        Guarded ok token none (escapedTokens content)) := by
    intro ok token hok htoken
    rw [escapeContent_eq, addSlashes_eq_slashed]
    exact guarded_lines_iff hok htoken _
  have hclosing : ¬ "|>".toList <:+: escapeContent content ↔
      ∀ before after, content = before ++ '|' :: after → ¬ Interrupted ['>'] after := by
    rw [← guarded_closing_iff, ← hguarded (by simp) ⟨by decide, by decide, by decide, by decide,
      by decide⟩, Text.guarded_iff (by decide)]
    constructor
    · exact fun h front back hsplit => h ⟨front, back, hsplit.symm⟩
    · rintro h ⟨front, back, hsplit⟩
      exact h front back hsplit.symm
  have hopening : ∀ token, Inline token →
      ((∀ front back, escapeContent content = front ++ token ++ back →
        front.getLast? = some '\\') ↔
          Guarded isBackslash token none (escapedTokens content)) := by
    intro token htoken
    have hiff : Guarded isBackslash token none (escapeContent content) ↔ _ :=
      hguarded (fun last hlast => hlast) htoken
    rw [← hiff, Text.guarded_iff htoken.nonempty]
    simp [isBackslash]
  have hpipe := (hopening "<|".toList ⟨by decide, by decide, by decide, by decide,
    by decide⟩).trans (guarded_pipe_iff content)
  have hinst := (hopening "[INST]".toList ⟨by decide, by decide, by decide, by decide,
    by decide⟩).trans (guarded_inst_iff content)
  have hend := (hopening "[/INST]".toList ⟨by decide, by decide, by decide, by decide,
    by decide⟩).trans (guarded_end_iff content)
  constructor
  · intro h
    refine ⟨hclosing.mp h.closing, ?_⟩
    simp only [List.forall_mem_cons, not_mem_nil, false_implies, implies_true, and_true]
    exact ⟨hpipe.mp (h.opening _ (by simp)), hinst.mp (h.opening _ (by simp)),
      hend.mp (h.opening _ (by simp))⟩
  · intro h
    have hopenings := h.opening
    simp only [List.forall_mem_cons, not_mem_nil, false_implies, implies_true,
      and_true] at hopenings
    refine ⟨fun c => noNull_escapeContent, hclosing.mpr h.closing, ?_,
      fun line hline role hrole => not_hasRole_of_mem_lines hline hrole⟩
    simp only [List.forall_mem_cons, not_mem_nil, false_implies, implies_true, and_true]
    exact ⟨hpipe.mpr hopenings.1, hinst.mpr hopenings.2.1, hend.mpr hopenings.2.2⟩

end IronClaw.Safety.Sanitizer
