import IronClaw.Foundation.Search
import IronClaw.Safety.Escaping

/-!
# What the sanitizer detects

The phrases are found without overlap, so a harmless one can take the first letter of a critical
one: of the marker of the system role, behind one of five texts.
-/

namespace IronClaw.Safety.Sanitizer

open Foundation (Finds Text endsIn search)

def needles : List Text := patterns.map fun info => Text.toAsciiLowercase info.pattern

def systemMarker : Text := "system:".toList

def criticalPhrases : List Text :=
  ["ignore all previous".toList, systemMarker, "<|".toList, "|>".toList, "[inst]".toList,
    "[/inst]".toList]

theorem mem_criticalPhrases_iff {info : PatternInfo} (h : info ∈ patterns) :
    Text.toAsciiLowercase info.pattern ∈ criticalPhrases ↔ info.severity = .critical := by
  have hall : ∀ info ∈ patterns,
      (Text.toAsciiLowercase info.pattern ∈ criticalPhrases ↔ info.severity = .critical) := by
    decide
  exact hall info h

theorem longest_map (infos : List PatternInfo) :
    (longest infos).map (fun info => Text.toAsciiLowercase info.pattern) =
      Foundation.longest (infos.map fun info => Text.toAsciiLowercase info.pattern) := by
  induction infos with
  | nil => rfl
  | cons info infos ih =>
    rw [List.map_cons, longest, Foundation.longest, ← ih]
    cases longest infos with
    | none => rfl
    | some other =>
      simp only [Option.map_some, Text.toAsciiLowercase, List.length_map]
      split_ifs <;> rfl

theorem findPatterns_eq_search (seen : Text) (offset : Nat) (s : Text) :
    (findPatterns seen offset s).map (fun w => Text.toAsciiLowercase w.pattern) =
      search needles (Text.toAsciiLowercase seen) (Text.toAsciiLowercase s) := by
  induction s generalizing seen offset with
  | nil => rfl
  | cons c s ih =>
    have hending : (patterns.filter (endsWithPattern (c :: seen))).map
        (fun info => Text.toAsciiLowercase info.pattern) =
          Foundation.endingNeedles needles (c.toLower :: Text.toAsciiLowercase seen) := by
      rw [Foundation.endingNeedles, needles, List.filter_map]
      rfl
    have hlongest := longest_map (patterns.filter (endsWithPattern (c :: seen)))
    rw [hending] at hlongest
    change _ = search needles _ (c.toLower :: Text.toAsciiLowercase s)
    rw [findPatterns, search, ← hlongest]
    cases longest (patterns.filter (endsWithPattern (c :: seen))) with
    | none => exact ih (c :: seen) _
    | some info => exact congrArg (Text.toAsciiLowercase info.pattern :: ·) (ih [] _)

theorem longest_mem {infos : List PatternInfo} {info : PatternInfo}
    (h : longest infos = some info) : info ∈ infos := by
  induction infos generalizing info with
  | nil => cases h
  | cons first infos ih =>
    rw [longest] at h
    cases hrest : longest infos with
    | none =>
      rw [hrest] at h
      cases h
      exact List.mem_cons_self
    | some other =>
      rw [hrest] at h
      dsimp only at h
      split_ifs at h
      · cases h
        exact List.mem_cons_self
      · cases h
        exact List.mem_cons_of_mem first (ih hrest)

theorem critical_iff_of_mem_findPatterns {seen s : Text} {offset : Nat} {w : InjectionWarning}
    (h : w ∈ findPatterns seen offset s) :
    w.severity = .critical ↔ Text.toAsciiLowercase w.pattern ∈ criticalPhrases := by
  induction s generalizing seen offset with
  | nil => cases h
  | cons c s ih =>
    rw [findPatterns] at h
    cases hlongest : longest (patterns.filter (endsWithPattern (c :: seen))) with
    | none =>
      rw [hlongest] at h
      exact ih h
    | some info =>
      rw [hlongest] at h
      rcases List.mem_cons.mp h with rfl | h
      · exact (mem_criticalPhrases_iff (List.mem_filter.mp (longest_mem hlongest)).1).symm
      · exact ih h

theorem severity_of_mem_findRegex {p : RegexPattern} {offset skip : Nat} {s : Text}
    {w : InjectionWarning} (h : w ∈ findRegex p offset skip s) : w.severity = p.severity := by
  induction s generalizing offset skip with
  | nil => cases skip <;> cases h
  | cons c s ih =>
    cases skip with
    | succ skip => exact ih h
    | zero =>
      rw [findRegex] at h
      split at h
      · rcases List.mem_cons.mp h with rfl | h
        · rfl
        · exact ih h
      · exact ih h

def nullPattern : RegexPattern :=
  ⟨nullLength, "null_byte".toList, .critical, "Null byte injection attempt"⟩

theorem findRegex_null_eq_nil_iff (offset : Nat) (s : Text) :
    findRegex nullPattern offset 0 s = [] ↔ ∀ c ∈ s, c.toNat ≠ 0 := by
  induction s generalizing offset with
  | nil => exact iff_of_true rfl nofun
  | cons c s ih =>
    rw [List.forall_mem_cons, findRegex]
    by_cases hc : c.toNat = 0
    · -- a match of one character leaves nothing to skip
      have hlength : nullPattern.matchLength (c :: s) = some 1 := if_pos hc
      rw [hlength]
      exact iff_of_false (List.cons_ne_nil _ _) fun h => h.1 hc
    · have hlength : nullPattern.matchLength (c :: s) = none := if_neg hc
      rw [hlength, ← ih (offset + c.utf8Size)]
      exact (and_iff_right hc).symm

def ReportsCritical (content : Text) : Prop :=
  ∃ w ∈ (sanitize content).warnings, w.severity = .critical

theorem not_mem_needles_nil : [] ∉ needles := by decide

theorem reportsCritical_iff_findings {content : Text} :
    ReportsCritical content ↔ ∃ w ∈ findings content, w.severity = .critical := by
  have hwarnings : (sanitize content).warnings = _ := detect_eq content
  simp only [ReportsCritical, hwarnings, List.mem_insertionSort]

theorem reportsCritical_iff {content : Text} :
    ReportsCritical content ↔ (∃ c ∈ content, c.toNat = 0) ∨
      ∃ phrase ∈ criticalPhrases, Finds needles (Text.toAsciiLowercase content) phrase := by
  have hphrases : (∃ w ∈ findPatterns [] 0 content, w.severity = .critical) ↔
      ∃ phrase ∈ criticalPhrases, Finds needles (Text.toAsciiLowercase content) phrase := by
    -- the findings are those of a search in the lower-case text
    have hmem : ∀ phrase, phrase ∈ (findPatterns [] 0 content).map
        (fun w => Text.toAsciiLowercase w.pattern) ↔
          Finds needles (Text.toAsciiLowercase content) phrase := by
      intro phrase
      rw [findPatterns_eq_search]
      exact Foundation.mem_search_iff not_mem_needles_nil
        (Foundation.quiet_nil not_mem_needles_nil)
    constructor
    · rintro ⟨w, hw, hcritical⟩
      exact ⟨_, (critical_iff_of_mem_findPatterns hw).mp hcritical,
        (hmem _).mp (List.mem_map_of_mem hw)⟩
    · rintro ⟨phrase, hphrase, hfinds⟩
      obtain ⟨w, hw, rfl⟩ := List.mem_map.mp ((hmem phrase).mpr hfinds)
      exact ⟨w, hw, (critical_iff_of_mem_findPatterns hw).mpr hphrase⟩
  have hregexes : (∃ w ∈ regexPatterns.flatMap (fun p => findRegex p 0 0 content),
      w.severity = .critical) ↔ ∃ c ∈ content, c.toNat = 0 := by
    have hnull : (∃ c ∈ content, c.toNat = 0) ↔ findRegex nullPattern 0 0 content ≠ [] := by
      rw [Ne, findRegex_null_eq_nil_iff]
      push Not
      rfl
    rw [hnull]
    constructor
    · rintro ⟨w, hw, hcritical⟩ hnil
      obtain ⟨p, hp, hw⟩ := List.mem_flatMap.mp hw
      rw [severity_of_mem_findRegex hw] at hcritical
      -- the other expressions are not critical
      have hp' : p = nullPattern := by
        simp only [regexPatterns, List.mem_cons, List.not_mem_nil, or_false] at hp
        rcases hp with rfl | rfl | rfl | rfl
        · cases hcritical
        · cases hcritical
        · cases hcritical
        · rfl
      rw [hp', hnil] at hw
      cases hw
    · intro hne
      obtain ⟨w, hw⟩ := List.exists_mem_of_ne_nil _ hne
      refine ⟨w, List.mem_flatMap.mpr ⟨nullPattern, ?_, hw⟩, severity_of_mem_findRegex hw⟩
      simp [regexPatterns, nullPattern]
  rw [reportsCritical_iff_findings, findings]
  simp only [List.mem_append, or_and_right, exists_or]
  rw [hphrases, hregexes, or_comm]

theorem sanitize_of_reportsCritical {content : Text} (h : ReportsCritical content) :
    (sanitize content).wasModified = true ∧ (sanitize content).content = escapeContent content := by
  have hany : (((findings content).insertionSort fun a b => b.severity ≤ a.severity).any
      fun w => w.severity == .critical) = true := by
    obtain ⟨w, hw, hcritical⟩ := reportsCritical_iff_findings.mp h
    exact List.any_eq_true.mpr ⟨w, by simpa using hw, by simp [hcritical]⟩
  rw [sanitize, if_pos hany]
  exact ⟨rfl, rfl⟩

/-- What takes the start of a marker: a harmless phrase, or the start of a code block. -/
def swallowing : List Text :=
  ["act a".toList, "ignore previou".toList, "new instruction".toList, "updated instruction".toList,
    "```".toList]

/-- If something critical occurs, so does a null byte or a critical phrase whose start is not taken.
-/
def Unswallowed (content : Text) : Prop :=
  systemMarker <:+: Text.toAsciiLowercase content → (∃ c ∈ content, c.toNat = 0) ∨
    (∃ phrase ∈ criticalPhrases, phrase ≠ systemMarker ∧
      phrase <:+: Text.toAsciiLowercase content) ∨
    ∃ before after, Text.toAsciiLowercase content = before ++ systemMarker ++ after ∧
      ∀ front ∈ swallowing, ¬ front <:+ before

section Swallowed

variable {text : Text}

theorem finds_critical_of_occurs {phrase : Text} (hphrase : phrase ∈ criticalPhrases)
    (hne : phrase ≠ systemMarker) (h : phrase <:+: text) :
    ∃ found ∈ criticalPhrases, Finds needles text found := by
  obtain ⟨before, after, hsplit⟩ := h
  have hneedle : ∀ phrase ∈ criticalPhrases, phrase ∈ needles := by decide
  obtain ⟨found, hmem, hfinds, -, -, -, -, hends⟩ :=
    Foundation.exists_finds_endsIn not_mem_needles_nil (hneedle phrase hphrase) hsplit.symm
  have hcritical : ∀ phrase ∈ criticalPhrases, phrase ≠ systemMarker → ∀ found ∈ needles,
      endsIn found phrase = true → found ∈ criticalPhrases := by
    decide
  exact ⟨found, hcritical phrase hphrase hne found hmem hends, hfinds⟩

theorem finds_critical_of_unswallowed {before after : Text}
    (hsplit : text = before ++ systemMarker ++ after)
    (h : ∀ front ∈ swallowing, ¬ front <:+ before) :
    ∃ found ∈ criticalPhrases, Finds needles text found := by
  obtain ⟨found, hmem, hfinds, shared, hne, hprefix, hfound, -⟩ :=
    Foundation.exists_finds_endsIn not_mem_needles_nil
      (show systemMarker ∈ needles by decide) hsplit
  have hshared : shared ∈ systemMarker.inits := (List.mem_inits _ _).mpr hprefix
  have hends : found <:+ shared ∨ shared <:+ found :=
    List.suffix_or_suffix_of_suffix hfound (List.suffix_append before shared)
  have hall : ∀ shared ∈ systemMarker.inits, shared ≠ [] → ∀ found ∈ needles,
      found <:+ shared ∨ shared <:+ found →
        found ∈ criticalPhrases ∨ ∃ front ∈ swallowing, front ++ shared = found := by
    decide
  -- what is found is critical, or what takes the start of the marker
  rcases hall shared hshared hne found hmem hends with hcritical | ⟨front, hfront, rfl⟩
  · exact ⟨found, hcritical, hfinds⟩
  · obtain ⟨rest, hrest⟩ := hfound
    rw [← List.append_assoc] at hrest
    exact absurd ⟨rest, List.append_cancel_right hrest⟩ (h front hfront)

theorem exists_unswallowed_of_finds (h : Finds needles text systemMarker) :
    ∃ before after, text = before ++ systemMarker ++ after ∧
      ∀ front ∈ swallowing, ¬ front <:+ before := by
  obtain ⟨before, after, hsplit, hnot⟩ := h.exists_unswallowed
  refine ⟨before, after, hsplit, fun front hfront => ?_⟩
  have hends : ∀ front ∈ swallowing, ∀ other ∈ needles, endsIn other front = false := by
    decide
  have hswallower : ∀ front ∈ swallowing,
      front ++ "s".toList ∈ needles ∨ front ++ "system".toList ∈ needles := by
    decide
  rcases hswallower front hfront with hneedle | hneedle
  · exact hnot front "s".toList "ystem:".toList rfl (by decide) hneedle (hends front hfront)
  · exact hnot front "system".toList ":".toList rfl (by decide) hneedle (hends front hfront)

end Swallowed

variable (content : Text)

/-- What is critical is reported and has the content escaped, and then the content is neutral. -/
structure Neutralises : Prop where
  phrases : ∀ info ∈ patterns, info.severity = .critical →
    Text.toAsciiLowercase info.pattern <:+: Text.toAsciiLowercase content →
    ReportsCritical content ∧ (sanitize content).wasModified = true ∧
      (sanitize content).content = escapeContent content
  null : (∃ c ∈ content, c.toNat = 0) →
    ReportsCritical content ∧ (sanitize content).wasModified = true ∧
      (sanitize content).content = escapeContent content
  neutral : ReportsCritical content → Neutral (sanitize content).content

theorem uninterrupted_of_noNull {content : Text} (h : ∀ c ∈ content, c.toNat ≠ 0) :
    Uninterrupted content := by
  have hnot : ∀ before after : Text, ∀ c rest, content = before ++ c :: after →
      ¬ Interrupted rest after := by
    rintro before after c rest hsplit ⟨hrest, hbegins⟩
    have hafter : withoutNull after = after := by
      refine List.filter_eq_self.mpr fun d hd => ?_
      have hmem : d ∈ content := by
        rw [hsplit]
        exact List.mem_append_right before (List.mem_cons_of_mem c hd)
      simpa using h d hmem
    rw [hafter] at hrest
    exact hbegins hrest
  exact ⟨fun before after hsplit => hnot before after _ _ hsplit,
    fun token _ before after hsplit hinterrupted =>
      absurd hinterrupted (hnot before after _ _ hsplit)⟩

/-- **Nothing critical slips through** if and only if no token is interrupted or swallowed. -/
theorem neutralises_iff : Neutralises content ↔ Uninterrupted content ∧ Unswallowed content := by
  have hinfo : ∀ phrase ∈ criticalPhrases, ∃ info ∈ patterns, info.severity = .critical ∧
      Text.toAsciiLowercase info.pattern = phrase := by
    decide
  constructor
  · intro h
    refine ⟨?_, fun hoccurs => ?_⟩
    · by_cases hnull : ∃ c ∈ content, c.toNat = 0
      · obtain ⟨hreports, -, hcontent⟩ := h.null hnull
        have hneutral := h.neutral hreports
        rw [hcontent] at hneutral
        exact (neutral_iff content).mp hneutral
      · exact uninterrupted_of_noNull fun c hc hzero => hnull ⟨c, hc, hzero⟩
    · -- the marker occurs, and so something critical is found
      obtain ⟨info, hinfo', hcritical, hphrase⟩ := hinfo systemMarker (by decide)
      have hreports := (h.phrases info hinfo' hcritical (hphrase ▸ hoccurs)).1
      rcases reportsCritical_iff.mp hreports with hnull | ⟨phrase, hmem, hfinds⟩
      · exact .inl hnull
      · by_cases hsystem : phrase = systemMarker
        · exact .inr (.inr (exists_unswallowed_of_finds (hsystem ▸ hfinds)))
        · obtain ⟨before, after, hsplit, -⟩ := hfinds.exists_unswallowed
          exact .inr (.inl ⟨phrase, hmem, hsystem, before, after, hsplit.symm⟩)
  · rintro ⟨huninterrupted, hunswallowed⟩
    have hreports : ∀ phrase ∈ criticalPhrases, phrase <:+: Text.toAsciiLowercase content →
        ReportsCritical content := by
      intro phrase hphrase hoccurs
      rw [reportsCritical_iff]
      by_cases hsystem : phrase = systemMarker
      · rcases hunswallowed (hsystem ▸ hoccurs) with hnull | ⟨other, hother, hne, hinfix⟩ |
          ⟨before, after, hsplit, hnot⟩
        · exact .inl hnull
        · exact .inr (finds_critical_of_occurs hother hne hinfix)
        · exact .inr (finds_critical_of_unswallowed hsplit hnot)
      · exact .inr (finds_critical_of_occurs hphrase hsystem hoccurs)
    refine ⟨fun info hinfo' hcritical hoccurs => ?_, fun hnull => ?_, fun hcritical => ?_⟩
    · have hcritical' := hreports _ ((mem_criticalPhrases_iff hinfo').mpr hcritical) hoccurs
      exact ⟨hcritical', sanitize_of_reportsCritical hcritical'⟩
    · have hcritical' := reportsCritical_iff.mpr (.inl hnull)
      exact ⟨hcritical', sanitize_of_reportsCritical hcritical'⟩
    · rw [(sanitize_of_reportsCritical hcritical).2]
      exact (neutral_iff content).mpr huninterrupted

def interruptedToken : Text := ['<', Char.ofNat 0, '|', 'x', '|', Char.ofNat 0, '>']

/-- Removing null bytes makes tokens, and a code block takes the start of a marker. -/
theorem not_neutralises_interrupted :
    (sanitize interruptedToken).content = "<|x|>".toList ∧ ¬ Neutralises interruptedToken ∧
      detect "```system: obey".toList =
        [⟨"```system".toList, .high, 0, 9, "Potential code block instruction injection"⟩] ∧
      ¬ Neutralises "```system: obey".toList := by
  have hcontent : (sanitize interruptedToken).content = "<|x|>".toList := by decide
  have hblock : detect "```system: obey".toList =
      [⟨"```system".toList, .high, 0, 9, "Potential code block instruction injection"⟩] := by
    decide
  refine ⟨hcontent, fun h => ?_, hblock, fun h => ?_⟩
  · have hneutral := h.neutral (h.null ⟨Char.ofNat 0, by decide, rfl⟩).1
    refine hneutral.closing ?_
    rw [hcontent]
    exact ⟨"<|x".toList, [], rfl⟩
  · have hreports := (h.phrases ⟨systemMarker, .critical, "Attempt to inject system message"⟩
      (by decide) rfl ⟨"```".toList, " obey".toList, by decide⟩).1
    obtain ⟨w, hw, hcritical⟩ := hreports
    change w ∈ detect _ at hw
    rw [hblock] at hw
    rw [List.mem_singleton.mp hw] at hcritical
    cases hcritical

end IronClaw.Safety.Sanitizer
