import Mathlib.Data.List.Infix
import Mathlib.Data.List.Sort
import IronClaw.Memory.Chunker

/-!
# Selecting skills

The skills that score best are selected, within a limit and a budget. One selected by its score
brings the companions it requires; a companion does not bring its own.
-/

namespace IronClaw.Skills.Selector

open Foundation (Text)
open List (map_append mem_append mem_cons_self mem_singleton prefix_append prefix_rfl)

structure LoadedSkill where
  name : Text
  maxContextTokens : Nat
  setupMarker : Option Text
  requires : List Text
  promptContent : Text
  lowercasedKeywords : List Text
  lowercasedExcludeKeywords : List Text
  lowercasedTags : List Text
  compiledPatterns : List Text
deriving DecidableEq

structure MatchLibs where
  toLowercase : Text → Text
  isAlphanumeric : Char → Bool
  isMatch : Text → Text → Bool

structure SelectRequest where
  message : Text
  availableSkills : List LoadedSkill
  maxCandidates : Nat
  maxContextTokens : Nat
  satisfiedSetupMarkers : List Text

def LoadedSkill.tokenCost (skill : LoadedSkill) : Nat :=
  let approxTokens := Text.byteLength skill.promptContent / 4
  max 1 <| if skill.maxContextTokens * 2 % 2 ^ 64 < approxTokens then approxTokens else
    skill.maxContextTokens

def keywordScore (libs : MatchLibs) (messageLower keyword : Text) : Nat :=
  if keyword ∈ (Memory.splitWhitespace messageLower).map
      (Text.trimMatches fun c => !libs.isAlphanumeric c) then 10
  else if keyword <:+: messageLower then 5
  else 0

def scoreSkill (libs : MatchLibs) (skill : LoadedSkill) (messageLower message : Text) : Nat :=
  if skill.lowercasedExcludeKeywords.any fun keyword => keyword <:+: messageLower then 0
  else
    min ((skill.lowercasedKeywords.map (keywordScore libs messageLower)).sum % 2 ^ 32) 30 +
      min (3 * skill.lowercasedTags.countP (fun tag => tag <:+: messageLower) % 2 ^ 32) 15 +
      min (20 * skill.compiledPatterns.countP (fun re => libs.isMatch re message) % 2 ^ 32) 40

inductive TrySelectOutcome where
  | selected
  | alreadySelected
  | candidateLimit
  | markerSatisfied
  | budgetFull

/-- The selected skills, whose names are the selected names, the budget that remains, and the
notes. -/
structure Selecting where
  result : List LoadedSkill
  budgetRemaining : Nat
  notes : List Text

def chainLoaded (companion parent : Text) : Text :=
  companion ++ ": chain-loaded from ".toList ++ parent

def companionNote (companion parent : Text) : TrySelectOutcome → List Text
  | .selected => [chainLoaded companion parent]
  | .budgetFull => [companion ++ ": chain-load skipped (budget full)".toList]
  | .candidateLimit => [companion ++ ": chain-load skipped (max active skills reached)".toList]
  | .markerSatisfied => [companion ++ ": chain-load skipped (setup already complete)".toList]
  | .alreadySelected => []

section Selection

variable (libs : MatchLibs) (req : SelectRequest)

def setupDone (skill : LoadedSkill) : Bool :=
  skill.setupMarker.any fun marker => marker ∈ req.satisfiedSetupMarkers

def trySelect (skill : LoadedSkill) (s : Selecting) : TrySelectOutcome × Selecting :=
  if req.maxCandidates ≤ s.result.length then (.candidateLimit, s)
  else if skill.name ∈ s.result.map LoadedSkill.name then (.alreadySelected, s)
  else if setupDone req skill then (.markerSatisfied, s)
  else if s.budgetRemaining < skill.tokenCost then (.budgetFull, s)
  else (.selected, ⟨s.result ++ [skill], s.budgetRemaining - skill.tokenCost, s.notes⟩)

def byName (name : Text) : Option LoadedSkill :=
  req.availableSkills.reverse.find? fun skill => skill.name = name

def chainLoad (parent : LoadedSkill) (s : Selecting) (companionName : Text) : Selecting :=
  match byName req companionName with
  | none => s
  | some companion =>
    let (outcome, s) := trySelect req companion s
    { s with notes := s.notes ++ companionNote companionName parent.name outcome }

def selectScored : List LoadedSkill → Selecting → Selecting
  | [], s => s
  | skill :: scored, s =>
    match trySelect req skill s with
    | (.selected, s) => selectScored scored (skill.requires.foldl (chainLoad req skill) s)
    | (.budgetFull, s) =>
      selectScored scored { s with
        notes := s.notes ++ [skill.name ++ ": skipped (skill context budget exhausted)".toList] }
    | (.candidateLimit, s) => s
    | (_, s) => selectScored scored s

def score (skill : LoadedSkill) : Nat :=
  scoreSkill libs skill (libs.toLowercase req.message) req.message

def scoredSkills : List LoadedSkill :=
  (req.availableSkills.filter fun skill =>
    !setupDone req skill && 0 < score libs req skill).insertionSort
      fun a b => score libs req b ≤ score libs req a

def prefilterSkills : Selecting :=
  if req.availableSkills = [] ∨ req.message = [] then ⟨[], req.maxContextTokens, []⟩
  else selectScored req (scoredSkills libs req) ⟨[], req.maxContextTokens, []⟩

/-- The limit or the budget leaves no room for the skill. -/
def Full (s : Selecting) (skill : LoadedSkill) : Prop :=
  req.maxCandidates ≤ s.result.length ∨
    req.maxContextTokens < skill.tokenCost + (s.result.map LoadedSkill.tokenCost).sum

/-- The skill is selected, or must or can not be. -/
def Settled (s : Selecting) (skill : LoadedSkill) : Prop :=
  skill ∈ s.result ∨ setupDone req skill = true ∨ Full req s skill

def CompanionsSettled (s : Selecting) (skill : LoadedSkill) : Prop :=
  ∀ companion ∈ req.availableSkills, companion.name ∈ skill.requires → Settled req s companion

def HasReason (s : Selecting) (skill : LoadedSkill) : Prop :=
  0 < score libs req skill ∨
    ∃ parent ∈ s.result, 0 < score libs req parent ∧ skill.name ∈ parent.requires

/-- Each skill that is selected is so for a reason, and once, within the limit and the budget. -/
structure Sound (s : Selecting) : Prop where
  once : (s.result.map LoadedSkill.name).Nodup
  limit : s.result.length ≤ req.maxCandidates
  budget : (s.result.map LoadedSkill.tokenCost).sum + s.budgetRemaining = req.maxContextTokens
  available : ∀ r ∈ s.result, r ∈ req.availableSkills ∧ setupDone req r = false
  reason : ∀ r ∈ s.result, HasReason libs req s r

/-- What scores is settled, and so are its companions, but for those of chain-loaded skills. -/
structure Selects (s : Selecting) : Prop where
  sound : Sound libs req s
  leftOut : req.message ≠ [] → ∀ skill ∈ req.availableSkills, 0 < score libs req skill →
    Settled req s skill
  companions : ∀ skill ∈ s.result, 0 < score libs req skill →
    (∀ parent, chainLoaded skill.name parent ∉ s.notes) → CompanionsSettled req s skill

end Selection

section Proofs

variable {libs : MatchLibs} {req : SelectRequest} {s s' s'' : Selecting} {skill : LoadedSkill}

structure Grows (s s' : Selecting) : Prop where
  result : s.result <+: s'.result
  notes : s.notes <+: s'.notes

theorem Grows.trans (h : Grows s s') (h' : Grows s' s'') : Grows s s'' :=
  ⟨h.result.trans h'.result, h.notes.trans h'.notes⟩

theorem Settled.mono (h : Settled req s skill) (hgrows : Grows s s') : Settled req s' skill := by
  refine h.imp (fun h => hgrows.result.subset h) (Or.imp_right fun h => ?_)
  obtain ⟨more, hmore⟩ := hgrows.result
  rw [Full, ← hmore, List.length_append, map_append, List.sum_append]
  exact h.imp (fun h => by omega) fun h => by omega

/-- A note says that the skill was chain-loaded, or its companions are settled. -/
def Loaded (req : SelectRequest) (s : Selecting) (skill : LoadedSkill) : Prop :=
  (∃ parent, chainLoaded skill.name parent ∈ s.notes) ∨ CompanionsSettled req s skill

theorem Loaded.mono (h : Loaded req s skill) (hgrows : Grows s s') : Loaded req s' skill :=
  h.imp (fun ⟨parent, hparent⟩ => ⟨parent, hgrows.notes.subset hparent⟩)
    fun h companion hmem hname => (h companion hmem hname).mono hgrows

theorem Sound.note (h : Sound libs req s) (notes : List Text) :
    Sound libs req { s with notes := notes } :=
  ⟨h.once, h.limit, h.budget, h.available, h.reason⟩

theorem Sound.push (h : Sound libs req s) (hlimit : s.result.length < req.maxCandidates)
    (hname : skill.name ∉ s.result.map LoadedSkill.name) (hskill : skill ∈ req.availableSkills)
    (hsetup : setupDone req skill = false) (hcost : skill.tokenCost ≤ s.budgetRemaining)
    (hreason : HasReason libs req s skill) :
    Sound libs req ⟨s.result ++ [skill], s.budgetRemaining - skill.tokenCost, s.notes⟩ where
  once := by
    rw [map_append, List.map_singleton]
    exact h.once.append (List.nodup_singleton _) (by simpa using hname)
  limit := by
    rw [List.length_append]
    exact hlimit
  budget := by
    have hbudget := h.budget
    simp only [map_append, List.map_singleton, List.sum_append, List.sum_singleton]
    omega
  available r hr := by
    rcases mem_append.mp hr with hr | hr
    · exact h.available r hr
    · rw [mem_singleton.mp hr]
      exact ⟨hskill, hsetup⟩
  reason r hr := by
    have hreason : HasReason libs req s r := by
      rcases mem_append.mp hr with hr | hr
      · exact h.reason r hr
      · rwa [mem_singleton.mp hr]
    exact hreason.imp_right fun ⟨parent, hparent, h⟩ =>
      ⟨parent, List.mem_append_left _ hparent, h⟩

variable (hnames : (req.availableSkills.map LoadedSkill.name).Nodup) (h : Sound libs req s)

include hnames h

theorem trySelect_cases (hskill : skill ∈ req.availableSkills)
    (hreason : HasReason libs req s skill) :
    (∃ budget, trySelect req skill s = (.selected, ⟨s.result ++ [skill], budget, s.notes⟩) ∧
      Sound libs req ⟨s.result ++ [skill], budget, s.notes⟩) ∨
    ∃ outcome, trySelect req skill s = (outcome, s) ∧ outcome ≠ .selected ∧
      Settled req s skill ∧ (outcome = .candidateLimit → req.maxCandidates ≤ s.result.length) := by
  rw [trySelect]
  split_ifs with hlimit hname hsetup hcost
  · exact .inr ⟨_, rfl, nofun, .inr (.inr (.inl hlimit)), fun _ => hlimit⟩
  · obtain ⟨r, hr, heq⟩ := List.mem_map.mp hname
    cases List.inj_on_of_nodup_map hnames (h.available r hr).1 hskill heq
    exact .inr ⟨_, rfl, nofun, .inl hr, nofun⟩
  · exact .inr ⟨_, rfl, nofun, .inr (.inl hsetup), nofun⟩
  · have hbudget := h.budget
    exact .inr ⟨_, rfl, nofun, .inr (.inr (.inr (by omega))), nofun⟩
  · exact .inl ⟨_, rfl, h.push (not_le.mp hlimit) hname hskill (by simpa using hsetup)
      (not_lt.mp hcost) hreason⟩

/-- What is new was chain-loaded. -/
structure Chained (libs : MatchLibs) (req : SelectRequest) (s s' : Selecting) : Prop where
  grows : Grows s s'
  sound : Sound libs req s'
  fresh : ∀ r ∈ s'.result, r ∈ s.result ∨ ∃ parent, chainLoaded r.name parent ∈ s'.notes

theorem chained_chainLoad (hmem : skill ∈ s.result) (hscore : 0 < score libs req skill)
    {name : Text} (hname : name ∈ skill.requires) :
    Chained libs req s (chainLoad req skill s name) ∧
      ∀ c ∈ req.availableSkills, c.name = name → Settled req (chainLoad req skill s name) c := by
  rw [chainLoad]
  cases hfound : byName req name with
  | none =>
    refine ⟨⟨⟨prefix_rfl, prefix_rfl⟩, h, fun r hr => .inl hr⟩, fun c hc heq => ?_⟩
    exact absurd (decide_eq_true heq) (List.find?_eq_none.mp hfound c (List.mem_reverse.mpr hc))
  | some companion =>
    have hcompanion := List.mem_reverse.mp (List.mem_of_find?_eq_some hfound)
    have heq : companion.name = name := by simpa using List.find?_some hfound
    have honly : ∀ c ∈ req.availableSkills, c.name = name → c = companion := fun c hc hcname =>
      List.inj_on_of_nodup_map hnames hc hcompanion (hcname.trans heq.symm)
    rcases trySelect_cases hnames h hcompanion (.inr ⟨skill, hmem, hscore, heq ▸ hname⟩) with
      ⟨budget, htry, hsound⟩ | ⟨outcome, htry, -, hsettled, -⟩
    · simp only [htry]
      refine ⟨⟨⟨prefix_append _ _, prefix_append _ _⟩, hsound.note _, fun r hr => ?_⟩,
        fun c hc hcname => .inl ?_⟩
      · refine (mem_append.mp hr).imp_right fun hr => ⟨skill.name, ?_⟩
        rw [mem_singleton.mp hr, heq]
        exact List.mem_append_right _ mem_cons_self
      · rw [honly c hc hcname]
        exact List.mem_append_right _ mem_cons_self
    · simp only [htry]
      have hgrows : Grows s { s with notes := s.notes ++ companionNote name skill.name outcome } :=
        ⟨prefix_rfl, prefix_append _ _⟩
      refine ⟨⟨hgrows, h.note _, fun r hr => .inl hr⟩, fun c hc hcname => ?_⟩
      rw [honly c hc hcname]
      exact hsettled.mono hgrows

theorem chained_foldl (hmem : skill ∈ s.result) (hscore : 0 < score libs req skill)
    (names : List Text) (hrequires : ∀ name ∈ names, name ∈ skill.requires) :
    Chained libs req s (names.foldl (chainLoad req skill) s) ∧
      ∀ c ∈ req.availableSkills, c.name ∈ names →
        Settled req (names.foldl (chainLoad req skill) s) c := by
  induction names generalizing s with
  | nil => exact ⟨⟨⟨prefix_rfl, prefix_rfl⟩, h, fun r hr => .inl hr⟩, nofun⟩
  | cons name names ih =>
    obtain ⟨hfirst, hsettled⟩ :=
      chained_chainLoad hnames h hmem hscore (hrequires name mem_cons_self)
    obtain ⟨hrest, hothers⟩ := ih hfirst.sound (hfirst.grows.result.subset hmem)
      fun name hname => hrequires name (List.mem_cons_of_mem _ hname)
    refine ⟨⟨hfirst.grows.trans hrest.grows, hrest.sound, fun r hr => ?_⟩, fun c hc hname => ?_⟩
    · rcases hrest.fresh r hr with hr | hr
      · exact (hfirst.fresh r hr).imp_right fun ⟨parent, hparent⟩ =>
          ⟨parent, hrest.grows.notes.subset hparent⟩
      · exact .inr hr
    · rcases List.mem_cons.mp hname with hname | hname
      · exact (hsettled c hc hname).mono hrest.grows
      · exact hothers c hc hname

theorem selectScored_correct (hloaded : ∀ r ∈ s.result, Loaded req s r) (scored : List LoadedSkill)
    (hscored : ∀ r ∈ scored, r ∈ req.availableSkills ∧ 0 < score libs req r) :
    Grows s (selectScored req scored s) ∧ Sound libs req (selectScored req scored s) ∧
      (∀ r ∈ (selectScored req scored s).result, Loaded req (selectScored req scored s) r) ∧
      ∀ r ∈ scored, Settled req (selectScored req scored s) r := by
  induction scored generalizing s with
  | nil => exact ⟨⟨prefix_rfl, prefix_rfl⟩, h, hloaded, nofun⟩
  | cons skill scored ih =>
    obtain ⟨hskill, hscore⟩ := hscored skill mem_cons_self
    have hothers := fun r hr => hscored r (List.mem_cons_of_mem _ hr)
    -- the rest is selected in a state where the skill is settled
    have hrest {s' : Selecting} (hgrows : Grows s s') (hsound : Sound libs req s')
        (hloaded : ∀ r ∈ s'.result, Loaded req s' r) (hsettled : Settled req s' skill) :
        Grows s (selectScored req scored s') ∧ Sound libs req (selectScored req scored s') ∧
          (∀ r ∈ (selectScored req scored s').result, Loaded req (selectScored req scored s') r) ∧
          ∀ r ∈ skill :: scored, Settled req (selectScored req scored s') r := by
      obtain ⟨hmore, hsound, hloaded, hall⟩ := ih hsound hloaded hothers
      exact ⟨hgrows.trans hmore, hsound, hloaded,
        List.forall_mem_cons.mpr ⟨hsettled.mono hmore, hall⟩⟩
    rcases trySelect_cases hnames h hskill (.inl hscore) with
      ⟨budget, htry, hsound⟩ | ⟨outcome, htry, hne, hsettled, hlimit⟩
    · rw [selectScored, htry]
      have hmem : skill ∈ s.result ++ [skill] := List.mem_append_right _ mem_cons_self
      obtain ⟨hchained, hcompanions⟩ := chained_foldl hnames hsound hmem hscore skill.requires
        fun _ hname => hname
      have hgrows : Grows s ⟨s.result ++ [skill], budget, s.notes⟩ :=
        ⟨prefix_append _ _, prefix_rfl⟩
      refine hrest (hgrows.trans hchained.grows) hchained.sound (fun r hr => ?_)
        (.inl (hchained.grows.result.subset hmem))
      rcases hchained.fresh r hr with hr | hr
      · rcases mem_append.mp hr with hr | hr
        · exact (hloaded r hr).mono (hgrows.trans hchained.grows)
        · rw [mem_singleton.mp hr]
          exact .inr hcompanions
      · exact .inl hr
    · rw [selectScored, htry]
      cases outcome with
      | selected => exact absurd rfl hne
      | candidateLimit =>
        exact ⟨⟨prefix_rfl, prefix_rfl⟩, h, hloaded,
          fun r _ => .inr (.inr (.inl (hlimit rfl)))⟩
      | budgetFull =>
        have hgrows (notes : List Text) : Grows s { s with notes := s.notes ++ notes } :=
          ⟨prefix_rfl, prefix_append _ _⟩
        exact hrest (hgrows _) (h.note _) (fun r hr => (hloaded r hr).mono (hgrows _))
          (hsettled.mono (hgrows _))
      | alreadySelected | markerSatisfied =>
        exact hrest ⟨prefix_rfl, prefix_rfl⟩ h hloaded hsettled

end Proofs

/-- **The selection is sound**, and complete but for the companions of chain-loaded skills. -/
theorem selects_prefilterSkills (libs : MatchLibs) (req : SelectRequest)
    (hnames : (req.availableSkills.map LoadedSkill.name).Nodup) :
    Selects libs req (prefilterSkills libs req) := by
  have hstart : Sound libs req ⟨[], req.maxContextTokens, []⟩ :=
    ⟨List.nodup_nil, Nat.zero_le _, Nat.zero_add _, nofun, nofun⟩
  rw [prefilterSkills]
  split_ifs with hempty
  · refine ⟨hstart, fun hmessage skill hskill => ?_, nofun⟩
    rw [hempty.resolve_right hmessage] at hskill
    cases hskill
  · have hmem {r : LoadedSkill} : r ∈ scoredSkills libs req ↔
        r ∈ req.availableSkills ∧ setupDone req r = false ∧ 0 < score libs req r := by
      simp [scoredSkills]
    obtain ⟨-, hsound, hloaded, hsettled⟩ := selectScored_correct hnames hstart nofun
      (scoredSkills libs req) fun r hr => ⟨(hmem.mp hr).1, (hmem.mp hr).2.2⟩
    refine ⟨hsound, fun _ skill hskill hscore => ?_, fun skill hskill _ hnote => ?_⟩
    · cases hsetup : setupDone req skill with
      | true => exact .inr (.inl hsetup)
      | false => exact hsettled skill (hmem.mpr ⟨hskill, hsetup, hscore⟩)
    · exact (hloaded skill hskill).resolve_left (not_exists.mpr hnote)

def asciiLibs : MatchLibs := ⟨Text.toAsciiLowercase, Char.isAlphanum, fun _ _ => false⟩

def keywordSkill (name keyword : String) (requires : List Text) : LoadedSkill :=
  ⟨name.toList, 100, none, requires, [], [keyword.toList], [], [], []⟩

def bundledRequest : SelectRequest :=
  ⟨"bundle setup".toList, [keywordSkill "a" "bundle" [['b']], keywordSkill "b" "setup" [['c']],
    keywordSkill "c" "linter" []], 10, 1000, []⟩

theorem selects_bundledRequest : (bundledRequest.availableSkills.map LoadedSkill.name).Nodup ∧
    Selects asciiLibs bundledRequest (prefilterSkills asciiLibs bundledRequest) :=
  ⟨by decide, selects_prefilterSkills asciiLibs bundledRequest (by decide)⟩

/-- The linter is left out, as the setup is chain-loaded before it is reached by its score. -/
theorem not_companionsSettled : (bundledRequest.availableSkills.map LoadedSkill.name).Nodup ∧
    ¬ ∀ skill ∈ (prefilterSkills asciiLibs bundledRequest).result,
      0 < score asciiLibs bundledRequest skill →
        CompanionsSettled bundledRequest (prefilterSkills asciiLibs bundledRequest) skill := by
  refine ⟨by decide, fun h => ?_⟩
  have hlinter := h (keywordSkill "b" "setup" [['c']]) (by decide) (by decide)
    (keywordSkill "c" "linter" []) (by decide) (by decide)
  revert hlinter
  unfold Settled Full
  decide

end IronClaw.Skills.Selector
