import IronClaw.Engine.Capability
import IronClaw.Foundation.Finding
import IronClaw.Runtime.Threads

/-!
# The system prompt of threads

The prompt is built around texts from outside. A refresh puts another prompt in front of appended
sections, taken to begin with the first of their headings.
-/

namespace IronClaw.Runtime

open Foundation (Text)
open Foundation.Text (Absent find? rfind? joinWith)
open Missions (splitWhitespace)

inductive CapabilityStatus where
  | ready
  | readyScoped
  | needsAuth
  | needsSetup
  | inactive
  | latent
  | error
  | availableNotInstalled

def CapabilityStatus.label : CapabilityStatus → Text
  | ready => "ready".toList
  | readyScoped => "ready_scoped".toList
  | needsAuth => "needs_auth".toList
  | needsSetup => "needs_setup".toList
  | inactive => "inactive".toList
  | latent => "latent".toList
  | error => "error".toList
  | availableNotInstalled => "available_not_installed".toList

inductive CapabilitySummaryKind where
  | channel
  | provider
  | runtime

def CapabilitySummaryKind.label : CapabilitySummaryKind → Text
  | channel => "channel".toList
  | provider => "provider".toList
  | runtime => "runtime".toList

structure CapabilitySummary where
  name : Text
  displayName : Option Text
  kind : CapabilitySummaryKind
  status : CapabilityStatus
  description : Option Text
  actionPreview : List Text
  routingHint : Option Text

def isActivatableIntegration (capability : CapabilitySummary) : Bool :=
  (capability.kind matches .provider | .channel) &&
    capability.status matches .needsAuth | .needsSetup | .inactive | .latent |
      .availableNotInstalled

/-- A part of a line that is left out where there is nothing to say. -/
def optional (front : String) (text : Option Text) (back : String) : Text :=
  text.elim [] fun text => front.toList ++ text ++ back.toList

def CapabilitySummary.distinctName (capability : CapabilitySummary) : Option Text :=
  capability.displayName.filter fun displayName => displayName != capability.name

def renderBackgroundCapability (capability : CapabilitySummary) : Text :=
  "- `".toList ++ capability.name ++ "` [".toList ++ capability.kind.label ++ "] — ".toList ++
    capability.status.label ++ optional " (" capability.distinctName ")" ++
    optional ". " capability.routingHint "" ++ optional ". " capability.description "" ++ ['\n']

def formatActionPreview (actions : List Text) : Text :=
  joinWith ", ".toList
    ((actions.take 3).map (fun action => "`".toList ++ action ++ "`".toList) ++
      if 3 < actions.length then
        ["+".toList ++ (toString (actions.length - 3)).toList ++ " more".toList]
      else [])

def renderActivatableIntegration (capability : CapabilitySummary) : Text :=
  "- `".toList ++ capability.name ++ "` [".toList ++ capability.kind.label ++ "]".toList ++
    optional " (" capability.distinctName ")" ++ optional " — " capability.description "" ++
    (if capability.actionPreview.isEmpty then []
      else ". Unlocks: ".toList ++ formatActionPreview capability.actionPreview) ++ ['\n']

inductive ModelToolSurface where
  | fullSchema
  | compactToolInfo

structure PromptAction extends Engine.ActionDef where
  description : Text
  modelToolSurface : ModelToolSurface

def renderEnabledTool (action : PromptAction) : Text :=
  "- `".toList ++ action.discoveryName ++ "` — ".toList ++
    joinWith [' '] (splitWhitespace action.description) ++ ['\n']

structure PlatformInfo where
  version : Option Text
  llmBackend : Option Text
  modelName : Option Text
  databaseBackend : Option Text
  activeChannels : List Text
  ownerId : Option Text
  repoUrl : Option Text

def PlatformInfo.toPromptSection (info : PlatformInfo) : Text :=
  "\n\n## Platform\n\nYou are **IronClaw**, a secure autonomous AI assistant platform.".toList ++
    optional "\n- Version: " info.version "" ++ optional "\n- Repository: " info.repoUrl "" ++
    optional "\n- Owner: " info.ownerId "" ++
    optional "\n- LLM: " (info.llmBackend.map fun backend =>
      backend ++ " (".toList ++ info.modelName.getD "default".toList) ")" ++
    optional "\n- Database: " info.databaseBackend "" ++
    (if info.activeChannels.isEmpty then []
      else "\n- Channels: ".toList ++ joinWith ", ".toList info.activeChannels) ++ ['\n']

/-- The texts that are compiled in. The second one ends with a block of code. -/
structure PromptTemplates where
  preamble : Text
  closing : Text

def PromptTemplates.postamble (templates : PromptTemplates) : Text :=
  templates.closing ++ "```\n".toList

def codeactSystemPromptMarker : Text := "<!-- ironclaw:codeact-system-prompt -->\n".toList

def listing (heading introduction : String) (lines : List Text) : Text :=
  if lines.isEmpty then [] else heading.toList ++ ['\n'] ++ introduction.toList ++ lines.flatten

structure PromptSources where
  capabilities : List CapabilitySummary
  compactActions : List PromptAction
  overlay : Option Text
  platform : Option PlatformInfo

def dynamicSections (sources : PromptSources) : Text :=
  sources.platform.elim [] PlatformInfo.toPromptSection ++
    optional "\n\n## Learned Rules (from self-improvement)\n\n" sources.overlay "" ++
    listing "\n## Capabilities\n" ""
      ((sources.capabilities.filter fun c => !isActivatableIntegration c).map
        renderBackgroundCapability) ++
    listing "\n## Enabled Tools\n"
      ("These enabled tools are shown in compact form. Before calling one, always check its " ++
        "schema with `tool_info(name=\"<tool>\", detail=\"schema\")`.\n\n")
      ((sources.compactActions.filter fun a => a.modelToolSurface matches .compactToolInfo).map
        renderEnabledTool) ++
    listing "\n## Activatable Integrations\n"
      ("If you need one of these integrations, call `tool_activate(name=\"<integration>\")` " ++
        "first. After it succeeds, its tools will be available on the next turn. If you need " ++
        "parameter details before enabling one, call `tool_info(name=\"<tool>\", " ++
        "detail=\"summary\")` on one of the previewed tools.\n\n")
      ((sources.capabilities.filter isActivatableIntegration).map renderActivatableIntegration)

def buildCodeactSystemPrompt (templates : PromptTemplates) (sources : PromptSources) : Text :=
  codeactSystemPromptMarker ++ templates.preamble ++ dynamicSections sources ++ templates.postamble

def priorKnowledgeHeading : Text := "\n\n## Prior Knowledge (from completed threads)\n".toList

def activeSkillsHeading : Text := "\n\n## Active Skills\n".toList

def missingSkillsPrefix : Text :=
  "\n\nThe user explicitly requested slash skill(s) that are not installed or were not found:".toList

def appendMarkers : List Text := [priorKnowledgeHeading, activeSkillsHeading, missingSkillsPrefix]

def isLegacyCodeactSystemPrompt (content : Text) : Bool :=
  "You are an AI assistant with a Python REPL environment.".toList.isPrefixOf content &&
    Text.hasInfix "```repl".toList content &&
    (Text.hasInfix "\n## Strategy\n".toList content ||
      Text.hasInfix "\n## Available capabilities (background status)\n".toList content)

def isCodeactSystemPrompt (content : Text) : Bool :=
  codeactSystemPromptMarker.isPrefixOf content || isLegacyCodeactSystemPrompt content

section Refresh

variable (templates : PromptTemplates)

def codeactSystemPromptSuffix (existing : Text) : Option Text :=
  let starts := appendMarkers.filterMap fun marker =>
    (find? marker existing).map fun found => found.1.length
  match starts.min? with
  | some start => some (existing.drop start)
  | none => (rfind? templates.postamble existing).map Prod.snd

def refreshCodeactSystemPrompt (existing systemPrompt : Text) : Text :=
  if isCodeactSystemPrompt existing then
    systemPrompt ++ (codeactSystemPromptSuffix templates existing).getD []
  else systemPrompt

def codeactFormat : PromptFormat where
  isCodeactSystemPrompt := isCodeactSystemPrompt
  refreshCodeactSystemPrompt := refreshCodeactSystemPrompt templates

/-- What is appended to a prompt: nothing, or a section with one of the headings. -/
def Appended (suffix : Text) : Prop := suffix = [] ∨ ∃ marker ∈ appendMarkers, marker <+: suffix

def Unmarked (prompt : Text) : Prop := ∀ marker ∈ appendMarkers, ¬ marker <:+: prompt

/-- A refresh replaces the first prompt and keeps what is appended, repeated it changes nothing, and
two inserts are as one. -/
structure Refreshes (prompt prompt' : Text) : Prop where
  refresh : ∀ suffix, Appended suffix →
    refreshCodeactSystemPrompt templates (prompt ++ suffix) prompt' = prompt' ++ suffix
  again : ∀ suffix, Appended suffix →
    refreshCodeactSystemPrompt templates
        (refreshCodeactSystemPrompt templates (prompt ++ suffix) prompt') prompt' =
      refreshCodeactSystemPrompt templates (prompt ++ suffix) prompt'
  upsert : ∀ messages : List ThreadMessage,
    (∀ m, messages.find? (fun m => m.role == .system && isCodeactSystemPrompt m.content) = some m →
      ∃ suffix, Appended suffix ∧ m.content = prompt ++ suffix) →
    upsertCodeactSystemPrompt (codeactFormat templates) prompt'
        (upsertCodeactSystemPrompt (codeactFormat templates) prompt' messages) =
      upsertCodeactSystemPrompt (codeactFormat templates) prompt' messages

variable {templates} {marker prompt prompt' suffix : Text}

theorem marker_form (h : marker ∈ appendMarkers) :
    ∃ c tail, marker = '\n' :: '\n' :: c :: tail ∧ c ≠ '\n' ∧ Char.ofNat 96 ∉ marker := by
  simp only [appendMarkers, List.mem_cons, List.not_mem_nil, or_false] at h
  rcases h with rfl | rfl | rfl
  · exact ⟨_, _, rfl, by decide, by decide⟩
  · exact ⟨_, _, rfl, by decide, by decide⟩
  · exact ⟨_, _, rfl, by decide, by decide⟩

/-- No heading begins in a prompt without headings, also where one follows it. -/
theorem absent_of_unmarked (h : marker ∈ appendMarkers) (front : Text)
    (hnot : ¬ marker <:+: front ++ [Char.ofNat 96, '\n']) (hsuffix : Appended suffix) :
    Absent marker (front ++ [Char.ofNat 96, '\n']) suffix := by
  obtain ⟨c, tail, heq, hc, htick⟩ := marker_form h
  have hne : marker ≠ [] := by simp [heq]
  rw [Text.absent_append]
  refine ⟨?_, ?_⟩
  · refine (Text.absent_append_cons_iff htick hne front _).mpr fun hfront => hnot ?_
    exact hfront.trans (List.prefix_append _ _).isInfix
  · rw [Text.absent_cons_of_not_mem htick hne]
    refine ⟨fun hprefix => hc ?_, trivial⟩
    -- a line end of the prompt is followed by two of a heading
    rw [heq, List.nil_append, List.cons_prefix_cons] at hprefix
    rcases hsuffix with rfl | ⟨other, hother, rest, rfl⟩
    · exact absurd (List.prefix_nil.mp hprefix.2) (List.cons_ne_nil _ _)
    · obtain ⟨d, others, rfl, -, -⟩ := marker_form hother
      exact (List.cons_prefix_cons.mp (List.cons_prefix_cons.mp hprefix.2).2).1

variable (templates) in
def Built (prompt : Text) : Prop :=
  ∃ body, prompt = codeactSystemPromptMarker ++ body ++ templates.postamble

variable (templates) in
theorem built_buildCodeactSystemPrompt (sources : PromptSources) :
    Built templates (buildCodeactSystemPrompt templates sources) :=
  ⟨templates.preamble ++ dynamicSections sources, by simp [buildCodeactSystemPrompt]⟩

theorem Built.isCodeactSystemPrompt (h : Built templates prompt) (suffix : Text) :
    isCodeactSystemPrompt (prompt ++ suffix) = true := by
  obtain ⟨body, rfl⟩ := h
  rw [Runtime.isCodeactSystemPrompt, Bool.or_eq_true, List.isPrefixOf_iff_prefix]
  exact .inl ⟨body ++ templates.postamble ++ suffix, by simp⟩

/-- **What is appended is found again** behind a prompt without headings. -/
theorem codeactSystemPromptSuffix_append (h : Built templates prompt) (hnot : Unmarked prompt)
    (hsuffix : Appended suffix) :
    codeactSystemPromptSuffix templates (prompt ++ suffix) = some suffix := by
  have habsent {marker : Text} (hm : marker ∈ appendMarkers) : Absent marker prompt suffix := by
    obtain ⟨body, heq⟩ := h
    have hfront : prompt = codeactSystemPromptMarker ++ body ++ templates.closing ++
        "``".toList ++ [Char.ofNat 96, '\n'] := by
      rw [heq, PromptTemplates.postamble]
      simp
    rw [hfront]
    exact absent_of_unmarked hm _ (hfront ▸ hnot marker hm) hsuffix
  have hne {marker : Text} (hm : marker ∈ appendMarkers) : marker ≠ [] := by
    obtain ⟨c, tail, rfl, -⟩ := marker_form hm
    exact List.cons_ne_nil _ _
  rw [codeactSystemPromptSuffix]
  rcases hsuffix with rfl | ⟨marker, hm, rest, rfl⟩
  · have hnone : (appendMarkers.filterMap fun marker =>
        (find? marker prompt).map fun found => found.1.length) = [] := by
      refine List.filterMap_eq_nil_iff.mpr fun marker hm => ?_
      rw [(Text.find?_eq_none_iff (hne hm)).mpr (hnot marker hm), Option.map_none]
    obtain ⟨body, rfl⟩ := h
    have hpostamble : templates.postamble ≠ [] := by simp [PromptTemplates.postamble]
    rw [List.append_nil, hnone, Text.rfind?_append hpostamble]
    rfl
  · have hmin : (appendMarkers.filterMap fun other =>
        (find? other (prompt ++ (marker ++ rest))).map fun found => found.1.length).min? =
          some prompt.length := by
      refine List.min?_eq_some_iff.mpr ⟨List.mem_filterMap.mpr ⟨marker, hm, ?_⟩, fun n hn => ?_⟩
      · rw [(habsent hm).find?, Text.find?_pattern (hne hm)]
        simp
      · obtain ⟨other, hother, hn⟩ := List.mem_filterMap.mp hn
        rw [(habsent hother).find?, Option.map_map] at hn
        obtain ⟨found, -, rfl⟩ := Option.map_eq_some_iff.mp hn
        simp
    simp only [hmin, List.drop_left]

variable (templates) in
theorem codeactSystemPromptSuffix_of_marked (hm : marker ∈ appendMarkers)
    (hin : marker <:+: prompt) (suffix : Text) : ∃ n < prompt.length,
      codeactSystemPromptSuffix templates (prompt ++ suffix) = some ((prompt ++ suffix).drop n) := by
  obtain ⟨c, tail, hform, -⟩ := marker_form hm
  have hne : marker ≠ [] := by simp [hform]
  obtain ⟨⟨before, after⟩, hfound⟩ := Option.isSome_iff_exists.mp (Text.find?_isSome_iff.mpr hin)
  obtain ⟨heq, habsent⟩ := (Text.find?_eq_some_iff hne).mp hfound
  have hfound' : find? marker (prompt ++ suffix) = some (before, after ++ suffix) :=
    (Text.find?_eq_some_iff hne).mpr ⟨by rw [heq]; simp, (Text.absent_congr _ _).mp habsent⟩
  have hmem : before.length ∈ appendMarkers.filterMap fun other =>
      (find? other (prompt ++ suffix)).map fun found => found.1.length :=
    List.mem_filterMap.mpr ⟨marker, hm, by rw [hfound']; rfl⟩
  obtain ⟨n, hn⟩ := Option.isSome_iff_exists.mp (List.isSome_min?_of_mem hmem)
  have hle := (List.min?_eq_some_iff.mp hn).2 _ hmem
  refine ⟨n, ?_, by rw [codeactSystemPromptSuffix, hn]⟩
  rw [heq, hform]
  simp only [List.length_append, List.length_cons]
  omega

/-- **A refresh keeps what is appended** if and only if no heading occurs in the prompt. -/
theorem refreshCodeactSystemPrompt_append_iff (h : Built templates prompt)
    (hsuffix : Appended suffix) :
    refreshCodeactSystemPrompt templates (prompt ++ suffix) prompt' = prompt' ++ suffix ↔
      Unmarked prompt := by
  rw [refreshCodeactSystemPrompt, if_pos (h.isCodeactSystemPrompt suffix)]
  constructor
  · intro heq marker hm hin
    obtain ⟨n, hn, hfound⟩ := codeactSystemPromptSuffix_of_marked templates hm hin suffix
    rw [hfound, Option.getD_some] at heq
    have hlength := congrArg List.length heq
    simp only [List.length_append, List.length_drop] at hlength
    omega
  · intro hnot
    rw [codeactSystemPromptSuffix_append h hnot hsuffix, Option.getD_some]

theorem upsertCodeactSystemPrompt_append (front : List ThreadMessage) {back : List ThreadMessage}
    {m : ThreadMessage}
    (hfront : ∀ x ∈ front, !(x.role == .system && isCodeactSystemPrompt x.content))
    (hm : (m.role == .system && isCodeactSystemPrompt m.content) = true) :
    upsertCodeactSystemPrompt (codeactFormat templates) prompt (front ++ m :: back) =
      front ++ { m with content := refreshCodeactSystemPrompt templates m.content prompt } ::
        back := by
  have hindex : (front ++ m :: back).findIdx? (fun m =>
      m.role == .system && isCodeactSystemPrompt m.content) = some front.length := by
    induction front with
    | nil => simp [List.findIdx?_cons, hm]
    | cons x front ih =>
      have hx := hfront x List.mem_cons_self
      rw [List.cons_append, List.findIdx?_cons, if_neg (fun hm => by rw [hm] at hx; cases hx),
        ih fun y hy => hfront y (List.mem_cons_of_mem _ hy)]
      rfl
  rw [upsertCodeactSystemPrompt]
  simp only [codeactFormat, hindex]
  clear hindex hfront
  induction front with
  | nil => rfl
  | cons x front ih => exact congrArg (x :: ·) ih

/-- **A refresh preserves the appended sections** if and only if neither prompt contains a heading.
-/
theorem refreshes_iff (templates : PromptTemplates) (sources sources' : PromptSources) :
    Refreshes templates (buildCodeactSystemPrompt templates sources)
        (buildCodeactSystemPrompt templates sources') ↔
      Unmarked (buildCodeactSystemPrompt templates sources) ∧
        Unmarked (buildCodeactSystemPrompt templates sources') := by
  have h := built_buildCodeactSystemPrompt templates sources
  have h' := built_buildCodeactSystemPrompt templates sources'
  generalize buildCodeactSystemPrompt templates sources = prompt at h ⊢
  generalize buildCodeactSystemPrompt templates sources' = prompt' at h' ⊢
  have hsystem : (ThreadMessage.system prompt').role == .system &&
      isCodeactSystemPrompt (ThreadMessage.system prompt').content := by
    simpa [ThreadMessage.system] using h'.isCodeactSystemPrompt []
  have hagain (rest : List ThreadMessage) :
      upsertCodeactSystemPrompt (codeactFormat templates) prompt' (.system prompt' :: rest) =
        .system (refreshCodeactSystemPrompt templates prompt' prompt') :: rest :=
    upsertCodeactSystemPrompt_append [] nofun hsystem
  constructor
  · intro hkeeps
    refine ⟨(refreshCodeactSystemPrompt_append_iff h (.inl rfl)).mp
      (hkeeps.refresh [] (.inl rfl)), ?_⟩
    have htwice := hkeeps.upsert [] nofun
    have honce : upsertCodeactSystemPrompt (codeactFormat templates) prompt' [] =
        [ThreadMessage.system prompt'] := rfl
    rw [honce, hagain] at htwice
    have hsame : refreshCodeactSystemPrompt templates (prompt' ++ []) prompt' = prompt' ++ [] := by
      rw [List.append_nil]
      exact congrArg ThreadMessage.content (List.cons.inj htwice).1
    exact (refreshCodeactSystemPrompt_append_iff h' (.inl rfl)).mp hsame
  · rintro ⟨hnot, hnot'⟩
    have hrefresh {suffix : Text} (hsuffix : Appended suffix) :
        refreshCodeactSystemPrompt templates (prompt ++ suffix) prompt' = prompt' ++ suffix :=
      (refreshCodeactSystemPrompt_append_iff h hsuffix).mpr hnot
    have hrefresh' {suffix : Text} (hsuffix : Appended suffix) :
        refreshCodeactSystemPrompt templates (prompt' ++ suffix) prompt' = prompt' ++ suffix :=
      (refreshCodeactSystemPrompt_append_iff h' hsuffix).mpr hnot'
    refine ⟨fun suffix => hrefresh, fun suffix hsuffix => ?_, fun messages hmessages => ?_⟩
    · rw [hrefresh hsuffix, hrefresh' hsuffix]
    · cases hfound : messages.find? fun m =>
          m.role == .system && isCodeactSystemPrompt m.content with
      | none =>
        have hindex := List.findIdx?_eq_none_iff.mpr fun x hx =>
          Bool.eq_false_of_not_eq_true (List.find?_eq_none.mp hfound x hx)
        have honce : upsertCodeactSystemPrompt (codeactFormat templates) prompt' messages =
            if messages.any fun m => m.role == .system then messages
            else ThreadMessage.system prompt' :: messages := by
          rw [upsertCodeactSystemPrompt]
          simp only [codeactFormat, hindex]
        by_cases hany : (messages.any fun m => m.role == .system) = true
        · rw [honce, if_pos hany, honce, if_pos hany]
        · rw [honce, if_neg hany]
          have hsame := hrefresh' (.inl (rfl : [] = []))
          rw [List.append_nil] at hsame
          rw [hagain, hsame]
      | some m =>
        obtain ⟨hm, front, back, rfl, hfront⟩ := List.find?_eq_some_iff_append.mp hfound
        obtain ⟨suffix, hsuffix, hcontent⟩ := hmessages m hfound
        rw [upsertCodeactSystemPrompt_append front hfront hm, hcontent, hrefresh hsuffix,
          upsertCodeactSystemPrompt_append front hfront, hrefresh' hsuffix]
        rw [Bool.and_eq_true] at hm ⊢
        exact ⟨hm.1, h'.isCodeactSystemPrompt suffix⟩

/-- The first and the last line of the two files. -/
def sampleTemplates : PromptTemplates :=
  ⟨"You are an AI assistant with a Python REPL environment.".toList, []⟩

/-- A learned rule that quotes a heading is repeated at each refresh, with all that follows. -/
theorem not_refreshes_of_quoted :
    ¬ Refreshes sampleTemplates
      (buildCodeactSystemPrompt sampleTemplates ⟨[], [], some activeSkillsHeading, none⟩)
      (buildCodeactSystemPrompt sampleTemplates ⟨[], [], none, none⟩) := by
  intro h
  refine (refreshCodeactSystemPrompt_append_iff (built_buildCodeactSystemPrompt _ _) (.inl rfl)).mp
    (h.refresh [] (.inl rfl)) activeSkillsHeading (by simp [appendMarkers]) ?_
  exact Text.find?_isSome_iff.mp (by decide +kernel)

end Refresh

end IronClaw.Runtime
