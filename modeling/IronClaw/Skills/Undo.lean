import Mathlib.Data.List.Induction
import Mathlib.Data.Nat.Basic
import IronClaw.Foundation.Run
import IronClaw.Skills.Tracker

/-!
# Updates of a skill and their rollback

The archived revisions of a skill are a stack, so rollbacks undo updates, as long as no revision has
been dropped. A revision does not have the parent version of its state.
-/

namespace IronClaw.Skills

open Foundation (Along run run_invariant)
open List (length_append length_singleton mem_append mem_map mem_singleton)

/-- A change of metadata that leaves the lineage to the tracker. -/
structure Updater where
  run : V2SkillMetadata → V2SkillMetadata
  version : ∀ m, (run m).version = m.version
  parentVersion : ∀ m, (run m).parentVersion = m.parentVersion
  revisions : ∀ m, (run m).revisions = m.revisions

structure Update where
  now : Time
  newContent : String
  expectedVersion : Option Nat
  updater : Updater

inductive SkillOp where
  | update (u : Update)
  | recordUsage (now : Time) (success : Bool)
  | rollback (now : Time)

section Operations

variable (sha256 : String → String)

def Update.apply (u : Update) (doc : MemoryDoc) : Except EngineError MemoryDoc :=
  updateSkill sha256 u.now doc u.newContent u.expectedVersion u.updater.run

def applyUpdates (updates : List Update) (doc : MemoryDoc) : Except EngineError MemoryDoc :=
  updates.foldlM (fun doc u => u.apply sha256 doc) doc

def applyRollbacks (times : List Time) (doc : MemoryDoc) : Except EngineError MemoryDoc :=
  times.foldlM (fun doc now => rollbackSkill now doc) doc

def SkillOp.apply (doc : MemoryDoc) : SkillOp → Except EngineError MemoryDoc
  | update u => u.apply sha256 doc
  | recordUsage now success => Skills.recordUsage now doc success
  | rollback now => rollbackSkill now doc

def perform (doc : MemoryDoc) (op : SkillOp) : Option MemoryDoc :=
  match op.apply sha256 doc with
  | .ok doc' => some doc'
  | .error _ => some doc

end Operations

/-- An update finds a version that is not the last one of 32 bits. -/
def Bounded (doc : MemoryDoc) : SkillOp → Prop
  | .update _ => ∀ metadata, doc.metadata = .ok metadata → metadata.version + 1 < 2 ^ 32
  | _ => True

/-- The versions of the revisions increase up to the current one; the parent is the latest. -/
structure Lineage (metadata : V2SkillMetadata) : Prop where
  increasing : metadata.revisions.Pairwise fun a b => a.version < b.version
  below : ∀ revision ∈ metadata.revisions, revision.version < metadata.version
  parent : metadata.revisions ≠ [] → metadata.parentVersion = maxVersion metadata.revisions

section Revisions

variable {revisions : List SkillRevision} {revision : SkillRevision}

theorem maxVersion_append (revision : SkillRevision) (h : ∀ r ∈ revisions,
    r.version < revision.version) :
    maxVersion (revisions ++ [revision]) = some revision.version := by
  unfold maxVersion
  rw [List.max?_eq_some_iff]
  refine ⟨by simp, fun v hv => ?_⟩
  simp only [List.map_append, mem_append, mem_map, List.map_singleton,
    mem_singleton] at hv
  rcases hv with ⟨r, hr, rfl⟩ | rfl
  · exact Nat.le_of_lt (h r hr)
  · exact le_rfl

theorem exists_of_maxVersion {v : Nat} (h : maxVersion revisions = some v) :
    ∃ revision ∈ revisions, revision.version = v :=
  mem_map.mp (List.max?_mem h)

theorem exists_maxVersion (h : revisions ≠ []) : ∃ v, maxVersion revisions = some v := by
  cases hmax : maxVersion revisions with
  | some v => exact ⟨v, rfl⟩
  | none => exact absurd (List.map_eq_nil_iff.mp (List.max?_eq_none_iff.mp hmax)) h

theorem trimmed_append : trimmed (revisions ++ [revision]) =
    revisions.drop (revisions.length + 1 - 10) ++ [revision] := by
  unfold trimmed
  rw [length_append, length_singleton, List.drop_append_of_le_length (by omega)]

theorem trimmed_append_of_lt (h : revisions.length < 10) :
    trimmed (revisions ++ [revision]) = revisions ++ [revision] := by
  rw [trimmed_append, show revisions.length + 1 - 10 = 0 by omega, List.drop_zero]

end Revisions

section Steps

variable {sha256 : String → String} {doc doc' : MemoryDoc} {metadata : V2SkillMetadata} {now : Time}

theorem nextVersion_of_lt {version : Nat} (h : version + 1 < 2 ^ 32) :
    nextVersion version = version + 1 := Nat.mod_eq_of_lt h

theorem Lineage.advanced (h : Lineage metadata) (hversion : metadata.version + 1 < 2 ^ 32) :
    Lineage (advanced sha256 now doc metadata) := by
  have hkept : ∀ r ∈ metadata.revisions.drop (metadata.revisions.length + 1 - 10),
      r.version < metadata.version := fun r hr => h.below r (List.mem_of_mem_drop hr)
  refine ⟨?_, fun r hr => ?_, fun _ => ?_⟩
  · simp only [Skills.advanced, trimmed_append]
    refine List.pairwise_append.mpr ⟨h.increasing.sublist (List.drop_sublist _ _),
      List.pairwise_singleton _ _, fun r hr r' hr' => ?_⟩
    rw [mem_singleton.mp hr']
    exact hkept r hr
  · simp only [Skills.advanced, trimmed_append, mem_append, mem_singleton] at hr
    simp only [Skills.advanced, nextVersion_of_lt hversion]
    rcases hr with hr | rfl
    · exact Nat.lt_trans (hkept r hr) (Nat.lt_succ_self _)
    · exact Nat.lt_succ_self _
  · simp only [Skills.advanced, trimmed_append]
    exact (maxVersion_append (archived sha256 now doc metadata) hkept).symm

theorem Lineage.restored (h : Lineage metadata) (revision : SkillRevision) :
    Lineage (restored metadata revision) where
  increasing := h.increasing.filter _
  below := fun _ hr => of_decide_eq_true (List.mem_filter.mp hr).2
  parent := fun _ => rfl

def HasLineage (doc : MemoryDoc) : Prop := ∀ metadata, doc.metadata = .ok metadata →
    Lineage metadata

theorem lineage_of_perform (h : HasLineage doc) {op : SkillOp} (hbounded : Bounded doc op)
    (hp : perform sha256 doc op = some doc') : HasLineage doc' := by
  unfold perform at hp
  split at hp
  · rename_i hok
    cases hp
    intro metadata' hmetadata'
    cases op with
    | update u =>
      obtain ⟨metadata, hmetadata, -, rfl⟩ := updateSkill_ok hok
      cases hmetadata'
      have hadvanced : Lineage (advanced sha256 u.now doc metadata) :=
        (h metadata hmetadata).advanced (hbounded metadata hmetadata)
      obtain ⟨hincreasing, hbelow, hparent⟩ := hadvanced
      refine ⟨?_, ?_, ?_⟩
      · rw [u.updater.revisions]
        exact hincreasing
      · rw [u.updater.revisions, u.updater.version]
        exact hbelow
      · rw [u.updater.revisions, u.updater.parentVersion]
        exact hparent
    | recordUsage now success =>
      obtain ⟨metadata, metrics, hmetadata, -, rfl⟩ := recordUsage_ok hok
      cases hmetadata'
      obtain ⟨hincreasing, hbelow, hparent⟩ := h metadata hmetadata
      exact ⟨hincreasing, hbelow, hparent⟩
    | rollback now =>
      obtain ⟨metadata, parent, hmetadata, hparent, hrest⟩ := rollbackSkill_ok hok
      have hlineage := h metadata hmetadata
      rcases hrest with ⟨revision, -, -, -, rfl⟩ | ⟨hnone, rfl⟩
      · cases hmetadata'
        exact hlineage.restored revision
      · -- without a revision of the parent version there is none at all
        have hnil : metadata.revisions = [] := by
          by_contra hne
          obtain ⟨r, hr, hrv⟩ := exists_of_maxVersion ((hlineage.parent hne).symm.trans hparent)
          exact hnone r hr hrv
        cases hmetadata'
        exact ⟨hlineage.increasing, by simp [hnil], fun hne => absurd hnil hne⟩
  · cases hp
    exact h

theorem Lineage.exists_revision (h : Lineage metadata) (hne : metadata.revisions ≠ []) :
    ∃ parent, metadata.parentVersion = some parent ∧
      ∃ revision ∈ metadata.revisions, revision.version = parent := by
  obtain ⟨v, hv⟩ := exists_maxVersion hne
  exact ⟨v, (h.parent hne).trans hv, exists_of_maxVersion hv⟩

/-- What a rollback brings back of an earlier document; the parent version is the latest
revision's. -/
structure Restored (earlier back : MemoryDoc) (metadata metadata' : V2SkillMetadata) : Prop where
  content : back.content = earlier.content
  description : metadata'.description = metadata.description
  activation : metadata'.activation = metadata.activation
  codeSnippets : metadata'.codeSnippets = metadata.codeSnippets
  version : metadata'.version = metadata.version
  revisions : metadata'.revisions = metadata.revisions

theorem metadata_of_update {u : Update} (h : u.apply sha256 doc = .ok doc')
    (hmetadata : doc.metadata = .ok metadata) (hversion : metadata.version + 1 ≤ 2 ^ 32)
    (hlength : metadata.revisions.length < 10) : ∃ metadata', doc'.metadata = .ok metadata' ∧
      metadata'.revisions = metadata.revisions ++ [archived sha256 u.now doc metadata] ∧
      metadata'.parentVersion = some metadata.version ∧
      (metadata.version + 1 < 2 ^ 32 → metadata'.version = metadata.version + 1) := by
  obtain ⟨metadata₁, hmetadata₁, -, rfl⟩ := updateSkill_ok h
  rw [hmetadata] at hmetadata₁
  cases hmetadata₁
  refine ⟨_, rfl, ?_, ?_, fun hlt => ?_⟩
  · change (u.updater.run _).revisions = _
    rw [u.updater.revisions]
    exact trimmed_append_of_lt hlength
  · exact u.updater.parentVersion _
  · change (u.updater.run _).version = _
    rw [u.updater.version]
    exact nextVersion_of_lt hlt

theorem rollback_of_latest (now : Time) {revisions : List SkillRevision} {revision : SkillRevision}
    (hmetadata : doc.metadata = .ok metadata)
    (hrevisions : metadata.revisions = revisions ++ [revision])
    (hbelow : ∀ r ∈ revisions, r.version < revision.version)
    (hparent : metadata.parentVersion = some revision.version) :
    ∃ metadata' back, rollbackSkill now doc = .ok back ∧ back.metadata = .ok metadata' ∧
      back.content = revision.content ∧ metadata'.description = revision.description ∧
      metadata'.activation = revision.activation ∧ metadata'.codeSnippets = revision.codeSnippets ∧
      metadata'.version = revision.version ∧ metadata'.revisions = revisions ∧
      metadata'.parentVersion = maxVersion revisions := by
  have hfind : metadata.revisions.find? (fun r => r.version == revision.version) =
    some revision := by
    rw [hrevisions, List.find?_append, List.find?_eq_none.mpr fun r hr => ?_]
    · simp
    · simpa using Nat.ne_of_lt (hbelow r hr)
  have hfilter : (metadata.revisions.filter fun r => r.version < revision.version) = revisions := by
    rw [hrevisions, List.filter_append, List.filter_eq_self.mpr (by simpa using hbelow)]
    simp
  refine ⟨restored metadata revision, { doc with
    content := revision.content, metadata := .ok (restored metadata revision), updatedAt := now },
    ?_, rfl, rfl, rfl, rfl, rfl, rfl, hfilter, congrArg maxVersion hfilter⟩
  simp only [rollbackSkill, hmetadata, hparent, hfind]

theorem applyUpdates_snoc (updates : List Update) (u : Update) (doc : MemoryDoc) :
    applyUpdates sha256 (updates ++ [u]) doc =
      (applyUpdates sha256 updates doc).bind (u.apply sha256) := by
  simp only [applyUpdates, List.foldlM_append, List.foldlM_cons, List.foldlM_nil, bind_pure]
  rfl

theorem applyRollbacks_snoc (times : List Time) (now : Time) (doc : MemoryDoc) :
    applyRollbacks (times ++ [now]) doc = (applyRollbacks times doc).bind (rollbackSkill now) := by
  simp only [applyRollbacks, List.foldlM_append, List.foldlM_cons, List.foldlM_nil, bind_pure]
  rfl

theorem bind_eq_ok {α β : Type} {x : Except EngineError α} {f : α → Except EngineError β} {b : β} :
    x.bind f = .ok b ↔ ∃ a, x = .ok a ∧ f a = .ok b := by
  cases x with
  | error e => simp [Except.bind]
  | ok a => simp [Except.bind]

/-- Updates make one revision each, of the versions from the first one on. -/
structure Stack (first count : Nat) (metadata : V2SkillMetadata) : Prop where
  length : metadata.revisions.length = count
  below : ∀ revision ∈ metadata.revisions, revision.version < first + count
  version : first + count < 2 ^ 32 → metadata.version = first + count
  parent : 0 < count → metadata.parentVersion = maxVersion metadata.revisions

theorem stack_of_updates {updates : List Update} (hmetadata : doc.metadata = .ok metadata)
    (hnil : metadata.revisions = []) (hlength : updates.length ≤ 10)
    (hversion : metadata.version + updates.length ≤ 2 ^ 32)
    (hrun : applyUpdates sha256 updates doc = .ok doc') :
    ∃ metadata', doc'.metadata = .ok metadata' ∧
      Stack metadata.version updates.length metadata' := by
  induction updates using List.reverseRecOn generalizing doc' with
  | nil =>
    cases hrun
    exact ⟨metadata, hmetadata, by simp [hnil], by simp [hnil], fun _ => rfl, nofun⟩
  | append_singleton updates u ih =>
    rw [length_append, length_singleton] at hlength hversion ⊢
    rw [applyUpdates_snoc, bind_eq_ok] at hrun
    obtain ⟨doc₁, hrun, hu⟩ := hrun
    obtain ⟨metadata₁, hmetadata₁, hstack⟩ := ih (by omega) (by omega) hrun
    have hv : metadata₁.version = metadata.version + updates.length := hstack.version (by omega)
    obtain ⟨metadata', hmetadata', hrevisions, hparent, hnext⟩ :=
      metadata_of_update hu hmetadata₁ (by omega) (by rw [hstack.length]; omega)
    -- each update puts the current version on the stack, above those of the earlier ones
    refine ⟨metadata', hmetadata', ?_, fun r hr => ?_, fun hlt => ?_, fun _ => ?_⟩
    · rw [hrevisions, length_append, hstack.length]
      rfl
    · rw [hrevisions] at hr
      rcases mem_append.mp hr with hr | hr
      · have hlt := hstack.below r hr
        omega
      · rw [mem_singleton.mp hr]
        change metadata₁.version < _
        omega
    · rw [hnext (by omega), hv, Nat.add_assoc]
    · rw [hparent, hrevisions, maxVersion_append]
      · rfl
      · intro r hr
        change r.version < metadata₁.version
        rw [hv]
        exact hstack.below r hr

theorem restored_of_rollbacks {updates : List Update} {times : List Time}
    (hmetadata : doc.metadata = .ok metadata) (hnil : metadata.revisions = [])
    (hlength : updates.length ≤ 10) (hversion : metadata.version + updates.length ≤ 2 ^ 32)
    (htimes : times.length ≤ updates.length) (hrun : applyUpdates sha256 updates doc = .ok doc') :
    ∃ earlier back metadata₁ metadata₂,
      applyUpdates sha256 (updates.take (updates.length - times.length)) doc = .ok earlier ∧
      applyRollbacks times doc' = .ok back ∧
      earlier.metadata = .ok metadata₁ ∧ back.metadata = .ok metadata₂ ∧
      Restored earlier back metadata₁ metadata₂ ∧ metadata₂.parentVersion =
        if times = [] then metadata₁.parentVersion else maxVersion metadata₁.revisions := by
  induction times using List.reverseRecOn with
  | nil =>
    obtain ⟨metadata', hmetadata', -⟩ := stack_of_updates hmetadata hnil hlength hversion hrun
    refine ⟨doc', doc', metadata', metadata', ?_, rfl, hmetadata', hmetadata',
      ⟨rfl, rfl, rfl, rfl, rfl, rfl⟩, rfl⟩
    simpa using hrun
  | append_singleton times now ih =>
    rw [length_append, length_singleton] at htimes
    obtain ⟨doc₁, back₁, metadata₁, metadata₂, hdoc₁, hback₁, hmetadata₁, hmetadata₂, hrestored,
      hparent⟩ := ih (by omega)
    -- the last of the updates that are still there
    obtain ⟨n, hn⟩ : ∃ n, updates.length - times.length = n + 1 :=
      Nat.exists_eq_succ_of_ne_zero (by omega)
    have hlt : n < updates.length := by omega
    rw [hn, List.take_succ_eq_append_getElem hlt, applyUpdates_snoc, bind_eq_ok] at hdoc₁
    obtain ⟨earlier, hearlier, hu⟩ := hdoc₁
    have htake : (updates.take n).length = n := List.length_take_of_le (by omega)
    obtain ⟨metadata₀, hmetadata₀, hstack⟩ := stack_of_updates hmetadata hnil (by omega)
      (by omega) hearlier
    rw [htake] at hstack
    have hv : metadata₀.version = metadata.version + n := hstack.version (by omega)
    obtain ⟨metadata', hmetadata', hrevisions, hparent', -⟩ :=
      metadata_of_update hu hmetadata₀ (by omega) (by rw [hstack.length]; omega)
    rw [hmetadata₁] at hmetadata'
    cases hmetadata'
    have hbelow : ∀ r ∈ metadata₀.revisions, r.version < metadata₀.version :=
      fun r hr => hv ▸ hstack.below r hr
    have hlatest : metadata₂.parentVersion = some metadata₀.version := by
      rw [hparent]
      split_ifs
      · exact hparent'
      · rw [hrevisions]
        exact maxVersion_append (archived sha256 _ earlier metadata₀) hbelow
    obtain ⟨metadata₃, back, hback, hmetadata₃, hcontent, hdescription, hactivation, hsnippets,
      hversion₃, hrevisions₃, hparent₃⟩ := rollback_of_latest now hmetadata₂
        (hrestored.revisions.trans hrevisions) hbelow hlatest
    refine ⟨earlier, back, metadata₀, metadata₃, ?_, ?_, hmetadata₀, hmetadata₃,
      ⟨hcontent, hdescription, hactivation, hsnippets, hversion₃, hrevisions₃⟩, ?_⟩
    · rw [length_append, length_singleton,
        show updates.length - (times.length + 1) = n by omega]
      exact hearlier
    · rw [applyRollbacks_snoc, hback₁]
      exact hback
    · rw [hparent₃, if_neg (by simp)]

theorem maxVersion_of_nil {revisions : List SkillRevision} (h : revisions = []) :
    maxVersion revisions = none := by
  rw [h]
  rfl

theorem hasLineage_of_run {ops : List SkillOp} (h : HasLineage doc)
    (hbounded : Along (perform sha256) Bounded doc ops)
    (hrun : run (perform sha256) doc ops = some doc') : HasLineage doc' :=
  run_invariant (fun _ _ _ h hc hp => lineage_of_perform h hc hp) h hbounded hrun

theorem Lineage.rollback (h : Lineage metadata) (hmetadata : doc.metadata = .ok metadata)
    (hne : metadata.revisions ≠ []) (now : Time) :
    ∃ revision ∈ metadata.revisions, metadata.parentVersion = some revision.version ∧
      rollbackSkill now doc = .ok
        { doc with
          content := revision.content
          metadata := .ok (Skills.restored metadata revision)
          updatedAt := now } := by
  obtain ⟨parent, hparent, revision, hr, hversion⟩ := h.exists_revision hne
  cases hfind : metadata.revisions.find? fun r => r.version == parent with
  | none =>
    rw [List.find?_eq_none] at hfind
    exact absurd (by simpa using hversion) (hfind revision hr)
  | some found =>
    have hfound : found.version = parent := by simpa using List.find?_some hfind
    refine ⟨found, List.mem_of_find?_eq_some hfind, by rw [hparent, hfound], ?_⟩
    simp only [rollbackSkill, hmetadata, hparent, hfind]

end Steps

/-- **Rollbacks undo updates**, up to ten, but for the parent version. In mixed histories the
versions of revisions increase, below the current one. -/
theorem undo_stack (sha256 : String → String) {doc : MemoryDoc} {metadata : V2SkillMetadata}
    (hmetadata : doc.metadata = .ok metadata) (hnil : metadata.revisions = []) :
    (∀ updates times doc', updates.length ≤ 10 → metadata.version + updates.length ≤ 2 ^ 32 →
      times.length ≤ updates.length → applyUpdates sha256 updates doc = .ok doc' →
      ∃ earlier back metadata₁ metadata₂,
        applyUpdates sha256 (updates.take (updates.length - times.length)) doc = .ok earlier ∧
        applyRollbacks times doc' = .ok back ∧
        earlier.metadata = .ok metadata₁ ∧ back.metadata = .ok metadata₂ ∧
        Restored earlier back metadata₁ metadata₂ ∧
        metadata₂.parentVersion =
          if times ≠ [] ∧ times.length = updates.length then none else metadata₁.parentVersion) ∧
    ∀ ops doc' metadata', Along (perform sha256) Bounded doc ops →
      run (perform sha256) doc ops = some doc' → doc'.metadata = .ok metadata' →
      metadata'.revisions.Pairwise (fun a b => a.version < b.version) ∧
      (∀ revision ∈ metadata'.revisions, revision.version < metadata'.version) ∧
      (metadata'.revisions ≠ [] → ∀ now,
        ∃ revision ∈ metadata'.revisions, metadata'.parentVersion = some revision.version ∧
          rollbackSkill now doc' = .ok
            { doc' with
              content := revision.content
              metadata := .ok (restored metadata' revision)
              updatedAt := now }) := by
  refine ⟨fun updates times doc' hlength hversion htimes hrun => ?_,
    fun ops doc' metadata' hbounded hrun hmetadata' => ?_⟩
  · obtain ⟨earlier, back, metadata₁, metadata₂, hearlier, hback, hmetadata₁, hmetadata₂, hrestored,
      hparent⟩ := restored_of_rollbacks hmetadata hnil hlength hversion htimes hrun
    refine ⟨earlier, back, metadata₁, metadata₂, hearlier, hback, hmetadata₁, hmetadata₂,
      hrestored, ?_⟩
    have htake : (updates.take (updates.length - times.length)).length =
        updates.length - times.length := List.length_take_of_le (by omega)
    obtain ⟨metadata₀, hmetadata₀, hstack⟩ := stack_of_updates hmetadata hnil (by omega) (by omega)
      hearlier
    rw [hmetadata₁] at hmetadata₀
    cases hmetadata₀
    rw [htake] at hstack
    rw [hparent]
    by_cases hnow : times = []
    · simp [hnow]
    · rw [if_neg hnow]
      by_cases hall : times.length = updates.length
      · -- nothing is left to go back to
        rw [if_pos ⟨hnow, hall⟩]
        exact maxVersion_of_nil (List.length_eq_zero_iff.mp (by rw [hstack.length]; omega))
      · rw [if_neg fun h => hall h.2]
        exact (hstack.parent (by omega)).symm
  · have hstart : HasLineage doc := by
      intro metadata₀ hmetadata₀
      rw [hmetadata] at hmetadata₀
      cases hmetadata₀
      exact ⟨by simp [hnil], by simp [hnil], fun hne => absurd hnil hne⟩
    have hlineage : Lineage metadata' := hasLineage_of_run hstart hbounded hrun metadata' hmetadata'
    exact ⟨hlineage.increasing, hlineage.below, fun hne now => hlineage.rollback hmetadata' hne now⟩

def bareSkill (version : Nat) (parentVersion : Option Nat) : MemoryDoc where
  id := 1
  projectId := 1
  userId := "ann"
  docType := .skill
  title := "skill:deploy"
  content := "one"
  tags := []
  metadata := .ok
    { name := "deploy"
      version := version
      description := ""
      activation := ⟨[], [], [], [], 2000, none⟩
      source := .authored
      trust := .trusted
      requires := ⟨[], [], [], []⟩
      codeSnippets := []
      metrics := ⟨0, 0, 0, none⟩
      parentVersion := parentVersion
      revisions := []
      repairs := []
      contentHash := ""
      bundlePath := none
      sourceUrl := none }
  createdAt := 0
  updatedAt := 0

def rewrite (now : Time) (newContent : String) : Update :=
  ⟨now, newContent, none, ⟨id, fun _ => rfl, fun _ => rfl, fun _ => rfl⟩⟩

/-- Two updates and one rollback; and an update, a use, a rollback and an update. -/
theorem undo_stack_of_bareSkill : (∃ doc' earlier back,
      applyUpdates id [rewrite 1 "two", rewrite 2 "three"] (bareSkill 1 none) = .ok doc' ∧
      applyUpdates id [rewrite 1 "two"] (bareSkill 1 none) = .ok earlier ∧
      applyRollbacks [3] doc' = .ok back ∧ back.content = earlier.content) ∧
    ∃ doc' metadata', run (perform id) (bareSkill 1 none)
        [.update (rewrite 1 "two"), .recordUsage 2 true, .rollback 3, .update (rewrite 4 "three")] =
          some doc' ∧ doc'.metadata = .ok metadata' ∧
      ∀ revision ∈ metadata'.revisions, revision.version < metadata'.version := by
  refine ⟨?_, ?_⟩
  · obtain ⟨doc', hrun⟩ : ∃ doc',
        applyUpdates id [rewrite 1 "two", rewrite 2 "three"] (bareSkill 1 none) = .ok doc' :=
          ⟨_, rfl⟩
    obtain ⟨earlier, back, _, _, hearlier, hback, _, _, hrestored, _⟩ :=
      (undo_stack id rfl rfl).1 _ [3] doc' (by decide) (by decide) (by decide) hrun
    exact ⟨doc', earlier, back, hrun, hearlier, hback, hrestored.content⟩
  · obtain ⟨doc', metadata', hrun, hmetadata'⟩ : ∃ doc' metadata',
      run (perform id) (bareSkill 1 none)
        [.update (rewrite 1 "two"), .recordUsage 2 true, .rollback 3, .update (rewrite 4 "three")] =
          some doc' ∧ doc'.metadata = .ok metadata' := ⟨_, _, rfl, rfl⟩
    refine ⟨doc', metadata', hrun, hmetadata',
      ((undo_stack id rfl rfl).2 _ doc' metadata' ?_ hrun hmetadata').2.1⟩
    refine .of_step rfl ?_ (.of_step rfl trivial (.of_step rfl trivial (.of_step rfl ?_ trivial)))
    · rintro metadata ⟨⟩
      decide
    · rintro metadata ⟨⟩
      decide

/-- A rollback does not bring the parent version back. The last version of 32 bits is followed by 0.
-/
theorem undone_but_for_the_parent :
    (∃ doc' back metadata', applyUpdates id [rewrite 1 "two"] (bareSkill 4 (some 3)) = .ok doc' ∧
      applyRollbacks [2] doc' = .ok back ∧ back.metadata = .ok metadata' ∧
      metadata'.parentVersion = none) ∧
    ∃ doc' metadata' revision, run (perform id) (bareSkill (2 ^ 32 - 1) none)
        [.update (rewrite 1 "two")] = some doc' ∧ doc'.metadata = .ok metadata' ∧
      revision ∈ metadata'.revisions ∧ ¬ revision.version < metadata'.version :=
  ⟨⟨_, _, _, rfl, rfl, rfl, rfl⟩, _, _, _, rfl, rfl, List.mem_singleton_self _, by decide⟩

end IronClaw.Skills
