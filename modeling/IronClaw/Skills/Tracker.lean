import Mathlib.Data.List.Basic
import Mathlib.Algebra.GroupWithZero.Nat

/-!
# Skill documents

The tracker counts the uses of a skill document and replaces its content. The state before is
archived, the last ten are kept; a rollback looks for the parent version.
-/

namespace IronClaw.Skills

abbrev DocId := Nat

abbrev ProjectId := Nat

abbrev Time := Nat

inductive DocType where
  | summary
  | lesson
  | issue
  | spec
  | note
  | skill
  | plan
deriving DecidableEq

def DocType.toString : DocType → String
  | summary => "Summary"
  | lesson => "Lesson"
  | issue => "Issue"
  | spec => "Spec"
  | note => "Note"
  | skill => "Skill"
  | plan => "Plan"

structure ActivationCriteria where
  keywords : List String
  excludeKeywords : List String
  patterns : List String
  tags : List String
  maxContextTokens : Nat
  setupMarker : Option String
deriving DecidableEq

structure GatingRequirements where
  bins : List String
  env : List String
  config : List String
  skills : List String
deriving DecidableEq

inductive V2SkillSource where
  | authored
  | extracted
  | migrated
deriving DecidableEq

inductive SkillTrust where
  | installed
  | trusted
deriving DecidableEq

structure CodeSnippet where
  name : String
  code : String
  description : String
deriving DecidableEq

structure SkillMetrics where
  usageCount : Nat
  successCount : Nat
  failureCount : Nat
  lastUsed : Option Time
deriving DecidableEq

structure SkillRevision where
  version : Nat
  content : String
  description : String
  activation : ActivationCriteria
  codeSnippets : List CodeSnippet
  contentHash : String
  archivedAt : Option Time
deriving DecidableEq

inductive SkillRepairType where
  | missingPrerequisite
  | wrongOrdering
  | staleCommandPath
  | missingBranch
  | missingPitfall
  | missingVerification
deriving DecidableEq

structure SkillRepairRecord where
  sourceThreadId : Option String
  fromVersion : Nat
  toVersion : Nat
  repairType : SkillRepairType
  summary : String
  repairedAt : Option Time
deriving DecidableEq

structure V2SkillMetadata where
  name : String
  version : Nat
  description : String
  activation : ActivationCriteria
  source : V2SkillSource
  trust : SkillTrust
  requires : GatingRequirements
  codeSnippets : List CodeSnippet
  metrics : SkillMetrics
  parentVersion : Option Nat
  /-- Archived revisions, the oldest first. -/
  revisions : List SkillRevision
  repairs : List SkillRepairRecord
  contentHash : String
  bundlePath : Option String
  sourceUrl : Option String
deriving DecidableEq

structure MemoryDoc where
  id : DocId
  projectId : ProjectId
  userId : String
  docType : DocType
  title : String
  content : String
  tags : List String
  metadata : Except String V2SkillMetadata
  createdAt : Time
  updatedAt : Time

inductive EngineError where
  | skill (reason : String)
  | store (reason : String)
deriving DecidableEq

section Tracker

variable (sha256 : String → String) (now : Time) (doc : MemoryDoc)

def computeContentHash (content : String) : String := "sha256:" ++ sha256 content

def nextVersion (version : Nat) : Nat := (version + 1) % 2 ^ 32

def recordUsage (success : Bool) : Except EngineError MemoryDoc :=
  if doc.docType ≠ .skill then
    .error (.skill ("doc " ++ toString doc.id ++ " is not a skill (type: " ++
      doc.docType.toString ++
      ")"))
  else
    match doc.metadata with
    | .error e => .error (.skill ("invalid skill metadata for " ++ toString doc.id ++ ": " ++ e))
    | .ok metadata =>
      let metrics := metadata.metrics
      .ok
        { doc with
          metadata := .ok
            { metadata with
              metrics :=
                { usageCount := metrics.usageCount + 1
                  successCount := metrics.successCount + if success then 1 else 0
                  failureCount := metrics.failureCount + if success then 0 else 1
                  lastUsed := some now } }
          updatedAt := now }

def archived (metadata : V2SkillMetadata) : SkillRevision where
  version := metadata.version
  content := doc.content
  description := metadata.description
  activation := metadata.activation
  codeSnippets := metadata.codeSnippets
  contentHash := computeContentHash sha256 doc.content
  archivedAt := some now

def trimmed (revisions : List SkillRevision) : List SkillRevision :=
  revisions.drop (revisions.length - 10)

def advanced (metadata : V2SkillMetadata) : V2SkillMetadata :=
  { metadata with
    revisions := trimmed (metadata.revisions ++ [archived sha256 now doc metadata])
    parentVersion := some metadata.version
    version := nextVersion metadata.version }

def updateSkill (newContent : String) (expectedVersion : Option Nat)
    (updater : V2SkillMetadata → V2SkillMetadata) : Except EngineError MemoryDoc :=
  match doc.metadata with
  | .error e => .error (.skill ("invalid skill metadata: " ++ e))
  | .ok metadata =>
    match expectedVersion.filter (· ≠ metadata.version) with
    | some expected =>
      .error (.skill ("skill " ++ toString doc.id ++ " version conflict: expected " ++
        toString expected ++ ", found " ++ toString metadata.version))
    | none =>
      .ok
        { doc with
          content := newContent
          metadata := .ok
            { updater (advanced sha256 now doc metadata) with
              contentHash := computeContentHash sha256 newContent }
          updatedAt := now }

def maxVersion (revisions : List SkillRevision) : Option Nat :=
  (revisions.map SkillRevision.version).max?

def restored (metadata : V2SkillMetadata) (revision : SkillRevision) : V2SkillMetadata :=
  let revisions := metadata.revisions.filter fun archived => archived.version < revision.version
  { metadata with
    version := revision.version
    description := revision.description
    activation := revision.activation
    codeSnippets := revision.codeSnippets
    contentHash := revision.contentHash
    revisions := revisions
    repairs := metadata.repairs.filter fun repair => repair.toVersion ≤ revision.version
    parentVersion := maxVersion revisions }

def rollbackSkill : Except EngineError MemoryDoc :=
  match doc.metadata with
  | .error e => .error (.skill ("invalid skill metadata: " ++ e))
  | .ok metadata =>
    match metadata.parentVersion with
    | none =>
      .error (.skill ("skill " ++ toString doc.id ++ " has no parent version to rollback to"))
    | some parent =>
      match metadata.revisions.find? fun revision => revision.version == parent with
      | some revision =>
        .ok
          { doc with
            content := revision.content
            metadata := .ok (restored metadata revision)
            updatedAt := now }
      -- an older skill: the version goes back and the content stays
      | none =>
        .ok
          { doc with
            metadata := .ok { metadata with version := parent, parentVersion := none }
            updatedAt := now }

end Tracker

section Ok

variable {sha256 : String → String} {now : Time} {doc doc' : MemoryDoc}

theorem recordUsage_ok {success : Bool} (h : recordUsage now doc success = .ok doc') :
    ∃ metadata metrics, doc.metadata = .ok metadata ∧
      metrics.usageCount = metadata.metrics.usageCount + 1 ∧
      doc' =
        { doc with metadata := .ok { metadata with metrics := metrics }, updatedAt := now } := by
  unfold recordUsage at h
  by_cases htype : doc.docType ≠ .skill
  · rw [if_pos htype] at h
    cases h
  · rw [if_neg htype] at h
    split at h
    · cases h
    · rename_i metadata hmetadata
      cases h
      exact ⟨metadata, _, hmetadata, rfl, rfl⟩

theorem updateSkill_ok {newContent : String} {expectedVersion : Option Nat}
    {updater : V2SkillMetadata → V2SkillMetadata}
    (h : updateSkill sha256 now doc newContent expectedVersion updater = .ok doc') :
    ∃ metadata, doc.metadata = .ok metadata ∧
      (∀ expected, expectedVersion = some expected → metadata.version = expected) ∧
      doc' =
        { doc with
          content := newContent
          metadata := .ok
            { updater (advanced sha256 now doc metadata) with
              contentHash := computeContentHash sha256 newContent }
          updatedAt := now } := by
  unfold updateSkill at h
  split at h
  · cases h
  · rename_i metadata hmetadata
    split at h
    · cases h
    · rename_i hfilter
      cases h
      refine ⟨metadata, hmetadata, fun expected hexpected => ?_, rfl⟩
      rw [hexpected, Option.filter_eq_none_iff] at hfilter
      have heq : expected = metadata.version := by simpa using hfilter expected rfl
      exact heq.symm

theorem rollbackSkill_ok (h : rollbackSkill now doc = .ok doc') :
    ∃ metadata parent, doc.metadata = .ok metadata ∧ metadata.parentVersion = some parent ∧
      ((∃ revision ∈ metadata.revisions, revision.version = parent ∧
          metadata.revisions.find? (fun revision => revision.version == parent) = some revision ∧
          doc' =
            { doc with
              content := revision.content
              metadata := .ok (restored metadata revision)
              updatedAt := now }) ∨
        ((∀ revision ∈ metadata.revisions, revision.version ≠ parent) ∧
          doc' =
            { doc with
              metadata := .ok { metadata with version := parent, parentVersion := none }
              updatedAt := now })) := by
  unfold rollbackSkill at h
  split at h
  · cases h
  · rename_i metadata hmetadata
    split at h
    · cases h
    · rename_i parent hparent
      refine ⟨metadata, parent, hmetadata, hparent, ?_⟩
      split at h
      · rename_i revision hfind
        cases h
        exact .inl ⟨revision, List.mem_of_find?_eq_some hfind, by simpa using List.find?_some hfind,
          hfind, rfl⟩
      · rename_i hfind
        cases h
        exact .inr ⟨by simpa using List.find?_eq_none.mp hfind, rfl⟩

end Ok

end IronClaw.Skills
