import IronClaw.Foundation.Keyed
import IronClaw.Skills.Undo

/-!
# Skills from files

At each start installed skills are migrated to documents, unless one has the same content hash. One
installed at runtime replaces a shared document of its title.
-/

namespace IronClaw.Skills

open Foundation (Along Keyed along_congr run)
open List (all_eq_true append_assoc append_nil filter_append filter_cons_of_pos find?_some
  mem_append mem_cons_of_mem mem_cons_self mem_filter mem_map mem_singleton)

inductive SkillSource where
  | workspace (path : String)
  | user (path : String)
  | installed (path : String)
  | bundled (path : String)

def SkillSource.path : SkillSource → String
  | workspace path => path
  | user path => path
  | installed path => path
  | bundled path => path

structure SkillManifest where
  name : String
  description : String
  activation : ActivationCriteria
  requires : GatingRequirements

structure LoadedSkill where
  manifest : SkillManifest
  promptContent : String
  trust : SkillTrust
  source : SkillSource

def LoadedSkill.name (skill : LoadedSkill) : String := skill.manifest.name

def LoadedSkill.title (skill : LoadedSkill) : String := "skill:" ++ skill.name

def LoadedSkill.contentHash (sha256 : String → String) (skill : LoadedSkill) : String :=
  computeContentHash sha256 skill.promptContent

def sharedOwnerId : String := "__shared__"

def legacySharedOwnerId : String := "system"

def isSharedOwner (userId : String) : Bool :=
  userId == sharedOwnerId || userId == legacySharedOwnerId

section Listing

variable (docs : List MemoryDoc)

def listMemoryDocs (project : ProjectId) (userId : String) : List MemoryDoc :=
  docs.filter fun doc => doc.projectId == project && doc.userId == userId

def listSharedMemoryDocs (project : ProjectId) : List MemoryDoc :=
  listMemoryDocs docs project sharedOwnerId ++ listMemoryDocs docs project legacySharedOwnerId

def listMemoryDocsByOwner (userId : String) : List MemoryDoc :=
  docs.filter fun doc => doc.userId == userId

def listSkillsGlobal : List MemoryDoc :=
  (listMemoryDocsByOwner docs sharedOwnerId ++
    listMemoryDocsByOwner docs legacySharedOwnerId).filter
    fun doc => doc.docType == .skill

/-- A skill that a thread of the owner in the project lists: one of its own, or a shared one. -/
def MemoryDoc.isVisible (project : ProjectId) (owner : String) (doc : MemoryDoc) : Bool :=
  doc.docType == .skill &&
    (isSharedOwner doc.userId || (doc.projectId == project && doc.userId == owner))

end Listing

section Migration

variable (sha256 : String → String) (readSourceUrl : String → Option String)

def MemoryDoc.skillHash (doc : MemoryDoc) : Option String :=
  match doc.metadata with
  | .ok metadata => some metadata.contentHash
  | .error _ => none

def existingHashes (docs : List MemoryDoc) (project : ProjectId) (owner : String) : List String :=
  (((listSharedMemoryDocs docs project ++ listMemoryDocs docs project owner).filter
    fun doc => doc.docType == .skill).filterMap MemoryDoc.skillHash).filter fun h => h != ""

def v1SkillToMemoryDoc (now : Time) (id : DocId) (skill : LoadedSkill) (project : ProjectId)
    (owner : String) : MemoryDoc where
  id := id
  projectId := project
  userId :=
    match skill.source with
    | .user _ | .workspace _ => owner
    | .installed _ | .bundled _ => sharedOwnerId
  docType := .skill
  title := skill.title
  content := skill.promptContent
  tags := ["migrated_from_v1"]
  metadata := .ok
    { name := skill.name
      version := 1
      description := skill.manifest.description
      activation := skill.manifest.activation
      source := .migrated
      trust := skill.trust
      requires := skill.manifest.requires
      codeSnippets := []
      metrics := ⟨0, 0, 0, none⟩
      parentVersion := none
      revisions := []
      repairs := []
      contentHash := skill.contentHash sha256
      bundlePath := some skill.source.path
      sourceUrl := readSourceUrl skill.source.path }
  createdAt := now
  updatedAt := now

abbrev SkillStore := Keyed MemoryDoc.id

def migrateV1SkillList (now : Time) (skills : List (LoadedSkill × DocId)) (store : SkillStore)
    (project : ProjectId) (owner : String) : SkillStore :=
  let hashes := existingHashes store.items project owner
  skills.foldl (fun store (skill, id) =>
    if hashes.contains (skill.contentHash sha256) then store
    else store.save (v1SkillToMemoryDoc sha256 readSourceUrl now id skill project owner)) store

/-- Sync a skill that was installed. -/
def syncV1SkillToStore (now : Time) (skill : LoadedSkill) (id : DocId) (store : SkillStore)
    (project : ProjectId) : SkillStore :=
  let doc := v1SkillToMemoryDoc sha256 readSourceUrl now id skill project sharedOwnerId
  match (listSkillsGlobal store.items).find? fun doc => doc.title == skill.title with
  | some existing =>
    if existing.content == skill.promptContent &&
        existing.skillHash == some (skill.contentHash sha256) then store
    else store.save
      { doc with
        id := existing.id, projectId := existing.projectId, createdAt := existing.createdAt }
  | none => store.save doc

end Migration

structure Installation where
  store : SkillStore
  installed : ProjectId → String → List LoadedSkill

/-- A start of the engine, a skill's install in a session, or an operation on a document. -/
inductive InstallationAction where
  | start (now : Time) (project : ProjectId) (owner : String) (skills : List (LoadedSkill × DocId))
  | install (now : Time) (project : ProjectId) (owner : String) (skill : LoadedSkill) (id : DocId)
  | engine (id : DocId) (op : SkillOp)

namespace Installation

variable (sha256 : String → String) (readSourceUrl : String → Option String)

def isNew (s : Installation) (id : DocId) : Bool := s.store.items.all fun doc => doc.id != id

def setInstalled (s : Installation) (project : ProjectId) (owner : String)
    (skills : List LoadedSkill) :
    ProjectId → String → List LoadedSkill :=
  fun p o => if p = project ∧ o = owner then skills else s.installed p o

def step (s : Installation) : InstallationAction → Option Installation
  | .start now project owner skills =>
    if (skills.map fun x => x.1.name).Nodup ∧ (skills.map Prod.snd).Nodup ∧
        ∀ x ∈ skills, s.isNew x.2 then
      some
        { store := migrateV1SkillList sha256 readSourceUrl now skills s.store project owner
          installed := s.setInstalled project owner (skills.map Prod.fst) }
    else none
  | .install now project owner skill id =>
    if s.isNew id then
      some
        { store := syncV1SkillToStore sha256 readSourceUrl now skill id s.store project
          installed := s.setInstalled project owner
            ((s.installed project owner).filter (fun k => k.name != skill.name) ++ [skill]) }
    else none
  | .engine id op =>
    match s.store.find? id with
    | none => some s
    | some doc => (perform sha256 doc op).map fun doc' => { s with store := s.store.save doc' }

def titled (store : SkillStore) (project : ProjectId) (owner : String) (skill : LoadedSkill) :
    List MemoryDoc :=
  store.items.filter fun doc => doc.isVisible project owner && doc.title == skill.title

/-- The file of a skill is the one of the last start or install. -/
def Known (s : Installation) (project : ProjectId) (owner : String) (skill : LoadedSkill) : Prop :=
  ∃ k ∈ s.installed project owner, k.name = skill.name ∧
    k.contentHash sha256 = skill.contentHash sha256

instance (s : Installation) (project : ProjectId) (owner : String) (skill : LoadedSkill) :
    Decidable (s.Known sha256 project owner skill) :=
  inferInstanceAs (Decidable (∃ k ∈ s.installed project owner, _))

/-- A skill has one document, as it was if the file is known, else with the file's content. -/
def Served (s s' : Installation) (project : ProjectId) (owner : String) (skill : LoadedSkill) :
    Prop :=
  ∃ doc, titled s'.store project owner skill = [doc] ∧
    if s.Known sha256 project owner skill then doc ∈ s.store.items
    else doc.content = skill.promptContent

/-- After a start or an install each installed skill is served; a second migration would change
nothing. -/
def OneDocument (s s' : Installation) : InstallationAction → Prop
  | .start _ project owner skills =>
    (∀ k ∈ s'.installed project owner, Served sha256 s s' project owner k) ∧
      ∀ now again, again.map Prod.fst = skills.map Prod.fst →
        migrateV1SkillList sha256 readSourceUrl now again s'.store project owner = s'.store
  | .install _ project owner _ _ =>
    ∀ k ∈ s'.installed project owner, Served sha256 s s' project owner k
  | .engine _ _ => True

/-- A start or an install finds for each skill one document, with the file's content if that is
known, or none and an unknown file. -/
def Fits (s : Installation) : InstallationAction → Prop
  | .start _ project owner skills => ∀ x ∈ skills,
    if x.1.contentHash sha256 ∈ existingHashes s.store.items project owner then
      ∃ doc, titled s.store project owner x.1 = [doc] ∧
        (s.Known sha256 project owner x.1 ∨ doc.content = x.1.promptContent)
    else titled s.store project owner x.1 = [] ∧ ¬ s.Known sha256 project owner x.1
  | .install _ project owner skill _ =>
    (match (listSkillsGlobal s.store.items).find? fun doc => doc.title == skill.title with
      | some existing => titled s.store project owner skill = [existing] ∧
        (s.Known sha256 project owner skill → existing.content = skill.promptContent ∧
          existing.skillHash = some (skill.contentHash sha256))
      | none => titled s.store project owner skill = [] ∧ ¬ s.Known sha256 project owner skill) ∧
    ∀ k ∈ s.installed project owner, k.name ≠ skill.name →
      ∃ doc, titled s.store project owner k = [doc]
  | .engine _ _ => True

section Spec

variable {sha256 : String → String} {readSourceUrl : String → Option String} {now : Time}
  {project : ProjectId} {owner : String} {store : SkillStore} {skill k : LoadedSkill} {id : DocId}
  {doc : MemoryDoc} {skills : List (LoadedSkill × DocId)}

theorem title_inj : skill.title = k.title ↔ skill.name = k.name := by
  refine ⟨fun h => ?_, fun h => by rw [LoadedSkill.title, LoadedSkill.title, h]⟩
  have hlist := congrArg String.toList h
  rw [LoadedSkill.title, LoadedSkill.title, String.toList_append, String.toList_append,
    List.append_cancel_left_eq] at hlist
  exact String.toList_inj.mp hlist

theorem contentHash_ne (content : String) : computeContentHash sha256 content ≠ "" := by
  intro h
  have hlength := congrArg String.length h
  rw [computeContentHash, String.length_append] at hlength
  exact absurd hlength (by simp)

theorem isVisible_v1SkillToMemoryDoc :
    (v1SkillToMemoryDoc sha256 readSourceUrl now id skill project owner).isVisible
      project owner := by
  simp only [MemoryDoc.isVisible, v1SkillToMemoryDoc]
  cases skill.source <;> simp [isSharedOwner]

def newDocs (sha256 : String → String) (readSourceUrl : String → Option String) (now : Time)
    (project : ProjectId) (owner : String) (hashes : List String)
    (skills : List (LoadedSkill × DocId)) : List MemoryDoc :=
  (skills.filter fun x => !hashes.contains (x.1.contentHash sha256)).map fun x =>
    v1SkillToMemoryDoc sha256 readSourceUrl now x.2 x.1 project owner

theorem items_foldl_save (hashes : List String) (hnodup : (skills.map Prod.snd).Nodup)
    (hnew : ∀ x ∈ skills, ∀ doc ∈ store.items, doc.id ≠ x.2) :
    (skills.foldl (fun store (skill, id) =>
      if hashes.contains (skill.contentHash sha256) then store else store.save
          (v1SkillToMemoryDoc sha256 readSourceUrl now id skill project owner)) store).items =
      store.items ++ newDocs sha256 readSourceUrl now project owner hashes skills := by
  induction skills generalizing store with
  | nil => simp [newDocs]
  | cons x skills ih =>
    obtain ⟨hx, hnodup⟩ := List.nodup_cons.mp hnodup
    rw [List.foldl_cons]
    dsimp only
    by_cases hmem : hashes.contains (x.1.contentHash sha256)
    · rw [if_pos hmem, ih hnodup fun y hy => hnew y (mem_cons_of_mem x hy), newDocs, newDocs,
        List.filter_cons_of_neg (by simpa using hmem)]
    · have hsave :
          (store.save (v1SkillToMemoryDoc sha256 readSourceUrl now x.2 x.1 project owner)).items =
          store.items ++ [v1SkillToMemoryDoc sha256 readSourceUrl now x.2 x.1 project owner] :=
        Keyed.items_save_of_new _ (hnew x mem_cons_self)
      rw [if_neg hmem, ih hnodup, hsave, newDocs, newDocs,
        filter_cons_of_pos (by simpa using hmem), List.map_cons, append_assoc]
      · rfl
      · intro y hy doc hdoc
        rw [hsave, mem_append, mem_singleton] at hdoc
        rcases hdoc with hdoc | rfl
        · exact hnew y (mem_cons_of_mem x hy) doc hdoc
        · intro heq
          have hid : x.2 = y.2 := heq
          exact hx (hid ▸ List.mem_map_of_mem hy)

theorem items_migrate (hnodup : (skills.map Prod.snd).Nodup)
    (hnew : ∀ x ∈ skills, ∀ doc ∈ store.items, doc.id ≠ x.2) :
    (migrateV1SkillList sha256 readSourceUrl now skills store project owner).items =
      store.items ++ newDocs sha256 readSourceUrl now project owner
        (existingHashes store.items project owner) skills :=
  items_foldl_save _ hnodup hnew

variable {x : LoadedSkill × DocId}

theorem filter_title (hnames : (skills.map fun x => x.1.name).Nodup) (hx : x ∈ skills) :
    (skills.filter fun y => y.1.title == x.1.title) = [x] := by
  induction skills with
  | nil => cases hx
  | cons y skills ih =>
    obtain ⟨hy, hnames⟩ := List.nodup_cons.mp hnames
    rcases List.mem_cons.mp hx with rfl | hx
    · rw [filter_cons_of_pos (by simp), List.filter_eq_nil_iff.mpr]
      intro z hz heq
      have hname : z.1.name = x.1.name := title_inj.mp (by simpa using heq)
      exact hy (mem_map.mpr ⟨z, hz, hname⟩)
    · rw [List.filter_cons_of_neg, ih hnames hx]
      intro heq
      have hname : y.1.name = x.1.name := title_inj.mp (by simpa using heq)
      exact hy (mem_map.mpr ⟨x, hx, hname.symm⟩)

theorem filter_newDocs (hashes : List String) (hnames : (skills.map fun x => x.1.name).Nodup)
    (hx : x ∈ skills) :
    ((newDocs sha256 readSourceUrl now project owner hashes skills).filter fun doc =>
      doc.isVisible project owner && doc.title == x.1.title) =
      if x.1.contentHash sha256 ∈ hashes then []
      else [v1SkillToMemoryDoc sha256 readSourceUrl now x.2 x.1 project owner] := by
  have htitle : ∀ y : LoadedSkill × DocId,
      ((v1SkillToMemoryDoc sha256 readSourceUrl now y.2 y.1 project owner).isVisible
        project owner &&
        (v1SkillToMemoryDoc sha256 readSourceUrl now y.2 y.1 project owner).title == x.1.title) =
      (y.1.title == x.1.title) := by
    intro y
    rw [isVisible_v1SkillToMemoryDoc, Bool.true_and]
    rfl
  rw [newDocs, List.filter_map]
  simp only [Function.comp_def, htitle]
  rw [List.filter_comm, filter_title hnames hx]
  split_ifs with h
  · rw [List.filter_cons_of_neg (by simpa using h)]
    rfl
  · rw [filter_cons_of_pos (by simpa using h)]
    rfl

theorem titled_migrate (hnames : (skills.map fun x => x.1.name).Nodup)
    (hnodup : (skills.map Prod.snd).Nodup) (hnew : ∀ x ∈ skills, ∀ doc ∈ store.items, doc.id ≠ x.2)
    (hx : x ∈ skills) :
    titled (migrateV1SkillList sha256 readSourceUrl now skills store project owner)
      project owner x.1 = titled store project owner x.1 ++
        if x.1.contentHash sha256 ∈ existingHashes store.items project owner then []
        else [v1SkillToMemoryDoc sha256 readSourceUrl now x.2 x.1 project owner] := by
  rw [titled, items_migrate hnodup hnew, filter_append, filter_newDocs _ hnames hx]
  rfl

theorem existingHashes_append {docs more : List MemoryDoc} {hash : String}
    (h : hash ∈ existingHashes docs project owner) :
    hash ∈ existingHashes (docs ++ more) project owner := by
  simp only [existingHashes, listSharedMemoryDocs, listMemoryDocs, mem_filter,
    List.mem_filterMap,
    mem_append] at h ⊢
  obtain ⟨⟨doc, ⟨hdoc, htype⟩, hhash⟩, hne⟩ := h
  refine ⟨⟨doc, ⟨?_, htype⟩, hhash⟩, hne⟩
  rcases hdoc with (⟨hmem, howner⟩ | ⟨hmem, howner⟩) | ⟨hmem, howner⟩
  · exact .inl (.inl ⟨.inl hmem, howner⟩)
  · exact .inl (.inr ⟨.inl hmem, howner⟩)
  · exact .inr ⟨.inl hmem, howner⟩

theorem mem_existingHashes {docs : List MemoryDoc}
    (h : v1SkillToMemoryDoc sha256 readSourceUrl now id skill project owner ∈ docs) :
    skill.contentHash sha256 ∈ existingHashes docs project owner := by
  have hne : (skill.contentHash sha256 != "") = true := bne_iff_ne.mpr (contentHash_ne _)
  refine mem_filter.mpr ⟨List.mem_filterMap.mpr
    ⟨v1SkillToMemoryDoc sha256 readSourceUrl now id skill project owner,
      mem_filter.mpr ⟨?_, rfl⟩, rfl⟩, hne⟩
  rw [listSharedMemoryDocs, listMemoryDocs, listMemoryDocs, listMemoryDocs, mem_append,
    mem_append, mem_filter, mem_filter, mem_filter]
  cases hsource : skill.source with
  | workspace path => exact .inr ⟨h, by simp [v1SkillToMemoryDoc, hsource]⟩
  | user path => exact .inr ⟨h, by simp [v1SkillToMemoryDoc, hsource]⟩
  | installed path => exact .inl (.inl ⟨h, by simp [v1SkillToMemoryDoc, hsource]⟩)
  | bundled path => exact .inl (.inl ⟨h, by simp [v1SkillToMemoryDoc, hsource]⟩)

theorem found_of_migrate (hnodup : (skills.map Prod.snd).Nodup)
    (hnew : ∀ x ∈ skills, ∀ doc ∈ store.items, doc.id ≠ x.2) (hx : x ∈ skills) :
    x.1.contentHash sha256 ∈ existingHashes
      (migrateV1SkillList sha256 readSourceUrl now skills store project owner).items
        project owner := by
  rw [items_migrate hnodup hnew]
  by_cases hmem : x.1.contentHash sha256 ∈ existingHashes store.items project owner
  · exact existingHashes_append hmem
  · apply mem_existingHashes
    apply List.mem_append_right
    exact mem_map.mpr ⟨x, mem_filter.mpr ⟨hx, by simpa using hmem⟩, rfl⟩

theorem migrate_of_found
    (h : ∀ x ∈ skills, x.1.contentHash sha256 ∈ existingHashes store.items project owner) :
    migrateV1SkillList sha256 readSourceUrl now skills store project owner = store := by
  have hfold : ∀ hashes : List String, (∀ x ∈ skills, x.1.contentHash sha256 ∈ hashes) →
      (skills.foldl (fun store (skill, id) =>
        if hashes.contains (skill.contentHash sha256) then store
        else
          store.save (v1SkillToMemoryDoc sha256 readSourceUrl now id skill project owner)) store) =
        store := by
    intro hashes hfound
    induction skills with
    | nil => rfl
    | cons x skills ih =>
      rw [List.foldl_cons]
      dsimp only
      rw [if_pos (by simpa using hfound x mem_cons_self)]
      exact ih (fun y hy => h y (mem_cons_of_mem x hy)) fun y hy =>
        hfound y (mem_cons_of_mem x hy)
  exact hfold _ h

variable {s s' : Installation}

theorem append_cons_eq_singleton {α : Type*} {front back : List α} {a b : α} :
    front ++ a :: back = [b] ↔ (front = [] ∧ back = []) ∧ a = b := by
  cases front with
  | nil => simp [and_comm]
  | cons c front => simp

theorem served_of_listed (h : titled s'.store project owner skill =
    titled s.store project owner skill) :
    Served sha256 s s' project owner skill ↔ ∃ doc, titled s.store project owner skill = [doc] ∧
      (s.Known sha256 project owner skill ∨ doc.content = skill.promptContent) := by
  unfold Served
  rw [h]
  refine exists_congr fun doc => and_congr_right fun hone => ?_
  have hmem : doc ∈ titled s.store project owner skill := by
    rw [hone]
    exact List.mem_singleton_self doc
  split_ifs with hknown
  · exact iff_of_true (List.mem_of_mem_filter hmem) (.inl hknown)
  · exact (or_iff_right hknown).symm

theorem served_of_new {front back : List MemoryDoc}
    (h : titled s'.store project owner skill = front ++ doc :: back)
    (hcontent : doc.content = skill.promptContent) (hnew : doc ∉ s.store.items) :
    Served sha256 s s' project owner skill ↔
      (front = [] ∧ back = []) ∧ ¬ s.Known sha256 project owner skill := by
  unfold Served
  simp only [h, append_cons_eq_singleton]
  constructor
  · rintro ⟨doc', ⟨hnone, rfl⟩, hdoc⟩
    refine ⟨hnone, fun hknown => ?_⟩
    rw [if_pos hknown] at hdoc
    exact hnew hdoc
  · rintro ⟨hnone, hknown⟩
    refine ⟨doc, ⟨hnone, rfl⟩, ?_⟩
    rw [if_neg hknown]
    exact hcontent

theorem not_mem_of_new (h : s.isNew doc.id) : doc ∉ s.store.items := by
  intro hmem
  have hne := all_eq_true.mp h doc hmem
  simp at hne

theorem installed_setInstalled (ks : List LoadedSkill) :
    s.setInstalled project owner ks project owner = ks := if_pos ⟨rfl, rfl⟩

theorem served_iff_of_start (hs : s.step sha256 readSourceUrl
    (.start now project owner skills) = some s') :
    OneDocument sha256 readSourceUrl s s' (.start now project owner skills) ↔
      s.Fits sha256 (.start now project owner skills) := by
  simp only [step, Option.ite_none_right_eq_some, Option.some.injEq] at hs
  obtain ⟨⟨hnames, hnodup, hfresh⟩, rfl⟩ := hs
  have hnew : ∀ x ∈ skills, ∀ doc ∈ s.store.items, doc.id ≠ x.2 := by
    intro x hx doc hdoc
    simpa using all_eq_true.mp (hfresh x hx) doc hdoc
  unfold OneDocument Fits
  dsimp only
  rw [installed_setInstalled, and_iff_left, List.forall_mem_map]
  · refine forall₂_congr fun x hx => ?_
    have htitled : titled (migrateV1SkillList sha256 readSourceUrl now skills s.store project owner)
        project owner x.1 = titled s.store project owner x.1 ++
          if x.1.contentHash sha256 ∈ existingHashes s.store.items project owner then []
          else [v1SkillToMemoryDoc sha256 readSourceUrl now x.2 x.1 project owner] :=
      titled_migrate hnames hnodup hnew hx
    -- a skill whose hash is there is passed over, and another one is added
    split_ifs at htitled ⊢ with hmem
    · rw [append_nil] at htitled
      exact served_of_listed htitled
    · exact (served_of_new htitled rfl (not_mem_of_new (hfresh x hx))).trans
        (and_congr_left fun _ => and_iff_left rfl)
  · intro now' again hagain
    apply migrate_of_found
    intro x hx
    have hx' : x.1 ∈ skills.map Prod.fst := hagain ▸ List.mem_map_of_mem hx
    obtain ⟨y, hy, heq⟩ := mem_map.mp hx'
    rw [← heq]
    exact found_of_migrate hnodup hnew hy

theorem isVisible_of_shared (htype : doc.docType = .skill) (howner : isSharedOwner doc.userId) :
    doc.isVisible project owner := by
  simp [MemoryDoc.isVisible, htype, howner]

theorem mem_of_global (h : doc ∈ listSkillsGlobal store.items) : doc ∈ store.items := by
  simp only [listSkillsGlobal, listMemoryDocsByOwner, mem_filter, mem_append] at h
  exact h.1.elim And.left And.left

theorem isVisible_of_global (h : doc ∈ listSkillsGlobal store.items) :
    doc.isVisible project owner := by
  simp only [listSkillsGlobal, listMemoryDocsByOwner, mem_filter, mem_append] at h
  obtain ⟨hmem, htype⟩ := h
  apply isVisible_of_shared (by simpa using htype)
  rcases hmem with ⟨-, howner⟩ | ⟨-, howner⟩
  · simp [isSharedOwner, howner]
  · simp [isSharedOwner, howner]

def synced (sha256 : String → String) (readSourceUrl : String → Option String)
    (now : Time) (id : DocId)
    (skill : LoadedSkill) (project : ProjectId) (existing : MemoryDoc) : MemoryDoc :=
  { v1SkillToMemoryDoc sha256 readSourceUrl now id skill project sharedOwnerId with
    id := existing.id, projectId := existing.projectId, createdAt := existing.createdAt }

theorem isSharedOwner_v1SkillToMemoryDoc : isSharedOwner
      (v1SkillToMemoryDoc sha256 readSourceUrl now id skill project sharedOwnerId).userId := by
  simp only [v1SkillToMemoryDoc]
  cases skill.source <;> simp [isSharedOwner]

variable (sha256 readSourceUrl now project skill) in
theorem sync_cases (hnew : ∀ doc ∈ store.items, doc.id ≠ id) :
    (∃ existing, ((listSkillsGlobal store.items).find? fun doc =>
      doc.title == skill.title) = some existing ∧ existing.content = skill.promptContent ∧
      existing.skillHash = some (skill.contentHash sha256) ∧
      syncV1SkillToStore sha256 readSourceUrl now skill id store project = store) ∨
    (∃ existing front back,
      ((listSkillsGlobal store.items).find? fun doc => doc.title == skill.title) = some existing ∧
      ¬ (existing.content = skill.promptContent ∧
        existing.skillHash = some (skill.contentHash sha256)) ∧
      store.items = front ++ existing :: back ∧
      (syncV1SkillToStore sha256 readSourceUrl now skill id store project).items =
        front ++ synced sha256 readSourceUrl now id skill project existing :: back) ∨
    ((listSkillsGlobal store.items).find? fun doc => doc.title == skill.title) = none ∧
      (syncV1SkillToStore sha256 readSourceUrl now skill id store project).items =
        store.items ++ [v1SkillToMemoryDoc sha256 readSourceUrl now id skill project
          sharedOwnerId] := by
  unfold syncV1SkillToStore
  cases hfind : (listSkillsGlobal store.items).find? fun doc => doc.title == skill.title with
  | none => exact .inr (.inr ⟨rfl, Keyed.items_save_of_new _ hnew⟩)
  | some existing =>
    have hmem : existing ∈ store.items := mem_of_global (List.mem_of_find?_eq_some hfind)
    by_cases hsame : existing.content = skill.promptContent ∧
        existing.skillHash = some (skill.contentHash sha256)
    · exact .inl ⟨existing, rfl, hsame.1, hsame.2, if_pos (by simpa using hsame)⟩
    · obtain ⟨front, back, hitems⟩ := List.append_of_mem hmem
      refine .inr (.inl ⟨existing, front, back, rfl, hsame, hitems, ?_⟩)
      dsimp only
      rw [if_neg (by simpa using hsame)]
      exact Keyed.items_save_of_split _ hitems rfl

section Titled

variable {docs front back : List MemoryDoc}

theorem titled_of_split (hitems : store.items = front ++ doc :: back)
    (hvisible : doc.isVisible project owner) (htitle : doc.title = skill.title) :
    titled store project owner skill =
      (front.filter fun doc => doc.isVisible project owner && doc.title == skill.title) ++
        doc :: back.filter fun doc => doc.isVisible project owner && doc.title == skill.title := by
  rw [titled, hitems, filter_append, filter_cons_of_pos]
  simp [hvisible, htitle]

theorem titled_of_split_ne (docs front back : List MemoryDoc)
    (hitems : store.items = front ++ docs ++ back)
    (htitle : ∀ doc ∈ docs, doc.title ≠ skill.title) : titled store project owner skill =
      (front.filter fun doc => doc.isVisible project owner && doc.title == skill.title) ++
        back.filter fun doc => doc.isVisible project owner && doc.title == skill.title := by
  have hnone : (docs.filter fun doc => doc.isVisible project owner && doc.title == skill.title) =
    [] := by
    rw [List.filter_eq_nil_iff]
    intro doc hdoc hlisted
    exact htitle doc hdoc (by simpa using (Bool.and_eq_true_iff.mp hlisted).2)
  rw [titled, hitems, filter_append, filter_append, hnone, append_nil]

end Titled

theorem titled_sync_of_ne (hnew : ∀ doc ∈ store.items, doc.id ≠ id) {project' : ProjectId}
    (hname : k.name ≠ skill.name) :
    titled (syncV1SkillToStore sha256 readSourceUrl now skill id store project') project owner k =
      titled store project owner k := by
  have htitle : skill.title ≠ k.title := fun h => hname (title_inj.mp h).symm
  rcases sync_cases sha256 readSourceUrl now project' skill hnew with
    ⟨existing, -, -, -, hsync⟩ | ⟨existing, front, back, hfind, -, hitems, hsync⟩ | ⟨-, hsync⟩
  · rw [hsync]
  · have hexisting : existing.title = skill.title := by simpa using find?_some hfind
    rw [titled_of_split_ne [synced sha256 readSourceUrl now id skill project' existing] front back
        (by rw [hsync, append_assoc]; rfl) (List.forall_mem_singleton.mpr htitle),
      titled_of_split_ne [existing] front back (by rw [hitems, append_assoc]; rfl)
        (by simpa [hexisting] using htitle)]
  · rw [titled_of_split_ne [v1SkillToMemoryDoc sha256 readSourceUrl now id skill project'
      sharedOwnerId]
      store.items [] (by rw [hsync, append_nil]) (List.forall_mem_singleton.mpr htitle),
        List.filter_nil, append_nil]
    rfl

theorem served_sync {inst : ProjectId → String → List LoadedSkill} (hnew : s.isNew id) :
    Served sha256 s ⟨syncV1SkillToStore sha256 readSourceUrl now skill id s.store project, inst⟩
        project owner skill ↔
      match (listSkillsGlobal s.store.items).find? fun doc => doc.title == skill.title with
      | some existing => titled s.store project owner skill = [existing] ∧
        (s.Known sha256 project owner skill → existing.content = skill.promptContent ∧
          existing.skillHash = some (skill.contentHash sha256))
      | none => titled s.store project owner skill = [] ∧ ¬ s.Known sha256 project owner skill := by
  have hids : ∀ doc ∈ s.store.items, doc.id ≠ id := by
    intro doc hdoc
    simpa using all_eq_true.mp hnew doc hdoc
  have howner : isSharedOwner
      (v1SkillToMemoryDoc sha256 readSourceUrl now id skill project sharedOwnerId).userId :=
    isSharedOwner_v1SkillToMemoryDoc
  rcases sync_cases sha256 readSourceUrl now project skill hids with
    ⟨existing, hfind, hcontent, hhash, hsync⟩ |
    ⟨existing, front, back, hfind, hother, hitems, hsync⟩ |
    ⟨hfind, hsync⟩
  · -- the store is as it was, and the document found is among those of the title
    rw [hfind, hsync]
    have hsame : titled (Installation.mk s.store inst).store project owner skill =
        titled s.store project owner skill := rfl
    refine (served_of_listed hsame).trans ?_
    dsimp only
    have hmem := List.mem_of_find?_eq_some hfind
    have hvisible : existing.isVisible project owner := isVisible_of_global hmem
    have hlisted : existing ∈ titled s.store project owner skill :=
      mem_filter.mpr ⟨mem_of_global hmem, by simpa [hvisible] using find?_some hfind⟩
    constructor
    · rintro ⟨doc, hone, -⟩
      rw [hone, mem_singleton] at hlisted
      exact ⟨hlisted ▸ hone, fun _ => ⟨hcontent, hhash⟩⟩
    · rintro ⟨hone, -⟩
      exact ⟨existing, hone, .inr hcontent⟩
  · -- the document found is overwritten, so a file that is known loses what the engine made of it
    have hexisting : existing.title = skill.title := by simpa using find?_some hfind
    have hmem := List.mem_of_find?_eq_some hfind
    have hvisible : existing.isVisible project owner := isVisible_of_global hmem
    have hgone : synced sha256 readSourceUrl now id skill project existing ∉ s.store.items := by
      intro hkept
      have heq : synced sha256 readSourceUrl now id skill project existing = existing :=
        List.inj_on_of_nodup_map s.store.nodup hkept (mem_of_global hmem) rfl
      apply hother
      rw [← heq]
      exact ⟨rfl, rfl⟩
    have hshared : (synced sha256 readSourceUrl now id skill project existing).isVisible
      project owner :=
      isVisible_of_shared rfl howner
    rw [hfind, served_of_new (titled_of_split hsync hshared rfl) rfl hgone,
      titled_of_split hitems hvisible hexisting]
    dsimp only
    rw [append_cons_eq_singleton, and_iff_left rfl]
    refine and_congr_right fun _ => ⟨fun h hknown => absurd hknown h, fun h hknown => ?_⟩
    exact hother (h hknown)
  · have hlisted : titled (syncV1SkillToStore sha256 readSourceUrl now skill id s.store project)
        project owner skill = titled s.store project owner skill ++
          [v1SkillToMemoryDoc sha256 readSourceUrl now id skill project sharedOwnerId] :=
      titled_of_split hsync (isVisible_of_shared rfl howner) rfl
    rw [hfind, served_of_new hlisted rfl (not_mem_of_new hnew), and_iff_left rfl]

theorem served_iff_of_install
    (hs : s.step sha256 readSourceUrl (.install now project owner skill id) = some s') :
    OneDocument sha256 readSourceUrl s s' (.install now project owner skill id) ↔
      s.Fits sha256 (.install now project owner skill id) := by
  simp only [step, Option.ite_none_right_eq_some, Option.some.injEq] at hs
  obtain ⟨hnew, rfl⟩ := hs
  have hids : ∀ doc ∈ s.store.items, doc.id ≠ id := by
    intro doc hdoc
    simpa using all_eq_true.mp hnew doc hdoc
  unfold OneDocument Fits
  dsimp only
  rw [installed_setInstalled, List.forall_mem_append, List.forall_mem_singleton, served_sync hnew,
    and_comm]
  refine and_congr_right fun _ => ?_
  simp only [mem_filter, and_imp, bne_iff_ne]
  refine forall₂_congr fun k hk => imp_congr_right fun hname => ?_
  rw [served_of_listed (titled_sync_of_ne hids hname)]
  exact exists_congr fun doc => and_iff_left (.inl ⟨k, hk, rfl, rfl⟩)

theorem oneDocument_iff_fits {a : InstallationAction}
    (hs : s.step sha256 readSourceUrl a = some s') :
    OneDocument sha256 readSourceUrl s s' a ↔ s.Fits sha256 a := by
  cases a with
  | start now project owner skills => exact served_iff_of_start hs
  | install now project owner skill id => exact served_iff_of_install hs
  | engine id op => exact Iff.rfl

/-- **The installed skills have one document each**, of their files or as the engine left it,
exactly if starts and installs find fitting ones. -/
theorem served_iff_fits {s t : Installation} {actions : List InstallationAction}
    (hr : run (step sha256 readSourceUrl) s actions = some t) : Along (step sha256 readSourceUrl)
        (fun s a => ∀ s', s.step sha256 readSourceUrl a = some s' →
          OneDocument sha256 readSourceUrl s s' a) s actions ↔
      Along (step sha256 readSourceUrl) (fun s a => s.Fits sha256 a) s actions := by
  refine along_congr (fun s a s' hs => ?_) hr
  constructor
  · intro h
    exact (oneDocument_iff_fits hs).mp (h s' hs)
  · intro h t' ht'
    exact (oneDocument_iff_fits ht').mpr h

end Spec

end Installation

def digest : String → String
  | "one" => "7692c3ad3540bb803c020b3aee66cd8887123234ea0c6e7143c0add73ff431ed"
  | _ => "3fc4ccfe745870e2c0d99f71f30ff0656c8dedd41cc1d7d3d376b0dbe685e2f3"

def plainSkill (name text : String) : LoadedSkill where
  manifest := ⟨name, "", ⟨[], [], [], [], 0, none⟩, ⟨[], [], [], []⟩⟩
  promptContent := text
  trust := .trusted
  source := .workspace name

def emptyInstallation : Installation := ⟨⟨[], List.nodup_nil⟩, fun _ _ => []⟩

namespace Installation

/-- Two skills have one document each, also after the next start. -/
theorem served_of_twoSkills : Along (step digest fun _ => none)
      (fun s a => ∀ s', s.step digest (fun _ => none) a = some s' →
        OneDocument digest (fun _ => none) s s' a) emptyInstallation
      [.start 0 0 "alice" [(plainSkill "a" "one", 0)],
        .install 1 0 "alice" (plainSkill "b" "two") 1,
        .start 2 0 "alice" [(plainSkill "a" "one", 2), (plainSkill "b" "two", 3)]] := by
  obtain ⟨t, hrun⟩ : ∃ t, run (step digest fun _ => none) emptyInstallation
      [.start 0 0 "alice" [(plainSkill "a" "one", 0)],
        .install 1 0 "alice" (plainSkill "b" "two") 1,
        .start 2 0 "alice" [(plainSkill "a" "one", 2), (plainSkill "b" "two", 3)]] = some t :=
          ⟨_, rfl⟩
  refine (served_iff_fits hrun).mpr (.of_step rfl ?_ (.of_step rfl ?_ (.of_step rfl ?_ trivial)))
  · intro x hx
    rw [mem_singleton.mp hx, if_neg (by decide)]
    exact ⟨rfl, by decide⟩
  · refine ⟨⟨rfl, by decide⟩, fun k hk hname => ?_⟩
    rw [mem_singleton.mp hk]
    exact ⟨_, rfl⟩
  · intro x hx
    rcases List.mem_pair.mp hx with rfl | rfl
    · rw [if_pos (by decide)]
      exact ⟨_, rfl, .inl (by decide)⟩
    · rw [if_pos (by decide)]
      exact ⟨_, rfl, .inl (by decide)⟩

/-- An edited file gives a skill two documents, another skill of its text none; installs replace
updates. -/
theorem document_doubled : (¬ Along (step digest fun _ => none)
      (fun s a => ∀ s', s.step digest (fun _ => none) a = some s' →
        OneDocument digest (fun _ => none) s s' a) emptyInstallation
      [.start 0 0 "alice" [(plainSkill "a" "one", 0)],
        .start 1 0 "alice" [(plainSkill "a" "two", 1)]]) ∧ (¬ Along (step digest fun _ => none)
      (fun s a => ∀ s', s.step digest (fun _ => none) a = some s' →
        OneDocument digest (fun _ => none) s s' a) emptyInstallation
      [.start 0 0 "alice" [(plainSkill "a" "one", 0)], .engine 0 (.update (rewrite 1 "two")),
        .start 2 0 "alice" [(plainSkill "a" "one", 1)]]) ∧ (¬ Along (step digest fun _ => none)
      (fun s a => ∀ s', s.step digest (fun _ => none) a = some s' →
        OneDocument digest (fun _ => none) s s' a) emptyInstallation
      [.start 0 0 "alice" [(plainSkill "a" "one", 0)],
        .start 1 0 "alice" [(plainSkill "a" "one", 1), (plainSkill "b" "one", 2)]]) ∧
    ¬ Along (step digest fun _ => none)
      (fun s a => ∀ s', s.step digest (fun _ => none) a = some s' →
        OneDocument digest (fun _ => none) s s' a) emptyInstallation
      [.install 0 0 "alice" (plainSkill "a" "one") 0, .engine 0 (.update (rewrite 1 "two")),
        .install 2 0 "alice" (plainSkill "a" "one") 1] := by
  refine ⟨fun h => ?_, fun h => ?_, fun h => ?_, fun h => ?_⟩
  · obtain ⟨doc, hone, -⟩ := ((h.2 _ rfl).1 _ rfl).1 (plainSkill "a" "two") mem_cons_self
    have hlength := congrArg List.length hone
    rw [List.length_singleton] at hlength
    exact absurd hlength (by decide)
  · obtain ⟨doc, hone, -⟩ := (((h.2 _ rfl).2 _ rfl).1 _ rfl).1
      (plainSkill "a" "one") mem_cons_self
    have hlength := congrArg List.length hone
    rw [List.length_singleton] at hlength
    exact absurd hlength (by decide)
  · obtain ⟨doc, hone, -⟩ := ((h.2 _ rfl).1 _ rfl).1 (plainSkill "b" "one")
      (mem_cons_of_mem _ mem_cons_self)
    have hlength := congrArg List.length hone
    rw [List.length_singleton] at hlength
    exact absurd hlength (by decide)
  · obtain ⟨doc, hone, hdoc⟩ := ((h.2 _ rfl).2 _ rfl).1 _ rfl
      (plainSkill "a" "one") mem_cons_self
    rw [if_pos (by decide)] at hdoc
    have hfile : ["one"] = [doc.content] := congrArg (List.map MemoryDoc.content) hone
    have hkept : doc.content ∈ ["two"] := List.mem_map_of_mem hdoc
    rw [← (List.cons.inj hfile).1] at hkept
    exact absurd hkept (by decide)

end Installation

end IronClaw.Skills
