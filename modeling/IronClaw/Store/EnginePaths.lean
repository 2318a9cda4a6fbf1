import IronClaw.Engine.Capability
import IronClaw.Memory.Writes
import IronClaw.Missions.Calls
import IronClaw.Skills.Tracker

/-!
# Where the engine store keeps its files

The store writes the state of the engine to files of a workspace. The workspace is to keep them out
of its index and history, and knows them by an older layout.
-/

namespace IronClaw.Store

open Engine (LeaseId ThreadId)
open Foundation (Text Json HashMap Program)
open Memory (DocKey Storage StorageEnv Workspace isEngineRuntimePath normalizePath serve)
open Missions (Libraries MissionId ProjectId)
open Skills (DocId DocType)

abbrev ConversationId := Nat

def knowledgePrefix : Text := ".system/engine/knowledge".toList

def orchestratorPrefix : Text := ".system/engine/orchestrator".toList

def projectsPrefix : Text := ".system/engine/projects".toList

def threadsPrefix : Text := ".system/engine/runtime/threads/active".toList

def threadArchivePrefix : Text := ".system/engine/runtime/threads/archive".toList

def stepsPrefix : Text := ".system/engine/runtime/steps".toList

def eventsPrefix : Text := ".system/engine/runtime/events".toList

def leasesPrefix : Text := ".system/engine/runtime/leases".toList

def conversationsPrefix : Text := ".system/engine/runtime/conversations".toList

/-- The flag tells whether a dash came last. -/
def collapseDashes (slug : Text) : Text :=
  (slug.foldl (fun (acc : Text × Bool) c =>
    if c = '-' then (if !acc.2 && !acc.1.isEmpty then acc.1 ++ ['-'] else acc.1, true)
    else (acc.1 ++ [c], false)) ([], false)).1

def maxSlug : Nat := 60

/-- A slug cut at the last dash before the limit, unless little would be left. -/
def truncateSlug (collapsed : Text) : Text :=
  if maxSlug < collapsed.length then
    let window := collapsed.take maxSlug
    match window.reverse.findIdx? (· == '-') with
    | some fromEnd =>
      let pos := window.length - 1 - fromEnd
      if 20 < pos then collapsed.take pos else window
    | none => window
  else collapsed

def slugify (libs : Libraries) (title id : Text) : Text :=
  let slug := (libs.toLowercase title).map fun c =>
    if Missions.isAsciiAlphanumeric c || c == '-' then c else '-'
  let collapsed := Text.trimEndMatches (fun c => c == '-') (collapseDashes slug)
  truncateSlug collapsed ++ "--".toList ++ id.take 8

def projectSlug (libs : Libraries) (projectId : ProjectId) (name : Option Text) : Text :=
  match name with
  | some name => slugify libs name (libs.uuidText projectId)
  | none => "unknown--".toList ++ (libs.uuidText projectId).take 8

structure MemoryDoc where
  id : DocId
  projectId : ProjectId
  userId : Text
  docType : DocType
  title : Text
  content : Text
  sourceThreadId : Option ThreadId
  tags : List Text
  metadata : Json
  createdAt : Missions.Instant
  updatedAt : Missions.Instant

def orchestratorMainTitle : Text := "orchestrator:main".toList

def orchestratorFailuresTitle : Text := "orchestrator:failures".toList

def preambleOverlayTitle : Text := "prompt:codeact_preamble".toList

def orchestratorCodeTag : Text := "orchestrator_code".toList

def fixPatternTitle : Text := "fix_pattern_database".toList

def typeDir : DocType → Text
  | .summary => "summaries".toList
  | .lesson => "lessons".toList
  | .issue => "issues".toList
  | .spec => "specs".toList
  | .note => "notes".toList
  | .skill => "skills".toList
  | .plan => "plans".toList

def docWorkspacePath (libs : Libraries) (doc : MemoryDoc) : Text :=
  let idStr := libs.uuidText doc.id
  if doc.title == orchestratorMainTitle && doc.tags.contains orchestratorCodeTag then
    let version := ((doc.metadata.get "version".toList).bind Json.asU64).getD 0
    orchestratorPrefix ++ "/v".toList ++ Nat.toDigits 10 version ++ ".py".toList
  else if doc.title == orchestratorFailuresTitle then
    orchestratorPrefix ++ "/failures.json".toList
  else if doc.title == preambleOverlayTitle then
    orchestratorPrefix ++ "/codeact-preamble-overlay.md".toList
  else if doc.title == fixPatternTitle then
    knowledgePrefix ++ "/notes/".toList ++ slugify libs doc.title idStr ++ ".md".toList
  else
    knowledgePrefix ++ ['/'] ++ typeDir doc.docType ++ ['/'] ++ slugify libs doc.title idStr ++
      ".md".toList

inductive StateFile where
  | thread (id : ThreadId)
  | archive (goal : Text) (id : ThreadId)
  | steps (threadId : ThreadId)
  | events (threadId : ThreadId)
  | lease (id : LeaseId)
  | conversation (id : ConversationId)
  | mission (projectId : ProjectId) (projectName : Option Text) (name : Text) (id : MissionId)
  | orchestratorFailures

section Paths

variable (libs : Libraries)

def idPath (dir : Text) (id : Nat) : Text := dir ++ ['/'] ++ libs.uuidText id ++ ".json".toList

def threadPath (threadId : ThreadId) : Text := idPath libs threadsPrefix threadId

def conversationPath (conversationId : ConversationId) : Text :=
  idPath libs conversationsPrefix conversationId

def stepPath (threadId : ThreadId) : Text := idPath libs stepsPrefix threadId

def eventPath (threadId : ThreadId) : Text := idPath libs eventsPrefix threadId

def leasePath (leaseId : LeaseId) : Text := idPath libs leasesPrefix leaseId

/-- The summary of a thread that was dropped from memory. -/
def archivePath (goal : Text) (threadId : ThreadId) : Text :=
  threadArchivePrefix ++ ['/'] ++ slugify libs goal (libs.uuidText threadId) ++ ".json".toList

def missionDir (projectSlug name : Text) (missionId : MissionId) : Text :=
  projectsPrefix ++ ['/'] ++ projectSlug ++ "/missions/".toList ++
    slugify libs name (libs.uuidText missionId)

def missionPath (projectSlug name : Text) (missionId : MissionId) : Text :=
  missionDir libs projectSlug name missionId ++ "/mission.json".toList

def StateFile.path : StateFile → Text
  | thread id => threadPath libs id
  | archive goal id => archivePath libs goal id
  | steps threadId => stepPath libs threadId
  | events threadId => eventPath libs threadId
  | lease id => leasePath libs id
  | conversation id => conversationPath libs id
  | mission projectId projectName name id =>
    missionPath libs (projectSlug libs projectId projectName) name id
  | orchestratorFailures => orchestratorPrefix ++ "/failures.json".toList

theorem stateFile_path_dot (file : StateFile) : ∃ rest, file.path libs = '.' :: rest := by
  cases file <;> exact ⟨_, rfl⟩

theorem docWorkspacePath_dot (doc : MemoryDoc) :
    ∃ rest, docWorkspacePath libs doc = '.' :: rest := by
  rw [docWorkspacePath]
  dsimp only
  split_ifs <;> exact ⟨_, rfl⟩

end Paths

theorem isEngineRuntimePath_normalizePath_dot (rest : Text) :
    isEngineRuntimePath (normalizePath ('.' :: rest)) = false := by
  have hhead := Memory.head?_normalizePath (c := '.') (by decide) (by decide) rest
  obtain ⟨tail, htail⟩ := List.head?_eq_some_iff.mp hhead
  rw [htail]
  exact Memory.isEngineRuntimePath_dot tail

section Saving

variable (env : StorageEnv) (ws : Workspace) (path : Text)

/-- Write contents to a path one after the other. A write that fails is only logged. -/
def saveAll (contents : List Text) (s : Storage) : Storage :=
  contents.foldl (fun s content => (Program.exec serve (Memory.Calls.write env ws path content) s).2)
    s

end Saving

def Unconfigured (docs : Memory.Documents) : Prop :=
  ∀ key doc, docs.lookup key = some doc → doc.metadata = .obj []

section Unconfigured

variable {docs : Memory.Documents}

theorem Unconfigured.created (h : Unconfigured docs) (key : DocKey) :
    Unconfigured (docs.created key) := by
  intro key' doc hdoc
  rw [Memory.Documents.created] at hdoc
  split at hdoc
  · exact h key' doc hdoc
  · rw [HashMap.lookup_insert] at hdoc
    split_ifs at hdoc
    · cases hdoc
      rfl
    · exact h key' doc hdoc

theorem Unconfigured.store (h : Unconfigured docs) (key : DocKey) (content : Text) :
    Unconfigured (docs.store key content) := by
  intro key' doc hdoc
  rw [Memory.Documents.store, HashMap.lookup_adjust] at hdoc
  split_ifs at hdoc
  · obtain ⟨old, hold, rfl⟩ := Option.map_eq_some_iff.mp hdoc
    exact h key' old hold
  · exact h key' doc hdoc

theorem Unconfigured.resolve (h : Unconfigured docs) (scope : Memory.Scope)
    (agentId : Option Memory.AgentId) (path : Text) :
    Memory.resolveMetadataInScope docs scope agentId path = .obj [] := by
  have hlookup : ∀ key, ((docs.lookup key).map (·.metadata)).getD (.obj []) = Json.obj [] := by
    intro key
    cases hkey : docs.lookup key with
    | none => rfl
    | some doc => exact h key doc hkey
  have hconfig : ∀ path, (Memory.findNearestConfig docs scope agentId path).getD (.obj []) =
      .obj [] := by
    intro path
    rw [Memory.findNearestConfig]
    dsimp only
    cases hfound : (Memory.parents path).findSome? _ with
    | none => exact hlookup _
    | some metadata =>
      -- the nearest configuration is a document like all the others
      obtain ⟨dir, -, hdir⟩ := List.exists_of_findSome?_eq_some hfound
      have hdir' := hlookup ⟨scope, agentId, dir ++ '/' :: Memory.configFileName⟩
      rw [hdir] at hdir'
      exact hdir'
  rw [Memory.resolveMetadataInScope, hlookup, hconfig]
  rfl

end Unconfigured

section Saved

variable (env : StorageEnv) {s : Storage} {key : DocKey}

theorem setVersions_self (s : Storage) (key : DocKey) : s.setVersions key (s.versions key) = s := by
  obtain ⟨docs, versions, chunks⟩ := s
  simp only [Storage.setVersions, Storage.mk.injEq, true_and, and_true]
  funext k
  split_ifs with h
  · rw [h]
  · rfl

theorem exec_maybeSaveVersion_first (hversions : s.versions key = []) (content : Text)
    (changedBy : Option Memory.Scope) : ∃ r versions,
      Program.exec serve (Memory.maybeSaveVersion env key content (.obj []) changedBy) s =
        (.ok r, s.setVersions key versions) ∧ (versions = [] ↔ content = []) := by
  by_cases hcontent : content = []
  · refine ⟨none, [], ?_, iff_of_true rfl hcontent⟩
    rw [Memory.maybeSaveVersion, if_pos (by simp [hcontent]), ← hversions, setVersions_self]
    rfl
  · refine ⟨some 1, [⟨1, content, env.contentSha256 content, changedBy⟩], ?_,
      iff_of_false (List.cons_ne_nil _ _) hcontent⟩
    have hskip : Memory.DocumentMetadata.skipVersioning (.obj []) = false := by decide
    rw [Memory.maybeSaveVersion, if_neg (by simpa using hcontent), if_neg (by simp [hskip])]
    dsimp only
    rw [Memory.exec_latestVersion, hversions, List.getLast?_nil, Option.map_none,
      if_neg (by simp)]
    show (Except.ok (some ((s.versions key).length + 1)),
      s.setVersions key (s.versions key ++ [⟨(s.versions key).length + 1, _, _, _⟩])) = _
    rw [hversions]
    rfl

theorem exec_reindex_plain {doc : Memory.MemoryDocument} (h : s.docs.lookup key = some doc) :
    Program.exec serve (Memory.reindex env key (.obj [])) s =
      (.ok (), s.setChunks key (Memory.chunkDocument doc.content)) := by
  have hskip : Memory.DocumentMetadata.skipIndexing (.obj []) = false := by decide
  rw [Memory.reindex, Memory.exec_getDocument, h]
  dsimp only
  rw [if_neg (by simp [hskip]),
    Program.exec_bind_ok serve (Memory.exec_embedChunks env _ s), Memory.exec_getDocument, h]
  dsimp only
  rw [if_neg (not_not.mpr rfl)]
  rfl

variable (ws : Workspace) {path : Text}

/-- **A write to an unrecognised file** indexes the new content, and saves the old one as a version.
-/
theorem exec_write_unrecognised (hpath : isEngineRuntimePath (normalizePath path) = false)
    (hprompt : Memory.isSystemPromptFile (normalizePath path) = false)
    (hplain : Unconfigured s.docs) (hversions : s.versions (ws.key (normalizePath path)) = [])
    (content : Text) (hnew : s.docs.text (ws.key (normalizePath path)) ≠ content) :
    ∃ t, (Program.exec serve (Memory.Calls.write env ws path content) s).2 = t ∧
      Unconfigured t.docs ∧ t.docs.text (ws.key (normalizePath path)) = content ∧
      t.chunks (ws.key (normalizePath path)) = Memory.chunkDocument content ∧
      (t.versions (ws.key (normalizePath path)) = [] ↔
        s.docs.text (ws.key (normalizePath path)) = []) := by
  generalize hkey : ws.key (normalizePath path) = key at *
  obtain ⟨doc, -, hdoc, htext⟩ := Memory.exec_getOrCreate key s.docs
  have hscan : Memory.scanForPrompt (normalizePath path) content = pure () := by
    rw [Memory.scanForPrompt, hprompt]
    rfl
  have hschema : ws.validateSchema (normalizePath path) content (.obj []) = pure () := rfl
  -- the document after its creation, with its version, and with the new content
  obtain ⟨r, versions, hsave, hfirst⟩ := exec_maybeSaveVersion_first env
    (s := { s with docs := s.docs.created key }) hversions doc.content (some ws.userId)
  have hstored : ((s.docs.created key).store key content).lookup key =
      some { doc with content := content } := by
    rw [Memory.Documents.store, HashMap.lookup_adjust, if_pos rfl, hdoc]
    rfl
  have hplain' := hplain.created key
  have hexec : Program.exec serve (Memory.Calls.write env ws path content) s =
      (.ok { doc with content := content },
        ({ ({ s with docs := s.docs.created key } : Storage).setVersions key versions with
          docs := (s.docs.created key).store key content } : Storage).setChunks key
            (Memory.chunkDocument content)) := by
    rw [Memory.Calls.write, Memory.exec_ofCheck_bind, hscan]
    dsimp only
    rw [hkey, Memory.exec_getOrCreateDocument, Memory.getD_lookup_of_created hdoc, hpath, if_neg (by simp),
      if_neg (by rw [htext]; exact hnew),
      Program.exec_bind_ok serve (Memory.exec_resolveMetadataIn _ _ _ _), hplain'.resolve,
      Memory.exec_ofCheck_bind, hschema]
    have hstore : Program.exec serve (Memory.storeContent env key doc.content content (.obj [])
        ws.userId) { s with docs := s.docs.created key } = (.ok (),
        ({ ({ s with docs := s.docs.created key } : Storage).setVersions key versions with
          docs := (s.docs.created key).store key content } : Storage).setChunks key
            (Memory.chunkDocument content)) := by
      rw [Memory.storeContent, Program.exec_attempt_bind serve hsave,
        Memory.exec_updateDocument_bind]
      exact exec_reindex_plain env (s := { ({ s with docs := s.docs.created key } : Storage).setVersions
        key versions with docs := (s.docs.created key).store key content }) hstored
    exact (Program.exec_bind_ok serve hstore).trans (Memory.exec_getDocumentById hstored)
  refine ⟨_, congrArg Prod.snd hexec, hplain'.store key content, Memory.text_store hdoc,
    if_pos rfl, ?_⟩
  rw [← htext, ← hfirst]
  show ((if key = key then versions else _) = []) ↔ _
  rw [if_pos rfl]

end Saved

def Legible (content : Text) : Prop := Memory.splitWhitespace content ≠ []

theorem Legible.ne_nil {content : Text} (h : Legible content) : content ≠ [] := by
  rintro rfl
  exact h rfl

def emptyStorage : Storage := ⟨∅, fun _ => [], fun _ => []⟩

/-- **Unrecognised files** get chunks when they are saved, and a version when saved again with other
content. -/
theorem indexed_of_unrecognised (env : StorageEnv) (ws : Workspace) {path : Text}
    (hpath : isEngineRuntimePath (normalizePath path) = false)
    (hprompt : Memory.isSystemPromptFile (normalizePath path) = false) {content content' : Text}
    (hlegible : Legible content) (hnew : content ≠ content') :
    (saveAll env ws path [content] emptyStorage).chunks (ws.key (normalizePath path)) ≠ [] ∧
      (saveAll env ws path [content, content'] emptyStorage).versions
        (ws.key (normalizePath path)) ≠ [] := by
  have hplain : Unconfigured emptyStorage.docs := nofun
  obtain ⟨t, ht, hplain₁, htext₁, hchunks₁, hversions₁⟩ := exec_write_unrecognised env ws hpath
    hprompt hplain rfl content hlegible.ne_nil.symm
  obtain ⟨t', ht', -, -, -, hversions₂⟩ := exec_write_unrecognised env ws hpath hprompt hplain₁
    (hversions₁.mpr rfl) content' (htext₁ ▸ hnew)
  simp only [saveAll, List.foldl_cons, List.foldl_nil, ht, ht']
  refine ⟨?_, fun h => hlegible.ne_nil ?_⟩
  · rw [hchunks₁]
    exact fun h => hlegible (Memory.chunkDocument_eq_nil_iff.mp h)
  · rw [← htext₁]
    exact hversions₂.mp h

/-- The file is recognised, and saving it leaves neither chunks nor versions. -/
def KeptOut (libs : Libraries) (file : StateFile) : Prop :=
  isEngineRuntimePath (normalizePath (file.path libs)) = true ∧
    ∀ (env : StorageEnv) (ws : Workspace) (contents : List Text),
      (saveAll env ws (file.path libs) contents emptyStorage).chunks
          (ws.key (normalizePath (file.path libs))) = [] ∧
        (saveAll env ws (file.path libs) contents emptyStorage).versions
          (ws.key (normalizePath (file.path libs))) = []

theorem indexed_of_stateFile (libs : Libraries) (file : StateFile) :
    isEngineRuntimePath (normalizePath (file.path libs)) = false ∧
      ∀ (env : StorageEnv) (ws : Workspace) (content content' : Text), Legible content →
        content ≠ content' → (saveAll env ws (file.path libs) [content] emptyStorage).chunks
            (ws.key (normalizePath (file.path libs))) ≠ [] ∧
          (saveAll env ws (file.path libs) [content, content'] emptyStorage).versions
            (ws.key (normalizePath (file.path libs))) ≠ [] := by
  obtain ⟨rest, hrest⟩ := stateFile_path_dot libs file
  have hpath := isEngineRuntimePath_normalizePath_dot rest
  have hprompt : Memory.isSystemPromptFile (normalizePath ('.' :: rest)) = false := by
    obtain ⟨tail, htail⟩ := List.head?_eq_some_iff.mp
      (Memory.head?_normalizePath (c := '.') (by decide) (by decide) rest)
    rw [htail]
    exact Memory.isSystemPromptFile_dot tail
  rw [hrest]
  exact ⟨hpath, fun env ws _ _ hlegible hnew =>
    indexed_of_unrecognised env ws hpath hprompt hlegible hnew⟩

/-- **No state file is kept out**: none is recognised; each gets chunks once it says something, a
version once it changes. -/
theorem stateFile_indexed (libs : Libraries) : (∀ file : StateFile, ¬ KeptOut libs file ∧
      isEngineRuntimePath (normalizePath (file.path libs)) = false ∧
      ∀ (env : StorageEnv) (ws : Workspace) (content content' : Text), Legible content →
        content ≠ content' → (saveAll env ws (file.path libs) [content] emptyStorage).chunks
            (ws.key (normalizePath (file.path libs))) ≠ [] ∧
          (saveAll env ws (file.path libs) [content, content'] emptyStorage).versions
            (ws.key (normalizePath (file.path libs))) ≠ []) ∧
    ∀ doc : MemoryDoc, doc.title ≠ orchestratorFailuresTitle →
      isEngineRuntimePath (normalizePath (docWorkspacePath libs doc)) = false := by
  refine ⟨fun file => ?_, fun doc _ => ?_⟩
  · obtain ⟨hpath, hindexed⟩ := indexed_of_stateFile libs file
    refine ⟨fun hkept => ?_, hpath, hindexed⟩
    rw [hkept.1] at hpath
    cases hpath
  · obtain ⟨rest, hrest⟩ := docWorkspacePath_dot libs doc
    rw [hrest]
    exact isEngineRuntimePath_normalizePath_dot rest

def sampleLibs : Libraries where
  parseUuid _ := .error "invalid".toList
  uuidText _ := "00000000-0000-0000-0000-000000000000".toList
  toLowercase := Text.toAsciiLowercase
  isTimezone _ := false
  checkRegex _ := .ok ()
  cronUpcoming _ _ _ := .error "no schedule".toList
  dateIn _ _ := 0
  rfc3339 _ := "1970-01-01T00:00:00Z".toList
  debugCadence _ := "Manual".toList
  jsonText _ := "null".toList

def sampleWorkspace : Workspace where
  userId := "owner"
  additionalReadScopes := []
  agentId := none
  memoryLayers := []
  privacyClassifier := none
  adminPromptEnabled := false
  schemaErrors _ _ := []
  parseProfile _ := none

/-- Contents tell themselves apart, and nothing is embedded. -/
def sampleStorageEnv : StorageEnv := ⟨String.ofList, false⟩

def runningThread : Text := "\x7b\"state\": \"Running\"\x7d".toList

def doneThread : Text := "\x7b\"state\": \"Done\"\x7d".toList

theorem stateFile_indexed_thread :
    (saveAll sampleStorageEnv sampleWorkspace ((StateFile.thread 0).path sampleLibs)
        [runningThread] emptyStorage).chunks
          (sampleWorkspace.key (normalizePath ((StateFile.thread 0).path sampleLibs))) ≠ [] ∧
      (saveAll sampleStorageEnv sampleWorkspace ((StateFile.thread 0).path sampleLibs)
        [runningThread, doneThread] emptyStorage).versions
          (sampleWorkspace.key (normalizePath ((StateFile.thread 0).path sampleLibs))) ≠ [] ∧
      isEngineRuntimePath (normalizePath (docWorkspacePath sampleLibs
        ⟨0, 0, "owner".toList, .note, "notes".toList, [], none, [], .obj [], 0, 0⟩)) = false :=
  have hsaved := ((stateFile_indexed sampleLibs).1 (.thread 0)).2.2 sampleStorageEnv
    sampleWorkspace runningThread doneThread (by unfold Legible; decide) (by decide)
  ⟨hsaved.1, hsaved.2, (stateFile_indexed sampleLibs).2 _ (by decide)⟩

/-- The file of a thread is not recognised: saved twice, it has a chunk and a version. -/
theorem thread_not_keptOut : threadPath sampleLibs 0 =
      ".system/engine/runtime/threads/active/00000000-0000-0000-0000-000000000000.json".toList ∧
    ¬ KeptOut sampleLibs (.thread 0) ∧
    (saveAll sampleStorageEnv sampleWorkspace (threadPath sampleLibs 0)
        [runningThread] emptyStorage).chunks
          (sampleWorkspace.key (normalizePath (threadPath sampleLibs 0))) ≠ [] ∧
      (saveAll sampleStorageEnv sampleWorkspace (threadPath sampleLibs 0)
        [runningThread, doneThread] emptyStorage).versions
          (sampleWorkspace.key (normalizePath (threadPath sampleLibs 0))) ≠ [] := by
  obtain ⟨hpath, hindexed⟩ := indexed_of_stateFile sampleLibs (.thread 0)
  refine ⟨by decide, fun hkept => ?_, hindexed sampleStorageEnv sampleWorkspace runningThread
    doneThread (by unfold Legible; decide) (by decide)⟩
  rw [hkept.1] at hpath
  cases hpath

end IronClaw.Store
