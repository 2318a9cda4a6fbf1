import IronClaw.Memory.MemoryWrite

/-!
# Protected paths

With self-modification off, no call of `memory_write` may change a document of the orchestrator;
with it on, it needs approval and the syntax check. The checks have a normal form of their own, and
rebuild an append by hand.
-/

namespace IronClaw.Memory

open Foundation (Text Json HashMap Effect)
open MemoryWriteTool

def isProtectedPyStored (path : Text) : Bool := isUnderPrefix path && ".py".toList.isSuffixOf path

/-- Protected documents stay while self-modification is off, else change with approval, Python texts
with a check. -/
def SafeCall (env : MemoryWriteEnv) (ws : Workspace) (params : Json) (docs : Documents) : Prop :=
  let docs' := ((execute env ws params).exec docs).2
  ∀ key, isUnderPrefix key.path = true →
    (env.selfModifyEnabled = false → docs'.lookup key = docs.lookup key) ∧
    (env.selfModifyEnabled = true →
      (docs'.lookup key ≠ docs.lookup key → requiresApproval env params = .always) ∧
      (isProtectedPyStored key.path = true →
        docs'.text key = docs.text key ∨ env.validatePythonSyntax (docs'.text key) = .ok ()))

def isRefused (target : Text) : Bool :=
  looksLikeFilesystemPath target ||
    !(isEngineAlias target || (normalizeWorkspacePath target).isSome)

/-- The guard sees a target whose stored path is protected. -/
def GuardAgrees (target : Text) : Prop :=
  isUnderPrefix (normalizePath target) = true → isRefused target = false →
    isProtectedOrchestratorPath target = true

/-- The syntax check sees a target whose stored path is protected Python code. -/
def SyntaxCheckAgrees (target : Text) : Prop :=
  isProtectedPyStored (normalizePath target) = true → isRefused target = false →
    isProtectedPyPath target = true

def Workspace.readText (ws : Workspace) (docs : Documents) (path : Text) : Text :=
  match ((ws.read path).exec docs).1 with
  | .ok doc => doc.content
  | .error _ => []

def appendBase (existing separator : Text) : Text :=
  if existing.isEmpty then [] else existing ++ separator

/-- The syntax check puts an appended text behind the one that the workspace does, in every layer.
-/
def AppendAgrees (ws : Workspace) (docs : Documents) (target : Text) : Prop :=
  isProtectedPyStored (normalizePath target) = true → isRefused target = false →
    ws.readText docs target = appendBase (docs.text (ws.key (normalizePath target))) ['\n'] ∧
    ∀ layerName content force scope layer redirected, Text.trim content ≠ [] →
      ws.resolveLayerTarget layerName content force = .ok (scope, layer, redirected) →
      ws.readText docs target =
        appendBase (docs.text (ws.keyIn scope (normalizePath target))) ['\n', '\n']

def isAppend (params : Json) : Bool :=
  (strParam params "old_string").isNone && boolParam params "append" true

theorem appended_eq (existing separator content : Text) :
    Workspace.appended existing separator content = appendBase existing separator ++ content := by
  rw [Workspace.appended, appendBase]
  split <;> rfl

theorem exec_onWorkspace {α : Type} (x : Op α) (docs : Documents) :
    (onWorkspace x).exec docs = ((x.exec docs).1.mapError mapWriteErr, (x.exec docs).2) := rfl

theorem reads_onWorkspace {α : Type} {x : Op α} (h : x.Reads) : (onWorkspace x).Reads := h

theorem exec_existingText (ws : Workspace) (path : Text) (docs : Documents) :
    (existingText ws path).exec docs = (.ok (ws.readText docs path), docs) := by
  rw [existingText, Effect.exec_bind, Effect.exec_attempt, exec_onWorkspace,
    ws.reads_read path docs, Workspace.readText]
  cases ((ws.read path).exec docs).1 <;> rfl

theorem reads_checkSyntax (env : MemoryWriteEnv) (path final : Text) :
    (checkSyntax env path final).Reads := by
  intro docs
  rw [checkSyntax]
  split
  · split <;> rfl
  · rfl

theorem accepted_of_checkSyntax {env : MemoryWriteEnv} {path final : Text} {docs : Documents}
    (h : (checkSyntax env path final).exec docs = (.ok (), docs))
    (hpy : isProtectedPyPath path = true) : env.validatePythonSyntax final = .ok () := by
  rw [checkSyntax, if_pos hpy] at h
  cases hv : env.validatePythonSyntax final with
  | ok u => rfl
  | error reason =>
    rw [hv] at h
    cases h

theorem readText_of_lookup {ws : Workspace} {docs : Documents} {path : Text} {doc : MemoryDocument}
    (h : docs.lookup (ws.key (normalizePath path)) = some doc) :
    ws.readText docs path = doc.content := by
  have hprimary : (getDocumentByPath (ws.key (normalizePath path))).exec docs =
    (.ok doc, docs) := by
    rw [exec_getDocumentByPath, h]
  have hmulti : (ws.getDocumentByPathMulti (normalizePath path)).exec docs = (.ok doc, docs) := by
    have hfind : (ws.readUserIds.findSome? fun scope =>
        docs.lookup (ws.keyIn scope (normalizePath path))) = some doc := by
      have hhead : docs.lookup (ws.keyIn ws.userId (normalizePath path)) = some doc := h
      rw [Workspace.readUserIds, List.findSome?_cons, hhead]
    rw [Workspace.getDocumentByPathMulti, Effect.exec_bind, Effect.exec_get]
    simp only [hfind]
    rfl
  rw [Workspace.readText, Workspace.read]
  split_ifs
  · rw [hprimary]
  · rw [hmulti]
  · rw [hprimary]

section Stages

variable {env : MemoryWriteEnv} {ws : Workspace} {params : Json} {path : Text}
  {S : Set DocKey} {P : DocKey → Text → Prop} {docs : Documents}

theorem changes_applyMetadata (hS : ws.key (normalizePath path) ∈ S) :
    Changes S P docs ((applyMetadata ws params path).exec docs).2 := by
  rw [applyMetadata]
  split
  · exact .refl docs
  · split_ifs
    · refine (reads_onWorkspace (reads_getDocumentByPath _)).attempt.bind_induction (.refl docs)
        fun found _ => ?_
      cases found with
      | ok doc => exact changes_updateDocumentMetadata hS _
      | error e => exact .refl docs
    · obtain ⟨doc, hexec, -, -⟩ := exec_getOrCreate (ws.key (normalizePath path)) docs
      have hcreate : (onWorkspace (ws.getOrCreate path)).exec docs =
          (.ok doc, docs.created (ws.key (normalizePath path))) := by
        rw [exec_onWorkspace, Workspace.getOrCreate, hexec]
        rfl
      rw [Effect.exec_bind_ok hcreate]
      exact (changes_created hS).trans (changes_updateDocumentMetadata hS _)

theorem changes_patchMode {oldString : Text} (hS : ws.key (normalizePath path) ∈ S)
    (hP : ∀ new, (isProtectedPyPath path = true → env.validatePythonSyntax new = .ok ()) →
      P (ws.key (normalizePath path)) new) :
    Changes S P docs ((patchMode env ws params path oldString).exec docs).2 := by
  rw [patchMode]
  refine (Effect.Reads.require _ _).bind_induction (.refl docs) fun _ _ => ?_
  refine (Effect.Reads.require _ _).bind_induction (.refl docs) fun _ _ => ?_
  refine (Effect.Reads.ofExcept _).bind_induction (.refl docs) fun newString _ => ?_
  rw [Effect.exec_bind_ok (exec_existingText ws path docs)]
  refine (reads_checkSyntax _ _ _).bind_induction (.refl docs) fun _ hpython => ?_
  rw [Effect.exec_bind_reads fun _ => Effect.Reads.pure _]
  refine ws.changes_patch hS fun hdoc _ => hP _ fun hpy => ?_
  -- a document that is patched is the one that was read
  obtain ⟨doc, hlookup⟩ := hdoc
  have htext : docs.text (ws.key (normalizePath path)) = doc.content := by
    rw [Documents.text, hlookup]
  rw [htext, ← readText_of_lookup hlookup]
  exact accepted_of_checkSyntax hpython hpy

theorem changes_syncDerived (h : normalizePath path = Paths.profile → ws.profileKeys ⊆ S ∧
      ∀ key ∈ ws.profileKeys, ∀ content, P key content) :
    Changes S P docs ((syncDerived ws path).exec docs).2 := by
  rw [syncDerived]
  split_ifs with hprofile
  · obtain ⟨hS, hP⟩ := h hprofile
    rw [Effect.exec_bind_reads]
    · exact ws.changes_syncProfileDocuments.mono hS fun key hkey content _ => hP key hkey content
    · rintro (e | synced) <;> exact Effect.Reads.pure _
  · exact .refl docs

def storedText (params : Json) (existing separator : Text) : Text :=
  if boolParam params "append" true then
    Workspace.appended existing separator (contentOf params)
  else contentOf params

theorem changes_storeContent (env : MemoryWriteEnv)
    (hspecial : targetOf params = "memory".toList ∨ targetOf params = "daily_log".toList →
      ∀ special ∈ [Paths.memory, Paths.dailyLog env.logDate], ws.key (normalizePath special) ∈ S ∧
        ∀ content, P (ws.key (normalizePath special)) content)
    (hplain : ws.key (normalizePath path) ∈ S ∧ P (ws.key (normalizePath path))
      (storedText params (docs.text (ws.key (normalizePath path))) ['\n']))
    (hlayer : ∀ layerName scope layer redirected, strParam params "layer" = some layerName →
      ws.resolveLayerTarget layerName (contentOf params) (boolParam params "force" false) =
        .ok (scope, layer, redirected) →
      ws.keyIn scope (normalizePath path) ∈ S ∧ P (ws.keyIn scope (normalizePath path))
        (storedText params (docs.text (ws.keyIn scope (normalizePath path))) ['\n', '\n'])) :
    Changes S P docs ((store env ws params path).exec docs).2 := by
  rw [store]
  cases hname : strParam params "layer" with
  | some layerName =>
    have htarget := fun scope layer redirected => hlayer layerName scope layer redirected hname
    unfold storedText at htarget
    dsimp only
    split_ifs at htarget ⊢
    all_goals rw [Effect.exec_bind_reads fun _ => Effect.Reads.pure _]
    · exact ws.changes_appendToLayer htarget
    · exact ws.changes_writeToLayer htarget
  | none =>
    have hmemory := fun h => hspecial (.inl h) Paths.memory (by simp)
    have hdaily := fun h => hspecial (.inr h) (Paths.dailyLog env.logDate) (by simp)
    obtain ⟨hkey, htext⟩ := hplain
    unfold storedText at htext
    dsimp only
    split_ifs at htext ⊢ with hisMemory _ hisDaily
    all_goals rw [Effect.exec_bind_reads fun _ => Effect.Reads.pure _]
    · rw [normalizePath_memory] at hmemory
      exact ws.changes_appendMemory (hmemory hisMemory).1 ((hmemory hisMemory).2 _)
    · exact ws.changes_write (hmemory hisMemory).1 fun _ => (hmemory hisMemory).2 _
    · exact ws.changes_appendDailyLog (hdaily hisDaily).1 (hdaily hisDaily).2
    · exact ws.changes_appendDailyLog (hdaily hisDaily).1 (hdaily hisDaily).2
    · exact ws.changes_append hkey fun _ => htext
    · exact ws.changes_write hkey fun _ => htext

/-- The text that the syntax check puts the content of a call behind. -/
def checkedBefore (ws : Workspace) (params : Json) (docs : Documents) (path : Text) : Text :=
  if boolParam params "append" true then ws.readText docs path else []

theorem exec_textBefore :
    (textBefore ws params path).exec docs = (.ok (checkedBefore ws params docs path), docs) := by
  rw [textBefore, checkedBefore]
  split_ifs
  · exact exec_existingText ws path docs
  · rfl

theorem changes_writeMode
    (hspecial : targetOf params = "memory".toList ∨ targetOf params = "daily_log".toList →
      ∀ special ∈ [Paths.memory, Paths.dailyLog env.logDate], ws.key (normalizePath special) ∈ S ∧
        ∀ content, P (ws.key (normalizePath special)) content)
    (hprofile : normalizePath path = Paths.profile → ws.profileKeys ⊆ S ∧
      ∀ key ∈ ws.profileKeys, ∀ content, P key content)
    (hkeys : ∀ scope, ws.keyIn scope (normalizePath path) ∈ S)
    (hP : (isProtectedPyPath path = true → env.validatePythonSyntax
        (checkedBefore ws params docs path ++ contentOf params) = .ok ()) →
      P (ws.key (normalizePath path))
        (storedText params (docs.text (ws.key (normalizePath path))) ['\n']) ∧
      ∀ layerName scope layer redirected, strParam params "layer" = some layerName →
        ws.resolveLayerTarget layerName (contentOf params) (boolParam params "force" false) =
          .ok (scope, layer, redirected) → P (ws.keyIn scope (normalizePath path))
          (storedText params (docs.text (ws.keyIn scope (normalizePath path))) ['\n', '\n'])) :
    Changes S P docs ((writeMode env ws params path).exec docs).2 := by
  rw [writeMode, Effect.exec_bind_ok exec_textBefore]
  refine (reads_checkSyntax _ _ _).bind_induction (.refl docs) fun _ hpython => ?_
  obtain ⟨hplain, hlayer⟩ := hP (accepted_of_checkSyntax hpython)
  have hstore := changes_storeContent env hspecial ⟨hkeys _, hplain⟩
    fun layerName scope layer redirected hname htarget =>
      ⟨hkeys scope, hlayer layerName scope layer redirected hname htarget⟩
  refine Changes.bind (x := onWorkspace (store env ws params path)) hstore fun _ => ?_
  exact Changes.bind (changes_syncDerived hprofile) fun _ => .refl _

end Stages

theorem reads_checkCall (env : MemoryWriteEnv) (params : Json) : (checkCall env params).Reads := by
  intro docs
  rw [checkCall]
  refine (Effect.Reads.require _ _).bind_induction (P := fun docs' => docs' = docs) rfl
    fun _ _ => ?_
  refine (Effect.Reads.require _ _).bind_induction (P := fun docs' => docs' = docs) rfl
    fun _ _ => ?_
  refine (Effect.Reads.require _ _).bind_induction (P := fun docs' => docs' = docs) rfl
    fun _ _ => ?_
  exact Effect.Reads.require _ _ docs

theorem exec_checkCall_eq_ok_iff {env : MemoryWriteEnv} {params : Json} {docs : Documents} :
    (checkCall env params).exec docs = (.ok (), docs) ↔
      ((strParam params "old_string").isSome = true ∨ Text.trim (contentOf params) ≠ [] ∨
        targetOf params = "bootstrap".toList) ∧ isRefused (targetOf params) = false ∧
      (isProtectedOrchestratorPath (targetOf params) = true → env.selfModifyEnabled = true) := by
  rw [checkCall]
  simp only [Effect.exec_require_bind_eq_ok_iff, Effect.exec_require_eq_ok_iff]
  rw [isRefused, Bool.or_eq_false_iff, and_assoc]
  refine and_congr ?_ (and_congr ?_ (and_congr ?_ ?_))
  · simp [or_assoc]
  · simp
  · cases isEngineAlias (targetOf params) <;> simp
  · cases isProtectedOrchestratorPath (targetOf params) <;> simp

section Agreement

variable {env : MemoryWriteEnv} {ws : Workspace} {params : Json} {docs : Documents}

theorem isUnderPrefix_eq_false_of_head {path : Text} {c : Char} (h : path.head? = some c)
    (hdot : c ≠ '.') (he : c ≠ 'e') : isUnderPrefix path = false := by
  cases path with
  | nil => cases h
  | cons d s =>
    cases h
    simp [isUnderPrefix, protectedPrefixes, List.isPrefixOf, hdot, he, Ne.symm hdot, Ne.symm he]

theorem isUnderPrefix_special {special : Text}
    (h : special ∈ [Paths.memory, Paths.dailyLog env.logDate]) :
    isUnderPrefix (normalizePath special) = false := by
  simp only [List.mem_cons, List.not_mem_nil, or_false] at h
  rcases h with rfl | rfl
  · decide
  · exact isUnderPrefix_eq_false_of_head (head?_normalizePath (by decide) (by decide) _)
      (by decide) (by decide)

theorem unprotected_unchanged
    (h : isUnderPrefix (normalizePath (resolvedPath env (targetOf params))) = false) {key : DocKey}
    (hkey : isUnderPrefix key.path = true) :
    ((execute env ws params).exec docs).2.lookup key = docs.lookup key := by
  have hchanges : Changes {key | isUnderPrefix key.path = false} (fun _ _ => True) docs
      ((execute env ws params).exec docs).2 := by
    rw [execute]
    refine (reads_checkCall env params).bind_induction (.refl docs) fun _ _ => ?_
    split_ifs
    · refine Changes.bind (x := onWorkspace (ws.write Paths.bootstrap [])) ?_ fun _ => .refl _
      have hboot : isUnderPrefix (normalizePath Paths.bootstrap) = false := by decide
      exact ws.changes_write hboot fun _ => trivial
    · refine Changes.bind (changes_applyMetadata h) fun _ => ?_
      split
      · exact changes_patchMode h fun _ _ => trivial
      · refine changes_writeMode (fun _ special hspecial => ⟨isUnderPrefix_special hspecial,
          fun _ => trivial⟩) (fun _ => ⟨?_, fun _ _ _ => trivial⟩) (fun _ => h)
          fun _ => ⟨trivial, fun _ _ _ _ _ _ => trivial⟩
        have hderived : ∀ p ∈ [Paths.user, Paths.assistantDirectives, Paths.heartbeat],
            isUnderPrefix p = false := by decide
        rintro key (rfl | rfl | rfl)
        · exact hderived Paths.user (by simp)
        · exact hderived Paths.assistantDirectives (by simp)
        · exact hderived Paths.heartbeat (by simp)
  refine hchanges.lookup_eq fun hmem => ?_
  have hfalse : isUnderPrefix key.path = false := hmem
  rw [hkey] at hfalse
  cases hfalse

theorem resolvedPath_eq_of_under {target : Text}
    (h : isUnderPrefix (normalizePath (resolvedPath env target)) = true) :
    resolvedPath env target = target ∧ target ≠ "memory".toList ∧ target ≠ "daily_log".toList ∧
      target ≠ "bootstrap".toList := by
  have hspecial : ∀ special ∈ [Paths.memory, Paths.heartbeat, "bootstrap".toList],
      isUnderPrefix (normalizePath special) = false := by decide
  have hne : ∀ {special : Text}, isUnderPrefix (normalizePath special) = false →
      resolvedPath env target ≠ special := by
    rintro special hfalse rfl
    rw [h] at hfalse
    cases hfalse
  have hmemory := hne (hspecial Paths.memory (by simp))
  have hheartbeat := hne (hspecial Paths.heartbeat (by simp))
  have hboot := hne (hspecial "bootstrap".toList (by simp))
  have hdaily : resolvedPath env target ≠ Paths.dailyLog env.resolvedDate :=
    hne (isUnderPrefix_eq_false_of_head (head?_normalizePath (by decide) (by decide) _)
      (by decide) (by decide))
  unfold resolvedPath at hmemory hheartbeat hdaily hboot ⊢
  split_ifs at hmemory hheartbeat hdaily hboot ⊢ with h₁ h₂ h₃
  · exact absurd rfl hmemory
  · exact absurd rfl hdaily
  · exact absurd rfl hheartbeat
  · exact ⟨rfl, h₁, h₂, hboot⟩

theorem readText_applyMetadata {path : Text}
    (h : ws.readText docs path = appendBase (docs.text (ws.key (normalizePath path))) ['\n'])
    (hpatch : strParam params "old_string" = none) :
    let docs' := ((applyMetadata ws params path).exec docs).2
    ws.readText docs' path = appendBase (docs'.text (ws.key (normalizePath path))) ['\n'] := by
  rw [applyMetadata, hpatch]
  cases hmeta : metadataParam params with
  | none => exact h
  | some metadata =>
    obtain ⟨doc, hexec, hlookup, htext⟩ := exec_getOrCreate (ws.key (normalizePath path)) docs
    have hcreate : (onWorkspace (ws.getOrCreate path)).exec docs =
        (.ok doc, docs.created (ws.key (normalizePath path))) := by
      rw [exec_onWorkspace, Workspace.getOrCreate, hexec]
      rfl
    -- the document that is there now holds the text there was
    have hsame : docs.text (ws.key (normalizePath path)) =
        appendBase (docs.text (ws.key (normalizePath path))) ['\n'] := by
      cases hdoc : docs.lookup (ws.key (normalizePath path)) with
      | some d =>
        have hread := readText_of_lookup hdoc
        rw [← h, hread, Documents.text, hdoc]
      | none =>
        rw [Documents.text, hdoc]
        rfl
    intro docs'
    have hdocs' : docs'.lookup (ws.key (normalizePath path)) =
        some { doc with metadata := DocumentMetadata.merge doc.metadata metadata } := by
      simp only [docs', Option.isSome_none, Bool.false_eq_true, if_false]
      rw [Effect.exec_bind_ok hcreate]
      change (HashMap.adjust _ _ _).lookup _ = _
      rw [HashMap.lookup_adjust, if_pos rfl, hlookup]
      rfl
    rw [readText_of_lookup hdocs', Documents.text, hdocs']
    change doc.content = appendBase doc.content ['\n']
    rw [htext]
    exact hsame

theorem requiresApproval_eq_always (hself : env.selfModifyEnabled = true)
    (hdaily : targetOf params ≠ "daily_log".toList) (hrefused : isRefused (targetOf params) = false)
    (hprotected : isProtectedOrchestratorPath (targetOf params) = true) :
    requiresApproval env params = .always := by
  have htarget : (strParam params "target").getD [] = targetOf params := by
    rw [targetOf] at hdaily ⊢
    cases h : strParam params "target" with
    | none =>
      rw [h] at hdaily
      exact absurd rfl hdaily
    | some target => rfl
  rw [isRefused, Bool.or_eq_false_iff] at hrefused
  have hform : (!isEngineAlias (targetOf params) &&
      (normalizeWorkspacePath (targetOf params)).isNone) = false := by
    cases h : normalizeWorkspacePath (targetOf params) with
    | none => simpa [h] using hrefused.2
    | some canonical => simp
  rw [requiresApproval, htarget]
  simp [hself, hform, hprotected]

theorem storedText_eq (existing separator : Text) : storedText params existing separator =
      (if boolParam params "append" true then appendBase existing separator else []) ++
        contentOf params := by
  rw [storedText]
  split_ifs
  · exact appended_eq ..
  · rfl

theorem changes_execute
    (hunder : isUnderPrefix (normalizePath (resolvedPath env (targetOf params))) = true)
    (happend : isAppend params = true → AppendAgrees ws docs (targetOf params))
    (hpython : SyntaxCheckAgrees (targetOf params)) :
    Changes {key | key.path = normalizePath (targetOf params)}
      (fun _ content => isProtectedPyStored (normalizePath (targetOf params)) = true →
        env.validatePythonSyntax content = .ok ()) docs ((execute env ws params).exec docs).2 := by
  obtain ⟨hresolved, hmemory, hdaily, hboot⟩ := resolvedPath_eq_of_under hunder
  rw [hresolved] at hunder
  rw [execute]
  refine (reads_checkCall env params).bind_induction (.refl docs) fun _ hcheck => ?_
  obtain ⟨hcontent, hrefused, -⟩ := exec_checkCall_eq_ok_iff.mp hcheck
  rw [if_neg hboot, hresolved]
  refine Changes.bind (changes_applyMetadata rfl) fun _ => ?_
  cases hold : strParam params "old_string" with
  | some oldString =>
    exact changes_patchMode rfl fun new hnew hstored => hnew (hpython hstored hrefused)
  | none =>
    rw [hold] at hcontent
    refine changes_writeMode (fun h => absurd h (not_or.mpr ⟨hmemory, hdaily⟩)) (fun h => ?_)
      (fun _ => rfl) fun hchecked => ⟨fun hstored => ?_, fun layerName scope layer redirected hname
        htarget hstored => ?_⟩
    · have hprofile : isUnderPrefix Paths.profile = false := by decide
      rw [h, hprofile] at hunder
      cases hunder
    · rw [storedText_eq]
      have haccepted := hchecked (hpython hstored hrefused)
      rw [checkedBefore] at haccepted
      split_ifs at haccepted ⊢ with hap
      · have hisAppend : isAppend params = true := by simp [isAppend, hold, hap]
        rwa [readText_applyMetadata (happend hisAppend hstored hrefused).1 hold] at haccepted
      · exact haccepted
    · -- with a layer no metadata is applied
      have hskip : ((applyMetadata ws params (targetOf params)).exec docs).2 = docs := by
        simp [applyMetadata, metadataParam, hname]
      rw [hskip] at hchecked ⊢
      rw [storedText_eq]
      have haccepted := hchecked (hpython hstored hrefused)
      rw [checkedBefore] at haccepted
      split_ifs at haccepted ⊢ with hap
      · have hisAppend : isAppend params = true := by simp [isAppend, hold, hap]
        have hnonempty : Text.trim (contentOf params) ≠ [] := by
          rcases hcontent with h | h | h
          · cases h
          · exact h
          · exact absurd h hboot
        rwa [(happend hisAppend hstored hrefused).2 layerName _ _ _ _ _ hnonempty htarget]
          at haccepted
      · exact haccepted

theorem safeCall_of_agrees (hguard : GuardAgrees (targetOf params))
    (hpython : SyntaxCheckAgrees (targetOf params))
    (happend : isAppend params = true → AppendAgrees ws docs (targetOf params)) :
    SafeCall env ws params docs := by
  unfold SafeCall
  intro docs' key hkey
  by_cases hunder : isUnderPrefix (normalizePath (resolvedPath env (targetOf params))) = true
  · have hchanges := changes_execute hunder happend hpython
    obtain ⟨hresolved, -, hdaily, -⟩ := resolvedPath_eq_of_under hunder
    rw [hresolved] at hunder
    by_cases hpass : (checkCall env params).exec docs = (.ok (), docs)
    · obtain ⟨-, hrefused, hself⟩ := exec_checkCall_eq_ok_iff.mp hpass
      have hprotected := hguard hunder hrefused
      refine ⟨fun hoff => ?_, fun _ => ⟨fun _ => requiresApproval_eq_always (hself hprotected)
        hdaily hrefused hprotected, fun hpy => ?_⟩⟩
      · rw [hself hprotected] at hoff
        cases hoff
      · rcases hchanges key with heq | ⟨hpath, heq | haccepted⟩
        · exact .inl (text_eq_of_lookup_eq heq)
        · exact .inl heq
        · have hpathEq : key.path = normalizePath (targetOf params) := hpath
          exact .inr (haccepted (hpathEq ▸ hpy))
    · -- a call that fails its checks does nothing
      have hsame : docs' = docs := by
        have hreads := reads_checkCall env params docs
        rcases hexec : (checkCall env params).exec docs with ⟨r, docs₁⟩
        rw [hexec] at hreads hpass
        have hstate : docs₁ = docs := hreads
        rw [hstate] at hexec hpass
        cases r with
        | ok u => exact absurd rfl hpass
        | error e =>
          change ((execute env ws params).exec docs).2 = docs
          rw [execute, Effect.exec_bind_error hexec]
      rw [hsame]
      exact ⟨fun _ => rfl, fun _ => ⟨fun h => absurd rfl h, fun _ => .inl rfl⟩⟩
  · have heq : docs'.lookup key = docs.lookup key :=
      unprotected_unchanged (by simpa using hunder) hkey
    exact ⟨fun _ => heq, fun _ => ⟨fun h => absurd heq h,
      fun _ => .inl (text_eq_of_lookup_eq heq)⟩⟩

end Agreement

section Through

variable {env : MemoryWriteEnv} {ws : Workspace} {params : Json} {docs : Documents}

theorem isSystemPromptFile_of_under {path : Text} (h : isUnderPrefix path = true) :
    isSystemPromptFile path = false := by
  have hhead : ∀ c, path.head? = some c → c = '.' ∨ c = 'e' := by
    intro c hc
    by_contra hne
    rw [not_or] at hne
    rw [isUnderPrefix_eq_false_of_head hc hne.1 hne.2] at h
    cases h
  cases path with
  | nil => rfl
  | cons c s => rcases hhead c rfl with rfl | rfl <;> rfl

theorem exec_execute
    (hunder : isUnderPrefix (normalizePath (resolvedPath env (targetOf params))) = true)
    (hpass : (checkCall env params).exec docs = (.ok (), docs))
    (hold : strParam params "old_string" = none) (hmeta : metadataParam params = none)
    (hpython : isProtectedPyPath (targetOf params) = true → env.validatePythonSyntax
      (checkedBefore ws params docs (targetOf params) ++ contentOf params) = .ok ()) :
    ((execute env ws params).exec docs).2 =
      ((store env ws params (targetOf params)).exec docs).2 := by
  obtain ⟨hresolved, -, -, hboot⟩ := resolvedPath_eq_of_under hunder
  rw [hresolved] at hunder
  have happly : (applyMetadata ws params (targetOf params)).exec docs = (.ok (), docs) := by
    rw [applyMetadata, hmeta]
    rfl
  have hcheck : (checkSyntax env (targetOf params)
      (checkedBefore ws params docs (targetOf params) ++ contentOf params)).exec docs =
      (.ok (), docs) := by
    rw [checkSyntax]
    split_ifs with hpy
    · rw [hpython hpy]
      rfl
    · rfl
  have hprofile : normalizePath (targetOf params) ≠ Paths.profile := by
    intro h
    have hfalse : isUnderPrefix Paths.profile = false := by decide
    rw [h, hfalse] at hunder
    cases hunder
  rw [execute, Effect.exec_bind_ok hpass, if_neg hboot, hresolved, Effect.exec_bind_ok happly,
    hold]
  dsimp only
  rw [writeMode, Effect.exec_bind_ok exec_textBefore, Effect.exec_bind_ok hcheck,
    Effect.exec_bind_reads]
  · rfl
  · intro layerResult docs'
    rw [syncDerived, if_neg hprofile]
    rfl

variable (hschema : ∀ schema content, ws.schemaErrors schema content = [])
  (hunder : isUnderPrefix (normalizePath (resolvedPath env (targetOf params))) = true)

include hschema hunder

theorem text_store_plain (hlayer : strParam params "layer" = none) :
    ((store env ws params (targetOf params)).exec docs).2.text
        (ws.key (normalizePath (targetOf params))) =
      storedText params (docs.text (ws.key (normalizePath (targetOf params)))) ['\n'] := by
  obtain ⟨hresolved, hmemory, hdaily, -⟩ := resolvedPath_eq_of_under hunder
  rw [hresolved] at hunder
  have hprompt := isSystemPromptFile_of_under hunder
  rw [store, hlayer, storedText]
  dsimp only
  rw [if_neg hmemory, if_neg hdaily]
  split_ifs
  all_goals rw [Effect.exec_bind_reads fun _ => Effect.Reads.pure _]
  · exact ws.text_append hschema hprompt docs
  · exact ws.text_write hschema hprompt docs

omit hunder in
theorem text_store_layer {layerName : Text} {scope : Scope} {layer : Text} {redirected : Bool}
    {path : Text} (hlayer : strParam params "layer" = some layerName)
    (htarget : ws.resolveLayerTarget layerName (contentOf params) (boolParam params "force" false) =
      .ok (scope, layer, redirected)) :
    ((store env ws params path).exec docs).2.text (ws.keyIn scope (normalizePath path)) =
      storedText params (docs.text (ws.keyIn scope (normalizePath path))) ['\n', '\n'] := by
  rw [store, hlayer, storedText]
  dsimp only
  split_ifs
  all_goals rw [Effect.exec_bind_reads fun _ => Effect.Reads.pure _]
  · exact ws.text_appendToLayer hschema htarget docs
  · exact ws.text_writeToLayer hschema htarget docs

end Through

section Disagreement

def plainCall (target content : Text) (append : Bool) : Json :=
  .obj [("target".toList, .str target), ("content".toList, .str content),
    ("append".toList, .bool append)]

def layerCall (target content layerName : Text) (force : Bool) : Json :=
  .obj [("target".toList, .str target), ("content".toList, .str content),
    ("layer".toList, .str layerName), ("force".toList, .bool force)]

theorem resolvedPath_of_under {target : Text} (h : isUnderPrefix (normalizePath target) = true)
    (env : MemoryWriteEnv) : resolvedPath env target = target := by
  have hspecial : ∀ name ∈ ["memory".toList, "daily_log".toList, "heartbeat".toList],
      isUnderPrefix (normalizePath name) = false := by decide
  have hne : ∀ name ∈ ["memory".toList, "daily_log".toList, "heartbeat".toList], target ≠ name := by
    rintro name hname rfl
    rw [hspecial target hname] at h
    cases h
  rw [resolvedPath, if_neg (hne _ (by simp)), if_neg (hne _ (by simp)), if_neg (hne _ (by simp))]

theorem storedText_ne {params : Json} {existing separator : Text}
    (h : contentOf params = 'x' :: existing) : storedText params existing separator ≠ existing := by
  intro heq
  have hlength := congrArg List.length heq
  rw [storedText_eq, List.length_append, h, List.length_cons] at hlength
  omega

theorem trim_cons_ne_nil (s : Text) : Text.trim ('x' :: s) ≠ [] := by
  intro h
  have hspace := Text.trimMatches_eq_nil_iff.mp h 'x' (List.mem_cons_self ..)
  exact absurd hspace (by decide)

variable {ws : Workspace} {docs : Documents} {target : Text} {append : Bool}

def sampleEnv (selfModify : Bool) (validate : Text → Except String Unit) : MemoryWriteEnv :=
  ⟨selfModify, validate, "2025-01-01".toList, "2025-01-01".toList, "00:00:00".toList⟩

theorem text_plainCall (ws : Workspace)
    (hschema : ∀ schema content, ws.schemaErrors schema content = []) (env : MemoryWriteEnv)
    (docs : Documents) (target content : Text) (append : Bool)
      (hunder : isUnderPrefix (normalizePath target) = true)
    (hrefused : isRefused target = false) (hcontent : Text.trim content ≠ [])
    (hself : isProtectedOrchestratorPath target = true → env.selfModifyEnabled = true)
    (hpython : isProtectedPyPath target = true → env.validatePythonSyntax
      (checkedBefore ws (plainCall target content append) docs target ++ content) = .ok ()) :
    ((execute env ws (plainCall target content append)).exec docs).2.text
        (ws.key (normalizePath target)) = storedText (plainCall target content append)
        (docs.text (ws.key (normalizePath target))) ['\n'] := by
  have htarget : targetOf (plainCall target content append) = target := rfl
  have hresolved : isUnderPrefix (normalizePath (resolvedPath env
      (targetOf (plainCall target content append)))) = true := by
    rwa [htarget, resolvedPath_of_under hunder]
  have hpass : (checkCall env (plainCall target content append)).exec docs = (.ok (), docs) :=
    exec_checkCall_eq_ok_iff.mpr ⟨.inr (.inl hcontent), hrefused, hself⟩
  rw [exec_execute hresolved hpass rfl rfl hpython]
  exact text_store_plain hschema hresolved rfl

theorem guardAgrees_of_safeCall (hschema : ∀ schema content, ws.schemaErrors schema content = [])
    (h : ∀ env content, SafeCall env ws (plainCall target content append) docs) :
    GuardAgrees target := by
  intro hunder hrefused
  by_contra hguard
  have htext := text_plainCall ws hschema (sampleEnv false fun _ => .ok ()) docs target
    ('x' :: docs.text (ws.key (normalizePath target))) append hunder hrefused
    (trim_cons_ne_nil _) (fun hprotected => absurd hprotected hguard) fun _ => rfl
  have hsafe := (h (sampleEnv false fun _ => .ok ())
    ('x' :: docs.text (ws.key (normalizePath target))) (ws.key (normalizePath target)) hunder).1 rfl
  rw [text_eq_of_lookup_eq hsafe] at htext
  exact storedText_ne rfl htext.symm

theorem syntaxCheckAgrees_of_safeCall
    (hschema : ∀ schema content, ws.schemaErrors schema content = [])
    (h : ∀ env content, SafeCall env ws (plainCall target content append) docs) :
    SyntaxCheckAgrees target := by
  intro hstored hrefused
  by_contra hpy
  have hunder : isUnderPrefix (normalizePath target) = true := (Bool.and_eq_true_iff.mp hstored).1
  have htext := text_plainCall ws hschema (sampleEnv true fun _ => .error "") docs target
    ('x' :: docs.text (ws.key (normalizePath target))) append hunder hrefused
    (trim_cons_ne_nil _) (fun _ => rfl) fun h => absurd h hpy
  have hsafe := ((h (sampleEnv true fun _ => .error "")
    ('x' :: docs.text (ws.key (normalizePath target))) (ws.key (normalizePath target))
    hunder).2 rfl).2 hstored
  rcases hsafe with heq | haccepted
  · rw [heq] at htext
    exact storedText_ne rfl htext.symm
  · cases haccepted

def acceptOnly (accepted text : Text) : Except String Unit :=
  if text = accepted then .ok () else .error "syntax error"

theorem eq_of_acceptOnly {accepted text : Text} (h : acceptOnly accepted text = .ok ()) :
    text = accepted := by
  rw [acceptOnly] at h
  split_ifs at h with heq
  exact heq

theorem text_layerCall (hschema : ∀ schema content, ws.schemaErrors schema content = [])
    (docs : Documents) {content layerName : Text} {force : Bool} {scope : Scope} {layer : Text}
    {redirected : Bool} (hunder : isUnderPrefix (normalizePath target) = true)
    (hrefused : isRefused target = false) (hcontent : Text.trim content ≠ [])
    (htarget : ws.resolveLayerTarget layerName content force = .ok (scope, layer, redirected)) :
    ((execute (sampleEnv true (acceptOnly (ws.readText docs target ++ content))) ws
        (layerCall target content layerName force)).exec docs).2.text
        (ws.keyIn scope (normalizePath target)) =
      appendBase (docs.text (ws.keyIn scope (normalizePath target))) ['\n', '\n'] ++ content := by
  have hname : targetOf (layerCall target content layerName force) = target := rfl
  have hresolved : isUnderPrefix (normalizePath (resolvedPath
      (sampleEnv true (acceptOnly (ws.readText docs target ++ content)))
      (targetOf (layerCall target content layerName force)))) = true := by
    rwa [hname, resolvedPath_of_under hunder]
  rw [exec_execute hresolved (exec_checkCall_eq_ok_iff.mpr
    ⟨.inr (.inl hcontent), hrefused, fun _ => rfl⟩) rfl rfl fun _ => if_pos rfl]
  exact (text_store_layer hschema rfl htarget).trans (storedText_eq _ _)

theorem appendAgrees_of_safeCall (ws : Workspace)
    (hschema : ∀ schema content, ws.schemaErrors schema content = [])
    (h : ∀ env params, targetOf params = target → isAppend params = true →
      SafeCall env ws params docs) : AppendAgrees ws docs target := by
  intro hstored hrefused
  have hunder : isUnderPrefix (normalizePath target) = true := (Bool.and_eq_true_iff.mp hstored).1
  constructor
  · let content := 'x' :: docs.text (ws.key (normalizePath target))
    let env := sampleEnv true (acceptOnly (ws.readText docs target ++ content))
    have htext := text_plainCall ws hschema env docs target content true hunder hrefused
      (trim_cons_ne_nil _) (fun _ => rfl) fun _ => if_pos rfl
    have hsafe := ((h env (plainCall target content true) rfl rfl
      (ws.key (normalizePath target)) hunder).2 rfl).2 hstored
    rw [htext] at hsafe
    rcases hsafe with heq | haccepted
    · exact absurd heq (storedText_ne rfl)
    · have heq := eq_of_acceptOnly haccepted
      rw [storedText_eq] at heq
      exact (List.append_cancel_right heq).symm
  · intro layerName content force scope layer redirected hcontent htarget
    have htext := text_layerCall hschema docs hunder hrefused hcontent htarget
    have hsafe := ((h (sampleEnv true (acceptOnly (ws.readText docs target ++ content)))
      (layerCall target content layerName force) rfl rfl
      (ws.keyIn scope (normalizePath target)) hunder).2 rfl).2 hstored
    rw [htext] at hsafe
    rcases hsafe with heq | haccepted
    · -- the text cannot stay the same, since content is added to it
      exfalso
      have hlength := congrArg List.length heq
      rw [List.length_append, appendBase] at hlength
      split_ifs at hlength with hempty
      · have hnil : content = [] := by
          simpa [List.isEmpty_iff.mp hempty] using hlength
        rw [hnil] at hcontent
        exact hcontent rfl
      · rw [List.length_append] at hlength
        simp only [List.length_cons, List.length_nil] at hlength
        omega
    · exact (List.append_cancel_right (eq_of_acceptOnly haccepted)).symm

end Disagreement

/-- **Protected documents are safe from a target** exactly when guard and check see the stored path,
and an append is checked behind the text it follows. -/
theorem safeCall_iff (ws : Workspace) (docs : Documents) (target : Text) (append : Bool) :
    (∀ schemaErrors env params, targetOf params = target → isAppend params = append →
      SafeCall env { ws with schemaErrors := schemaErrors } params docs) ↔
    GuardAgrees target ∧ SyntaxCheckAgrees target ∧
      (append = true → AppendAgrees ws docs target) := by
  constructor
  · intro h
    have hplain : ∀ env content, SafeCall env { ws with schemaErrors := fun _ _ => [] }
        (plainCall target content append) docs := fun env content =>
      h _ env (plainCall target content append) rfl (by cases append <;> rfl)
    refine ⟨guardAgrees_of_safeCall (fun _ _ => rfl) hplain,
      syntaxCheckAgrees_of_safeCall (fun _ _ => rfl) hplain, ?_⟩
    rintro rfl
    exact appendAgrees_of_safeCall { ws with schemaErrors := fun _ _ => [] } (fun _ _ => rfl)
      (h fun _ _ => [])
  · rintro ⟨hguard, hpython, happend⟩ schemaErrors env params rfl rfl
    exact safeCall_of_agrees hguard hpython happend

def sampleWorkspace : Workspace :=
  ⟨"user1", [], none, [], none, false, fun _ _ => [], fun _ => none⟩

def sampleDocuments : Documents :=
  (∅ : Documents).insert (sampleWorkspace.key "engine/orchestrator/v3.py".toList)
    ⟨"a = ".toList, .obj []⟩

/-- A leading blank hides the path from the guard. An append is checked without its line break. -/
theorem protected_document_changed : ¬ SafeCall (sampleEnv false fun _ => .ok ()) sampleWorkspace
        (plainCall " engine/orchestrator/v3.py".toList "x".toList false) sampleDocuments ∧
      ¬ SafeCall (sampleEnv true (acceptOnly "a = 1".toList)) sampleWorkspace
        (plainCall "engine/orchestrator/v3.py".toList "1".toList true) sampleDocuments := by
  have hpath : normalizePath " engine/orchestrator/v3.py".toList =
      "engine/orchestrator/v3.py".toList := by decide
  constructor
  · intro h
    have htext := text_plainCall sampleWorkspace (fun _ _ => rfl)
      (sampleEnv false fun _ => .ok ()) sampleDocuments " engine/orchestrator/v3.py".toList
      "x".toList false (by decide) (by decide) (by decide)
      (by decide) (by decide)
    have hsafe := (h (sampleWorkspace.key "engine/orchestrator/v3.py".toList) (by decide)).1 rfl
    rw [hpath, text_eq_of_lookup_eq hsafe] at htext
    exact absurd htext (by decide)
  · intro h
    have htext := text_plainCall sampleWorkspace (fun _ _ => rfl)
      (sampleEnv true (acceptOnly "a = 1".toList)) sampleDocuments
      "engine/orchestrator/v3.py".toList "1".toList true (by decide) (by decide) (by decide)
      (by decide) (by decide)
    have hnorm : normalizePath "engine/orchestrator/v3.py".toList =
        "engine/orchestrator/v3.py".toList := by decide
    have hsafe := ((h (sampleWorkspace.key "engine/orchestrator/v3.py".toList) (by decide)).2
      rfl).2 (by decide)
    rw [hnorm] at htext
    rw [htext] at hsafe
    exact absurd hsafe (by decide)

end IronClaw.Memory
