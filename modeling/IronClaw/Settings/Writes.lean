import IronClaw.Settings.Adapter

/-!
# Writes of settings to the workspace

What a write to the workspace does to the documents. A setting is written to its own document,
behind the configuration of the folder, which may be that of another scope.
-/

namespace IronClaw.Settings

open Foundation (Text Json HashMap Effect)
open Memory (Documents DocKey Op normalizePath)

namespace Adapter

variable (a : Adapter)

def configWritten (fault : Option WriteFault) (docs : Documents) : Option Documents :=
  let content := a.codec.compact expectedConfig
  if fault.isNone ∧ a.workspace.Accepts docs configPath content then
    some ((docs.created (a.workspace.key configPath)).store (a.workspace.key configPath) content)
  else none

def withMetadata (docs : Documents) (key : DocKey) (metadata : Json) : Documents :=
  HashMap.adjust docs key fun doc => { doc with metadata := metadata }

def configDocs (faults : SeedFaults) (docs : Documents) : Option Documents :=
  if faults.check.isSome then none
  else
    match a.workspace.locate docs configPath with
    | some (key, doc) =>
      if faults.read.isSome then none
      else if systemConfigMetadataMatches doc.metadata then some docs
      else if faults.metadata.isSome then none
      else a.configWritten faults.write (withMetadata docs key expectedConfig)
    | none =>
      if faults.metadata.isSome then none
      else (a.configWritten faults.write docs).map fun docs =>
        withMetadata docs (a.workspace.key configPath) expectedConfig

/-- The same, unless the adapter has seen to it before. -/
def seededDocs (faults : SeedFaults) (s : SettingsState) : Option Documents :=
  if s.seeded then some s.docs else a.configDocs faults s.docs

structure PlainPath (path : Text) : Prop where
  normal : normalizePath path = path
  unscanned : Memory.isSystemPromptFile path = false
  ordinary : Memory.isEngineRuntimePath path = false

theorem plainPath_configPath : PlainPath configPath :=
  ⟨by decide, Memory.isSystemPromptFile_dot _, Memory.isEngineRuntimePath_dot _⟩

theorem plainPath_settingsPath {key : Text} (h : ValidKey key) : PlainPath (settingsPath key) :=
  ⟨normalizePath_settingsPath h, Memory.isSystemPromptFile_dot _, Memory.isEngineRuntimePath_dot _⟩

theorem settingsPath_ne_configPath (key : Text) : settingsPath key ≠ configPath := by
  intro h
  have hdrop := congrArg (List.drop 8) h
  -- behind the directory, one goes on with an `s` and the other one with a dot
  change 's' :: _ = '.' :: _ at hdrop
  cases hdrop

def writtenDocs (fault : Option WriteFault) (docs : Documents) (path content : Text) :
    Documents :=
  let key := a.workspace.key path
  match fault with
  | some (.begun _) => docs
  | some (.created _) => docs.created key
  | some (.stored _) | none =>
    if a.workspace.Accepts docs path content then (docs.created key).store key content
    else docs.created key

section Writes

variable {a} {s : SettingsState} {path content : Text}

theorem exec_workspaceWrite (hpath : PlainPath path) (context : String) (fault : Option WriteFault)
    (content : Text) (s : SettingsState) :
    ∃ r, (a.workspaceWrite context fault path content).exec s =
        (r, { s with docs := a.writtenDocs fault s.docs path content }) ∧
      (r = .ok () ↔ fault = none ∧ a.workspace.Accepts s.docs path content) := by
  have hwrite := @Memory.Workspace.exec_write a.workspace path content
    (hpath.normal.symm ▸ hpath.unscanned) (hpath.normal.symm ▸ hpath.ordinary) s.docs
  rw [hpath.normal] at hwrite
  -- the write itself, without a failure of the storage
  have hplain : ∃ r, (onWorkspace context (a.workspace.write path content)).exec s =
      (r, { s with docs := a.writtenDocs none s.docs path content }) ∧
        (r = .ok () ↔ a.workspace.Accepts s.docs path content) := by
    rw [exec_onWorkspace, writtenDocs]
    split_ifs at hwrite ⊢ with haccepts
    · rw [hwrite]
      exact ⟨_, rfl, iff_of_true rfl haccepts⟩
    · obtain ⟨e, he⟩ := hwrite
      rw [he]
      exact ⟨_, rfl, iff_of_false (by rintro ⟨⟩) haccepts⟩
  cases fault with
  | none =>
    obtain ⟨r, hexec, hr⟩ := hplain
    exact ⟨r, hexec, hr.trans (and_iff_right rfl).symm⟩
  | some fault =>
    cases fault with
    | begun message => exact ⟨_, rfl, iff_of_false (by rintro ⟨⟩) fun h => by cases h.1⟩
    | created message =>
      obtain ⟨doc, hexec, -, -⟩ := Memory.exec_getOrCreate (a.workspace.key path) s.docs
      have hscan :
          (onWorkspace context (Memory.scanForPrompt (normalizePath path) content)).exec s =
            (.ok (), s) := by
        rw [exec_onWorkspace, Memory.scanForPrompt, hpath.normal, hpath.unscanned]
        rfl
      have hcreate : (onWorkspace context (a.workspace.getOrCreate path)).exec s =
          (.ok doc, { s with docs := s.docs.created (a.workspace.key path) }) := by
        rw [exec_onWorkspace, Memory.Workspace.getOrCreate, hpath.normal, hexec]
        rfl
      refine ⟨.error (.query (context ++ message)), ?_,
        iff_of_false (by rintro ⟨⟩) fun h => by cases h.1⟩
      rw [workspaceWrite, Effect.exec_bind_ok hscan, Effect.exec_bind_ok hcreate]
      rfl
    | stored message =>
      obtain ⟨r, hexec, -⟩ := hplain
      rw [workspaceWrite, Effect.exec_bind, hexec]
      cases r with
      | ok u => exact ⟨_, rfl, iff_of_false (by rintro ⟨⟩) fun h => by cases h.1⟩
      | error e => exact ⟨_, rfl, iff_of_false (by rintro ⟨⟩) fun h => by cases h.1⟩

/-- A call that changes the state in a known way, or fails. -/
def Yields (x : Call Unit) (s : SettingsState) : Option SettingsState → Prop
  | some s' => x.exec s = (.ok (), s')
  | none => ∃ e s', x.exec s = (.error e, s')

theorem yields_updateMetadata (context : String) (fault : Option String) (key : DocKey)
    (metadata : Json) (s : SettingsState) :
    Yields (storageCall context fault (Memory.updateDocumentMetadata key metadata)) s
      (if fault.isSome then none
        else some { s with docs := withMetadata s.docs key metadata }) := by
  cases fault with
  | none => rfl
  | some message => exact ⟨_, _, rfl⟩

theorem yields_writeConfig (context : String) (fault : Option WriteFault) (s : SettingsState) :
    Yields (a.workspaceWrite context fault configPath (a.codec.compact expectedConfig)) s
      ((a.configWritten fault s.docs).map fun docs => { s with docs := docs }) := by
  obtain ⟨r, hexec, hr⟩ := exec_workspaceWrite plainPath_configPath context fault
    (a.codec.compact expectedConfig) s
  rw [configWritten]
  split_ifs with h
  · obtain ⟨hnone, haccepts⟩ := h
    have hfault : fault = none := Option.isNone_iff_eq_none.mp hnone
    subst hfault
    rw [hr.mpr ⟨rfl, haccepts⟩, writtenDocs] at hexec
    simp only [if_pos haccepts] at hexec
    exact hexec
  · cases r with
    | ok u => exact absurd ((hr.mp rfl).imp_left fun h => Option.isNone_iff_eq_none.mpr h) h
    | error e => exact ⟨e, _, hexec⟩

theorem Yields.seq {x y : Call Unit} {r : Option SettingsState}
    {f : SettingsState → Option SettingsState} (hx : Yields x s r)
    (hy : ∀ s', Yields y s' (f s')) : Yields (x >>= fun _ => y) s (r.bind f) := by
  cases r with
  | none =>
    obtain ⟨e, s', h⟩ := hx
    exact ⟨e, s', Effect.exec_bind_error h⟩
  | some s' =>
    have hexec : (x >>= fun _ => y).exec s = y.exec s' := Effect.exec_bind_ok hx
    have hrest := hy s'
    show Yields (x >>= fun _ => y) s (f s')
    cases hf : f s' with
    | none =>
      rw [hf] at hrest
      obtain ⟨e, s'', h⟩ := hrest
      exact ⟨e, s'', hexec.trans h⟩
    | some s'' =>
      rw [hf] at hrest
      exact hexec.trans hrest

theorem Yields.of_ok {α : Type} {x : Call α} {y : α → Call Unit} {s' : SettingsState} {v : α}
    {r : Option SettingsState} (hx : x.exec s = (.ok v, s')) (hy : Yields (y v) s' r) :
    Yields (x >>= y) s r := by
  have hexec : (x >>= y).exec s = (y v).exec s' := Effect.exec_bind_ok hx
  cases r with
  | none =>
    obtain ⟨e, s'', h⟩ := hy
    exact ⟨e, s'', hexec.trans h⟩
  | some s'' => exact hexec.trans hy

theorem yields_ensureSystemConfig (faults : SeedFaults) (s : SettingsState) :
    Yields (a.ensureSystemConfig faults) s
      ((a.configDocs faults s.docs).map fun docs => { s with docs := docs }) := by
  rw [ensureSystemConfig, configDocs]
  cases hcheck : faults.check with
  | some message => exact ⟨_, _, rfl⟩
  | none =>
    have hexists : (storageCall "workspace exists check failed: " none
        (a.workspace.fileExists configPath)).exec s =
          (.ok (a.workspace.locate s.docs configPath).isSome, s) := by
      rw [storageCall, exec_onWorkspace, Memory.Workspace.exec_fileExists,
        plainPath_configPath.normal]
      rfl
    refine .of_ok hexists ?_
    have hread := a.workspace.readsLocated_read configPath s.docs
    rw [plainPath_configPath.normal] at hread
    cases hlocate : a.workspace.locate s.docs configPath with
    | none =>
      -- the configuration is written, then its metadata
      have hkey : a.key configPath = a.workspace.key configPath := by
        rw [key, plainPath_configPath.normal]
      have hboth := (a.yields_writeConfig "workspace write failed: " faults.write s).seq
        fun s' => yields_updateMetadata "workspace metadata update failed: " faults.metadata
          (a.key configPath) expectedConfig s'
      rw [hkey] at hboth
      refine Eq.mp (congrArg (Yields _ s) ?_) hboth
      cases a.configWritten faults.write s.docs <;> cases faults.metadata <;> rfl
    | some located =>
      rw [hlocate] at hread
      show Yields (storageCall _ faults.read _ >>= _) s _
      cases hfault : faults.read with
      | some message => exact ⟨_, _, rfl⟩
      | none =>
        have hdoc : (storageCall "workspace read failed: " none
            (a.workspace.read configPath)).exec s = (.ok located.2, s) := by
          rw [storageCall, exec_onWorkspace, hread]
          rfl
        refine .of_ok hdoc ?_
        dsimp only
        by_cases hmatch : systemConfigMetadataMatches located.2.metadata = true
        · rw [if_pos hmatch]
          simp only [Option.isSome_none, Bool.false_eq_true, if_false, hmatch, if_true]
          exact Effect.exec_pure () s
        · -- the metadata is repaired, then the text is written
          rw [if_neg hmatch]
          refine .of_ok (Effect.exec_get s) ?_
          rw [plainPath_configPath.normal, hlocate]
          have hboth := (yields_updateMetadata "workspace metadata repair failed: "
            faults.metadata located.1 expectedConfig s).seq fun s' =>
              a.yields_writeConfig "workspace content repair failed: " faults.write s'
          refine Eq.mp (congrArg (Yields _ s) ?_) hboth
          simp only [Option.isSome_none, Bool.false_eq_true, if_false, hmatch]
          cases faults.metadata <;> rfl

theorem yields_ensureSystemConfigLazy (faults : SeedFaults) (s : SettingsState) :
    Yields (a.ensureSystemConfigLazy faults) s
      ((a.seededDocs faults s).map fun docs => { s with docs := docs, seeded := true }) := by
  rw [ensureSystemConfigLazy, seededDocs]
  refine .of_ok (Effect.exec_get s) ?_
  cases hseeded : s.seeded with
  | true =>
    show (pure () : Call Unit).exec s = (.ok (), ⟨s.legacy, s.docs, true⟩)
    rw [← hseeded]
    rfl
  | false =>
    have hboth := (a.yields_ensureSystemConfig faults s).seq
      (y := modify fun s : SettingsState => { s with seeded := true })
      (f := fun s' => some { s' with seeded := true }) fun s' => Effect.exec_modify _ s'
    refine Eq.mp (congrArg (Yields _ s) ?_) hboth
    cases a.configDocs faults s.docs <;> rfl

end Writes

/-- The table is as before, and so are the documents outside some paths. -/
def Keeps (P : Text → Prop) (s s' : SettingsState) : Prop :=
  s'.legacy = s.legacy ∧ ∀ key : DocKey, ¬P key.path → s'.docs.lookup key = s.docs.lookup key

section Frame

variable {a} {s : SettingsState} {path : Text} {P : Text → Prop}

theorem Keeps.refl (P : Text → Prop) (s : SettingsState) : Keeps P s s := ⟨rfl, fun _ _ => rfl⟩

theorem Keeps.trans (s t u : SettingsState) (h : Keeps P s t) (h' : Keeps P t u) : Keeps P s u :=
  ⟨h'.1.trans h.1, fun key hkey => (h'.2 key hkey).trans (h.2 key hkey)⟩

theorem lookup_writtenDocs {fault : Option WriteFault} {docs : Documents} {content : Text}
    {key : DocKey} (h : key.path ≠ path) :
    (a.writtenDocs fault docs path content).lookup key = docs.lookup key := by
  have hne : key ≠ a.workspace.key path := fun heq => h (congrArg DocKey.path heq)
  have hcreated : (docs.created (a.workspace.key path)).lookup key = docs.lookup key :=
    Memory.lookup_created_of_ne hne
  have hstored : ((docs.created (a.workspace.key path)).store (a.workspace.key path)
      content).lookup key = docs.lookup key :=
    (Memory.lookup_store_of_ne hne).trans hcreated
  unfold writtenDocs
  dsimp only
  split
  · rfl
  · exact hcreated
  all_goals
    split_ifs
    · exact hstored
    · exact hcreated

theorem within_workspaceWrite (hpath : PlainPath path) (hP : P path) (context : String)
    (fault : Option WriteFault) (content : Text) :
    (a.workspaceWrite context fault path content).Within (Keeps P) := by
  intro s
  obtain ⟨r, hexec, -⟩ := exec_workspaceWrite hpath context fault content s
  rw [hexec]
  refine ⟨rfl, fun key hkey => lookup_writtenDocs fun heq => hkey ?_⟩
  rw [heq]
  exact hP

theorem within_storageCall {α : Type} {x : Op α} (context : String) (fault : Option String)
    (h : ∀ docs (key : DocKey), ¬P key.path → (x.exec docs).2.lookup key = docs.lookup key) :
    (storageCall context fault x).Within (Keeps P) := by
  cases fault with
  | none => exact fun s => ⟨rfl, h s.docs⟩
  | some message => exact .throw (Keeps.refl P) _

theorem within_updateMetadata {key : DocKey} (hP : P key.path) (context : String)
    (fault : Option String) (metadata : Json) :
    (storageCall context fault (Memory.updateDocumentMetadata key metadata)).Within (Keeps P) := by
  refine within_storageCall context fault fun docs key' hkey' => ?_
  have hne : key' ≠ key := by
    rintro rfl
    exact hkey' hP
  exact (HashMap.lookup_adjust docs key key' _).trans (if_neg hne)

theorem within_reads {α : Type} {x : Op α} (context : String) (fault : Option String)
    (hx : x.Reads) : (storageCall context fault x).Within (Keeps P) :=
  within_storageCall context fault fun docs key _ => by rw [hx docs]

theorem path_repaired (docs : Documents) :
    (((a.workspace.locate docs (normalizePath configPath)).map Prod.fst).getD
      (a.key configPath)).path = configPath := by
  rw [key, plainPath_configPath.normal]
  cases h : a.workspace.locate docs configPath with
  | none => rfl
  | some located => exact (Memory.Workspace.lookup_of_locate h).2

theorem within_ensureSystemConfigLazy (hP : P configPath) (faults : SeedFaults) :
    (a.ensureSystemConfigLazy faults).Within (Keeps P) := by
  have htrans := @Keeps.trans P
  have hwrite := fun context => within_workspaceWrite (a := a) plainPath_configPath hP context
    faults.write (a.codec.compact expectedConfig)
  have hreads : (a.workspace.fileExists configPath).Reads := by
    intro docs
    rw [Memory.Workspace.exec_fileExists]
  have hensure : (a.ensureSystemConfig faults).Within (Keeps P) := by
    rw [ensureSystemConfig]
    refine .bind htrans (within_reads _ _ hreads) fun there => ?_
    split
    · refine .bind htrans (within_reads _ _ (a.workspace.reads_read _)) fun doc => ?_
      split
      · exact .pure (Keeps.refl P) ()
      · refine .bind htrans (.get (Keeps.refl P)) fun s => ?_
        refine .bind htrans (within_updateMetadata ?_ _ _ _) fun _ => hwrite _
        rw [path_repaired]
        exact hP
    · refine .bind htrans (hwrite _) fun _ => within_updateMetadata ?_ _ _ _
      rw [key, plainPath_configPath.normal]
      exact hP
  rw [ensureSystemConfigLazy]
  refine .bind htrans (.get (Keeps.refl P)) fun s => ?_
  split
  · exact .pure (Keeps.refl P) ()
  · exact .bind htrans hensure fun _ => .modify fun s => ⟨rfl, fun _ _ => rfl⟩

def TouchedBy (key path : Text) : Prop := path = configPath ∨ ValidKey key ∧ path = settingsPath key

theorem within_writeToWorkspace (key : Text) (value : Json) (faults : SettingFaults) :
    (a.writeToWorkspace key value faults).Within (Keeps (TouchedBy key)) := by
  have htrans := @Keeps.trans (TouchedBy key)
  rw [writeToWorkspace]
  refine .bind htrans (within_ensureSystemConfigLazy (.inl rfl) _) fun _ => ?_
  by_cases hkey : ValidKey key
  · have hpath := plainPath_settingsPath hkey
    have hown : TouchedBy key (settingsPath key) := .inr ⟨hkey, rfl⟩
    refine .bind htrans (.of_reads (Keeps.refl _) (Effect.Reads.ofExcept _)) fun _ => ?_
    dsimp only
    cases schemaForKey key with
    | none => exact within_workspaceWrite hpath hown _ _ _
    | some schema =>
      refine .bind htrans (.of_reads (Keeps.refl _) (Effect.Reads.require _ _)) fun _ => ?_
      refine .bind htrans (within_workspaceWrite hpath hown _ _ _) fun _ => ?_
      refine within_updateMetadata ?_ _ _ _
      rw [Adapter.key, hpath.normal]
      exact hown
  · -- a key that is refused ends the call
    obtain ⟨e, he⟩ := ValidKey.exists_error hkey
    rw [he]
    exact .throw (Keeps.refl _) _

theorem Keeps.locatedText_eq {s' : SettingsState} {key other : Text}
    (h : Keeps (TouchedBy key) s s') (hother : ¬(ValidKey key ∧ other = key)) :
    a.workspace.locatedText s'.docs (settingsPath other) =
      a.workspace.locatedText s.docs (settingsPath other) := by
  refine Memory.Workspace.locatedText_congr fun scope => ?_
  rw [h.2]
  rintro (hconfig | ⟨hvalid, hpath⟩)
  · exact settingsPath_ne_configPath other hconfig
  · exact hother ⟨hvalid, settingsPath_inj hpath⟩

end Frame

end Adapter

end IronClaw.Settings
