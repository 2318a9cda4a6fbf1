import IronClaw.Settings.Writes

/-!
# Reading a setting and listing all

A setting is read from the workspace first, and listed from the table. The two agree if the document
that a read finds is empty, or reads as the value in the table.
-/

namespace IronClaw.Settings

open Foundation (Text Json HashMap Effect Along Throughout throughout_iff_along)
open Memory (Documents DocKey Scope)

def shown (settings : List (Text × Json)) (key : Text) : Option Json :=
  (settings.find? fun e => e.1 == key).map Prod.snd

namespace Adapter

variable (a : Adapter)

/-- Each setting of each user is read as it is listed, also where a read of the workspace
fails. -/
def Agrees (s : SettingsState) : Prop :=
  ∀ userId, ∃ settings, ((listSettings userId).exec s).1 = .ok settings ∧
    ∀ key fault, ((a.getSetting userId key fault).exec s).1 = .ok (shown settings key)

def Shows (content : Text) (value : Option Json) : Prop :=
  content = [] ∨ ∃ v, value = some v ∧ a.codec.parse content = .ok v

/-- How far the write of a setting to the workspace gets. -/
inductive Progress where
  | untouched
  | created
  | stored

/-- How far the write of a text gets: it is stored unless storage or a schema is against it. -/
def textProgress (docs : Documents) (path content : Text) : Option WriteFault → Progress
  | some (.begun _) => .untouched
  | some (.created _) => .created
  | some (.stored _) | none => if a.workspace.Accepts docs path content then .stored else .created

/-- The write gets to its document if the configuration is seen to and the schema accepts. -/
def progress (s : SettingsState) (key : Text) (value : Json) (faults : SettingFaults) :
    Progress :=
  match a.seededDocs faults.seed s with
  | none => .untouched
  | some docs =>
    if (schemaForKey key).all fun schema => a.acceptedBySchema (a.codec.pretty value) schema then
      a.textProgress docs (settingsPath key) (a.codec.pretty value) faults.write
    else .untouched

/-- The text that a read finds after a write that got so far. -/
def leftBy (docs : Documents) (path content : Text) : Progress → Text
  | .untouched => a.workspace.locatedText docs path
  | .created => docs.text (a.workspace.key path)
  | .stored => content

/-- The text that a read finds after the write of a setting. -/
def found (s : SettingsState) (key : Text) (value : Json) (faults : SettingFaults) : Text :=
  a.leftBy s.docs (settingsPath key) (a.codec.pretty value) (a.progress s key value faults)

def CarefulWrite (s : SettingsState) (key : Text) (value : Json) (faults : SettingFaults) : Prop :=
  ValidKey key → a.Shows (a.found s key value faults) (some value)

def CarefulEach (faults : Text → SettingFaults) : SettingsState → List (Text × Json) → Prop
  | _, [] => True
  | s, (key, value) :: settings =>
    a.CarefulWrite s key value (faults key) ∧
      CarefulEach faults ((a.writeToWorkspace key value (faults key)).exec s).2 settings

def deleted (docs : Documents) (key : Text) (fault : Option String) : Documents :=
  match fault with
  | some _ => docs
  | none => docs.erase (a.workspace.key (settingsPath key))

/-- The owner's writes leave no other value, and where the owner deletes a setting, no scope keeps a
text. -/
def Careful (s : SettingsState) : SettingsCall → Prop
  | .set userId key value faults =>
    userId = a.gateUserId → a.CarefulWrite s key value faults
  | .setAll userId settings faults =>
    userId = a.gateUserId →
      a.CarefulEach faults (upserted userId (entriesOf settings) s) (entriesOf settings)
  | .delete userId key fault => userId = a.gateUserId → ValidKey key →
    a.workspace.locatedText (a.deleted s.docs key fault) (settingsPath key) = []
section Reads

variable {a} {s : SettingsState} {key : Text}

theorem shown_listSettings (userId : Scope) (key : Text) (s : SettingsState) :
    shown ((s.legacy.entries.filter fun e => e.1.1 == userId).map fun e => (e.1.2, e.2)) key =
      s.legacy.lookup (userId, key) := by
  have hmem : ∀ v, (key, v) ∈ (s.legacy.entries.filter fun e => e.1.1 == userId).map
      (fun e => (e.1.2, e.2)) → s.legacy.lookup (userId, key) = some v := by
    intro v hv
    obtain ⟨e, he, heq⟩ := List.mem_map.mp hv
    obtain ⟨hentry, huser⟩ := List.mem_filter.mp he
    obtain ⟨⟨user, key'⟩, v'⟩ := e
    cases heq
    cases eq_of_beq huser
    exact AList.mem_lookup_iff.mpr hentry
  rw [shown]
  cases hfind : List.find? (fun e => e.1 == key)
      ((s.legacy.entries.filter fun e => e.1.1 == userId).map fun e => (e.1.2, e.2)) with
  | some e =>
    obtain ⟨key', v⟩ := e
    have hbeq : (key' == key) = true :=
      List.find?_some (p := fun e : Text × Json => e.1 == key) hfind
    cases eq_of_beq hbeq
    exact (hmem v (List.mem_of_find?_eq_some hfind)).symm
  | none =>
    cases hlookup : s.legacy.lookup (userId, key) with
    | none => rfl
    | some v =>
      -- an entry of the user with this key would have been found
      have hin : (key, v) ∈ (s.legacy.entries.filter fun e => e.1.1 == userId).map
          fun e => (e.1.2, e.2) :=
        List.mem_map.mpr ⟨⟨(userId, key), v⟩,
          List.mem_filter.mpr ⟨AList.mem_lookup_iff.mp hlookup, beq_self_eq_true userId⟩, rfl⟩
      exact absurd (beq_self_eq_true key) (by simpa using List.find?_eq_none.mp hfind _ hin)

/-- What a read of a valid key makes of the text that it finds. -/
def parsed (content : Text) : Except DatabaseError (Option Json) :=
  if content = [] then .ok none
  else
    match a.codec.parse content with
    | .error e => .error (.serialization e)
    | .ok value => .ok (some value)

theorem exec_readFromWorkspace (hkey : ValidKey key) : (a.readFromWorkspace key none).exec s =
      (a.parsed (a.workspace.locatedText s.docs (settingsPath key)), s) := by
  have hread := a.workspace.readsLocated_read (settingsPath key) s.docs
  rw [normalizePath_settingsPath hkey] at hread
  have hcall : ∀ r, (a.workspace.read (settingsPath key)).exec s.docs = (r, s.docs) →
      (Effect.attempt (storageCall "" none (a.workspace.read (settingsPath key)))).exec s =
        (.ok (r.mapError fun e => DatabaseError.query ("" ++ e.toString)), s) := by
    intro r hr
    rw [Effect.exec_attempt, storageCall, exec_onWorkspace, hr]
  unfold readFromWorkspace
  rw [show validateSettingsKey key = .ok () from hkey, Memory.Workspace.locatedText, parsed]
  dsimp only
  cases hlocate : a.workspace.locate s.docs (settingsPath key) with
  | none =>
    rw [hlocate] at hread
    obtain ⟨docType, userId, herror⟩ := hread
    rw [Effect.exec_bind_ok (hcall _ herror)]
    rfl
  | some located =>
    rw [hlocate] at hread
    rw [Effect.exec_bind_ok (hcall _ hread)]
    dsimp only [Except.mapError]
    by_cases hempty : located.2.content = []
    · rw [if_pos hempty, hempty]
      rfl
    · rw [if_neg hempty, if_neg (by simpa using hempty)]
      cases a.codec.parse located.2.content <;> rfl

theorem exec_readFromWorkspace_none {fault : Option String} (h : ¬ValidKey key ∨ fault.isSome) :
    (a.readFromWorkspace key fault).exec s = (.ok none, s) := by
  unfold readFromWorkspace
  by_cases hkey : ValidKey key
  · obtain ⟨message, rfl⟩ := Option.isSome_iff_exists.mp (h.resolve_left (not_not.mpr hkey))
    rw [show validateSettingsKey key = .ok () from hkey]
    rfl
  · obtain ⟨e, he⟩ := ValidKey.exists_error hkey
    rw [he]
    rfl

theorem exec_getSetting (userId : Scope) (key : Text) (fault : Option String) (s : SettingsState) :
    ((a.getSetting userId key fault).exec s).1 =
      if userId = a.gateUserId ∧ ValidKey key ∧ fault = none then
        (a.parsed (a.workspace.locatedText s.docs (settingsPath key))).map fun found =>
          found.or (s.legacy.lookup (userId, key)) else .ok (s.legacy.lookup (userId, key)) := by
  rw [getSetting, workspaceAllowedFor]
  by_cases huser : userId = a.gateUserId
  · rw [if_pos (beq_iff_eq.mpr huser)]
    by_cases hkey : ValidKey key ∧ fault = none
    · obtain ⟨hvalid, rfl⟩ := hkey
      rw [if_pos ⟨huser, hvalid, rfl⟩, Effect.exec_bind, exec_readFromWorkspace hvalid]
      rcases a.parsed _ with e | found
      · rfl
      · cases found <;> rfl
    · have hnone : ¬ValidKey key ∨ fault.isSome := by
        rw [not_and_or] at hkey
        exact hkey.imp_right fun h => Option.isSome_iff_ne_none.mpr h
      rw [if_neg fun h => hkey h.2, Effect.exec_bind_ok (exec_readFromWorkspace_none hnone)]
      rfl
  · rw [if_neg (by simpa using huser), if_neg fun h => huser h.1]
    rfl

theorem agrees_iff : a.Agrees s ↔ ∀ key, ValidKey key →
    a.Shows (a.workspace.locatedText s.docs (settingsPath key))
      (s.legacy.lookup (a.gateUserId, key)) := by
  have hlist : a.Agrees s ↔ ∀ userId key fault,
      ((a.getSetting userId key fault).exec s).1 = .ok (s.legacy.lookup (userId, key)) := by
    refine forall_congr' fun userId => ?_
    constructor
    · rintro ⟨settings, hsettings, h⟩ key fault
      cases hsettings
      rw [h key fault, shown_listSettings]
    · intro h
      refine ⟨_, rfl, fun key fault => ?_⟩
      rw [h key fault, shown_listSettings]
  rw [hlist]
  constructor
  · intro h key hkey
    have hread := h a.gateUserId key none
    rw [exec_getSetting, if_pos ⟨rfl, hkey, rfl⟩, parsed] at hread
    split_ifs at hread with hempty
    · exact .inl hempty
    · -- the text was read, so it is the value in the table
      cases hparse : a.codec.parse (a.workspace.locatedText s.docs (settingsPath key)) with
      | error e =>
        rw [hparse] at hread
        cases hread
      | ok v =>
        rw [hparse] at hread
        exact .inr ⟨v, (Except.ok.inj hread).symm, hparse⟩
  · intro h userId key fault
    rw [exec_getSetting]
    split_ifs with hread
    · obtain ⟨rfl, hkey, -⟩ := hread
      rw [parsed]
      rcases h key hkey with hempty | ⟨v, hvalue, hparse⟩
      · rw [if_pos hempty]
        rfl
      · split_ifs with hempty
        · rfl
        · rw [hparse, hvalue]
          rfl
    · rfl

end Reads

section Found

variable {a} {s : SettingsState} {path : Text} {docs : Documents}

theorem locatedText_created : a.workspace.locatedText (docs.created (a.workspace.key path)) path =
      docs.text (a.workspace.key path) := by
  obtain ⟨doc, -, hlookup, htext⟩ := Memory.exec_getOrCreate (a.workspace.key path) docs
  rw [Memory.Workspace.locatedText_of_primary hlookup, htext]

theorem locatedText_stored (content : Text) :
    a.workspace.locatedText ((docs.created (a.workspace.key path)).store
      (a.workspace.key path) content) path = content := by
  obtain ⟨doc, -, hlookup, -⟩ := Memory.exec_getOrCreate (a.workspace.key path) docs
  have hstored : ((docs.created (a.workspace.key path)).store (a.workspace.key path) content).lookup
      (a.workspace.key path) = some { doc with content := content } := by
    rw [Documents.store, HashMap.lookup_adjust, if_pos rfl, hlookup]
    rfl
  exact Memory.Workspace.locatedText_of_primary hstored

theorem locatedText_withMetadata (key : DocKey) (metadata : Json) :
    a.workspace.locatedText (withMetadata docs key metadata) path =
      a.workspace.locatedText docs path := by
  refine Memory.Workspace.locatedText_congr fun scope => ?_
  rw [withMetadata, HashMap.lookup_adjust]
  split_ifs with h
  · rw [h, Option.map_map]
    rfl
  · rfl

theorem locatedText_workspaceWrite (hpath : PlainPath path) (context : String)
    (fault : Option WriteFault) (content : Text) (s : SettingsState) :
    a.workspace.locatedText ((a.workspaceWrite context fault path content).exec s).2.docs path =
      a.leftBy s.docs path content (a.textProgress s.docs path content fault) := by
  obtain ⟨r, hexec, -⟩ := exec_workspaceWrite hpath context fault content s
  rw [hexec]
  unfold writtenDocs textProgress
  dsimp only
  split
  · rfl
  · exact locatedText_created
  all_goals
    split_ifs
    · exact locatedText_stored content
    · exact locatedText_created

theorem locatedText_bind_metadata {x : Call Unit} {key : DocKey} (context : String)
    (fault : Option String) (metadata : Json) :
    a.workspace.locatedText ((x >>= fun _ => storageCall context fault
      (Memory.updateDocumentMetadata key metadata)).exec s).2.docs path =
        a.workspace.locatedText (x.exec s).2.docs path := by
  rw [Effect.exec_bind]
  rcases x.exec s with ⟨r, s'⟩
  cases r with
  | error e => rfl
  | ok u =>
    cases fault with
    | some message => rfl
    | none => exact locatedText_withMetadata key metadata

theorem locatedText_writeToWorkspace {key : Text} (hkey : ValidKey key) (value : Json)
    (faults : SettingFaults) (s : SettingsState) :
    a.workspace.locatedText ((a.writeToWorkspace key value faults).exec s).2.docs
      (settingsPath key) = a.found s key value faults := by
  have hpath := plainPath_settingsPath hkey
  have hframe := within_ensureSystemConfigLazy (a := a) (P := (· = configPath)) rfl faults.seed s
  have hlookup := fun scope => hframe.2 (a.workspace.keyIn scope (settingsPath key))
    (settingsPath_ne_configPath key)
  have hseed := a.yields_ensureSystemConfigLazy faults.seed s
  rw [writeToWorkspace, found, progress]
  cases hdocs : a.seededDocs faults.seed s with
  | none =>
    rw [hdocs] at hseed
    obtain ⟨e, s', herror⟩ := hseed
    rw [Effect.exec_bind_error herror]
    rw [herror] at hlookup
    exact Memory.Workspace.locatedText_congr fun scope => congrArg _ (hlookup scope)
  | some docs =>
    rw [hdocs] at hseed
    have hseeded : (a.ensureSystemConfigLazy faults.seed).exec s =
        (.ok (), { s with docs := docs, seeded := true }) := hseed
    rw [hseeded] at hlookup
    have hbefore : a.workspace.locatedText docs (settingsPath key) =
        a.workspace.locatedText s.docs (settingsPath key) :=
      Memory.Workspace.locatedText_congr fun scope => congrArg _ (hlookup scope)
    have hown : docs.text (a.workspace.key (settingsPath key)) =
        s.docs.text (a.workspace.key (settingsPath key)) :=
      Memory.text_eq_of_lookup_eq (hlookup a.workspace.userId)
    have hvalid : (Effect.ofExcept ((validateSettingsKey key).mapError (invalidKey key)) :
        Call Unit).exec { s with docs := docs, seeded := true } =
          (.ok (), { s with docs := docs, seeded := true }) := by
      rw [show validateSettingsKey key = .ok () from hkey]
      rfl
    rw [Effect.exec_bind_ok hseeded, Effect.exec_bind_ok hvalid]
    -- what is there once the configuration is seen to is what was there before
    have hleft : ∀ p, a.leftBy docs (settingsPath key) (a.codec.pretty value) p =
        a.leftBy s.docs (settingsPath key) (a.codec.pretty value) p := by
      rintro (_ | _ | _)
      · exact hbefore
      · exact hown
      · rfl
    have hwrite := locatedText_workspaceWrite (a := a) hpath "workspace write failed: "
      faults.write (a.codec.pretty value) { s with docs := docs, seeded := true }
    cases hschema : schemaForKey key with
    | none =>
      dsimp only
      rw [Option.all_none, if_pos rfl, hwrite, hleft]
    | some schema =>
      dsimp only
      rw [Option.all_some]
      by_cases haccepted : a.acceptedBySchema (a.codec.pretty value) schema = true
      · rw [if_pos haccepted, Effect.exec_bind_ok (Effect.exec_require_eq_ok_iff.mpr haccepted),
          locatedText_bind_metadata, hwrite, hleft]
      · rw [if_neg haccepted, Effect.require, if_neg haccepted]
        exact hbefore

end Found

section Several

variable {a} {s : SettingsState} {userId : Scope} {settings : List (Text × Json)}

theorem lookup_upserted_of_ne {k : Scope × Text} (h : ∀ e ∈ settings, k ≠ (userId, e.1))
    (s : SettingsState) : (upserted userId settings s).legacy.lookup k = s.legacy.lookup k := by
  rw [upserted]
  generalize s.legacy = legacy
  induction settings generalizing legacy with
  | nil => rfl
  | cons e settings ih =>
    rw [List.foldl_cons, ih fun e' he' => h e' (List.mem_cons_of_mem e he'), HashMap.lookup_insert,
      if_neg (h e List.mem_cons_self)]

theorem lookup_upserted_of_mem (hnodup : (settings.map Prod.fst).Nodup) {key : Text} {v : Json}
    (h : (key, v) ∈ settings) (s : SettingsState) :
    (upserted userId settings s).legacy.lookup (userId, key) = some v := by
  induction settings generalizing s with
  | nil => cases h
  | cons e settings ih =>
    obtain ⟨hhead, htail⟩ := List.nodup_cons.mp hnodup
    have hstep : upserted userId (e :: settings) s =
        upserted userId settings { s with legacy := s.legacy.insert (userId, e.1) e.2 } := rfl
    rw [hstep]
    rcases List.mem_cons.mp h with rfl | h
    · -- no later entry has this key
      rw [lookup_upserted_of_ne, HashMap.lookup_insert, if_pos rfl]
      intro e' he' heq
      cases heq
      exact hhead (List.mem_map.mpr ⟨e', he', rfl⟩)
    · exact ih htail h _

theorem keys_entriesOf_nodup (settings : HashMap Text Json) :
    ((entriesOf settings).map Prod.fst).Nodup := by
  rw [entriesOf, List.map_map]
  exact settings.nodupKeys

theorem exec_writeEach_cons (faults : Text → SettingFaults) (key : Text) (value : Json)
    (settings : List (Text × Json)) (s : SettingsState) :
    ((a.writeEach faults ((key, value) :: settings)).exec s).2 = ((a.writeEach faults settings).exec
        ((a.writeToWorkspace key value (faults key)).exec s).2).2 := by
  rw [writeEach, Effect.exec_bind, Effect.exec_attempt]
  dsimp only
  refine Effect.exec_bind_reads (fun later => ?_) _
  split <;> exact Effect.Reads.pure _

theorem legacy_writeEach (faults : Text → SettingFaults) (settings : List (Text × Json))
    (s : SettingsState) : ((a.writeEach faults settings).exec s).2.legacy = s.legacy := by
  induction settings generalizing s with
  | nil => rfl
  | cons e settings ih =>
    rw [exec_writeEach_cons, ih]
    exact (within_writeToWorkspace e.1 e.2 (faults e.1) s).1

theorem locatedText_writeEach_of_notMem {other : Text} (h : other ∉ settings.map Prod.fst)
    (faults : Text → SettingFaults) (s : SettingsState) :
    a.workspace.locatedText ((a.writeEach faults settings).exec s).2.docs (settingsPath other) =
      a.workspace.locatedText s.docs (settingsPath other) := by
  induction settings generalizing s with
  | nil => rfl
  | cons e settings ih =>
    rw [List.map_cons, List.mem_cons, not_or] at h
    rw [exec_writeEach_cons, ih h.2]
    exact (within_writeToWorkspace e.1 e.2 (faults e.1) s).locatedText_eq fun heq => h.1 heq.2

theorem carefulEach_iff (hnodup : (settings.map Prod.fst).Nodup) (faults : Text → SettingFaults)
    (s : SettingsState) : a.CarefulEach faults s settings ↔ ∀ e ∈ settings, ValidKey e.1 →
      a.Shows (a.workspace.locatedText ((a.writeEach faults settings).exec s).2.docs
        (settingsPath e.1)) (some e.2) := by
  induction settings generalizing s with
  | nil => simp [CarefulEach]
  | cons e settings ih =>
    obtain ⟨hhead, htail⟩ := List.nodup_cons.mp hnodup
    obtain ⟨key, value⟩ := e
    rw [CarefulEach, List.forall_mem_cons, exec_writeEach_cons, ih htail, CarefulWrite]
    refine and_congr_left fun _ => forall_congr' fun hkey => ?_
    rw [locatedText_writeEach_of_notMem hhead, locatedText_writeToWorkspace hkey]

end Several

section Calls

variable {a} {s : SettingsState}

theorem after_set (userId : Scope) (key : Text) (value : Json) (faults : SettingFaults)
    (s : SettingsState) : a.after s (.set userId key value faults) =
      if userId = a.gateUserId then
        ((a.writeToWorkspace key value faults).exec
          { s with legacy := s.legacy.insert (userId, key) value }).2
      else { s with legacy := s.legacy.insert (userId, key) value } := by
  rw [after, setSetting, Effect.exec_bind_ok (Effect.exec_modify _ s), workspaceAllowedFor]
  by_cases huser : userId = a.gateUserId
  · rw [if_pos huser, if_pos (beq_iff_eq.mpr huser)]
  · rw [if_neg huser, if_neg (by simpa using huser)]
    rfl

theorem agrees_set_iff (h : a.Agrees s) (userId : Scope) (key : Text) (value : Json)
    (faults : SettingFaults) : a.Agrees (a.after s (.set userId key value faults)) ↔
      (userId = a.gateUserId → a.CarefulWrite s key value faults) := by
  rw [agrees_iff] at h
  rw [after_set, agrees_iff]
  split_ifs with huser
  · subst huser
    have hframe := within_writeToWorkspace (a := a) key value faults
      { s with legacy := s.legacy.insert (a.gateUserId, key) value }
    rw [hframe.1]
    constructor
    · intro hall _ hkey
      have hown := hall key hkey
      rw [locatedText_writeToWorkspace hkey, HashMap.lookup_insert, if_pos rfl] at hown
      exact hown
    · intro hcareful other hother
      rw [HashMap.lookup_insert]
      split_ifs with heq
      · cases heq
        rw [locatedText_writeToWorkspace hother]
        exact hcareful rfl hother
      · rw [hframe.locatedText_eq fun hsame => heq (by rw [hsame.2])]
        exact h other hother
  · -- the table of another user changes
    refine iff_of_true (fun other hother => ?_) fun heq => absurd heq huser
    rw [HashMap.lookup_insert, if_neg fun heq => huser (Prod.ext_iff.mp heq).1.symm]
    exact h other hother

theorem after_setAll (userId : Scope) (settings : HashMap Text Json)
    (faults : Text → SettingFaults) (s : SettingsState) :
    a.after s (.setAll userId settings faults) = if userId = a.gateUserId then
        ((a.writeEach faults (entriesOf settings)).exec (upserted userId (entriesOf settings) s)).2
      else upserted userId (entriesOf settings) s := by
  rw [after, setAllSettings, Effect.exec_bind_ok (Effect.exec_modify _ s), workspaceAllowedFor]
  by_cases huser : userId = a.gateUserId
  · rw [if_pos huser, if_pos (beq_iff_eq.mpr huser)]
    refine Effect.exec_bind_reads (fun result => ?_) _
    cases result with
    | none => exact Effect.Reads.pure ()
    | some e => exact fun _ => rfl
  · rw [if_neg huser, if_neg (by simpa using huser)]
    rfl

theorem agrees_setAll_iff (h : a.Agrees s) (userId : Scope) (settings : HashMap Text Json)
    (faults : Text → SettingFaults) : a.Agrees (a.after s (.setAll userId settings faults)) ↔
      (userId = a.gateUserId →
        a.CarefulEach faults (upserted userId (entriesOf settings) s) (entriesOf settings)) := by
  have hnodup := keys_entriesOf_nodup settings
  rw [agrees_iff] at h
  rw [after_setAll, agrees_iff]
  split_ifs with huser
  · subst huser
    rw [legacy_writeEach, carefulEach_iff hnodup]
    constructor
    · intro hall _ e he hkey
      have hown := hall e.1 hkey
      rw [lookup_upserted_of_mem hnodup he] at hown
      exact hown
    · intro hcareful other hother
      by_cases hmem : other ∈ (entriesOf settings).map Prod.fst
      · obtain ⟨e, he, rfl⟩ := List.mem_map.mp hmem
        rw [lookup_upserted_of_mem hnodup he]
        exact hcareful rfl e he hother
      · -- a key that is not among the settings
        rw [locatedText_writeEach_of_notMem hmem, lookup_upserted_of_ne]
        · exact h other hother
        · intro e he heq
          cases heq
          exact hmem (List.mem_map.mpr ⟨e, he, rfl⟩)
  · refine iff_of_true (fun other hother => ?_) fun heq => absurd heq huser
    rw [lookup_upserted_of_ne fun e _ heq => huser (Prod.ext_iff.mp heq).1.symm]
    exact h other hother

theorem after_delete (userId : Scope) (key : Text) (fault : Option String) (s : SettingsState) :
    a.after s (.delete userId key fault) =
      { s with
        docs := if userId = a.gateUserId ∧ ValidKey key then a.deleted s.docs key fault else s.docs
        legacy := s.legacy.erase (userId, key) } := by
  rw [after, deleteSetting, workspaceAllowedFor]
  by_cases howner : userId = a.gateUserId ∧ ValidKey key
  · have hcond : ((userId == a.gateUserId) && decide (ValidKey key)) = true := by simp [howner]
    have hdelete : ((storageCall "" fault (a.workspace.delete (settingsPath key))).exec s).2 =
        { s with docs := a.deleted s.docs key fault } := by
      cases fault with
      | some message => rfl
      | none =>
        rw [storageCall, exec_onWorkspace, Memory.Workspace.delete,
          Memory.exec_deleteDocumentByPath, normalizePath_settingsPath howner.2]
        rfl
    rw [if_pos howner, if_pos hcond, Effect.exec_bind_ok (Effect.exec_attempt _ s), hdelete]
    rfl
  · have hcond : ((userId == a.gateUserId) && decide (ValidKey key)) = false := by
      rw [not_and_or] at howner
      simpa [or_iff_not_imp_left] using howner
    rw [if_neg howner, hcond]
    rfl

theorem agrees_delete_iff (h : a.Agrees s) (userId : Scope) (key : Text) (fault : Option String) :
    a.Agrees (a.after s (.delete userId key fault)) ↔ (userId = a.gateUserId → ValidKey key →
        a.workspace.locatedText (a.deleted s.docs key fault) (settingsPath key) = []) := by
  rw [agrees_iff] at h
  rw [after_delete, agrees_iff]
  have hothers : ∀ other, other ≠ key → a.workspace.locatedText (a.deleted s.docs key fault)
      (settingsPath other) = a.workspace.locatedText s.docs (settingsPath other) := by
    intro other hne
    refine Memory.Workspace.locatedText_congr fun scope => ?_
    unfold deleted
    cases fault with
    | some message => rfl
    | none =>
      dsimp only
      rw [HashMap.lookup_erase, if_neg fun heq => hne (settingsPath_inj (congrArg DocKey.path heq))]
  constructor
  · rintro hall rfl hkey
    have hown := hall key hkey
    rw [if_pos ⟨rfl, hkey⟩, HashMap.lookup_erase, if_pos rfl] at hown
    refine hown.resolve_right ?_
    rintro ⟨v, hv, -⟩
    cases hv
  · intro hcareful other hother
    dsimp only
    rw [HashMap.lookup_erase]
    split_ifs with howner heq heq
    · cases heq
      exact .inl (hcareful howner.1 howner.2)
    · rw [hothers other fun hk => heq (by rw [hk, howner.1])]
      exact h other hother
    · cases heq
      exact absurd ⟨rfl, hother⟩ howner
    · exact h other hother

theorem agrees_after_iff (h : a.Agrees s) (call : SettingsCall) :
    a.Agrees (a.after s call) ↔ a.Careful s call := by
  cases call with
  | set userId key value faults => exact agrees_set_iff h userId key value faults
  | setAll userId settings faults => exact agrees_setAll_iff h userId settings faults
  | delete userId key fault => exact agrees_delete_iff h userId key fault

end Calls

theorem exists_run (s : SettingsState) (calls : List SettingsCall) :
    ∃ t, Foundation.run a.step s calls = some t := by
  induction calls generalizing s with
  | nil => exact ⟨s, rfl⟩
  | cons call calls ih => exact ih (a.after s call)

/-- **Settings reads agree** throughout exactly if they do at the start and every call is careful.
-/
theorem throughout_agrees_iff (s : SettingsState) (calls : List SettingsCall) :
    Throughout a.step a.Agrees s calls ↔ a.Agrees s ∧ Along a.step a.Careful s calls := by
  obtain ⟨t, hrun⟩ := a.exists_run s calls
  have hiff : a.Agrees s → (Throughout a.step a.Agrees s calls ↔ Along a.step a.Careful s calls) :=
    fun h => throughout_iff_along (J := fun _ => True) (fun _ _ _ _ _ => trivial)
      (fun s call s' _ hs hstep => by
        cases hstep
        exact agrees_after_iff hs call) trivial h hrun
  constructor
  · intro h
    have hstart : a.Agrees s := h [] List.nil_prefix s rfl
    exact ⟨hstart, (hiff hstart).mp h⟩
  · rintro ⟨hstart, hcareful⟩
    exact (hiff hstart).mpr hcareful

end Adapter

def sampleCodec : Codec where
  pretty
    | .str s => '"' :: s ++ ['"']
    | .bool true => "true".toList
    | _ => "null".toList
  compact _ :=
    "\x7b\"hygiene\":\x7b\"enabled\":false\x7d,\"skip_indexing\":true,\"skip_versioning\":false\x7d".toList
  parse
    | '"' :: s => .ok (.str s.dropLast)
    | s =>
      if s = "true".toList then .ok (.bool true) else .error "expected value at line 1 column 1"

/-- A workspace of one scope, in which a schema tells strings from other values. -/
def sampleAdapter : Adapter where
  workspace :=
    { userId := "owner"
      additionalReadScopes := []
      agentId := none
      memoryLayers := []
      privacyClassifier := none
      adminPromptEnabled := false
      schemaErrors := fun schema content =>
        if (schema.get "type".toList).bind Json.asStr = some "string".toList ∧
            content.head? ≠ some '"' then
          [String.ofList content ++ " is not of type \"string\""]
        else []
      parseProfile := fun _ => none }
  codec := sampleCodec

def noFaults : SettingFaults := ⟨⟨none, none, none, none⟩, none, none⟩

def selectModel (value : Json) : SettingsCall :=
  .set "owner" "selected_model".toList value noFaults

def failedDeletion : SettingsCall :=
  .delete "owner" "selected_model".toList (some "Delete failed: disk I/O error")

def selected : SettingsState :=
  sampleAdapter.after ⟨∅, ∅, false⟩ (selectModel (.str "a".toList))

theorem not_agrees_of_getSetting {s : SettingsState} {settings : List (Text × Json)}
    (hget : ((sampleAdapter.getSetting "owner" "selected_model".toList none).exec s).1 =
      .ok (some (.str "a".toList)))
    (hlist : ((Adapter.listSettings "owner").exec s).1 = .ok settings)
    (hne : shown settings "selected_model".toList ≠ some (.str "a".toList)) :
    ¬sampleAdapter.Agrees s := by
  intro h
  obtain ⟨listed, hlisted, hagree⟩ := h "owner"
  rw [hlist] at hlisted
  cases hlisted
  exact hne (Except.ok.inj ((hagree "selected_model".toList none).symm.trans hget))

set_option maxRecDepth 4000 in
/-- A value that the schema rejects is listed, but the string read; a deleted setting is still read.
-/
theorem stale_setting_read : sampleAdapter.Agrees ⟨∅, ∅, false⟩ ∧
    ¬Throughout sampleAdapter.step sampleAdapter.Agrees ⟨∅, ∅, false⟩
      [selectModel (.str "a".toList), selectModel (.bool true)] ∧
    ¬Throughout sampleAdapter.step sampleAdapter.Agrees ⟨∅, ∅, false⟩
      [selectModel (.str "a".toList), failedDeletion] := by
  have hrejected :
      ¬sampleAdapter.Agrees (sampleAdapter.after selected (selectModel (.bool true))) :=
    not_agrees_of_getSetting rfl rfl fun heq => by cases heq
  have hkept : ¬sampleAdapter.Agrees (sampleAdapter.after selected failedDeletion) :=
    not_agrees_of_getSetting rfl rfl fun heq => by cases heq
  refine ⟨Adapter.agrees_iff.mpr fun key _ => .inl rfl, fun h => ?_, fun h => ?_⟩
  · exact hrejected (h _ List.prefix_rfl _ rfl)
  · exact hkept (h _ List.prefix_rfl _ rfl)

end IronClaw.Settings
