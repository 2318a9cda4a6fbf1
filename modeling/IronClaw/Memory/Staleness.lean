import IronClaw.Foundation.Fairness
import IronClaw.Memory.Hygiene

/-!
# What hygiene deletes

Hygiene is to delete old documents, directly in a folder that enables it. It goes by the path listed
earlier, normalised again. The second database takes `.CONFIG` for a configuration.
-/

namespace IronClaw.Memory

open Foundation (Text Json HashMap run Along)
open Option (map_eq_some_iff map_some)
open List (mem_filter mem_map)

def EnablesHygiene (env : HygieneEnv) (docs : DatedDocuments) (dir : Text)
    (hygiene : HygieneMetadata) : Prop :=
  ∃ config, docs.lookup (env.workspace.key (dir ++ '/' :: configFileName)) = some config ∧
    DocumentMetadata.hygiene config.metadata = some hygiene ∧ hygiene.enabled = true

/-- Hygiene may delete what lies directly in a folder that enables it, for the days given, and is
neither configuration nor protected. -/
structure Disposable (env : HygieneEnv) (found : DatedDocuments) (now : Timestamp) (key : DocKey)
    (doc : DatedDocument) : Prop where
  outdated : ∃ dir name hygiene, key = env.workspace.key (dir ++ '/' :: name) ∧ '/' ∉ name ∧
    EnablesHygiene env found dir hygiene ∧
    doc.updatedAt + hygiene.retentionDays * dayNanos ≤ now
  notConfig : isConfigPath key.path = false
  notProtected : isProtectedDocument env.toLowercase key.path = false

def SafeStep (env : HygieneEnv) (s : HygieneState) (a : HygieneAction) : Prop :=
  a = .goOn → ∀ s', env.step s a = some s' →
    s'.overflowed = s.overflowed ∧
    ∀ key doc, s.docs.lookup key = some doc → s'.docs.lookup key = none →
      ∃ pass, s.pass = some pass ∧ Disposable env pass.found s.now key doc

namespace HygieneEnv

variable (env : HygieneEnv)

def pendingDeletions (cleanup : Cleanup) : List DocKey :=
  (cleanup.entries.filter (env.isStale cleanup.cutoff)).map (env.deletionKey cleanup.directory)

def currentCleanup (s : HygieneState) : Option Cleanup := s.pass.bind fun pass => pass.cleanup

def nextConfig (s : HygieneState) : Option ConfigDocument :=
  match s.pass with
  | some ⟨_, config :: _, none⟩ => some config
  | _ => none

/-- The configuration has its own name, and paths are listed and deleted as they are. -/
def NamedPlainly (config : ConfigDocument) (directory : Text) (e : WorkspaceEntry) : Prop :=
  isConfigPath config.path = true ∧ dirPrefix (normalizeDirectory directory) = directory ∧
    normalizePath e.path = e.path

instance (config : ConfigDocument) (directory : Text) (e : WorkspaceEntry) :
    Decidable (NamedPlainly config directory e) :=
  inferInstanceAs (Decidable (_ ∧ _ ∧ _))

/-- The days of a configuration can be subtracted, and names are plain where something is to be
deleted. -/
def ListsPlainly (s : HygieneState) (config : ConfigDocument) : Prop :=
  match config.target with
  | none => True
  | some (directory, hygiene) =>
    match daysBefore s.now hygiene.retentionDays with
    | none => False
    | some cutoff => ∀ e ∈ env.workspace.list s.docs directory, env.isStale cutoff e = true →
        (s.docs.lookup (env.deletionKey directory e)).isSome = true →
          NamedPlainly config directory e

instance (s : HygieneState) (config : ConfigDocument) : Decidable (env.ListsPlainly s config) :=
  match h : config.target with
  | none => isTrue (by simp only [ListsPlainly, h])
  | some (directory, hygiene) =>
    match h' : daysBefore s.now hygiene.retentionDays with
    | none => isFalse (by simp only [ListsPlainly, h, h', not_false_eq_true])
    | some cutoff =>
      decidable_of_iff (∀ e ∈ env.workspace.list s.docs directory, env.isStale cutoff e = true →
        (s.docs.lookup (env.deletionKey directory e)).isSome = true →
          NamedPlainly config directory e) (by simp only [ListsPlainly, h, h'])

/-- Other tasks do not write what is still to delete, and hygiene lists what it can clean. -/
def UndisturbedStep (s : HygieneState) : HygieneAction → Prop
  | .write scope agentId target => ∀ cleanup ∈ currentCleanup s,
      (⟨scope, agentId, normalizePath target⟩ : DocKey) ∉ env.pendingDeletions cleanup
  | .setMetadata scope agentId target _ => ∀ cleanup ∈ currentCleanup s,
      (⟨scope, agentId, normalizePath target⟩ : DocKey) ∉ env.pendingDeletions cleanup
  | .goOn => ∀ config ∈ nextConfig s, env.ListsPlainly s config
  | _ => True

instance (s : HygieneState) (a : HygieneAction) : Decidable (env.UndisturbedStep s a) :=
  match a with
  | .write .. | .setMetadata .. | .goOn => inferInstanceAs (Decidable (∀ _ ∈ _, _))
  | .wait _ | .delete .. | .runIfDue => inferInstanceAs (Decidable True)

end HygieneEnv

section Invariant

variable {env : HygieneEnv} {found docs docs' : DatedDocuments} {now now' : Timestamp}
  {pass : HygienePass} {s : HygieneState} {key : DocKey} {doc : DatedDocument}

theorem Disposable.later (h : Disposable env found now key doc) (hnow : now ≤ now') :
    Disposable env found now' key doc := by
  obtain ⟨dir, name, hygiene, hkey, hname, henables, hage⟩ := h.outdated
  exact ⟨⟨dir, name, hygiene, hkey, hname, henables, hage.trans hnow⟩, h.notConfig, h.notProtected⟩

def Ready (env : HygieneEnv) (found : DatedDocuments) (now : Timestamp) (docs : DatedDocuments)
    (key : DocKey) : Prop :=
  ∀ doc, docs.lookup key = some doc → Disposable env found now key doc

/-- A pass has configurations that it found, and what its cleanup has still to delete is ready. -/
structure PassInv (env : HygieneEnv) (now : Timestamp) (docs : DatedDocuments)
    (pass : HygienePass) : Prop where
  configs : ∀ config ∈ pass.configDocs, ∃ doc,
    pass.found.lookup (env.workspace.key config.path) = some doc ∧ doc.metadata = config.metadata
  pending : ∀ cleanup, pass.cleanup = some cleanup → ∀ key ∈ env.pendingDeletions cleanup,
    Ready env pass.found now docs key

def HygieneInv (env : HygieneEnv) (s : HygieneState) : Prop :=
  ∀ pass, s.pass = some pass → PassInv env s.now s.docs pass

theorem PassInv.frame (h : PassInv env now docs pass) (hnow : now ≤ now')
    (hdocs : ∀ cleanup, pass.cleanup = some cleanup → ∀ key ∈ env.pendingDeletions cleanup,
      ∀ doc, docs'.lookup key = some doc → docs.lookup key = some doc) :
    PassInv env now' docs' pass := by
  refine ⟨h.configs, fun cleanup hcleanup key hkey doc hdoc => ?_⟩
  exact (h.pending cleanup hcleanup key hkey doc (hdocs cleanup hcleanup key hkey doc hdoc)).later
    hnow

theorem lookup_erase_some {k : DocKey} (h : (docs.erase k).lookup key = some doc) :
    docs.lookup key = some doc := by
  rw [HashMap.lookup_erase] at h
  split_ifs at h
  exact h

theorem lookup_written_of_ne {k : DocKey} (h : key ≠ k) :
    (docs.written k now).lookup key = docs.lookup key := by
  rw [DatedDocuments.written]
  split <;> rw [HashMap.lookup_insert, if_neg h]

variable {config : ConfigDocument}

theorem lookup_of_mem_findConfigDocuments {backend : Backend} {scope : Scope}
    {agentId : Option AgentId} (h : config ∈ findConfigDocuments backend docs scope agentId) :
    ∃ doc, docs.lookup ⟨scope, agentId, config.path⟩ = some doc ∧
      doc.metadata = config.metadata := by
  rw [findConfigDocuments, List.mem_insertionSort, mem_map] at h
  obtain ⟨⟨⟨scope', agentId', path⟩, doc⟩, hrow, rfl⟩ := h
  obtain ⟨hmem, hwhere⟩ := mem_filter.mp hrow
  simp only [Bool.and_eq_true, decide_eq_true_eq] at hwhere
  obtain ⟨⟨rfl, rfl⟩, -⟩ := hwhere
  exact ⟨doc, AList.mem_lookup_iff.mpr hmem, rfl⟩

variable {cutoff : Timestamp}

theorem daysBefore_eq_some {days : Nat} (h : daysBefore now days = some cutoff) :
    cutoff + days * dayNanos = now := by
  rw [daysBefore] at h
  split_ifs at h
  cases h
  exact Int.sub_add_cancel _ _

variable {e : WorkspaceEntry}

theorem of_isStale (h : env.isStale cutoff e = true) :
    isConfigPath e.path = false ∧ isProtectedDocument env.toLowercase e.path = false ∧
      ∃ t, e.updatedAt = some t ∧ t < cutoff := by
  simp only [HygieneEnv.isStale, Bool.and_eq_true, Bool.not_eq_true'] at h
  obtain ⟨⟨⟨-, hconfig⟩, hprotected⟩, hold⟩ := h
  refine ⟨hconfig, hprotected, ?_⟩
  cases ht : e.updatedAt with
  | none => simp [ht] at hold
  | some t => exact ⟨t, rfl, by simpa [ht] using hold⟩

variable {directory : Text}

theorem deletionKey_eq {child : Text}
    (hpath : e.path = dirPrefix (normalizeDirectory directory) ++ child)
    (hplain : HygieneEnv.NamedPlainly config directory e) :
    env.deletionKey directory e = env.workspace.key e.path := by
  obtain ⟨-, hdir, hnormal⟩ := hplain
  rw [hdir] at hpath
  rw [HygieneEnv.deletionKey, if_pos, hnormal]
  rw [hpath]
  exact List.isPrefixOf_iff_prefix.mpr (List.prefix_append _ _)

theorem target_eq_some {hygiene : HygieneMetadata} (h : config.target = some (directory, hygiene)) :
    DocumentMetadata.hygiene config.metadata = some hygiene ∧ hygiene.enabled = true ∧
      ∃ dir name, Text.rsplitOnce '/' config.path = some (dir, name) ∧
        directory = dir ++ ['/'] := by
  rw [ConfigDocument.target] at h
  split at h
  · cases h
  · next settings hsettings =>
    split_ifs at h with henabled
    obtain ⟨⟨dir, name⟩, hsplit, heq⟩ := map_eq_some_iff.mp h
    cases heq
    exact ⟨hsettings, henabled, dir, name, hsplit, rfl⟩

theorem path_of_isConfigPath {path dir name : Text}
    (hsplit : Text.rsplitOnce '/' path = some (dir, name)) (h : isConfigPath path = true) :
    path = dir ++ '/' :: configFileName := by
  rw [isConfigPath, fileName, hsplit, beq_iff_eq] at h
  rw [(Text.rsplitOnce_eq_some_iff.mp hsplit).1]
  exact congrArg (fun n => dir ++ '/' :: n) h

/-- **A folder that can be listed plainly** has nothing to delete but what is ready. -/
theorem ready_of_listsPlainly {hygiene : HygieneMetadata} (hplain : env.ListsPlainly s config)
    (htarget : config.target = some (directory, hygiene))
    (hcutoff : daysBefore s.now hygiene.retentionDays = some cutoff)
    (hfound : ∃ doc, found.lookup (env.workspace.key config.path) = some doc ∧
      doc.metadata = config.metadata) :
    ∀ key ∈ env.pendingDeletions ⟨directory, cutoff, env.workspace.list s.docs directory⟩,
      Ready env found s.now s.docs key := by
  intro key hkey doc hdoc
  obtain ⟨e, he, rfl⟩ := mem_map.mp hkey
  obtain ⟨he, hstale⟩ := mem_filter.mp he
  simp only [HygieneEnv.ListsPlainly, htarget, hcutoff] at hplain
  have hnamed : HygieneEnv.NamedPlainly config directory e := by
    refine hplain e he hstale ?_
    dsimp only at hdoc
    rw [hdoc]
    rfl
  obtain ⟨child, hchild, hpath⟩ := path_of_mem_list he
  have hkey : env.deletionKey directory e = env.workspace.key e.path := deletionKey_eq hpath hnamed
  obtain ⟨hsettings, henabled, dir, name, hsplit, rfl⟩ := target_eq_some htarget
  obtain ⟨hconfig, hprotected, t, ht, hlt⟩ := of_isStale hstale
  dsimp only at hdoc ⊢
  rw [hkey] at hdoc ⊢
  -- the entry is not older than the document
  obtain ⟨u, hu, hle⟩ := updatedAt_of_mem_list he hdoc
  rw [ht] at hu
  cases hu
  refine ⟨⟨dir, child, hygiene, ?_, hchild.2, ?_, ?_⟩, hconfig, hprotected⟩
  · rw [hpath, hnamed.2.1, List.append_assoc]
    rfl
  · obtain ⟨configDoc, hlookup, hmetadata⟩ := hfound
    rw [path_of_isConfigPath hsplit hnamed.1] at hlookup
    exact ⟨configDoc, hlookup, by rw [hmetadata, hsettings], henabled⟩
  · rw [← daysBefore_eq_some hcutoff]
    have hday : doc.updatedAt ≤ cutoff := hle.trans hlt.le
    exact Int.add_le_add_right hday _

theorem pendingDeletions_tail {entries : List WorkspaceEntry}
    (h : key ∈ env.pendingDeletions ⟨directory, cutoff, entries⟩) :
    key ∈ env.pendingDeletions ⟨directory, cutoff, e :: entries⟩ := by
  obtain ⟨e', he', rfl⟩ := mem_map.mp h
  obtain ⟨he', hstale⟩ := mem_filter.mp he'
  exact mem_map.mpr ⟨e', mem_filter.mpr ⟨List.mem_cons_of_mem e he', hstale⟩, rfl⟩

theorem pendingDeletions_head {entries : List WorkspaceEntry} (h : env.isStale cutoff e = true) :
    env.deletionKey directory e ∈ env.pendingDeletions ⟨directory, cutoff, e :: entries⟩ :=
  mem_map.mpr ⟨e, mem_filter.mpr ⟨List.mem_cons_self, h⟩, rfl⟩

theorem hygieneInv_beginCleanup (hpass : PassInv env s.now s.docs pass)
    (hnone : pass.cleanup = none)
    (hfound : ∃ doc, pass.found.lookup (env.workspace.key config.path) = some doc ∧
      doc.metadata = config.metadata) (hplain : env.ListsPlainly s config) :
    HygieneInv env (env.beginCleanup s pass config) := by
  intro pass' hpass'
  rw [HygieneEnv.beginCleanup] at hpass' ⊢
  split at hpass'
  · cases hpass'
    exact hpass
  · next directory hygiene htarget =>
    dsimp only at hpass' ⊢
    split at hpass'
    · cases hpass'
    · next cutoff hcutoff =>
      cases hpass'
      refine ⟨hpass.configs, fun cleanup hcleanup => ?_⟩
      cases hcleanup
      exact ready_of_listsPlainly hplain htarget hcutoff hfound

theorem hygieneInv_resume (h : PassInv env s.now s.docs pass) (hs : s.pass = some pass)
    (hplain : ∀ config ∈ HygieneEnv.nextConfig s, env.ListsPlainly s config) :
    HygieneInv env (env.resume s pass) := by
  obtain ⟨found, configDocs, cleanup⟩ := pass
  cases cleanup with
  | none =>
    cases configDocs with
    | nil =>
      intro pass' hpass'
      cases hpass'
    | cons config configDocs =>
      have hrest : PassInv env s.now s.docs ⟨found, configDocs, none⟩ :=
        ⟨fun c hc => h.configs c (List.mem_cons_of_mem config hc), nofun⟩
      refine hygieneInv_beginCleanup hrest rfl (h.configs config List.mem_cons_self) ?_
      refine hplain config ?_
      rw [HygieneEnv.nextConfig, hs]
      rfl
  | some cleanup =>
    obtain ⟨directory, cutoff, entries⟩ := cleanup
    intro pass' hpass'
    cases entries with
    | nil =>
      cases hpass'
      exact ⟨h.configs, nofun⟩
    | cons e entries =>
      cases hpass'
      refine ⟨h.configs, fun cleanup hcleanup key hkey doc hdoc => ?_⟩
      cases hcleanup
      refine h.pending _ rfl key (pendingDeletions_tail hkey) doc ?_
      -- a deletion takes documents away, it brings none
      simp only [HygieneEnv.resume] at hdoc
      split_ifs at hdoc
      · exact lookup_erase_some hdoc
      · exact hdoc

theorem mem_currentCleanup {cleanup : Cleanup} (hpass : s.pass = some pass)
    (hcleanup : pass.cleanup = some cleanup) : cleanup ∈ HygieneEnv.currentCleanup s := by
  rw [Option.mem_def, HygieneEnv.currentCleanup, hpass]
  exact hcleanup

/-- What is changed is not to be deleted any more. -/
theorem HygieneInv.changed (h : HygieneInv env s)
    (hc : ∀ cleanup ∈ HygieneEnv.currentCleanup s, key ∉ env.pendingDeletions cleanup)
    (hdocs : ∀ k ≠ key, docs.lookup k = s.docs.lookup k) : HygieneInv env { s with docs } := by
  intro pass hpass
  refine (h pass hpass).frame le_rfl fun cleanup hcleanup k hk doc hdoc => ?_
  rwa [← hdocs k]
  rintro rfl
  exact hc cleanup (mem_currentCleanup hpass hcleanup) hk

theorem hygieneInv_step {a : HygieneAction} {s' : HygieneState} (h : HygieneInv env s)
    (hc : env.UndisturbedStep s a) (hstep : env.step s a = some s') : HygieneInv env s' := by
  cases a with
  | wait time =>
    cases hstep
    exact fun pass hpass => (h pass hpass).frame (Int.le_add_of_nonneg_right (Int.natCast_nonneg _))
      fun _ _ _ _ _ hdoc => hdoc
  | write scope agentId target =>
    cases hstep
    exact h.changed hc fun _ => lookup_written_of_ne
  | setMetadata scope agentId target metadata =>
    cases hstep
    exact h.changed hc fun key hne => by rw [HashMap.lookup_adjust, if_neg hne]
  | delete scope agentId target =>
    cases hstep
    exact fun pass hpass => (h pass hpass).frame le_rfl fun _ _ _ _ _ hdoc => lookup_erase_some hdoc
  | runIfDue =>
    rw [HygieneEnv.step] at hstep
    split_ifs at hstep
    · cases hstep
      intro pass hpass
      cases hpass
      exact ⟨fun config hconfig => lookup_of_mem_findConfigDocuments hconfig,
        nofun⟩
    · cases hstep
      exact h
  | goOn =>
    obtain ⟨pass, hpass, rfl⟩ := map_eq_some_iff.mp hstep
    exact hygieneInv_resume (h pass hpass) hpass hc

@[simp] theorem docs_beginCleanup (config : ConfigDocument) :
    (env.beginCleanup s pass config).docs = s.docs := by
  rw [HygieneEnv.beginCleanup]
  split
  · rfl
  · dsimp only
    split <;> rfl

theorem overflowed_beginCleanup (hplain : env.ListsPlainly s config) :
    (env.beginCleanup s pass config).overflowed = s.overflowed := by
  rw [HygieneEnv.beginCleanup]
  split
  · rfl
  · next directory hygiene htarget =>
    dsimp only
    split
    · next hcutoff =>
      simp only [HygieneEnv.ListsPlainly, htarget, hcutoff] at hplain
    · rfl

theorem pending_of_deleted (hdoc : s.docs.lookup key = some doc)
    (hgone : (env.resume s pass).docs.lookup key = none) :
    ∃ cleanup, pass.cleanup = some cleanup ∧ key ∈ env.pendingDeletions cleanup := by
  have hkept : (env.resume s pass).docs ≠ s.docs := by
    intro heq
    rw [heq, hdoc] at hgone
    cases hgone
  obtain ⟨found, configDocs, _ | ⟨directory, cutoff, entries⟩⟩ := pass
  · -- between two folders no document goes
    refine absurd ?_ hkept
    cases configDocs with
    | nil => rfl
    | cons config configDocs => exact docs_beginCleanup config
  · cases entries with
    | nil => exact absurd rfl hkept
    | cons e entries =>
      refine ⟨_, rfl, ?_⟩
      simp only [HygieneEnv.resume] at hgone
      split_ifs at hgone with hstale
      · rw [HashMap.lookup_erase, hdoc] at hgone
        split_ifs at hgone with hkey
        rw [hkey]
        exact pendingDeletions_head hstale
      · rw [hdoc] at hgone
        cases hgone

theorem overflowed_resume (hs : s.pass = some pass)
    (hplain : ∀ config ∈ HygieneEnv.nextConfig s, env.ListsPlainly s config) :
    (env.resume s pass).overflowed = s.overflowed := by
  obtain ⟨found, configDocs, _ | ⟨directory, cutoff, entries⟩⟩ := pass
  · cases configDocs with
    | nil => rfl
    | cons config configDocs =>
      refine overflowed_beginCleanup (hplain config ?_)
      rw [HygieneEnv.nextConfig, hs]
      rfl
  · cases entries <;> rfl

theorem safeStep_of_inv {a : HygieneAction} (h : HygieneInv env s)
    (hc : env.UndisturbedStep s a) : SafeStep env s a := by
  rintro rfl s' hstep
  obtain ⟨pass, hpass, rfl⟩ := map_eq_some_iff.mp hstep
  refine ⟨overflowed_resume hpass hc, fun key doc hdoc hgone => ⟨pass, hpass, ?_⟩⟩
  obtain ⟨cleanup, hcleanup, hkey⟩ := pending_of_deleted hdoc hgone
  exact (h pass hpass).pending cleanup hcleanup key hkey doc hdoc

end Invariant

/-- **Hygiene deletes only stale documents** in every undisturbed run, whatever other tasks write.
-/
theorem safe_of_undisturbed (env : HygieneEnv) (now : Timestamp) (as : List HygieneAction)
    (h : Along env.step env.UndisturbedStep (hygieneStart now) as) :
    Along env.step (SafeStep env) (hygieneStart now) as := by
  refine Along.of_invariant (fun s a s' hinv hc hstep => hygieneInv_step hinv hc hstep)
    (fun s a hinv hc => safeStep_of_inv hinv hc) (I := HygieneInv env) ?_ h
  intro pass hpass
  cases hpass

/-- A user who also reads a shared scope. Hygiene runs every twelve hours. -/
def cleanedEnv : HygieneEnv where
  workspace := ⟨"user1", ["shared"], none, [], none, false, fun _ _ => [], fun _ => none⟩
  backend := .libsql
  config := ⟨true, 12⟩
  toLowercase := Text.toAsciiLowercase

def enablingMetadata (days : Int) : Json :=
  .obj [("hygiene".toList, .obj [("enabled".toList, .bool true),
    ("retention_days".toList, .int days)])]

def configureAt (path : Text) (days : Int) : List HygieneAction :=
  [.write "user1" none path, .setMetadata "user1" none path (enablingMetadata days)]

def twoDays : Nat := 2 * 86400 * 10 ^ 9

def year2025 : Timestamp := 1735689600 * 10 ^ 9

/-- Old documents are deleted, one also with its shared namesake. What is written meanwhile stays.
-/
def quietPass : List HygieneAction :=
  configureAt "daily/.config".toList 1 ++
    [.write "user1" none "daily/old.md".toList, .write "shared" none "daily/old.md".toList,
      .wait twoDays, .write "user1" none "daily/new.md".toList, .runIfDue, .goOn,
      .write "user1" none "daily/newer.md".toList, .goOn, .goOn, .goOn, .goOn, .goOn]

def HygieneState.updatedAt (s : HygieneState) (path : Text) : Option Timestamp :=
  (s.docs.lookup (cleanedEnv.workspace.key path)).map fun doc => doc.updatedAt

theorem safe_quietPass :
    Along cleanedEnv.step (SafeStep cleanedEnv) (hygieneStart year2025) quietPass ∧
      (run cleanedEnv.step (hygieneStart year2025) quietPass).map (fun s =>
        (s.updatedAt "daily/old.md".toList, (s.updatedAt "daily/new.md".toList).isSome,
          s.pass.isNone)) = some (none, true, true) :=
  ⟨safe_of_undisturbed cleanedEnv year2025 quietPass (by decide +kernel), by decide +kernel⟩

section Ends

variable {env : HygieneEnv} {s : Nat → HygieneState} {a : Nat → HygieneAction}

/-- How many configurations and entries a pass has still to look at. -/
def HygienePass.left (pass : HygienePass) : Nat × Nat :=
  (pass.configDocs.length, (pass.cleanup.map fun c => c.entries.length + 1).getD 0)

theorem pass_beginCleanup (s : HygieneState) (pass : HygienePass) (config : ConfigDocument) :
    (env.beginCleanup s pass config).pass = none ∨ ∃ cleanup,
      (env.beginCleanup s pass config).pass = some ⟨pass.found, pass.configDocs, cleanup⟩ := by
  rw [HygieneEnv.beginCleanup]
  split
  · exact .inr ⟨_, rfl⟩
  · dsimp only
    split
    · exact .inl rfl
    · exact .inr ⟨_, rfl⟩

theorem pass_resume (s : HygieneState) (pass : HygienePass) :
    (env.resume s pass).pass = none ∨ ∃ pass', (env.resume s pass).pass = some pass' ∧
      Prod.Lex (· < ·) (· < ·) pass'.left pass.left := by
  obtain ⟨found, configDocs, _ | ⟨directory, cutoff, entries⟩⟩ := pass
  · cases configDocs with
    | nil => exact .inl rfl
    | cons config configDocs =>
      refine (pass_beginCleanup s ⟨found, configDocs, none⟩ config).imp_right ?_
      rintro ⟨cleanup, hcleanup⟩
      exact ⟨_, hcleanup, .left _ _ (Nat.lt_succ_self _)⟩
  · cases entries with
    | nil => exact .inr ⟨_, rfl, .right _ Nat.zero_lt_one⟩
    | cons e entries => exact .inr ⟨_, rfl, .right _ (Nat.lt_succ_self _)⟩

end Ends

/-- A document that was old when its folder was listed is written before its turn comes. -/
def rewrittenPass : List HygieneAction :=
  configureAt "daily/.config".toList 1 ++
    [.write "user1" none "daily/old.md".toList, .wait twoDays, .runIfDue, .goOn, .goOn,
      .write "user1" none "daily/old.md".toList]

/-- A name ends in a blank. Normalised once more, it is a protected one. -/
def blankPass : List HygieneAction :=
  configureAt "daily/.config".toList 1 ++
    [.write "user1" none "daily/MEMORY.md".toList, .write "user1" none "daily/MEMORY.md /".toList,
      .wait twoDays, .runIfDue, .goOn, .goOn, .goOn]

def capitalsPass : List HygieneAction :=
  [.write "user1" none "daily/old.md".toList, .wait twoDays] ++
    configureAt "daily/.CONFIG".toList 1 ++ [.runIfDue, .goOn, .goOn]

/-- Documents are to be kept for four billion days. -/
def eternalPass : List HygieneAction :=
  configureAt "daily/.config".toList 4000000000 ++ [.runIfDue]

theorem Disposable.updatedAt_lt {env : HygieneEnv} {found : DatedDocuments} {now : Timestamp}
    {key : DocKey} {doc : DatedDocument} (h : Disposable env found now key doc) :
    doc.updatedAt < now := by
  obtain ⟨dir, name, hygiene, -, -, -, hage⟩ := h.outdated
  have hdays : (0 : Int) < hygiene.retentionDays * dayNanos :=
    Int.mul_pos (Int.natCast_pos.mpr hygiene.min_le) (by decide)
  exact Int.lt_of_lt_of_le (Int.lt_add_of_pos_right _ hdays) hage

theorem disposable_of_safeStep {s : HygieneState} {path : Text} {t : Timestamp}
    (h : SafeStep cleanedEnv s .goOn) (hthere : s.updatedAt path = some t)
    (hgone : (cleanedEnv.step s .goOn).map (fun s' => s'.updatedAt path) = some none) :
    ∃ pass doc, s.pass = some pass ∧ doc.updatedAt = t ∧
      Disposable cleanedEnv pass.found s.now (cleanedEnv.workspace.key path) doc := by
  obtain ⟨doc, hdoc, rfl⟩ := map_eq_some_iff.mp hthere
  obtain ⟨s', hstep, hnone⟩ := map_eq_some_iff.mp hgone
  obtain ⟨pass, hpass, hdisposable⟩ :=
    (h rfl s' hstep).2 _ doc hdoc (Option.map_eq_none_iff.mp hnone)
  exact ⟨pass, doc, hpass, rfl, hdisposable⟩

theorem safeStep_of_along {as : List HygieneAction} {s : HygieneState}
    (h : Along cleanedEnv.step (SafeStep cleanedEnv) (hygieneStart year2025) (as ++ [.goOn]))
    (hrun : run cleanedEnv.step (hygieneStart year2025) as = some s) :
    SafeStep cleanedEnv s .goOn :=
  ((Along.append_iff.mp h).2 s hrun).1

theorem rewritten_unsafe : ¬ Along cleanedEnv.step (SafeStep cleanedEnv) (hygieneStart year2025)
    (rewrittenPass ++ [.goOn]) := by
  intro h
  have hfacts : (run cleanedEnv.step (hygieneStart year2025) rewrittenPass).map (fun s =>
      (s.updatedAt "daily/old.md".toList, s.now,
        (cleanedEnv.step s .goOn).map fun s' => s'.updatedAt "daily/old.md".toList)) =
      some (some (year2025 + twoDays), year2025 + twoDays, some none) := by decide +kernel
  obtain ⟨s, hrun, heq⟩ := map_eq_some_iff.mp hfacts
  simp only [Prod.mk.injEq] at heq
  obtain ⟨hthere, hnow, hgone⟩ := heq
  obtain ⟨pass, doc, -, hdoc, hdisposable⟩ :=
    disposable_of_safeStep (safeStep_of_along h hrun) hthere hgone
  have hlt := hdisposable.updatedAt_lt
  rw [hdoc, hnow] at hlt
  exact lt_irrefl _ hlt

theorem blank_unsafe : ¬ Along cleanedEnv.step (SafeStep cleanedEnv) (hygieneStart year2025)
    (blankPass ++ [.goOn]) := by
  intro h
  have hfacts : (run cleanedEnv.step (hygieneStart year2025) blankPass).map (fun s =>
      (s.updatedAt "daily/MEMORY.md".toList,
        (cleanedEnv.step s .goOn).map fun s' => s'.updatedAt "daily/MEMORY.md".toList)) =
      some (some year2025, some none) := by decide +kernel
  obtain ⟨s, hrun, heq⟩ := map_eq_some_iff.mp hfacts
  simp only [Prod.mk.injEq] at heq
  obtain ⟨hthere, hgone⟩ := heq
  obtain ⟨pass, doc, -, -, hdisposable⟩ :=
    disposable_of_safeStep (safeStep_of_along h hrun) hthere hgone
  exact absurd hdisposable.notProtected (by decide +kernel)

theorem capitals_unsafe : ¬ Along cleanedEnv.step (SafeStep cleanedEnv) (hygieneStart year2025)
    (capitalsPass ++ [.goOn]) := by
  intro h
  have hfacts : (run cleanedEnv.step (hygieneStart year2025) capitalsPass).map (fun s =>
      (s.updatedAt "daily/old.md".toList,
        s.pass.map fun pass =>
          (pass.found.lookup (cleanedEnv.workspace.key "daily/.config".toList)).isSome,
        (cleanedEnv.step s .goOn).map fun s' => s'.updatedAt "daily/old.md".toList)) =
      some (some year2025, some false, some none) := by decide +kernel
  obtain ⟨s, hrun, heq⟩ := map_eq_some_iff.mp hfacts
  simp only [Prod.mk.injEq] at heq
  obtain ⟨hthere, hfound, hgone⟩ := heq
  obtain ⟨pass, doc, hpass, -, hdisposable⟩ :=
    disposable_of_safeStep (safeStep_of_along h hrun) hthere hgone
  obtain ⟨dir, name, hygiene, hkey, hname, ⟨config, hconfig, -⟩, -⟩ := hdisposable.outdated
  -- the folder of the document is the one before its last slash
  have hsplit : Text.rsplitOnce '/' "daily/old.md".toList = some (dir, name) :=
    Text.rsplitOnce_eq_some_iff.mpr ⟨congrArg DocKey.path hkey, hname⟩
  have hdaily : Text.rsplitOnce '/' "daily/old.md".toList =
      some ("daily".toList, "old.md".toList) := by decide
  obtain ⟨rfl, -⟩ := Prod.mk.inj (Option.some.inj (hsplit.symm.trans hdaily))
  rw [hpass, map_some, Option.some.injEq] at hfound
  have hlookup : pass.found.lookup (cleanedEnv.workspace.key "daily/.config".toList) =
      some config := hconfig
  rw [hlookup] at hfound
  cases hfound

theorem eternal_unsafe : ¬ Along cleanedEnv.step (SafeStep cleanedEnv) (hygieneStart year2025)
    (eternalPass ++ [.goOn]) := by
  intro h
  have hfacts : (run cleanedEnv.step (hygieneStart year2025) eternalPass).map (fun s =>
      (s.overflowed, (cleanedEnv.step s .goOn).map fun s' => s'.overflowed)) =
      some (false, some true) := by decide +kernel
  obtain ⟨s, hrun, heq⟩ := map_eq_some_iff.mp hfacts
  simp only [Prod.mk.injEq] at heq
  obtain ⟨hbefore, hafter⟩ := heq
  obtain ⟨s', hstep, hover⟩ := map_eq_some_iff.mp hafter
  have hsame := (safeStep_of_along h hrun rfl s' hstep).1
  rw [hover, hbefore] at hsame
  cases hsame

/-- Hygiene deletes a new document, a protected one, and one without a configuration; days overflow.
-/
theorem hygiene_not_safe : ¬ (∀ (env : HygieneEnv) (now : Timestamp) (as : List HygieneAction),
        Along env.step (SafeStep env) (hygieneStart now) as) ∧
      (∀ as ∈ [rewrittenPass, blankPass, capitalsPass, eternalPass],
        ¬ Along cleanedEnv.step (SafeStep cleanedEnv) (hygieneStart year2025) (as ++ [.goOn])) := by
  refine ⟨fun h => rewritten_unsafe (h cleanedEnv year2025 _), fun as has => ?_⟩
  simp only [List.mem_cons, List.not_mem_nil, or_false] at has
  rcases has with rfl | rfl | rfl | rfl
  · exact rewritten_unsafe
  · exact blank_unsafe
  · exact capitals_unsafe
  · exact eternal_unsafe

end IronClaw.Memory
