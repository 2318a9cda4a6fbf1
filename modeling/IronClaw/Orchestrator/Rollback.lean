import IronClaw.Foundation.Run
import IronClaw.Orchestrator.Versions

/-!
# Selecting a version

An execution selects a version when it starts, and its outcome is recorded at the end. The tracker
has room for one version, and is taken for that of the newest one.
-/

namespace IronClaw.Orchestrator

open Foundation (Text Json Along run run_invariant)

/-- The documents, the versions under way, and each one's failures since its success. -/
structure Engine where
  store : DocStore
  running : List Nat
  streak : Nat → Nat

/-- A version is saved; an execution starts, fails or succeeds. A failure may need an id. -/
inductive EngineAction where
  | save (doc : MemoryDoc)
  | select
  | fail (i id : Nat)
  | succeed (i : Nat)

namespace Engine

def selection (parse : Text → Option Json) (defaultOrchestrator : Text) (s : Engine) : Text × Nat :=
  loadOrchestratorFromDocs parse defaultOrchestrator s.store.items true

/-- The newest version that has not failed too often in a row itself. -/
def newestBelowLimit (defaultOrchestrator : Text) (s : Engine) : Text × Nat :=
  match (versions s.store.items).find? fun doc =>
      s.streak doc.version < maxFailuresBeforeRollback with
  | some doc => (doc.content, doc.version)
  | none => (defaultOrchestrator, 0)

def latest (s : Engine) : Option Nat := (versions s.store.items).head?.map MemoryDoc.version

def isNew (s : Engine) (id : Nat) : Bool := s.store.items.all fun d => d.id != id

def setStreak (s : Engine) (version count : Nat) : Nat → Nat :=
  fun v => if v = version then count else s.streak v

def step (parse : Text → Option Json) (defaultOrchestrator : Text) (s : Engine) :
    EngineAction → Option Engine
  | .save doc =>
    if s.isNew doc.id && doc.isOrchestrator then some { s with store := s.store.save doc } else none
  | .select => some { s with running := s.running ++ [(s.selection parse defaultOrchestrator).2] }
  | .fail i id =>
    if s.isNew id then
      (s.running[i]?).map fun version =>
        { store := recordOrchestratorFailure parse s.store id version
          running := s.running.eraseIdx i
          streak := s.setStreak version (s.streak version + 1) }
    else none
  | .succeed i =>
    (s.running[i]?).map fun version =>
      { store := resetOrchestratorFailures s.store
        running := s.running.eraseIdx i
        streak := s.setStreak version 0 }

section Attribution

variable (parse : Text → Option Json)

/-- The tracker counts the failures of a version, or those of neither reach the limit. -/
def SpeaksFor (s : Engine) (version : Nat) : Prop :=
  if (tracker parse s.store.items).1 = version then
    (tracker parse s.store.items).2 = s.streak version
  else s.streak version = 0 ∧ (tracker parse s.store.items).2 < maxFailuresBeforeRollback

/-- An outcome is the newest version's, or makes no difference, and the tracker speaks for a version
that becomes the newest. -/
def Attributed (s : Engine) : EngineAction → Prop
  | .save doc =>
    if ∀ d ∈ versions s.store.items, d.sortVersion < doc.sortVersion then
      s.SpeaksFor parse doc.version
    else s.latest = some doc.version ∨ s.streak doc.version < maxFailuresBeforeRollback
  | .select => True
  | .fail i _ => ∀ version latest, s.running[i]? = some version → s.latest = some latest →
      if version = latest then s.streak version + 1 < 2 ^ 64
      else s.streak latest = 0 ∧
        ((tracker parse s.store.items).1 = version →
          (tracker parse s.store.items).2 + 1 < maxFailuresBeforeRollback) ∧
        ((∃ doc ∈ versions s.store.items, doc.version = version) →
          s.streak version + 1 < maxFailuresBeforeRollback)
  | .succeed i => ∀ version latest, s.running[i]? = some version → s.latest = some latest →
      version ≠ latest → s.streak latest = 0

end Attribution

section Invariant

variable {parse : Text → Option Json} {defaultOrchestrator : Text} {s s' : Engine}
  {action : EngineAction}

/-- The tracker speaks for the newest version, and no older one has failed too often. -/
structure Tracked (parse : Text → Option Json) (s : Engine) : Prop where
  speaks : ∀ latest, s.latest = some latest → s.SpeaksFor parse latest
  below : ∀ latest, s.latest = some latest → ∀ doc ∈ versions s.store.items, doc.version ≠ latest →
    s.streak doc.version < maxFailuresBeforeRollback
  running : ∀ version ∈ s.running, version < 2 ^ 64

theorem SpeaksFor.count_lt_iff {version : Nat} (h : s.SpeaksFor parse version) :
    (tracker parse s.store.items).2 < maxFailuresBeforeRollback ↔
      s.streak version < maxFailuresBeforeRollback := by
  unfold SpeaksFor at h
  split_ifs at h
  · rw [h]
  · rw [h.1]
    exact ⟨fun _ => by decide, fun _ => h.2⟩

theorem Tracked.selection_eq (h : Tracked parse s) :
    s.selection parse defaultOrchestrator = s.newestBelowLimit defaultOrchestrator := by
  unfold selection newestBelowLimit loadOrchestratorFromDocs
  rw [if_neg (by simp)]
  cases hversions : versions s.store.items with
  | nil => rfl
  | cons newest older =>
    have hlatest : s.latest = some newest.version := by
      rw [latest, hversions]
      rfl
    -- a version is passed over here exactly if it has failed too often itself
    have hcongr : ∀ doc ∈ newest :: older,
        (!(doc.version == newest.version &&
          decide (maxFailuresBeforeRollback ≤ loadFailureCount parse s.store.items))) =
        decide (s.streak doc.version < maxFailuresBeforeRollback) := by
      intro doc hdoc
      rw [loadFailureCount_eq]
      by_cases heq : doc.version = newest.version
      · have hiff : ¬ maxFailuresBeforeRollback ≤ (tracker parse s.store.items).2 ↔
            s.streak newest.version < maxFailuresBeforeRollback :=
          Nat.not_le.trans (h.speaks _ hlatest).count_lt_iff
        rw [heq, beq_self_eq_true, Bool.true_and, ← decide_not]
        exact decide_eq_decide.mpr hiff
      · have hbelow := h.below _ hlatest doc (by rw [hversions]; exact hdoc) heq
        simp [heq, hbelow]
    have hfound : ((newest :: older).find? fun doc => !(doc.version == newest.version &&
          decide (maxFailuresBeforeRollback ≤ loadFailureCount parse s.store.items))) =
        (newest :: older).find? fun doc =>
          decide (s.streak doc.version < maxFailuresBeforeRollback) := by
      rw [← List.head?_filter, ← List.head?_filter, List.filter_congr hcongr]
    exact congrArg (fun found : Option MemoryDoc =>
      match found with
      | some doc => (doc.content, doc.version)
      | none => (defaultOrchestrator, 0)) hfound

theorem selection_lt : (s.selection parse defaultOrchestrator).2 < 2 ^ 64 := by
  unfold selection loadOrchestratorFromDocs
  rw [if_neg (by simp)]
  split
  · exact Nat.two_pow_pos 64
  · simp only
    split
    · exact version_lt _
    · exact Nat.two_pow_pos 64

theorem setStreak_self (version count : Nat) :
    s.setStreak version count version = count := if_pos rfl

theorem setStreak_of_ne {v version : Nat} (h : v ≠ version) (count : Nat) :
    s.setStreak version count v = s.streak v := if_neg h

theorem isNew_iff {id : Nat} : s.isNew id ↔ ∀ d ∈ s.store.items, d.id ≠ id := by
  simp [isNew]

theorem docs_of_save {doc : MemoryDoc} (hstep : step parse defaultOrchestrator s
    (.save doc) = some s') :
    doc.isOrchestrator ∧ s'.store.items = s.store.items ++ [doc] ∧ s'.running = s.running ∧
      s'.streak = s.streak := by
  simp only [step, Bool.and_eq_true] at hstep
  split_ifs at hstep with hnew
  cases hstep
  exact ⟨hnew.2, Foundation.Keyed.items_save_of_new doc (isNew_iff.mp hnew.1), rfl, rfl⟩

theorem Tracked.streak_lt (h : Tracked parse s) {version latest : Nat}
    (hlatest : s.latest = some latest)
    (hspeaks : s.SpeaksFor parse version) (hne : latest ≠ version) :
    s.streak latest < maxFailuresBeforeRollback := by
  rw [← (h.speaks latest hlatest).count_lt_iff]
  have hold := h.speaks latest hlatest
  unfold SpeaksFor at hspeaks hold
  split_ifs at hspeaks with hv
  · rw [if_neg fun hl => hne (hl.symm.trans hv)] at hold
    exact hold.2
  · exact hspeaks.2

theorem tracked_of_save {doc : MemoryDoc} (h : Tracked parse s)
    (hc : s.Attributed parse (.save doc))
    (hstep : step parse defaultOrchestrator s (.save doc) = some s') : Tracked parse s' := by
  obtain ⟨hdoc, hdocs, hrunning, hstreak⟩ := docs_of_save hstep
  have hversions : versions s'.store.items = insertVersion doc (versions s.store.items) := by
    rw [hdocs, versions_append hdoc]
  have hspeaks : ∀ v, s.SpeaksFor parse v → s'.SpeaksFor parse v := by
    intro v hv
    unfold SpeaksFor at hv ⊢
    rw [hdocs, tracker_of_new hdoc, hstreak]
    exact hv
  simp only [Attributed] at hc
  split_ifs at hc with hnewest
  · -- the new version is the newest one
    rw [insertVersion_of_newest hnewest] at hversions
    have hlatest : s'.latest = some doc.version := by
      rw [latest, hversions]
      rfl
    refine ⟨fun l hl => ?_, fun l hl d hd hne => ?_, hrunning ▸ h.running⟩
    · rw [hlatest] at hl
      cases hl
      exact hspeaks _ hc
    · rw [hlatest] at hl
      cases hl
      rw [hversions] at hd
      rcases List.mem_cons.mp hd with rfl | hd
      · exact absurd rfl hne
      · rw [hstreak]
        cases hold : s.latest with
        | none =>
          have hempty : versions s.store.items = [] := by
            simpa [latest] using hold
          rw [hempty] at hd
          cases hd
        | some l =>
          by_cases hdl : d.version = l
          · rw [hdl]
            exact h.streak_lt hold hc fun heq => hne (hdl.trans heq)
          · exact h.below l hold d hd hdl
  · have hlatest : s'.latest = s.latest := by
      rw [latest, latest, hversions, head?_insertVersion (sorted_versions _) hnewest]
    refine ⟨fun l hl => hspeaks l (h.speaks l (hlatest ▸ hl)), fun l hl d hd hne => ?_,
      hrunning ▸ h.running⟩
    rw [hlatest] at hl
    rw [hversions] at hd
    rw [hstreak]
    rcases mem_insertVersion.mp hd with rfl | hd
    · rcases hc with hc | hc
      · exact absurd (Option.some.inj (hl.symm.trans hc)).symm hne
      · exact hc
    · exact h.below l hl d hd hne

theorem step_fail {i id : Nat} (hstep : step parse defaultOrchestrator s (.fail i id) = some s') :
    ∃ version ∈ s.running, s.running[i]? = some version ∧ (∀ d ∈ s.store.items, d.id ≠ id) ∧
      s'.store = recordOrchestratorFailure parse s.store id version ∧
      s'.running = s.running.eraseIdx i ∧ s'.streak = s.setStreak version
        (s.streak version + 1) := by
  simp only [step] at hstep
  split_ifs at hstep with hnew
  obtain ⟨version, hget, rfl⟩ := Option.map_eq_some_iff.mp hstep
  exact ⟨version, List.mem_of_getElem? hget, hget, isNew_iff.mp hnew, rfl, rfl, rfl⟩

theorem step_succeed {i : Nat} (hstep : step parse defaultOrchestrator s (.succeed i) = some s') :
    ∃ version, s.running[i]? = some version ∧ s'.store = resetOrchestratorFailures s.store ∧
      s'.running = s.running.eraseIdx i ∧ s'.streak = s.setStreak version 0 := by
  obtain ⟨version, hget, rfl⟩ := Option.map_eq_some_iff.mp hstep
  exact ⟨version, hget, rfl, rfl, rfl⟩

theorem tracked_of_fail {i id : Nat} (hparse : ReadsTracker parse) (h : Tracked parse s)
    (hc : s.Attributed parse (.fail i id))
    (hstep : step parse defaultOrchestrator s (.fail i id) = some s') : Tracked parse s' := by
  obtain ⟨version, hmem, hget, hid, hstore, hrunning, hstreak⟩ := step_fail hstep
  have hlt : version < 2 ^ 64 := h.running version hmem
  have hversions : versions s'.store.items = versions s.store.items := by
    rw [hstore]
    exact versions_record hid
  refine ⟨fun l hl => ?_, fun l hl d hd hne => ?_, fun v hv => ?_⟩
  · rw [latest, hversions] at hl
    have hold := h.speaks l hl
    have hcond := hc version l hget hl
    unfold SpeaksFor at hold ⊢
    rw [hstore, tracker_record hparse hid hlt, hstreak]
    by_cases hvl : version = l
    · subst hvl
      rw [if_pos rfl] at hcond
      rw [if_pos rfl, setStreak_self]
      split_ifs at hold ⊢
      · rw [hold, Nat.mod_eq_of_lt hcond]
      · rw [hold.1]
    · rw [if_neg hvl] at hcond
      rw [if_neg hvl, setStreak_of_ne (Ne.symm hvl)]
      refine ⟨hcond.1, ?_⟩
      split_ifs with hv
      · exact Nat.lt_of_le_of_lt (Nat.mod_le _ _) (hcond.2.1 hv)
      · change 1 < maxFailuresBeforeRollback
        decide
  · rw [latest, hversions] at hl
    rw [hversions] at hd
    rw [hstreak]
    by_cases hdv : d.version = version
    · -- it is not the newest one that has failed
      have hcond := hc version l hget hl
      rw [if_neg fun heq => hne (hdv.trans heq)] at hcond
      rw [hdv, setStreak_self]
      exact hcond.2.2 ⟨d, hd, hdv⟩
    · rw [setStreak_of_ne hdv]
      exact h.below l hl d hd hne
  · rw [hrunning] at hv
    exact h.running v (List.mem_of_mem_eraseIdx hv)

theorem tracked_of_succeed {i : Nat} (hparse : ReadsTracker parse) (h : Tracked parse s)
    (hc : s.Attributed parse (.succeed i))
    (hstep : step parse defaultOrchestrator s (.succeed i) = some s') : Tracked parse s' := by
  obtain ⟨version, hget, hstore, hrunning, hstreak⟩ := step_succeed hstep
  have hversions : versions s'.store.items = versions s.store.items := by
    rw [hstore]
    exact versions_reset
  refine ⟨fun l hl => ?_, fun l hl d hd hne => ?_, fun v hv => ?_⟩
  · rw [latest, hversions] at hl
    have hzero : s'.streak l = 0 := by
      rw [hstreak]
      by_cases hvl : l = version
      · rw [hvl, setStreak_self]
      · rw [setStreak_of_ne hvl]
        exact hc version l hget hl (Ne.symm hvl)
    unfold SpeaksFor
    rw [hzero, hstore, tracker_reset hparse]
    split_ifs
    · rfl
    · exact ⟨rfl, by decide⟩
  · rw [latest, hversions] at hl
    rw [hversions] at hd
    rw [hstreak]
    by_cases hdv : d.version = version
    · rw [hdv, setStreak_self]
      decide
    · rw [setStreak_of_ne hdv]
      exact h.below l hl d hd hne
  · rw [hrunning] at hv
    exact h.running v (List.mem_of_mem_eraseIdx hv)

theorem tracked_of_step (hparse : ReadsTracker parse) (h : Tracked parse s)
    (hc : s.Attributed parse action) (hstep : step parse defaultOrchestrator s action = some s') :
    Tracked parse s' := by
  cases action with
  | save doc => exact tracked_of_save h hc hstep
  | select =>
    cases hstep
    refine ⟨h.speaks, h.below, fun v hv => ?_⟩
    rcases List.mem_append.mp hv with hv | hv
    · exact h.running v hv
    · rw [List.mem_singleton.mp hv]
      exact selection_lt
  | fail i id => exact tracked_of_fail hparse h hc hstep
  | succeed i => exact tracked_of_succeed hparse h hc hstep

def fresh (store : DocStore) : Engine := ⟨store, [], fun _ => 0⟩

theorem tracked_fresh {store : DocStore} (h : failureTracker store.items = none) :
    Tracked parse (fresh store) where
  speaks := by
    intro latest hlatest
    have htracker : tracker parse (fresh store).store.items = (0, 0) := by
      change tracker parse store.items = (0, 0)
      rw [tracker, h]
    unfold SpeaksFor
    rw [htracker]
    split_ifs
    · rfl
    · exact ⟨rfl, by decide⟩
  below := by
    intro latest hlatest doc hdoc hne
    change 0 < maxFailuresBeforeRollback
    decide
  running := by
    intro version hversion
    cases hversion

/-- **The selection goes by each version's own failures** if the tracker is left to the newest
version. -/
theorem selection_of_attributed (hparse : ReadsTracker parse) {store : DocStore}
    (hstore : failureTracker store.items = none) {actions : List EngineAction}
    (hc : Along (step parse defaultOrchestrator) (Attributed parse) (fresh store) actions)
    (hrun : run (step parse defaultOrchestrator) (fresh store) actions = some s) :
    s.selection parse defaultOrchestrator = s.newestBelowLimit defaultOrchestrator := by
  refine Tracked.selection_eq (run_invariant (fun s action s' h hc hstep => ?_)
    (tracked_fresh hstore)
    hc hrun)
  exact tracked_of_step hparse h hc hstep

end Invariant

end Engine

def readNumber (t : Text) : Nat × Text :=
  (Nat.ofDigitChars 10 (t.takeWhile Char.isDigit) 0, t.dropWhile Char.isDigit)

def trackerOpening : Text := "\x7b\"count\":".toList

def trackerComma : Text := ",\"version\":".toList

def trackerClosing : Text := "\x7d".toList

def readTracker (t : Text) : Option Json :=
  let count := readNumber (t.drop trackerOpening.length)
  let version := readNumber (count.2.drop trackerComma.length)
  if t.take trackerOpening.length = trackerOpening ∧
      count.2.take trackerComma.length = trackerComma ∧ version.2 = trackerClosing then
    some (trackerJson version.1 count.1)
  else none

theorem readNumber_toDigits (n : Nat) {t : Text} (h : ∀ c ∈ t.head?, c.isDigit = false) :
    readNumber (Nat.toDigits 10 n ++ t) = (n, t) := by
  have hdigits : ∀ d ∈ Nat.toDigits 10 n, d.isDigit :=
    fun d hd => Nat.isDigit_of_mem_toDigits (by decide) (by decide) hd
  unfold readNumber
  rw [List.takeWhile_append_of_pos hdigits, List.dropWhile_append_of_pos hdigits]
  cases t with
  | nil => simp [Nat.ofDigitChars_ten_toDigits]
  | cons c t =>
    have hc : c.isDigit = false := h c rfl
    simp [hc, Nat.ofDigitChars_ten_toDigits]

theorem readsTracker_readTracker : ReadsTracker readTracker where
  nil := rfl
  tracker := by
    intro version count
    have htext : trackerText version count = trackerOpening ++ (Nat.toDigits 10 count ++
        (trackerComma ++ (Nat.toDigits 10 version ++ trackerClosing))) := by
      simp only [← List.append_assoc]
      rfl
    have hcount : readNumber ((trackerText version count).drop trackerOpening.length) =
        (count, trackerComma ++ (Nat.toDigits 10 version ++ trackerClosing)) := by
      rw [htext, List.drop_left]
      refine readNumber_toDigits count fun c hc => ?_
      cases hc
      rfl
    have hversion : readNumber (Nat.toDigits 10 version ++ trackerClosing) =
        (version, trackerClosing) := by
      refine readNumber_toDigits version fun c hc => ?_
      cases hc
      rfl
    unfold readTracker
    simp only [hcount, List.drop_left, hversion]
    rw [if_pos]
    exact ⟨by rw [htext, List.take_left], List.take_left, trivial⟩

def versionDoc (id version : Nat) : MemoryDoc where
  id := id
  title := orchestratorTitle
  content := Nat.toDigits 10 version
  tags := [orchestratorTag]
  metadata := .obj [("version".toList, .int version)]

def twoVersions : DocStore := ⟨[versionDoc 1 1, versionDoc 2 2], by decide⟩

open Engine in
theorem attributed_of_latest {parse : Text → Option Json} {s : Engine} {i id version : Nat}
    (hget : s.running[i]? = some version) (hlatest : s.latest = some version)
    (hlt : s.streak version + 1 < 2 ^ 64) : s.Attributed parse (.fail i id) := by
  intro v l hv hl
  rw [hget] at hv
  rw [hlatest] at hl
  cases hv
  cases hl
  rw [if_pos rfl]
  exact hlt

open Engine in
theorem selection_after_failures : ∃ s, run (step readTracker []) (fresh twoVersions)
        [.select, .fail 0 3, .select, .fail 0 4, .select, .fail 0 5] = some s ∧
      s.selection readTracker [] = s.newestBelowLimit [] := by
  obtain ⟨s, hrun⟩ : ∃ s, run (step readTracker []) (fresh twoVersions)
      [.select, .fail 0 3, .select, .fail 0 4, .select, .fail 0 5] = some s := ⟨_, rfl⟩
  refine ⟨s, hrun, selection_of_attributed readsTracker_readTracker rfl ?_ hrun⟩
  iterate 3
    refine .of_step rfl trivial (.of_step rfl (attributed_of_latest rfl rfl (by decide)) ?_)
  trivial

open Engine in
/-- The newest version is skipped, and selected again once an older one succeeds. One saved then is
never tried. -/
theorem selection_of_shared_tracker : (∃ s, run (step readTracker []) (fresh twoVersions)
        [.select, .fail 0 3, .select, .fail 0 4, .select, .fail 0 5, .select, .succeed 0] = some s ∧
      (s.selection readTracker []).2 = 2 ∧ (s.newestBelowLimit []).2 = 1) ∧
    ∃ s, run (step readTracker []) (fresh twoVersions)
        [.select, .fail 0 3, .select, .fail 0 4, .select, .fail 0 5,
          .save (versionDoc 6 3)] = some s ∧
      (s.selection readTracker []).2 = 2 ∧ (s.newestBelowLimit []).2 = 3 :=
  ⟨⟨_, rfl, rfl, rfl⟩, _, rfl, rfl, rfl⟩

end IronClaw.Orchestrator
