import IronClaw.Missions.Interleaving

/-!
# A fire and the watcher of its thread

A fire saves the mission that it loaded before it spawned its thread. Where the watcher of the
thread has saved the outcome before, that is gone.
-/

namespace IronClaw.Missions.Interleaving

open Foundation (Json Pool run Along run_cons_eq_some)

/-- The mission with a thread added to its accounts, as far as outcomes care. -/
structure Recorded (tid : ThreadId) (m m' : Mission) : Prop where
  id : m'.id = m.id
  threadHistory : m'.threadHistory = m.threadHistory ++ [tid]
  threadsToday : m'.threadsToday = m.threadsToday + 1
  status : m'.status = m.status
  currentFocus : m'.currentFocus = m.currentFocus
  approachHistory : m'.approachHistory = m.approachHistory

theorem recorded_firedMission (config : ManagerConfig) (env : CallEnv) (m : Mission)
    (tid : ThreadId) (triggerPayload : Option Json) :
    Recorded tid m (Manager.firedMission config env m tid triggerPayload) := by
  unfold Manager.firedMission
  dsimp only
  split
  · split <;> exact ⟨rfl, rfl, rfl, rfl, rfl, rfl⟩
  · exact ⟨rfl, rfl, rfl, rfl, rfl, rfl⟩

/-- `m'` lists the ended thread of `m` once, has counted it once, and shows its outcome. -/
structure Kept (libs : Libraries) (outcome : ThreadOutcome) (tid : ThreadId) (m m' : Mission) :
    Prop where
  listed : m'.threadHistory.count tid = 1
  counted : m'.threadsToday = m.threadsToday + 1
  status : m'.status = (outcome.status libs).getD m.status
  focus : ∀ focus, outcome.focus libs = some (some focus) → m'.currentFocus = some focus
  approach : m'.approachHistory = m.approachHistory ++ outcome.approach.toList

section Outcome

variable {libs : Libraries} {env : CallEnv} {outcome : ThreadOutcome} {tid : ThreadId}
  {firedAt : Instant} {m x w : Mission}

theorem Recorded.count_eq_one (h : Recorded tid m x) (hnew : tid ∉ m.threadHistory) :
    x.threadHistory.count tid = 1 := by
  rw [h.threadHistory, List.count_append, List.count_eq_zero.mpr hnew, List.count_singleton_self]

theorem Recorded.kept_iff (h : Recorded tid m x) (hnew : tid ∉ m.threadHistory) :
    Kept libs outcome tid m x ↔ outcome.approach = none := by
  constructor
  · intro hkept
    have happroach := hkept.approach
    rw [h.approachHistory, List.self_eq_append_right, Option.toList_eq_nil_iff] at happroach
    exact happroach
  · intro hnone
    obtain ⟨hstatus, hfocus⟩ := ThreadOutcome.silent_of_approach libs hnone
    refine ⟨h.count_eq_one hnew, h.threadsToday, ?_, ?_, ?_⟩
    · rw [hstatus, h.status]
      rfl
    · intro focus hf
      rw [hfocus] at hf
      cases hf
    · rw [hnone, h.approachHistory, Option.toList_none, List.append_nil]

theorem kept_of_processOutcome_of_recorded (h : Recorded tid m x) (hnew : tid ∉ m.threadHistory)
    (hw : processOutcome libs env tid firedAt outcome x = some w) : Kept libs outcome tid m w := by
  obtain ⟨focus, hfocus, rfl⟩ := processOutcome_eq_some_iff.mp hw
  have hmem : tid ∈ x.threadHistory := by simp [h.threadHistory]
  rw [reconciled_of_mem hmem]
  refine ⟨h.count_eq_one hnew, h.threadsToday, ?_, ?_, ?_⟩
  · rw [← h.status]
  · intro f hf
    rw [hfocus] at hf
    cases hf
    rfl
  · rw [← h.approachHistory]

theorem kept_of_processOutcome (hnew : tid ∉ m.threadHistory)
    (hw : processOutcome libs env tid firedAt outcome m = some w) : Kept libs outcome tid m w := by
  obtain ⟨focus, hfocus, rfl⟩ := processOutcome_eq_some_iff.mp hw
  rw [reconciled_of_not_mem hnew]
  refine ⟨?_, rfl, rfl, ?_, rfl⟩
  · dsimp only
    rw [List.count_append, List.count_eq_zero.mpr hnew, List.count_singleton_self]
  · intro f hf
    rw [hfocus] at hf
    cases hf
    rfl

end Outcome

/-- When a fire saves its mission, the stored one has no approach more, and a processed outcome can
be read. -/
def Task.InOrder (libs : Libraries) (s : Observed) : Task → Prop
  | saveFired fire _ _ => ∀ m, s.store.loadMission fire.call.id = some m →
    m.approachHistory = fire.mission.approachHistory
  | processOutcome _ _ _ outcome => outcome.readable libs = true
  | _ => True

def InOrder (libs : Libraries) (p : Pool Observed Task) : Action → Prop
  | .advance i _ => ∀ t, p.tasks[i]? = some t → t.InOrder libs p.shared
  | _ => True

/-- No other operation is called, and a thread that has ended has ended so. -/
def Undisturbed (outcome : ThreadOutcome) : Action → Prop
  | .call _ => False
  | .advance _ env => ∀ ended, env.ended = some ended → ended = outcome
  | .transition _ _ => True

section Phases

variable (libs : Libraries) (outcome : ThreadOutcome) (call : FireCall) (base : Mission)
  (tid : ThreadId) (firedAt : Instant)

/-- The stored mission and the watcher before the save. `g`: all steps so far in order. -/
inductive BeforeSave (g : Prop) (stored : Mission) : List Task → Prop
  | waiting (hg : g) (h : stored = base) : BeforeSave g stored [.watchOutcome call.id tid firedAt]
  | ended (hg : g) (h : stored = base) :
    BeforeSave g stored [.processOutcome call.id tid firedAt outcome]
  | writing (w : Mission) (hg : g) (h : stored = base) (hid : w.id = call.id)
    (hw : Kept libs outcome tid base w) : BeforeSave g stored [.saveMission .outcome w]
  | written (hg : g) (h : Kept libs outcome tid base stored) : BeforeSave g stored []
  | panicked (hg : ¬ g) (h : stored = base) (hr : ¬ outcome.readable libs = true) :
    BeforeSave g stored []

inductive AfterSave (g : Prop) (stored : Mission) : List Task → Prop
  | waiting (hg : g) (h : Recorded tid base stored) :
    AfterSave g stored [.watchOutcome call.id tid firedAt]
  | ended (hg : g) (h : Recorded tid base stored) :
    AfterSave g stored [.processOutcome call.id tid firedAt outcome]
  | writing (w : Mission) (hg : g) (hid : w.id = call.id) (hw : Kept libs outcome tid base w) :
    AfterSave g stored [.saveMission .outcome w]
  | done (h : Kept libs outcome tid base stored ↔ g) : AfterSave g stored []

/-- How far fire and watcher are, with the stored mission and the threads since. -/
inductive Phase (g : Prop) (stored : Mission) : List Spawned → List Task → Prop
  | resetting (fire : Fire) (hg : g) (hcall : fire.call = call) (h : stored = fire.mission)
    (hbase : fire.reset.mission = base) : Phase g stored [] [.resetThreadsToday fire]
  | counting (fire : Fire) (rest : List ThreadId) (running : Nat) (hg : g)
    (hcall : fire.call = call) (h : stored = base) (hbase : fire.mission = base) :
    Phase g stored [] [.countRunning fire rest running]
  | rating (fire : Fire) (hg : g) (hcall : fire.call = call) (h : stored = base)
    (hbase : fire.mission = base) : Phase g stored [] [.checkUserRate fire]
  | spawning (fire : Fire) (hg : g) (hcall : fire.call = call) (h : stored = base)
    (hbase : fire.mission = base) : Phase g stored [] [.spawnThread fire]
  | refused : Phase g stored [] []
  | arming (fire : Fire) (tid : ThreadId) (firedAt : Instant) (updated : Mission) (ws : List Task)
    (hnew : tid ∉ base.threadHistory) (hcall : fire.call = call) (hbase : fire.mission = base)
    (hupdated : Recorded tid base updated)
    (hws : BeforeSave libs outcome call base tid firedAt g stored ws) :
    Phase g stored [⟨call.id, tid, firedAt⟩] (.armCooldown fire tid firedAt updated :: ws)
  | saving (fire : Fire) (tid : ThreadId) (firedAt : Instant) (updated : Mission) (ws : List Task)
    (hnew : tid ∉ base.threadHistory) (hcall : fire.call = call) (hbase : fire.mission = base)
    (hupdated : Recorded tid base updated)
    (hws : BeforeSave libs outcome call base tid firedAt g stored ws) :
    Phase g stored [⟨call.id, tid, firedAt⟩] (.saveFired fire tid updated :: ws)
  | recording (fire : Fire) (tid : ThreadId) (firedAt : Instant) (ws : List Task)
    (hnew : tid ∉ base.threadHistory) (hcall : fire.call = call)
    (hws : AfterSave libs outcome call base tid firedAt g stored ws) :
    Phase g stored [⟨call.id, tid, firedAt⟩] (.recordUserRate fire :: ws)
  | returned (tid : ThreadId) (firedAt : Instant) (ws : List Task)
    (hnew : tid ∉ base.threadHistory)
    (hws : AfterSave libs outcome call base tid firedAt g stored ws) :
    Phase g stored [⟨call.id, tid, firedAt⟩] ws

end Phases

section Steps

variable {config : HostConfig} {env : StepEnv} {outcome : ThreadOutcome} {call : FireCall}
  {base stored : Mission} {tid : ThreadId} {firedAt : Instant} {g : Prop} {s s' : Observed}
  {t : Task} {ts : List Task}

variable {ws : List Task}

theorem BeforeSave.length_le {libs : Libraries}
    (h : BeforeSave libs outcome call base tid firedAt g stored ws) : ws.length ≤ 1 := by
  cases h <;> simp

theorem AfterSave.length_le {libs : Libraries}
    (h : AfterSave libs outcome call base tid firedAt g stored ws) : ws.length ≤ 1 := by
  cases h <;> simp

theorem next_processOutcome (hstored : s.store.loadMission call.id = some stored)
    (hnext : next config env s (.processOutcome call.id tid firedAt outcome) = some (s', ts)) :
    s' = s ∧ (outcome.readable config.manager.libs = false ∧ ts = [] ∨
      ∃ w, processOutcome config.manager.libs env.toCallEnv tid firedAt outcome stored = some w ∧
        outcome.readable config.manager.libs = true ∧ ts = [.saveMission .outcome w]) := by
  simp only [Interleaving.next, hstored, Option.some.injEq, Prod.mk.injEq] at hnext
  obtain ⟨rfl, rfl⟩ := hnext
  refine ⟨rfl, ?_⟩
  cases hw : processOutcome config.manager.libs env.toCallEnv tid firedAt outcome stored with
  | none => exact .inl ⟨processOutcome_eq_none_iff.mp hw, rfl⟩
  | some w => exact .inr ⟨w, rfl, readable_of_processOutcome hw, rfl⟩

theorem BeforeSave.next (h : BeforeSave config.manager.libs outcome call base tid firedAt g stored
    [t]) (hnew : tid ∉ base.threadHistory) (hid : base.id = call.id)
    (hended : ∀ ended, env.ended = some ended → ended = outcome)
    (hstored : s.store.loadMission call.id = some stored)
    (hnext : next config env s t = some (s', ts)) :
    ∃ stored', s'.store.loadMission call.id = some stored' ∧ s'.spawned = s.spawned ∧
      BeforeSave config.manager.libs outcome call base tid firedAt
        (g ∧ t.InOrder config.manager.libs s) stored' ts := by
  cases h with
  | waiting hg h =>
    obtain ⟨ended, he, hr⟩ := Option.map_eq_some_iff.mp hnext
    cases hr
    rw [hended ended he]
    exact ⟨stored, hstored, rfl, .ended ⟨hg, trivial⟩ h⟩
  | ended hg h =>
    obtain ⟨rfl, ⟨hr, rfl⟩ | ⟨w, hw, hr, rfl⟩⟩ := next_processOutcome hstored hnext
    · refine ⟨stored, hstored, rfl, .panicked (fun hg => ?_) h (by simp [hr])⟩
      rw [Task.InOrder, hr] at hg
      exact Bool.false_ne_true hg.2
    · refine ⟨stored, hstored, rfl, .writing w ⟨hg, hr⟩ h ?_ ?_⟩
      · rw [id_of_processOutcome hw, h, hid]
      · rw [h] at hw
        exact kept_of_processOutcome hnew hw
  | writing w hg h hwid hw =>
    cases hnext
    refine ⟨w, ?_, rfl, .written ⟨hg, trivial⟩ hw⟩
    rw [Observed.store_withStore, MissionStore.loadMission_saveMission, if_pos hwid.symm]

theorem AfterSave.next (h : AfterSave config.manager.libs outcome call base tid firedAt g stored
    [t]) (hnew : tid ∉ base.threadHistory) (hid : base.id = call.id)
    (hended : ∀ ended, env.ended = some ended → ended = outcome)
    (hstored : s.store.loadMission call.id = some stored)
    (hnext : next config env s t = some (s', ts)) :
    ∃ stored', s'.store.loadMission call.id = some stored' ∧ s'.spawned = s.spawned ∧
      AfterSave config.manager.libs outcome call base tid firedAt
        (g ∧ t.InOrder config.manager.libs s) stored' ts := by
  cases h with
  | waiting hg h =>
    obtain ⟨ended, he, hr⟩ := Option.map_eq_some_iff.mp hnext
    cases hr
    rw [hended ended he]
    exact ⟨stored, hstored, rfl, .ended ⟨hg, trivial⟩ h⟩
  | ended hg h =>
    obtain ⟨rfl, ⟨hr, rfl⟩ | ⟨w, hw, hr, rfl⟩⟩ := next_processOutcome hstored hnext
    · -- the watcher panics, and what it has not written was not silent
      refine ⟨stored, hstored, rfl, .done ((h.kept_iff hnew).trans
        (iff_of_false (fun hnone => ?_) fun hg => ?_))⟩
      · rw [ThreadOutcome.readable_of_approach hnone] at hr
        cases hr
      · rw [Task.InOrder, hr] at hg
        exact Bool.false_ne_true hg.2
    · refine ⟨stored, hstored, rfl,
        .writing w ⟨hg, hr⟩ ?_ (kept_of_processOutcome_of_recorded h hnew hw)⟩
      rw [id_of_processOutcome hw, h.id, hid]
  | writing w hg hwid hw =>
    cases hnext
    refine ⟨w, ?_, rfl, .done (iff_of_true hw ⟨hg, trivial⟩)⟩
    rw [Observed.store_withStore, MissionStore.loadMission_saveMission, if_pos hwid.symm]

theorem BeforeSave.saved {fire : Fire} {updated : Mission}
    (h : BeforeSave config.manager.libs outcome call base tid firedAt g stored ws)
    (hnew : tid ∉ base.threadHistory) (hcall : fire.call = call) (hbase : fire.mission = base)
    (hupdated : Recorded tid base updated) (hstored : s.store.loadMission call.id = some stored) :
    AfterSave config.manager.libs outcome call base tid firedAt
      (g ∧ (Task.saveFired fire tid updated).InOrder config.manager.libs s) updated ws := by
  have horder : (Task.saveFired fire tid updated).InOrder config.manager.libs s ↔
      stored.approachHistory = base.approachHistory := by
    rw [Task.InOrder, hcall, hbase]
    constructor
    · exact fun horder => horder stored hstored
    · intro happroach m hm
      rw [hstored] at hm
      cases hm
      exact happroach
  cases h with
  | waiting hg h => exact .waiting ⟨hg, horder.mpr (by rw [h])⟩ hupdated
  | ended hg h => exact .ended ⟨hg, horder.mpr (by rw [h])⟩ hupdated
  | writing w hg h hwid hw => exact .writing w ⟨hg, horder.mpr (by rw [h])⟩ hwid hw
  | written hg h =>
    refine .done ((hupdated.kept_iff hnew).trans ?_)
    rw [horder, h.approach, List.append_right_eq_self]
    exact ⟨fun hnone => ⟨hg, by rw [hnone]; rfl⟩, fun hsilent =>
      Option.toList_eq_nil_iff.mp hsilent.2⟩
  | panicked hg h hr =>
    refine .done ((hupdated.kept_iff hnew).trans (iff_of_false (fun hnone => hr ?_) fun h =>
      hg h.1))
    exact ThreadOutcome.readable_of_approach hnone

theorem returns_of_sweep (hsweep : call.sweep = none) (failed : Bool) :
    call.returns failed = [] := by
  rw [FireCall.returns, hsweep]

theorem phase_checked {libs : Libraries} (fire : Fire) (hg : g) (hcall : fire.call = call)
    (hsweep : call.sweep = none) (h : stored = base) (hbase : fire.mission = base) :
    Phase libs outcome call base g stored [] (Fire.checked env fire) := by
  unfold Fire.checked
  split
  · rw [hcall, returns_of_sweep hsweep]
    exact .refused
  · split
    · exact .rating fire hg hcall h hbase
    · exact .counting fire _ 0 hg hcall h hbase

theorem Phase.next {new : List Spawned}
    (h : Phase config.manager.libs outcome call base g stored new (t :: ws))
    (hid : base.id = call.id) (hsweep : call.sweep = none)
    (hended : ∀ ended, env.ended = some ended → ended = outcome)
    (hstored : s.store.loadMission call.id = some stored)
    (hnext : Interleaving.next config env s t = some (s', ts)) :
    ∃ stored' new', s'.store.loadMission call.id = some stored' ∧ s'.spawned = new' ++ s.spawned ∧
      Phase config.manager.libs outcome call base (g ∧ t.InOrder config.manager.libs s) stored'
        (new' ++ new) (ts ++ ws) := by
  cases h with
  | resetting fire hg hcall h hbase =>
    cases hnext
    refine ⟨base, [], ?_, rfl, ?_⟩
    · rw [Observed.store_withStore, MissionStore.loadMission_saveMission, hbase, if_pos hid.symm]
    · have hgood : g ∧ (Task.resetThreadsToday fire).InOrder config.manager.libs s := ⟨hg, trivial⟩
      simp only [List.append_nil]
      exact phase_checked fire.reset hgood hcall hsweep rfl hbase
  | counting fire rest running hg hcall h hbase =>
    cases rest with
    | nil =>
      cases hnext
      refine ⟨stored, [], hstored, rfl, ?_⟩
      split
      · rw [hcall, returns_of_sweep hsweep]
        exact .refused
      · exact .rating fire ⟨hg, trivial⟩ hcall h hbase
    | cons tid rest =>
      cases hnext
      exact ⟨stored, [], hstored, rfl, .counting fire rest _ ⟨hg, trivial⟩ hcall h hbase⟩
  | rating fire hg hcall h hbase =>
    have hgood : g ∧ (Task.checkUserRate fire).InOrder config.manager.libs s := ⟨hg, trivial⟩
    obtain ⟨fires, rfl, rfl | rfl⟩ := next_checkUserRate hnext
    · exact ⟨stored, [], hstored, rfl, .spawning fire hgood hcall h hbase⟩
    · refine ⟨stored, [], hstored, rfl, ?_⟩
      rw [hcall, returns_of_sweep hsweep]
      exact .refused
  | spawning fire hg hcall h hbase =>
    rcases next_spawnThread hnext with ⟨rfl, rfl⟩ | ⟨tid, thread, huse, rfl, rfl⟩
    · refine ⟨stored, [], hstored, rfl, ?_⟩
      rw [hcall, returns_of_sweep hsweep]
      exact .refused
    · -- a thread that is spawned is in no history yet
      have hnew : tid ∉ base.threadHistory := by
        rw [← h]
        exact Observed.not_mem_threadHistory huse hstored
      refine ⟨stored, [⟨fire.call.id, tid, env.fireInstant⟩], hstored, rfl, ?_⟩
      rw [hcall]
      have hgood : g ∧ (Task.spawnThread fire).InOrder config.manager.libs s := ⟨hg, trivial⟩
      refine .arming fire tid env.fireInstant _ _ hnew hcall hbase ?_ (.waiting hgood h)
      rw [← hbase]
      exact recorded_firedMission ..
  | arming fire tid firedAt updated ws hnew hcall hbase hupdated hws =>
    cases hnext
    refine ⟨stored, [], hstored, rfl, .saving fire tid firedAt updated ws hnew hcall
      hbase hupdated ?_⟩
    simpa only [Task.InOrder, and_true] using hws
  | saving fire tid firedAt updated ws hnew hcall hbase hupdated hws =>
    cases hnext
    refine ⟨updated, [], ?_, rfl, .recording fire tid firedAt ws hnew hcall ?_⟩
    · rw [Observed.store_withStore, MissionStore.loadMission_saveMission, hupdated.id,
        if_pos hid.symm]
    · -- what the watcher has written by now is overwritten
      exact hws.saved hnew hcall hbase hupdated hstored
  | recording fire tid firedAt ws hnew hcall hws =>
    cases hnext
    refine ⟨stored, [], hstored, rfl, ?_⟩
    rw [hcall, returns_of_sweep hsweep]
    refine .returned tid firedAt ws hnew ?_
    simpa only [Task.InOrder, and_true] using hws
  | returned tid firedAt ws hnew hws =>
    have hnil : ws = [] := by cases hws <;> rfl
    subst hnil
    obtain ⟨stored', hstored', hspawned, hws'⟩ := hws.next hnew hid hended hstored hnext
    rw [List.append_nil]
    exact ⟨stored', [], hstored', hspawned, .returned tid firedAt _ hnew hws'⟩

theorem Phase.next_watcher {new : List Spawned} {front back : List Task} {u : Task}
    (h : Phase config.manager.libs outcome call base g stored new (u :: (front ++ t :: back)))
    (hid : base.id = call.id) (hended : ∀ ended, env.ended = some ended → ended = outcome)
    (hstored : s.store.loadMission call.id = some stored)
    (hnext : Interleaving.next config env s t = some (s', ts)) :
    ∃ stored', s'.store.loadMission call.id = some stored' ∧ s'.spawned = s.spawned ∧
      Phase config.manager.libs outcome call base (g ∧ t.InOrder config.manager.libs s) stored'
        new (u :: (front ++ ts ++ back)) := by
  generalize hl : u :: (front ++ t :: back) = l at h
  have hone : ∀ {v : Task} {ws : List Task}, u :: (front ++ t :: back) = v :: ws →
      ws.length ≤ 1 → front = [] ∧ back = [] ∧ v = u ∧ ws = [t] := by
    rintro v ws ⟨⟩ hlen
    simp only [List.length_append, List.length_cons] at hlen
    obtain rfl : front = [] := List.length_eq_zero_iff.mp (by omega)
    obtain rfl : back = [] := List.length_eq_zero_iff.mp (by omega)
    exact ⟨rfl, rfl, rfl, rfl⟩
  cases h with
  | arming fire tid firedAt updated ws hnew hcall hbase hupdated hws =>
    obtain ⟨rfl, rfl, rfl, rfl⟩ := hone hl hws.length_le
    obtain ⟨stored', hstored', hspawned, hws'⟩ := hws.next hnew hid hended hstored hnext
    rw [List.append_nil]
    exact ⟨stored', hstored', hspawned, .arming fire tid firedAt updated ts hnew hcall hbase
      hupdated hws'⟩
  | saving fire tid firedAt updated ws hnew hcall hbase hupdated hws =>
    obtain ⟨rfl, rfl, rfl, rfl⟩ := hone hl hws.length_le
    obtain ⟨stored', hstored', hspawned, hws'⟩ := hws.next hnew hid hended hstored hnext
    rw [List.append_nil]
    exact ⟨stored', hstored', hspawned, .saving fire tid firedAt updated ts hnew hcall hbase
      hupdated hws'⟩
  | recording fire tid firedAt ws hnew hcall hws =>
    obtain ⟨rfl, rfl, rfl, rfl⟩ := hone hl hws.length_le
    obtain ⟨stored', hstored', hspawned, hws'⟩ := hws.next hnew hid hended hstored hnext
    rw [List.append_nil]
    exact ⟨stored', hstored', hspawned, .recording fire tid firedAt ts hnew hcall hws'⟩
  | returned tid firedAt ws hnew hws =>
    -- the watcher is the only task
    cases hws <;> simp at hl
  | _ => simp at hl

def InPhase (libs : Libraries) (outcome : ThreadOutcome) (call : FireCall) (base : Mission)
    (before : List Spawned) (g : Prop) (p : Pool Observed Task) : Prop :=
  ∃ stored new, p.shared.store.loadMission call.id = some stored ∧
    p.shared.spawned = new ++ before ∧ Phase libs outcome call base g stored new p.tasks

theorem InPhase.step {before : List Spawned} {p p' : Pool Observed Task} {a : Action}
    (h : InPhase config.manager.libs outcome call base before g p)
    (hid : base.id = call.id) (hsweep : call.sweep = none) (ha : Undisturbed outcome a)
    (hstep : Interleaving.step config p a = some p') :
    InPhase config.manager.libs outcome call base before (g ∧ InOrder config.manager.libs p a)
      p' := by
  obtain ⟨stored, new, hstored, hspawned, hphase⟩ := h
  cases a with
  | call task => exact absurd ha not_false
  | transition tid state =>
    simp only [Interleaving.step] at hstep
    split at hstep
    · cases hstep
    · split_ifs at hstep
      cases hstep
      refine ⟨stored, new, hstored, hspawned, ?_⟩
      simpa only [InOrder, and_true] using hphase
  | advance i env =>
    obtain ⟨front, t, back, s', ts, htasks, hi, hnext, rfl⟩ := Pool.advance_eq_some_iff.mp hstep
    have horder : InOrder config.manager.libs p (.advance i env) ↔
        t.InOrder config.manager.libs p.shared := by
      have hget : p.tasks[i]? = some t := by simp [htasks, ← hi]
      simp [InOrder, hget]
    rw [horder]
    rw [htasks] at hphase
    cases front with
    | nil =>
      obtain ⟨stored', new', hstored', hspawned', hphase'⟩ :=
        hphase.next hid hsweep ha hstored hnext
      refine ⟨stored', new' ++ new, hstored', ?_, hphase'⟩
      rw [hspawned', hspawned, List.append_assoc]
    | cons u front =>
      obtain ⟨stored', hstored', hspawned', hphase'⟩ :=
        hphase.next_watcher hid ha hstored hnext
      exact ⟨stored', new, hstored', hspawned'.trans hspawned, hphase'⟩

theorem InPhase.kept_iff {before : List Spawned} {p : Pool Observed Task} {as : List Action}
    (h : InPhase config.manager.libs outcome call base before g p)
    (hid : base.id = call.id) (hsweep : call.sweep = none)
    (has : ∀ a ∈ as, Undisturbed outcome a)
    (hr : run (Interleaving.step config) p as = some ⟨s', []⟩)
    (hspawned : s'.spawned = ⟨call.id, tid, firedAt⟩ :: before) :
    ∃ m', s'.store.loadMission call.id = some m' ∧
      (Kept config.manager.libs outcome tid base m' ↔
        g ∧ Along (Interleaving.step config) (InOrder config.manager.libs) p as) := by
  induction as generalizing p g with
  | nil =>
    cases hr
    obtain ⟨stored, new, hstored, hnew, hphase⟩ := h
    rw [hspawned] at hnew
    cases hphase with
    | refused => exact absurd hnew (List.cons_ne_self _ _)
    | returned tid' firedAt' ws hfresh hws =>
      cases hnew
      cases hws with
      | done hkept => exact ⟨stored, hstored, by rw [hkept, Along, and_true]⟩
  | cons a as ih =>
    obtain ⟨p', hstep, hr⟩ := run_cons_eq_some.mp hr
    have hphase := h.step hid hsweep (has a List.mem_cons_self) hstep
    obtain ⟨m', hm', hiff⟩ := ih hphase (fun b hb => has b (List.mem_cons_of_mem a hb)) hr
    refine ⟨m', hm', hiff.trans ?_⟩
    have halong : Along (Interleaving.step config) (InOrder config.manager.libs) p (a :: as) ↔
        InOrder config.manager.libs p a ∧
          Along (Interleaving.step config) (InOrder config.manager.libs) p' as := by
      simp [Along, hstep]
    rw [halong, and_assoc]

theorem phase_loaded {m : Mission} (hsweep : call.sweep = none)
    (hbase : Manager.countedToday config.manager env.toCallEnv m = base) :
    Phase config.manager.libs outcome call base True m [] (Fire.loaded config env call m) := by
  unfold Fire.loaded
  split_ifs with hallowed hmay hstale
  · rw [returns_of_sweep hsweep]
    exact .refused
  · rw [returns_of_sweep hsweep]
    exact .refused
  · rw [Manager.countedToday, if_pos hstale] at hbase
    exact .resetting ⟨call, m, env.now⟩ trivial rfl rfl hbase
  · rw [Manager.countedToday, if_neg hstale] at hbase
    exact phase_checked ⟨call, m, env.now⟩ trivial rfl hsweep hbase hbase

end Steps

/-- **The outcome of a fire is kept** exactly if it does not save over a new approach, and the
outcome can be read. -/
theorem kept_iff_inOrder {config : HostConfig} {env : StepEnv} {outcome : ThreadOutcome}
    {call : FireCall} {m : Mission} {tid : ThreadId} {firedAt : Instant} {s s' : Observed}
    {as : List Action} (hsweep : call.sweep = none)
    (hm : s.store.loadMission call.id = some m) (has : ∀ a ∈ as, Undisturbed outcome a)
    (hr : run (step config) ⟨s, [.fireMission call]⟩ (.advance 0 env :: as) = some ⟨s', []⟩)
    (hspawned : s'.spawned = ⟨call.id, tid, firedAt⟩ :: s.spawned) :
    ∃ m', s'.store.loadMission call.id = some m' ∧
      (Kept config.manager.libs outcome tid
          (Manager.countedToday config.manager env.toCallEnv m) m' ↔
        Along (step config) (InOrder config.manager.libs) ⟨s, [.fireMission call]⟩
          (.advance 0 env :: as)) := by
  obtain ⟨p, hstep, hr⟩ := run_cons_eq_some.mp hr
  have hp : p = ⟨{ s with clock := env.now }, Fire.loaded config env call m⟩ := by
    simp only [step, Pool.advance, List.getElem?_cons_zero, next, hm, Option.map_some,
      Option.some.injEq] at hstep
    rw [← hstep]
    simp
  have hphase : InPhase config.manager.libs outcome call
      (Manager.countedToday config.manager env.toCallEnv m) s.spawned True p := by
    rw [hp]
    exact ⟨m, [], hm, rfl, phase_loaded hsweep rfl⟩
  have hid : (Manager.countedToday config.manager env.toCallEnv m).id = call.id := by
    rw [Manager.countedToday, ← MissionStore.id_of_loadMission hm]
    split <;> rfl
  obtain ⟨m', hm', hiff⟩ := hphase.kept_iff hid hsweep has hr hspawned
  refine ⟨m', hm', hiff.trans ?_⟩
  simp [Along, hstep, InOrder, Task.InOrder]

def sampleOutcome : ThreadOutcome := .completed (some "Mission complete".toList)

def spawnSteps : List Action :=
  [sampleStep 0 0, .advance 0 (sampleEnv 0 5 none)]

def watchSteps (i : Nat) : List Action :=
  [.advance i (sampleEnv 0 0 (some sampleOutcome)), sampleStep i 0, sampleStep i 0]

def saveSteps : List Action := [sampleStep 0 0, sampleStep 0 0, sampleStep 0 0]

theorem inOrder_of_save_first :
    Along (step sampleConfig) (InOrder sampleLibraries)
      ⟨sampleSystem (sampleMission .manual), [.fireMission sampleFire]⟩
      (sampleStep 0 0 :: (spawnSteps ++ saveSteps ++ watchSteps 0)) := by
  have hundisturbed : ∀ a ∈ spawnSteps ++ saveSteps ++ watchSteps 0,
      Undisturbed sampleOutcome a := by
    intro a ha
    simp only [spawnSteps, saveSteps, watchSteps, sampleStep, List.mem_append, List.mem_cons,
      List.not_mem_nil, or_false] at ha
    rcases ha with ((rfl | rfl) | rfl | rfl | rfl) | rfl | rfl | rfl <;> rintro ended ⟨⟩ <;> rfl
  obtain ⟨m', hm', hiff⟩ := @kept_iff_inOrder sampleConfig (sampleEnv 0 0 none) sampleOutcome
    sampleFire (sampleMission .manual) 5 0 (sampleSystem (sampleMission .manual)) _
    (spawnSteps ++ saveSteps ++ watchSteps 0) rfl rfl hundisturbed rfl rfl
  cases hm'
  refine hiff.mp ⟨rfl, rfl, rfl, fun focus hfocus => ?_, rfl⟩
  cases hfocus

/-- **An outcome is lost**: a fire saves the mission that it loaded over what the watcher has
written. -/
theorem outcome_overwritten :
    ∃ s' m', run (step sampleConfig) ⟨sampleSystem (sampleMission .manual),
      [.fireMission sampleFire]⟩
        (sampleStep 0 0 :: (spawnSteps ++ watchSteps 1 ++ saveSteps)) = some ⟨s', []⟩ ∧
      s'.spawned = [⟨1, 5, 0⟩] ∧ s'.store.loadMission 1 = some m' ∧
      ¬ Kept sampleLibraries sampleOutcome 5 (sampleMission .manual) m' := by
  refine ⟨_, _, rfl, rfl, rfl, fun h => ?_⟩
  exact absurd h.approach (by decide)

end IronClaw.Missions.Interleaving
