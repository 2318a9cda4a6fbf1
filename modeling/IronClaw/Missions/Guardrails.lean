import IronClaw.Missions.Accounts
import IronClaw.Missions.Watcher

/-!
# The guardrails of missions

A fire checks budget and threads on the mission that it has loaded. That is sound as long as nobody
else has it in hand and the days by which threads are counted do not shift.
-/

namespace IronClaw.Missions.Interleaving

open Foundation (Json HashMap Pool run Along run_invariant)
open List (mem_append mem_append_left mem_cons mem_cons_self mem_singleton not_mem_nil)
open Option (filter_eq_some_iff isSome_iff_exists map_eq_some_iff)

/-- Nobody loads a mission, in order to save it, that another task has in hand. -/
def Exclusive (p : Pool Observed Task) : Action → Prop
  | .advance i _ => ∀ t id, p.tasks[i]? = some t → t.loads = some id →
    ∀ u ∈ p.others i, ∀ m, u.inHand = some m → m.id ≠ id
  | _ => True

def Task.isIdle : Task → Bool
  | watchOutcome _ _ _ => true
  | t => t.isEntry

/-- No operation takes a step while another one is under way. -/
def NonOverlapping (p : Pool Observed Task) : Action → Prop
  | .advance i _ => ∀ u ∈ p.others i, u.isIdle = true
  | _ => True

instance (p : Pool Observed Task) (a : Action) : Decidable (NonOverlapping p a) :=
  match a with
  | .call _ => isTrue trivial
  | .advance i _ => inferInstanceAs (Decidable (∀ u ∈ p.others i, u.isIdle = true))
  | .transition _ _ => isTrue trivial

def Known (p : Pool Observed Task) (m : Mission) : Prop :=
  (∃ id, p.shared.store.loadMission id = some m) ∨ ∃ t ∈ p.tasks, t.inHand = some m

/-- The date of a reading is no earlier than that of the last one, in any mission's time zone. -/
def DaysAdvance (libs : Libraries) (p : Pool Observed Task) (now : Instant) : Prop :=
  ∀ m, Known p m → day libs m p.shared.clock ≤ day libs m now

/-- A fire must not pass midnight before its spawn, and reads its cron expression; updates keep the
time zone. -/
def Task.KeepsDays (libs : Libraries) (p : Pool Observed Task) (env : StepEnv) : Task → Prop
  | fireMission _ => DaysAdvance libs p env.now
  | spawnThread fire => DaysAdvance libs p env.fireInstant ∧
    day libs fire.mission fire.now = day libs fire.mission env.fireInstant ∧
    ∀ expression timezone, fire.mission.cadence = .cron expression timezone →
      ∃ next, nextCronFire libs env.fireInstant expression timezone = .ok next
  | updateMission id _ updates => ∀ m m', p.shared.store.loadMission id = some m →
    updates.apply libs env.now m = .ok m' →
    budgetZone m' = budgetZone m ∨ m.threadHistory = [] ∧ m.threadsToday = 0
  | _ => True

def KeepsDays (libs : Libraries) (p : Pool Observed Task) : Action → Prop
  | .advance i env => ∀ t, p.tasks[i]? = some t → t.KeepsDays libs p env
  | _ => True

def runningOf (s : Observed) (tids : List ThreadId) : Nat :=
  tids.countP (Manager.isRunning s.host.system.threads)

/-- When a thread was spawned, no more were on that day than `maxThreadsPerDay`. -/
def WithinDailyBudget (libs : Libraries) (p p' : Pool Observed Task) : Prop :=
  ∀ sp, p'.shared.spawned = sp :: p.shared.spawned →
    ∃ m, p.shared.store.loadMission sp.mission = some m ∧
      (m.maxThreadsPerDay ≠ 0 →
        spawnedOn libs m p'.shared.spawned (day libs m sp.firedAt) ≤ m.maxThreadsPerDay)

/-- When a thread was spawned, no more of its mission run than `maxConcurrent`. -/
def WithinConcurrency (p p' : Pool Observed Task) : Prop :=
  ∀ sp, p'.shared.spawned = sp :: p.shared.spawned →
    ∃ m, p.shared.store.loadMission sp.mission = some m ∧
      (∀ other ∈ p.shared.spawned, other.mission = sp.mission → other.thread ∈ m.threadHistory) ∧
      (m.maxConcurrent ≠ 0 →
        runningOf p'.shared (m.threadHistory ++ [sp.thread]) ≤ m.maxConcurrent)

/-- Where the daily budget stops a fire, it is used up by threads spawned on that day. -/
def BlocksFairly (config : HostConfig) (p : Pool Observed Task) : Action → Prop
  | .advance i env => ∀ call m, p.tasks[i]? = some (.fireMission call) →
    p.shared.store.loadMission call.id = some m →
    Fire.withinBudget (Manager.countedToday config.manager env.toCallEnv m) = false →
    m.maxThreadsPerDay ≤ spawnedOn config.manager.libs m p.shared.spawned
      (day config.manager.libs m env.now)
  | _ => True

def Task.isSaving (id : MissionId) : Task → Prop
  | armCooldown fire _ _ _ => fire.call.id = id
  | saveFired fire _ _ => fire.call.id = id
  | _ => False

/-- The record of a stored mission lists and counts its threads, unless the fire has not saved it.
-/
def Accounted (libs : Libraries) (p : Pool Observed Task) : Prop :=
  (∀ sp ∈ p.shared.spawned, (p.shared.store.loadMission sp.mission).isSome) ∧
  ∀ id m, p.shared.store.loadMission id = some m →
    Settled libs p.shared m ∨ ∃ t ∈ p.tasks, t.isSaving id

def SameButStatus (m m' : Mission) : Prop :=
  m' = { m with status := m'.status, updatedAt := m'.updatedAt }

/-- The stored mission is the fire's, but for the status, and its accounts are settled. -/
structure InHand (libs : Libraries) (s : Observed) (fire : Fire) : Prop where
  id : fire.mission.id = fire.call.id
  settled : Settled libs s fire.mission
  stored : ∃ m, s.store.loadMission fire.call.id = some m ∧ SameButStatus fire.mission m

structure Checked (libs : Libraries) (s : Observed) (fire : Fire) : Prop extends
    InHand libs s fire where
  fresh : threadsTodayIsStale libs fire.mission fire.now = false
  budget : Fire.withinBudget fire.mission = true

def Room (s : Observed) (m : Mission) : Prop :=
  m.maxConcurrent ≠ 0 → runningOf s m.threadHistory < m.maxConcurrent

/-- The fire has spawned its thread, and the mission that it is going to save is settled. -/
structure Fired (libs : Libraries) (s : Observed) (fire : Fire) (updated : Mission) : Prop where
  id : fire.mission.id = fire.call.id
  updatedId : updated.id = fire.call.id
  zone : budgetZone updated = budgetZone fire.mission
  settled : Settled libs s updated
  stored : (s.store.loadMission fire.call.id).isSome

def Assertion (libs : Libraries) (s : Observed) : Task → Prop
  | .resetThreadsToday fire => InHand libs s fire ∧
    threadsTodayIsStale libs fire.mission fire.now = true ∧
    day libs fire.mission fire.now ≤ day libs fire.mission s.clock
  | .countRunning fire rest running => Checked libs s fire ∧
    ∃ counted, fire.mission.threadHistory.reverse = counted ++ rest ∧ runningOf s counted ≤ running
  | .checkUserRate fire => Checked libs s fire ∧ Room s fire.mission
  | .spawnThread fire => Checked libs s fire ∧ Room s fire.mission
  | .armCooldown fire _ _ updated => Fired libs s fire updated
  | .saveFired fire _ updated => Fired libs s fire updated
  | .watchOutcome id tid firedAt => ⟨id, tid, firedAt⟩ ∈ s.spawned
  | .processOutcome id tid firedAt _ => ⟨id, tid, firedAt⟩ ∈ s.spawned
  | .saveMission kind m => Settled libs s m ∧
    ((s.store.loadMission m.id).isSome ∨
      kind = .created ∧ m.id ∈ s.drawn)
  | _ => True

def Apart (t u : Task) : Prop := ∀ m m', t.inHand = some m → u.inHand = some m' → m.id ≠ m'.id

def Guarded (libs : Libraries) (p : Pool Observed Task) : Prop :=
  Pool.Holds (fun _ => True) (Assertion libs) Apart p ∧ Accounted libs p

section Frame

variable {config : HostConfig} {libs : Libraries} {env : StepEnv} {s s' : Observed} {t u : Task}
  {ts : List Task} {id : MissionId} {m m' : Mission} {fire : Fire} {updated : Mission}

theorem SameButStatus.refl (m : Mission) : SameButStatus m m := rfl

theorem SameButStatus.trans {m₁ m₂ m₃ : Mission} (h : SameButStatus m₁ m₂)
    (h' : SameButStatus m₂ m₃) : SameButStatus m₁ m₃ := by
  rw [SameButStatus] at h h' ⊢
  rw [h', h]

theorem SameButStatus.settled (h : SameButStatus m m') (hm : Settled libs s m) :
    Settled libs s m' := by
  rw [h]
  exact hm.congr rfl rfl rfl rfl rfl

/-- What a step leaves of other missions: records but for the status, and threads that may have
ended. -/
structure Untouched (id : MissionId) (s s' : Observed) : Prop where
  stored : ∀ m, s.store.loadMission id = some m →
    ∃ m', s'.store.loadMission id = some m' ∧ SameButStatus m m'
  stored' : ∀ m', s'.store.loadMission id = some m' →
    ∃ m, s.store.loadMission id = some m ∧ SameButStatus m m'
  spawned : s'.spawned = s.spawned ∨ ∃ sp, sp.mission ≠ id ∧ s'.spawned = sp :: s.spawned
  running : ∀ m, s.store.loadMission id = some m → ∀ tid ∈ m.threadHistory,
    Manager.isRunning s'.host.system.threads tid = true →
    Manager.isRunning s.host.system.threads tid = true
  drawn : ∀ i ∈ s.drawn, i ∈ s'.drawn

theorem untouched_of_eq (hstore : s'.store = s.store) (hspawned : s'.spawned = s.spawned)
    (hthreads : s'.host.system.threads = s.host.system.threads) (hdrawn : s'.drawn = s.drawn) :
    Untouched id s s' where
  stored := fun m hm => ⟨m, by rwa [hstore], .refl m⟩
  stored' := fun m hm => ⟨m, by rwa [hstore] at hm, .refl m⟩
  spawned := .inl hspawned
  running := fun m hm tid htid hrunning => by rwa [hthreads] at hrunning
  drawn := fun i hi => by rwa [hdrawn]

theorem Untouched.isSome (h : Untouched id s s') (hs : (s.store.loadMission id).isSome) :
    (s'.store.loadMission id).isSome := by
  obtain ⟨m, hm⟩ := isSome_iff_exists.mp hs
  obtain ⟨m', hm', -⟩ := h.stored m hm
  exact isSome_iff_exists.mpr ⟨m', hm'⟩

theorem Untouched.settled (h : Untouched m.id s s') (hm : Settled libs s m)
    (hclock : day libs m s.clock ≤ day libs m s'.clock) : Settled libs s' m :=
  hm.frame h.spawned hclock

theorem Untouched.runningOf_le (h : Untouched id s s') (hm : s.store.loadMission id = some m)
    {tids : List ThreadId} (hsub : ∀ tid ∈ tids, tid ∈ m.threadHistory) :
    runningOf s' tids ≤ runningOf s tids :=
  List.countP_mono_left fun tid htid hrunning => h.running m hm tid (hsub tid htid) hrunning

theorem InHand.frame (h : InHand libs s fire) (hu : Untouched fire.mission.id s s')
    (hclock : day libs fire.mission s.clock ≤ day libs fire.mission s'.clock) :
    InHand libs s' fire where
  id := h.id
  settled := hu.settled h.settled hclock
  stored := by
    obtain ⟨m, hm, hsame⟩ := h.stored
    rw [← h.id] at hm ⊢
    obtain ⟨m', hm', hsame'⟩ := hu.stored m hm
    exact ⟨m', hm', hsame.trans hsame'⟩

theorem Checked.frame (h : Checked libs s fire) (hu : Untouched fire.mission.id s s')
    (hclock : day libs fire.mission s.clock ≤ day libs fire.mission s'.clock) :
    Checked libs s' fire where
  toInHand := h.toInHand.frame hu hclock
  fresh := h.fresh
  budget := h.budget

theorem InHand.runningOf_le (h : InHand libs s fire) (hu : Untouched fire.mission.id s s')
    {tids : List ThreadId} (hsub : ∀ tid ∈ tids, tid ∈ fire.mission.threadHistory) :
    runningOf s' tids ≤ runningOf s tids := by
  obtain ⟨m, hm, hsame⟩ := h.stored
  rw [← h.id] at hm
  refine hu.runningOf_le hm fun tid htid => ?_
  rw [hsame]
  exact hsub tid htid

theorem Fired.frame (h : Fired libs s fire updated) (hu : Untouched fire.mission.id s s')
    (hclock : day libs fire.mission s.clock ≤ day libs fire.mission s'.clock) :
    Fired libs s' fire updated where
  id := h.id
  updatedId := h.updatedId
  zone := h.zone
  settled := by
    have heq : updated.id = fire.mission.id := h.updatedId.trans h.id.symm
    rw [← heq] at hu
    refine hu.settled h.settled ?_
    simpa only [day, h.zone] using hclock
  stored := by
    have hs := h.stored
    rw [← h.id] at hs ⊢
    exact hu.isSome hs

theorem assertion_frame (h : Assertion libs s u)
    (hu : ∀ m, u.inHand = some m → Untouched m.id s s' ∧ day libs m s.clock ≤ day libs m s'.clock)
    (hspawned : ∀ sp ∈ s.spawned, sp ∈ s'.spawned) : Assertion libs s' u := by
  cases u with
  | resetThreadsToday fire =>
    obtain ⟨hun, hclock⟩ := hu _ rfl
    exact ⟨h.1.frame hun hclock, h.2.1, h.2.2.trans hclock⟩
  | countRunning fire rest running =>
    obtain ⟨hun, hclock⟩ := hu _ rfl
    obtain ⟨hchecked, counted, hcounted, hle⟩ := h
    refine ⟨hchecked.frame hun hclock, counted, hcounted, ?_⟩
    refine (hchecked.runningOf_le hun fun tid htid => ?_).trans hle
    rw [← List.mem_reverse, hcounted]
    exact mem_append_left _ htid
  | checkUserRate fire =>
    obtain ⟨hun, hclock⟩ := hu _ rfl
    refine ⟨h.1.frame hun hclock, fun hne => ?_⟩
    exact (h.1.runningOf_le hun fun tid htid => htid).trans_lt (h.2 hne)
  | spawnThread fire =>
    obtain ⟨hun, hclock⟩ := hu _ rfl
    refine ⟨h.1.frame hun hclock, fun hne => ?_⟩
    exact (h.1.runningOf_le hun fun tid htid => htid).trans_lt (h.2 hne)
  | armCooldown fire tid firedAt updated =>
    obtain ⟨hun, hclock⟩ := hu _ rfl
    exact Fired.frame h hun hclock
  | saveFired fire tid updated =>
    obtain ⟨hun, hclock⟩ := hu _ rfl
    exact Fired.frame h hun hclock
  | watchOutcome id tid firedAt => exact hspawned _ h
  | processOutcome id tid firedAt outcome => exact hspawned _ h
  | saveMission kind m =>
    obtain ⟨hun, hclock⟩ := hu _ rfl
    exact ⟨hun.settled h.1 hclock, h.2.imp hun.isSome fun hdrawn =>
      ⟨hdrawn.1, hun.drawn _ hdrawn.2⟩⟩
  | _ => trivial

theorem inHand_of_saves (h : Assertion libs s t) (hs : t.saves = some m) :
    ∃ m', t.inHand = some m' ∧ m'.id = m.id := by
  cases t with
  | resetThreadsToday fire =>
    cases hs
    exact ⟨fire.mission, rfl, rfl⟩
  | saveFired fire tid updated =>
    cases hs
    exact ⟨fire.mission, rfl, h.id.trans h.updatedId.symm⟩
  | saveMission kind m' =>
    cases hs
    exact ⟨m, rfl, rfl⟩
  | _ => cases hs

theorem loadMission_save_of_ne {store : MissionStore} (h : m.id ≠ id) :
    (store.saveMission m).loadMission id = store.loadMission id := by
  rw [MissionStore.loadMission_saveMission, if_neg fun heq => h heq.symm]

theorem untouched_of_next (hnext : next config env s t = some (s', ts)) (h : Assertion libs s t)
    (hne : ∀ m, t.inHand = some m → m.id ≠ id) : Untouched id s s' := by
  have hdrawn := drawn_of_next hnext
  cases change_of_next hnext with
  | none hstore hspawned hthreads =>
    refine ⟨fun m hm => ⟨m, ?_, .refl m⟩, fun m hm => ⟨m, ?_, .refl m⟩, .inl hspawned,
      fun m hm tid htid hrunning => ?_, hdrawn⟩
    · rwa [hstore]
    · rwa [hstore] at hm
    · rwa [hthreads] at hrunning
  | save m₁ hsaves hstore hspawned hthreads =>
    obtain ⟨m₀, hm₀, hid⟩ := inHand_of_saves h hsaves
    have hsame : s'.store.loadMission id = s.store.loadMission id := by
      rw [hstore]
      exact loadMission_save_of_ne fun heq => hne m₀ hm₀ (hid.trans heq)
    refine ⟨fun m hm => ⟨m, ?_, .refl m⟩, fun m hm => ⟨m, ?_, .refl m⟩, .inl hspawned,
      fun m hm tid htid hrunning => ?_, hdrawn⟩
    · rwa [hsame]
    · rwa [hsame] at hm
    · rwa [hthreads] at hrunning
  | status id' status htask hstore hspawned hthreads =>
    refine ⟨fun m hm => ?_, fun m' hm' => ?_, .inl hspawned, fun m hm tid htid hrunning => ?_,
      hdrawn⟩
    · rw [hstore, MissionStore.loadMission_updateMissionStatus, hm]
      split
      · exact ⟨_, rfl, rfl⟩
      · exact ⟨m, rfl, .refl m⟩
    · rw [hstore, MissionStore.loadMission_updateMissionStatus] at hm'
      split at hm'
      · obtain ⟨m, hm, rfl⟩ := map_eq_some_iff.mp hm'
        exact ⟨m, hm, rfl⟩
      · exact ⟨m', hm', .refl m'⟩
    · rwa [hthreads] at hrunning
  | spawn fire tid thread htask hfresh hstate =>
    subst htask hstate
    have hid : fire.call.id ≠ id := by
      rw [← h.1.id]
      exact hne _ rfl
    refine ⟨fun m hm => ⟨m, hm, .refl m⟩, fun m hm => ⟨m, hm, .refl m⟩,
      .inr ⟨_, hid, rfl⟩, fun m hm tid' htid' hrunning => ?_, hdrawn⟩
    -- the new thread is in no history
    have hne' : tid' ≠ tid := fun heq => Observed.not_mem_threadHistory hfresh hm (heq ▸ htid')
    rwa [← Manager.isRunning_congr ((HashMap.lookup_insert ..).trans (if_neg hne'))]

end Frame

section Own

variable {config : HostConfig} {libs : Libraries} {env : StepEnv} {s s' : Observed} {t t' : Task}
  {ts : List Task} {id : MissionId} {m m' : Mission} {fire : Fire}

theorem mem_returns {call : FireCall} {failed : Bool} (h : t ∈ call.returns failed) :
    ∃ trigger ids, t = .sweep trigger ids := by
  unfold FireCall.returns at h
  split at h
  · cases h
  · rename_i trigger ids _
    split at h
    · cases h
    · exact ⟨trigger, ids, mem_singleton.mp h⟩

theorem assertion_of_mem_returns {call : FireCall} {failed : Bool} (h : t ∈ call.returns failed) :
    Assertion libs s t := by
  obtain ⟨trigger, ids, rfl⟩ := mem_returns h
  trivial

theorem assertion_checked (h : InHand libs s fire)
    (hfresh : threadsTodayIsStale libs fire.mission fire.now = false)
    (ht : t ∈ Fire.checked env fire) : Assertion libs s t := by
  unfold Fire.checked at ht
  split_ifs at ht with hrefused hzero
  · exact assertion_of_mem_returns ht
  all_goals
    have hbudget : Fire.withinBudget fire.mission = true := by
      by_contra hbudget
      simp [hbudget] at hrefused
    rw [mem_singleton.mp ht]
  · exact ⟨⟨h, hfresh, hbudget⟩, fun hne => absurd hzero hne⟩
  · exact ⟨⟨h, hfresh, hbudget⟩, [], rfl, Nat.le_of_eq rfl⟩

theorem assertion_loaded {call : FireCall} (hid : m.id = call.id)
    (hm : s.store.loadMission call.id = some m) (hsettled : Settled config.manager.libs s m)
    (hclock : s.clock = env.now) (ht : t ∈ Fire.loaded config env call m) :
    Assertion config.manager.libs s t := by
  have hinHand : InHand config.manager.libs s ⟨call, m, env.now⟩ :=
    ⟨hid, hsettled, m, hm, .refl m⟩
  unfold Fire.loaded at ht
  split_ifs at ht with hallowed hmay hstale
  · exact assertion_of_mem_returns ht
  · exact assertion_of_mem_returns ht
  · rw [mem_singleton.mp ht]
    exact ⟨hinHand, hstale, by rw [hclock]⟩
  · exact assertion_checked hinHand (Bool.eq_false_of_not_eq_true hstale) ht

theorem assertion_reset (h : Assertion libs s (.resetThreadsToday fire))
    (ht : t ∈ Fire.checked env fire.reset) :
    Assertion libs (s.withStore (s.store.saveMission fire.reset.mission)) t := by
  obtain ⟨hinHand, hstale, hday⟩ := h
  have hreset : InHand libs (s.withStore (s.store.saveMission fire.reset.mission)) fire.reset := by
    refine ⟨hinHand.id, ?_, fire.reset.mission, ?_, .refl _⟩
    · exact (hinHand.settled.reset hstale hday).frame (.inl rfl) le_rfl
    · rw [Observed.store_withStore, MissionStore.loadMission_saveMission]
      exact if_pos hinHand.id.symm
  refine assertion_checked hreset ?_ ht
  rw [threadsTodayIsStale]
  exact if_pos rfl

theorem assertion_count {rest : List ThreadId} {running : Nat}
    (h : Assertion libs s (.countRunning fire rest running))
    (hnext : next config env s (.countRunning fire rest running) = some (s', ts)) (ht : t ∈ ts) :
    Assertion libs s' t := by
  obtain ⟨hchecked, counted, hcounted, hle⟩ := h
  cases rest with
  | nil =>
    cases hnext
    split at ht
    · exact assertion_of_mem_returns ht
    · rename_i hroom
      rw [mem_singleton.mp ht]
      refine ⟨hchecked, fun _ => ?_⟩
      rw [List.append_nil] at hcounted
      have hall : runningOf s fire.mission.threadHistory = runningOf s counted := by
        rw [← hcounted, runningOf, runningOf, List.countP_reverse]
      omega
  | cons tid rest =>
    cases hnext
    rw [mem_singleton.mp ht]
    refine ⟨hchecked, counted ++ [tid], ?_, ?_⟩
    · rw [hcounted, List.append_assoc, List.singleton_append]
    · rw [runningOf, List.countP_append, List.countP_singleton]
      change runningOf s counted + _ ≤ _
      split_ifs <;> omega

theorem accounts_of_firedMission {config : ManagerConfig} {env : CallEnv} (tid : ThreadId)
    (triggerPayload : Option Json)
    (hcron : ∀ expression timezone, m.cadence = .cron expression timezone →
      ∃ next, nextCronFire config.libs env.fireInstant expression timezone = .ok next) :
    (Manager.firedMission config env m tid triggerPayload).lastFireAt = some env.fireInstant ∧
      (Manager.firedMission config env m tid triggerPayload).cadence = m.cadence := by
  unfold Manager.firedMission
  dsimp only
  split
  · rename_i expression timezone hcadence
    obtain ⟨next, hnext⟩ := hcron expression timezone hcadence
    rw [hnext]
    exact ⟨rfl, rfl⟩
  · exact ⟨rfl, rfl⟩

theorem fresh_congr {now now' : Instant} (h : day libs m now = day libs m now') :
    threadsTodayIsStale libs m now = threadsTodayIsStale libs m now' := by
  rw [Bool.eq_iff_iff, threadsTodayIsStale_iff, threadsTodayIsStale_iff, h]

theorem fired_of_spawn {tid : ThreadId} {thread : Thread} (h : Checked config.manager.libs s fire)
    (hclock : day config.manager.libs fire.mission s.clock ≤
      day config.manager.libs fire.mission env.fireInstant)
    (hday : day config.manager.libs fire.mission fire.now =
      day config.manager.libs fire.mission env.fireInstant)
    (hcron : ∀ expression timezone, fire.mission.cadence = .cron expression timezone →
      ∃ next, nextCronFire config.manager.libs env.fireInstant expression timezone = .ok next) :
    Fired config.manager.libs (s.withThread fire.call.id tid thread env.fireInstant) fire
      (Manager.firedMission config.manager env.toCallEnv fire.mission tid
        fire.call.triggerPayload) := by
  have hrecorded := recorded_firedMission config.manager env.toCallEnv fire.mission tid
    fire.call.triggerPayload
  obtain ⟨hlast, hcadence⟩ := accounts_of_firedMission tid fire.call.triggerPayload hcron
  have hzone : budgetZone (Manager.firedMission config.manager env.toCallEnv fire.mission tid
      fire.call.triggerPayload) = budgetZone fire.mission := by
    rw [budgetZone, hcadence, budgetZone]
  refine ⟨h.id, hrecorded.id.trans h.id, hzone, ?_, ?_⟩
  · refine h.settled.fired ?_ hclock ?_ rfl hrecorded.id hrecorded.threadHistory
      hrecorded.threadsToday hlast hzone
    · rw [← fresh_congr hday]
      exact h.fresh
    · rw [h.id]
      rfl
  · obtain ⟨m, hm, -⟩ := h.stored
    exact isSome_iff_exists.mpr ⟨m, hm⟩

theorem inHand_of_isSaving (h : Assertion libs s t) (hs : t.isSaving id) :
    ∃ m, t.inHand = some m ∧ m.id = id := by
  cases t with
  | armCooldown fire tid firedAt updated => exact ⟨fire.mission, rfl, h.id.trans hs⟩
  | saveFired fire tid updated => exact ⟨fire.mission, rfl, h.id.trans hs⟩
  | _ => exact absurd hs not_false

theorem assertion_next {p : Pool Observed Task} (hnext : next config env p.shared t = some (s', ts))
    (h : Assertion config.manager.libs p.shared t) (hdays : t.KeepsDays config.manager.libs p env)
    (hunused : ∀ id, p.shared.store.loadMission id = none → ∀ sp ∈ p.shared.spawned,
      sp.mission ≠ id)
    (hloads : ∀ id m, t.loads = some id → p.shared.store.loadMission id = some m →
      Settled config.manager.libs p.shared m)
    (hknown : ∀ m, t.inHand = some m → Known p m) (ht : t' ∈ ts) :
    Assertion config.manager.libs s' t' := by
  cases t with
  | fireMission call =>
    simp only [next] at hnext
    split at hnext
    · cases hnext
      exact assertion_of_mem_returns ht
    · rename_i m hm
      cases hnext
      refine assertion_loaded (MissionStore.id_of_loadMission hm) hm ?_ rfl ht
      exact (hloads call.id m rfl hm).frame (.inl rfl) (hdays m (.inl ⟨call.id, hm⟩))
  | resetThreadsToday fire =>
    cases hnext
    exact assertion_reset h ht
  | countRunning fire rest running => exact assertion_count h hnext ht
  | checkUserRate fire =>
    obtain ⟨fires, rfl, rfl | rfl⟩ := next_checkUserRate hnext
    · rw [mem_singleton.mp ht]
      exact assertion_frame h (fun m hm => ⟨untouched_of_eq rfl rfl rfl rfl, le_rfl⟩) fun _ h => h
    · exact assertion_of_mem_returns ht
  | spawnThread fire =>
    rcases next_spawnThread hnext with ⟨rfl, rfl⟩ | ⟨tid, thread, hfresh, rfl, rfl⟩
    · exact assertion_of_mem_returns ht
    · obtain ⟨hclock, hday, hcron⟩ := hdays
      rcases mem_cons.mp ht with rfl | ht
      · exact fired_of_spawn h.1 (hclock fire.mission (hknown fire.mission rfl)) hday hcron
      · rw [mem_singleton.mp ht]
        exact mem_cons_self
  | armCooldown fire tid firedAt updated =>
    cases hnext
    rw [mem_singleton.mp ht]
    exact Fired.frame h (untouched_of_eq rfl rfl rfl rfl) le_rfl
  | watchOutcome id tid firedAt =>
    obtain ⟨outcome, -, hnext⟩ := map_eq_some_iff.mp hnext
    cases hnext
    rw [mem_singleton.mp ht]
    exact h
  | processOutcome id tid firedAt outcome =>
    simp only [next] at hnext
    split at hnext
    · cases hnext
      cases ht
    · rename_i m hm
      cases hnext
      rcases hw : processOutcome config.manager.libs env.toCallEnv tid firedAt outcome m with _ | w
      · rw [hw] at ht
        cases ht
      · rw [hw] at ht
        rw [mem_singleton.mp ht]
        have hsettled := hloads id m rfl hm
        have hid := MissionStore.id_of_loadMission hm
        refine ⟨hsettled.processOutcome (hsettled.listed _ h hid.symm) hw, .inl ?_⟩
        rw [id_of_processOutcome hw, hid, hm]
        rfl
  | createMission projectId userId name goal cadence notifyChannels =>
    simp only [next] at hnext
    split_ifs at hnext with hused
    split at hnext
    · cases hnext
      cases ht
    · cases hnext
      rw [mem_singleton.mp ht]
      rw [Bool.or_eq_true, not_or, Option.not_isSome_iff_eq_none] at hused
      refine ⟨Settled.of_unused (hunused env.newMissionId hused.1) rfl, .inr ⟨rfl, ?_⟩⟩
      exact mem_cons_self
  | updateMission id userId updates =>
    simp only [next] at hnext
    split at hnext
    · cases hnext
      cases ht
    · rename_i m hload
      have hm : p.shared.store.loadMission id = some m := (filter_eq_some_iff.mp hload).1
      split at hnext
      · cases hnext
        cases ht
      · rename_i updated hu
        cases hnext
        rw [mem_singleton.mp ht]
        have hsettled := hloads id m rfl hm
        have hid := (MissionUpdate.of_apply hu).1
        refine ⟨?_, .inl ?_⟩
        · rcases hdays m updated hm hu with hzone | ⟨hhistory, hzero⟩
          · exact hsettled.updated hu hzone
          · -- nothing was ever spawned for the mission
            refine Settled.of_unused (fun sp hsp hsid => ?_) ?_
            · have hmem := hsettled.listed sp hsp (hsid.trans hid)
              rw [hhistory] at hmem
              cases hmem
            · rw [(accounts_of_apply hu).2.1, hzero]
        · rw [hid, MissionStore.id_of_loadMission hm, hm]
          rfl
  | resumeMission id userId =>
    simp only [next] at hnext
    split at hnext
    · cases hnext
      cases ht
    · rename_i m hload
      have hm : p.shared.store.loadMission id = some m := (filter_eq_some_iff.mp hload).1
      split_ifs at hnext
      · split at hnext
        · cases hnext
          cases ht
        · cases hnext
          rw [mem_singleton.mp ht]
          rename_i nextFireAt _
          have hresumed : Settled config.manager.libs p.shared
              (Manager.resumedMission env.toCallEnv m nextFireAt) :=
            (hloads id m rfl hm).congr rfl rfl rfl rfl rfl
          refine ⟨hresumed.frame (.inl rfl) le_rfl, .inl ?_⟩
          change (p.shared.store.loadMission m.id).isSome = true
          rw [MissionStore.id_of_loadMission hm, hm]
          rfl
      · cases hnext
        cases ht
  | saveFired fire tid updated =>
    cases hnext
    rw [mem_singleton.mp ht]
    trivial
  | recordUserRate fire =>
    cases hnext
    exact assertion_of_mem_returns ht
  | saveMission kind m =>
    cases hnext
    cases kind <;> simp only [mem_singleton, not_mem_nil] at ht <;> rw [ht] <;> trivial
  | sweep trigger ids =>
    cases ids with
    | nil =>
      cases hnext
      cases ht
    | cons id ids =>
      cases hnext
      split at ht
      · split_ifs at ht <;> rw [mem_singleton.mp ht] <;> trivial
      · rw [mem_singleton.mp ht]
        trivial
  | hold trigger m ids =>
    cases hnext
    split_ifs at ht <;> rw [mem_singleton.mp ht] <;> trivial
  | pauseMission id userId =>
    cases hnext
    obtain ⟨m, -, rfl⟩ := map_eq_some_iff.mp (Option.mem_toList.mp ht)
    trivial
  | trigger trigger =>
    cases hnext
    split at ht <;> rw [mem_singleton.mp ht] <;> trivial
  | _ =>
    cases hnext
    simp only [mem_singleton, not_mem_nil] at ht
    try rw [ht]; trivial

theorem inHand_of_isPlain (h : t.isPlain = true) : t.inHand = none := by
  cases t <;> first | rfl | cases h

theorem inHand_of_next (hnext : next config env s t = some (s', ts)) (ht : t' ∈ ts)
    (hm : t'.inHand = some m) : (∃ m₀, t.inHand = some m₀ ∧ m₀.id = m.id) ∨ t.loads = some m.id ∨
      s.store.loadMission m.id = none ∧ m.id ∉ s.drawn := by
  have hloaded : ∀ {id m₁}, s.store.loadMission id = some m₁ → m₁.id = m.id →
      t.loads = some id → t.loads = some m.id := by
    intro id m₁ hm₁ hid hloads
    rw [hloads, ← hid, MissionStore.id_of_loadMission hm₁]
  cases follows_of_next hnext ht with
  | plain h =>
    rw [inHand_of_isPlain h] at hm
    cases hm
  | stale hm₁ _ _ _ =>
    cases hm
    exact .inr (.inl (hloaded hm₁ rfl rfl))
  | fresh hm₁ _ _ _ h =>
    cases h <;> cases hm <;> exact .inr (.inl (hloaded hm₁ rfl rfl))
  | reset h => cases h <;> cases hm <;> exact .inl ⟨_, rfl, rfl⟩
  | counting | counted | rated | spawned | armed =>
    cases hm
    exact .inl ⟨_, rfl, rfl⟩
  | processed hm₁ hw =>
    cases hm
    exact .inr (.inl (hloaded hm₁ (id_of_processOutcome hw).symm rfl))
  | created hid _ hfree hdrawn =>
    cases hm
    rw [hid]
    exact .inr (.inr ⟨hfree, hdrawn⟩)
  | updated hm₁ hu =>
    cases hm
    exact .inr (.inl (hloaded hm₁ (MissionUpdate.of_apply hu).1.symm rfl))
  | resumed hload _ _ =>
    cases hm
    exact .inr (.inl (hloaded (filter_eq_some_iff.mp hload).1 rfl rfl))
  | watched | ended | pausing | paused | completed | deactivated => cases hm

end Own

section Invariant

variable {config : HostConfig} {env : StepEnv} {p p' : Pool Observed Task} {a : Action}
  {front back ts : List Task} {t : Task} {s' : Observed} {id : MissionId} {m : Mission}

theorem apart_symm (t u : Task) (h : Apart t u) : Apart u t :=
  fun m m' hm hm' heq => h m' m hm' hm heq.symm

theorem reserved_of_assertion {libs : Libraries} {s : Observed} (h : Assertion libs s t)
    (hm : t.inHand = some m) : (s.store.loadMission m.id).isSome ∨ m.id ∈ s.drawn := by
  have hinHand : ∀ {fire : Fire}, InHand libs s fire →
      (s.store.loadMission fire.mission.id).isSome := by
    intro fire hfire
    obtain ⟨m', hm', -⟩ := hfire.stored
    rw [hfire.id, hm']
    rfl
  cases t with
  | resetThreadsToday fire =>
    cases hm
    exact .inl (hinHand h.1)
  | countRunning fire rest running =>
    cases hm
    exact .inl (hinHand h.1.toInHand)
  | checkUserRate fire =>
    cases hm
    exact .inl (hinHand h.1.toInHand)
  | spawnThread fire =>
    cases hm
    exact .inl (hinHand h.1.toInHand)
  | armCooldown fire tid firedAt updated =>
    cases hm
    rw [h.id]
    exact .inl h.stored
  | saveFired fire tid updated =>
    cases hm
    rw [h.id]
    exact .inl h.stored
  | saveMission kind m' =>
    cases hm
    exact h.2.imp_right And.right
  | _ => cases hm

theorem settled_of_free (h : Guarded config.manager.libs p) (htasks : p.tasks = front ++ t :: back)
    (hfree : ∀ u ∈ front ++ back, ∀ m, u.inHand = some m → m.id ≠ id) (ht : ¬ t.isSaving id)
    (hm : p.shared.store.loadMission id = some m) : Settled config.manager.libs p.shared m := by
  rcases h.2.2 id m hm with hsettled | ⟨u, hu, hsaving⟩
  · exact hsettled
  · exfalso
    have hassert := h.1.tasks u hu
    obtain ⟨m', hm', hid⟩ := inHand_of_isSaving hassert hsaving
    rw [htasks, mem_append, mem_cons] at hu
    rcases hu with hu | rfl | hu
    · exact hfree u (mem_append_left _ hu) m' hm' hid
    · exact ht hsaving
    · exact hfree u (List.mem_append_right _ hu) m' hm' hid

theorem day_le_of_next (hnext : next config env p.shared t = some (s', ts))
    (hdays : t.KeepsDays config.manager.libs p env) (hm : Known p m) :
    day config.manager.libs m p.shared.clock ≤ day config.manager.libs m s'.clock := by
  rcases clock_of_next hnext with heq | ⟨⟨call, rfl⟩, heq⟩ | ⟨⟨fire, rfl⟩, heq⟩
  · rw [heq]
  · rw [heq]
    exact hdays m hm
  · rw [heq]
    exact hdays.1 m hm

theorem spawned_subset_of_next (hnext : next config env p.shared t = some (s', ts)) :
    ∀ sp ∈ p.shared.spawned, sp ∈ s'.spawned := by
  cases change_of_next hnext with
  | none hstore hspawned hthreads => exact fun sp hsp => hspawned ▸ hsp
  | save m hsaves hstore hspawned hthreads => exact fun sp hsp => hspawned ▸ hsp
  | status id status htask hstore hspawned hthreads => exact fun sp hsp => hspawned ▸ hsp
  | spawn fire tid thread htask hfresh hstate =>
    subst hstate
    exact fun sp hsp => List.mem_cons_of_mem _ hsp

theorem apart_of_next (h : Guarded config.manager.libs p) (htasks : p.tasks = front ++ t :: back)
    (hnext : next config env p.shared t = some (s', ts))
    (hexclusive : ∀ id, t.loads = some id → ∀ u ∈ front ++ back, ∀ m, u.inHand = some m → m.id ≠ id)
    {u t' : Task} (hu : u ∈ front ++ back) (hapart : Apart t u) (ht' : t' ∈ ts) : Apart t' u := by
  have hassertu : Assertion config.manager.libs p.shared u :=
    h.1.tasks u (Pool.mem_of_split htasks hu)
  intro m m' hm hm' heq
  rcases inHand_of_next hnext ht' hm with ⟨m₀, hm₀, hid⟩ | hloads | ⟨hnone, hdrawn⟩
  · exact hapart m₀ m' hm₀ hm' (hid.trans heq)
  · exact hexclusive m.id hloads u hu m' hm' heq.symm
  · rcases reserved_of_assertion hassertu hm' with hsome | hin
    · rw [← heq, hnone] at hsome
      cases hsome
    · exact hdrawn (heq ▸ hin)

theorem length_of_next (hnext : next config env p.shared t = some (s', ts)) :
    ts.length ≤ 1 ∨ ∃ u id tid firedAt, ts = [u, .watchOutcome id tid firedAt] := by
  have hreturns : ∀ (call : FireCall) (failed), (call.returns failed).length ≤ 1 := by
    intro call failed
    unfold FireCall.returns
    split
    · exact Nat.zero_le 1
    · split <;> simp
  have hchecked : ∀ fire, (Fire.checked env fire).length ≤ 1 := by
    intro fire
    unfold Fire.checked
    split_ifs
    · exact hreturns ..
    · exact le_rfl
    · exact le_rfl
  cases t with
  | spawnThread fire =>
    -- only here a task becomes two: the rest of the fire, and the watcher of its thread
    rcases next_spawnThread hnext with ⟨rfl, rfl⟩ | ⟨tid, thread, hfresh, rfl, rfl⟩
    · exact .inl (hreturns ..)
    · exact .inr ⟨_, _, _, _, rfl⟩
  | fireMission call =>
    simp only [next] at hnext
    split at hnext <;> cases hnext
    · exact .inl (hreturns ..)
    · unfold Fire.loaded
      split_ifs
      · exact .inl (hreturns ..)
      · exact .inl (hreturns ..)
      · exact .inl le_rfl
      · exact .inl (hchecked _)
  | resetThreadsToday fire =>
    cases hnext
    exact .inl (hchecked _)
  | checkUserRate fire =>
    obtain ⟨fires, rfl, rfl | rfl⟩ := next_checkUserRate hnext
    · exact .inl le_rfl
    · exact .inl (hreturns ..)
  | countRunning fire rest running =>
    cases rest with
    | nil =>
      cases hnext
      split
      · exact .inl (hreturns ..)
      · exact .inl le_rfl
    | cons tid rest =>
      cases hnext
      exact .inl le_rfl
  | recordUserRate fire =>
    cases hnext
    exact .inl (hreturns ..)
  | watchOutcome id tid firedAt =>
    obtain ⟨outcome, -, hnext⟩ := map_eq_some_iff.mp hnext
    cases hnext
    exact .inl le_rfl
  | processOutcome id tid firedAt outcome =>
    simp only [next] at hnext
    split at hnext <;> cases hnext
    · exact .inl (Nat.zero_le 1)
    · exact .inl Option.length_toList_le
  | pauseMission id userId =>
    cases hnext
    exact .inl Option.length_toList_le
  | sweep trigger ids =>
    cases ids <;> cases hnext
    · exact .inl (Nat.zero_le 1)
    · refine .inl ?_
      split
      · split <;> exact le_rfl
      · exact le_rfl
  | saveMission kind m =>
    cases hnext
    refine .inl ?_
    cases kind <;> exact Nat.le_of_ble_eq_true rfl
  | createMission projectId userId name goal cadence notifyChannels =>
    simp only [next] at hnext
    refine .inl ?_
    split_ifs at hnext
    split at hnext <;> cases hnext <;> exact Nat.le_of_ble_eq_true rfl
  | updateMission id userId updates =>
    simp only [next] at hnext
    refine .inl ?_
    split at hnext
    · cases hnext
      exact Nat.le_of_ble_eq_true rfl
    · split at hnext <;> cases hnext <;> exact Nat.le_of_ble_eq_true rfl
  | resumeMission id userId =>
    simp only [next] at hnext
    refine .inl ?_
    split at hnext
    · cases hnext
      exact Nat.le_of_ble_eq_true rfl
    · split_ifs at hnext
      · split at hnext <;> cases hnext <;> exact Nat.le_of_ble_eq_true rfl
      · cases hnext
        exact Nat.le_of_ble_eq_true rfl
  | trigger trigger =>
    cases hnext
    refine .inl ?_
    split <;> exact le_rfl
  | hold trigger m ids =>
    cases hnext
    refine .inl ?_
    split_ifs <;> exact le_rfl
  | _ =>
    cases hnext
    exact .inl (Nat.le_of_ble_eq_true rfl)

theorem pairwise_of_next (hnext : next config env p.shared t = some (s', ts)) :
    ts.Pairwise Apart := by
  have hlength := length_of_next hnext
  clear hnext
  rcases hlength with hle | ⟨u, id, tid, firedAt, rfl⟩
  · cases ts with
    | nil => exact List.Pairwise.nil
    | cons u ts =>
      have hnil : ts = [] := List.length_eq_zero_iff.mp (Nat.le_zero.mp
        (Nat.le_of_succ_le_succ hle))
      rw [hnil]
      exact List.pairwise_singleton _ _
  · refine List.pairwise_pair.mpr fun m m' _ hm' => ?_
    cases hm'

theorem loads_eq_none_of_isSaving (h : t.isSaving id) : t.loads = none := by
  cases t with
  | armCooldown fire tid firedAt updated => rfl
  | saveFired fire tid updated => rfl
  | _ => exact absurd h not_false

theorem store_of_saves (hnext : next config env p.shared t = some (s', ts))
    (hs : t.saves = some m) : s'.store = p.shared.store.saveMission m := by
  cases t with
  | resetThreadsToday fire =>
    cases hnext
    cases hs
    rfl
  | saveFired fire tid updated =>
    cases hnext
    cases hs
    rfl
  | saveMission kind m' =>
    cases hnext
    cases hs
    rfl
  | _ => cases hs

theorem settled_of_saves (hnext : next config env p.shared t = some (s', ts))
    (h : Assertion config.manager.libs p.shared t) (hs : t.saves = some m) :
    Settled config.manager.libs s' m := by
  cases t with
  | resetThreadsToday fire =>
    cases hnext
    cases hs
    exact (h.1.settled.reset h.2.1 h.2.2).frame (.inl rfl) le_rfl
  | saveFired fire tid updated =>
    cases hnext
    cases hs
    exact Settled.frame (Fired.settled h) (.inl rfl) le_rfl
  | saveMission kind m' =>
    cases hnext
    cases hs
    exact h.1.frame (.inl rfl) le_rfl
  | _ => cases hs

theorem isSaving_of_next (hnext : next config env p.shared t = some (s', ts)) (ht : t.isSaving id)
    (hsaves : t.saves = none) : ∃ t' ∈ ts, t'.isSaving id := by
  cases t with
  | armCooldown fire tid firedAt updated =>
    cases hnext
    exact ⟨_, mem_singleton.mpr rfl, ht⟩
  | saveFired fire tid updated => cases hsaves
  | _ => exact absurd ht not_false

theorem accounted_of_untouched (h : Guarded config.manager.libs p)
    (htasks : p.tasks = front ++ t :: back) (hnext : next config env p.shared t = some (s', ts))
    (hdays : t.KeepsDays config.manager.libs p env)
    (hne : ∀ m, t.inHand = some m → m.id ≠ id) {m' : Mission}
    (hm' : s'.store.loadMission id = some m') :
    Settled config.manager.libs s' m' ∨ ∃ u ∈ front ++ ts ++ back, u.isSaving id := by
  have hassert : Assertion config.manager.libs p.shared t := h.1.tasks t (by simp [htasks])
  have hun := untouched_of_next hnext hassert hne
  obtain ⟨m, hm, hsame⟩ := hun.stored' m' hm'
  have hid := MissionStore.id_of_loadMission hm
  rcases h.2.2 id m hm with hsettled | ⟨u, hu, hsaving⟩
  · rw [← hid] at hun
    exact .inl (hsame.settled (hun.settled hsettled (day_le_of_next hnext hdays (.inl ⟨id, hm⟩))))
  · refine .inr ⟨u, ?_, hsaving⟩
    rw [htasks, mem_append, mem_cons] at hu
    rw [mem_append, mem_append]
    rcases hu with hu | rfl | hu
    · exact .inl (.inl hu)
    · -- the task itself does not have the mission in hand
      obtain ⟨m₀, hm₀, hid₀⟩ := inHand_of_isSaving hassert hsaving
      exact absurd hid₀ (hne m₀ hm₀)
    · exact .inr hu

theorem accounted_of_inHand (h : Guarded config.manager.libs p)
    (htasks : p.tasks = front ++ t :: back) (hnext : next config env p.shared t = some (s', ts))
    (hdays : t.KeepsDays config.manager.libs p env) {m₀ m' : Mission} (hm₀ : t.inHand = some m₀)
    (hm' : s'.store.loadMission m₀.id = some m') :
    Settled config.manager.libs s' m' ∨ ∃ u ∈ front ++ ts ++ back, u.isSaving m₀.id := by
  have hassert : Assertion config.manager.libs p.shared t := h.1.tasks t (by simp [htasks])
  have hmem : ∀ u ∈ ts, u ∈ front ++ ts ++ back := fun u hu =>
    mem_append_left _ (List.mem_append_right _ hu)
  cases hsaves : t.saves with
  | some m =>
    obtain ⟨m₁, hm₁, hid⟩ := inHand_of_saves hassert hsaves
    rw [hm₀] at hm₁
    cases hm₁
    rw [store_of_saves hnext hsaves, MissionStore.loadMission_saveMission, if_pos hid] at hm'
    cases hm'
    exact .inl (settled_of_saves hnext hassert hsaves)
  | none =>
    cases change_of_next hnext with
    | none hstore hspawned hthreads =>
      rw [hstore] at hm'
      rcases h.2.2 m₀.id m' hm' with hsettled | ⟨u, hu, hsaving⟩
      · have hknown : Known p m' := .inl ⟨m₀.id, hm'⟩
        exact .inl (hsettled.frame (.inl hspawned) (day_le_of_next hnext hdays hknown))
      · obtain ⟨m₁, hm₁, hid⟩ := inHand_of_isSaving (h.1.tasks u hu) hsaving
        rw [htasks, mem_append, mem_cons] at hu
        have hother : u ∈ front ++ back → False := fun hmem =>
          h.1.apart_of_mem apart_symm htasks hmem m₀ m₁ hm₀ hm₁ hid.symm
        rcases hu with hu | rfl | hu
        · exact absurd (mem_append_left _ hu) hother
        · obtain ⟨v, hv, hvsaving⟩ := isSaving_of_next hnext hsaving hsaves
          exact .inr ⟨v, hmem v hv, hvsaving⟩
        · exact absurd (List.mem_append_right _ hu) hother
    | save m hsaves' hstore hspawned hthreads =>
      rw [hsaves] at hsaves'
      cases hsaves'
    | status id status htask hstore hspawned hthreads =>
      rcases htask with ⟨rfl, -⟩ | ⟨rfl, -⟩ <;> cases hm₀
    | spawn fire tid thread htask hfresh hstate =>
      subst htask
      cases hm₀
      rcases next_spawnThread hnext with ⟨rfl, -⟩ | ⟨tid', thread', -, -, rfl⟩
      · -- nothing was spawned, but the state has changed
        have hlen := congrArg (fun s : Observed => s.spawned.length) hstate
        simp [Observed.withThread] at hlen
      · exact .inr ⟨_, hmem _ mem_cons_self, hassert.1.id.symm⟩

theorem accounted_of_next (h : Guarded config.manager.libs p)
    (htasks : p.tasks = front ++ t :: back) (hnext : next config env p.shared t = some (s', ts))
    (hdays : t.KeepsDays config.manager.libs p env) :
    Accounted config.manager.libs ⟨s', front ++ ts ++ back⟩ := by
  have hassert : Assertion config.manager.libs p.shared t := h.1.tasks t (by simp [htasks])
  constructor
  · intro sp hsp
    have hkept : ∀ id, (p.shared.store.loadMission id).isSome → (s'.store.loadMission id).isSome :=
      fun id => isSome_of_next hnext
    cases change_of_next hnext with
    | none hstore hspawned hthreads => exact hkept _ (h.2.1 sp (hspawned ▸ hsp))
    | save m hsaves hstore hspawned hthreads => exact hkept _ (h.2.1 sp (hspawned ▸ hsp))
    | status id status htask hstore hspawned hthreads => exact hkept _ (h.2.1 sp (hspawned ▸ hsp))
    | spawn fire tid thread htask hfresh hstate =>
      subst htask hstate
      rcases mem_cons.mp hsp with rfl | hsp
      · obtain ⟨m, hm, -⟩ := hassert.1.stored
        exact isSome_iff_exists.mpr ⟨m, hm⟩
      · exact hkept _ (h.2.1 sp hsp)
  · intro id m' hm'
    by_cases hin : ∃ m₀, t.inHand = some m₀ ∧ m₀.id = id
    · obtain ⟨m₀, hm₀, rfl⟩ := hin
      exact accounted_of_inHand h htasks hnext hdays hm₀ hm'
    · exact accounted_of_untouched h htasks hnext hdays (fun m₀ hm₀ hid => hin ⟨m₀, hm₀, hid⟩) hm'

theorem Guarded.advance {i : Nat} (h : Guarded config.manager.libs p)
    (hexclusive : Exclusive p (.advance i env))
    (hdays : KeepsDays config.manager.libs p (.advance i env))
    (hstep : step config p (.advance i env) = some p') : Guarded config.manager.libs p' := by
  obtain ⟨front, t, back, s', ts, htasks, hi, hnext, rfl⟩ := Pool.advance_eq_some_iff.mp hstep
  have hget : p.tasks[i]? = some t := by simp [htasks, ← hi]
  have hfree : ∀ id, t.loads = some id → ∀ u ∈ front ++ back, ∀ m, u.inHand = some m → m.id ≠ id :=
    fun id hloads u hu => hexclusive t id hget hloads u (Pool.mem_others_of_mem htasks hi hu)
  have hdays' := hdays t hget
  have hassert : Assertion config.manager.libs p.shared t := h.1.tasks t (by simp [htasks])
  have hunused : ∀ id, p.shared.store.loadMission id = none →
      ∀ sp ∈ p.shared.spawned, sp.mission ≠ id := by
    intro id hnone sp hsp heq
    have hsome := h.2.1 sp hsp
    rw [heq, hnone] at hsome
    cases hsome
  have hloads : ∀ id m, t.loads = some id → p.shared.store.loadMission id = some m →
      Settled config.manager.libs p.shared m := by
    intro id m hid hm
    refine settled_of_free h htasks (hfree id hid) (fun hsaving => ?_) hm
    rw [loads_eq_none_of_isSaving hsaving] at hid
    cases hid
  refine ⟨h.1.replace apart_symm htasks trivial ?_ ?_ ?_ (pairwise_of_next hnext),
    accounted_of_next h htasks hnext hdays'⟩
  · intro t' ht'
    refine assertion_next hnext hassert hdays' hunused hloads (fun m hm => .inr ⟨t, ?_, hm⟩) ht'
    simp [htasks]
  · intro u hu hassertu hapart
    have hmem : u ∈ p.tasks := Pool.mem_of_split htasks hu
    refine assertion_frame hassertu (fun m hm => ⟨?_, ?_⟩) (spawned_subset_of_next hnext)
    · exact untouched_of_next hnext hassert fun m₀ hm₀ => hapart m₀ m hm₀ hm
    · exact day_le_of_next hnext hdays' (.inr ⟨u, hmem, hm⟩)
  · exact fun u hu hapart t' ht' => apart_of_next h htasks hnext hfree hu hapart ht'

theorem live_of_canTransitionTo {state state' : ThreadState}
    (h : state.canTransitionTo state' = true) : state ≠ .done ∧ state ≠ .failed := by
  cases state <;> cases state' <;> first | exact ⟨by decide, by decide⟩ | cases h

theorem untouched_of_transition {tid : ThreadId} {state : ThreadState} {thread : Thread}
    {s : Observed} (hthread : s.host.system.threads.lookup tid = some thread)
    (hstate : thread.state.canTransitionTo state = true) :
    Untouched id s (s.withThreadState tid state) where
  stored := fun m hm => ⟨m, hm, .refl m⟩
  stored' := fun m hm => ⟨m, hm, .refl m⟩
  spawned := .inl rfl
  running := by
    intro m hm tid' htid' hrunning
    by_cases heq : tid' = tid
    · obtain ⟨hdone, hfailed⟩ := live_of_canTransitionTo hstate
      rw [Manager.isRunning, heq, hthread]
      simp [hdone, hfailed]
    · rwa [← Manager.isRunning_congr ((HashMap.lookup_adjust ..).trans (if_neg heq))]
  drawn := fun i hi => hi

theorem assertion_of_isEntry {libs : Libraries} {s : Observed} (h : t.isEntry = true) :
    Assertion libs s t ∧ t.inHand = none := by
  cases t <;> first | exact ⟨trivial, rfl⟩ | cases h

theorem Guarded.of_step (h : Guarded config.manager.libs p) (hexclusive : Exclusive p a)
    (hdays : KeepsDays config.manager.libs p a) (hstep : step config p a = some p') :
    Guarded config.manager.libs p' := by
  cases a with
  | advance i env => exact h.advance hexclusive hdays hstep
  | call task =>
    simp only [step] at hstep
    split_ifs at hstep with hentry
    cases hstep
    obtain ⟨hassert, hnone⟩ := assertion_of_isEntry (s := p.shared) hentry
    refine ⟨h.1.start hassert fun u _ m m' _ hm' => ?_, h.2.1, fun id m hm => ?_⟩
    · rw [hnone] at hm'
      cases hm'
    · rcases h.2.2 id m hm with hsettled | ⟨u, hu, hsaving⟩
      · exact .inl hsettled
      · exact .inr ⟨u, mem_append_left _ hu, hsaving⟩
  | transition tid state =>
    simp only [step] at hstep
    split at hstep
    · cases hstep
    · rename_i thread hthread
      split_ifs at hstep with hstate
      cases hstep
      refine ⟨⟨trivial, fun u hu => ?_, h.1.apart⟩, h.2.1, fun id m hm => ?_⟩
      · exact assertion_frame (h.1.tasks u hu)
          (fun m _ => ⟨untouched_of_transition hthread hstate, le_rfl⟩) fun sp hsp => hsp
      · exact (h.2.2 id m hm).imp (fun hsettled => hsettled.frame (.inl rfl) le_rfl) fun hsaving =>
          hsaving

theorem withinBudget_iff : Fire.withinBudget m = true ↔
    (m.maxThreadsPerDay ≠ 0 → m.threadsToday < m.maxThreadsPerDay) := by
  simp only [Fire.withinBudget, Bool.not_eq_true', Bool.and_eq_false_iff, decide_eq_false_iff_not]
  omega

theorem Guarded.withinDailyBudget (h : Guarded config.manager.libs p)
    (hdays : KeepsDays config.manager.libs p a) (hstep : step config p a = some p') :
    WithinDailyBudget config.manager.libs p p' := by
  intro sp hsp
  obtain ⟨i, env, fire, thread, rfl, hget, hmem, hfresh, hspeq, hstate⟩ :=
    spawnThread_of_step hstep hsp
  obtain ⟨hchecked, -⟩ := h.1.tasks _ hmem
  obtain ⟨m, hm, hsame⟩ := hchecked.stored
  obtain ⟨hclock, hday, -⟩ := hdays _ hget
  have hid : sp.mission = m.id := by
    rw [hspeq, MissionStore.id_of_loadMission hm]
  refine ⟨m, by rw [hspeq]; exact hm, fun hmax => ?_⟩
  have hbudget : m.threadsToday < m.maxThreadsPerDay := by
    have hfire := withinBudget_iff.mp hchecked.budget
    rw [hsame] at hmax ⊢
    exact hfire hmax
  -- the count is that of the day on which the thread is spawned
  have hcount : countAt config.manager.libs m env.fireInstant = m.threadsToday := by
    have hstale : threadsTodayIsStale config.manager.libs m env.fireInstant = false := by
      rw [hsame]
      exact (fresh_congr hday).symm.trans hchecked.fresh
    rw [countAt, hstale, if_neg Bool.false_ne_true]
  have hsettled := hsame.settled hchecked.settled
  have hspawned := hsettled.counted env.fireInstant (hclock m (.inl ⟨_, hm⟩))
  have hat : sp.firedAt = env.fireInstant := by rw [hspeq]
  rw [hsp, spawnedOn_cons, if_pos ⟨hid, rfl⟩, hat, ← hspawned, hcount]
  exact hbudget

theorem Guarded.withinConcurrency (h : Guarded config.manager.libs p)
    (hstep : step config p a = some p') : WithinConcurrency p p' := by
  intro sp hsp
  obtain ⟨i, env, fire, thread, rfl, hget, hmem, hfresh, hspeq, hstate⟩ :=
    spawnThread_of_step hstep hsp
  obtain ⟨hchecked, hroom⟩ := h.1.tasks _ hmem
  obtain ⟨m, hm, hsame⟩ := hchecked.stored
  have hid : sp.mission = m.id := by
    rw [hspeq, MissionStore.id_of_loadMission hm]
  refine ⟨m, by rw [hspeq]; exact hm, fun other hother hoid => ?_, fun hmax => ?_⟩
  · exact (hsame.settled hchecked.settled).listed other hother (hoid.trans hid)
  · have hhistory : m.threadHistory = fire.mission.threadHistory := by rw [hsame]
    have hlimit : m.maxConcurrent = fire.mission.maxConcurrent := by rw [hsame]
    rw [hlimit] at hmax ⊢
    have hbefore := hroom hmax
    -- the threads in the history are others than the new one
    have hsame' : runningOf p'.shared m.threadHistory ≤ runningOf p.shared m.threadHistory := by
      refine List.countP_mono_left fun tid htid hrunning => ?_
      have hne : tid ≠ sp.thread := fun heq =>
        Observed.not_mem_threadHistory hfresh hm (heq ▸ htid)
      rw [hstate] at hrunning
      rwa [← Manager.isRunning_congr ((HashMap.lookup_insert ..).trans (if_neg hne))]
    have hone : runningOf p'.shared [sp.thread] ≤ 1 := List.countP_le_length
    rw [runningOf, List.countP_append]
    change runningOf p'.shared m.threadHistory + runningOf p'.shared [sp.thread] ≤ _
    rw [hhistory] at hsame' ⊢
    omega

theorem Guarded.blocksFairly (h : Guarded config.manager.libs p) (hexclusive : Exclusive p a)
    (hdays : KeepsDays config.manager.libs p a) : BlocksFairly config p a := by
  cases a with
  | call task => trivial
  | transition tid state => trivial
  | advance i env =>
    intro call m hget hm hblocked
    obtain ⟨hi, hti⟩ := List.getElem?_eq_some_iff.mp hget
    have htasks : p.tasks = p.tasks.take i ++ .fireMission call :: p.tasks.drop (i + 1) := by
      rw [← hti, ← List.drop_eq_getElem_cons hi, List.take_append_drop]
    have hsettled := settled_of_free h htasks (fun u hu => hexclusive _ call.id hget rfl u hu)
      not_false hm
    rw [← hsettled.counted env.now (hdays _ hget m (.inl ⟨_, hm⟩)), countAt]
    have hblocked' : ¬ Fire.withinBudget (Manager.countedToday config.manager env.toCallEnv m) =
      true := by
      rw [hblocked]
      exact Bool.false_ne_true
    rw [withinBudget_iff, Manager.countedToday] at hblocked'
    split_ifs at hblocked' ⊢ with hstale
    · exact absurd (fun hmax => Nat.pos_of_ne_zero hmax) hblocked'
    · push Not at hblocked'
      exact hblocked'.2

end Invariant

/-- No operation is under way, and the accounts are settled. -/
def AtRest (libs : Libraries) (p : Pool Observed Task) : Prop := p.tasks = [] ∧ Accounted libs p

theorem atRest_of_unused {libs : Libraries} {s : Observed} (hspawned : s.spawned = [])
    (hzero : ∀ id m, s.store.loadMission id = some m → m.threadsToday = 0) :
    AtRest libs ⟨s, []⟩ := by
  have hnone : ∀ sp ∈ s.spawned, False := by
    intro sp hsp
    rw [hspawned] at hsp
    cases hsp
  exact ⟨rfl, fun sp hsp => (hnone sp hsp).elim, fun id m hm =>
    .inl (.of_unused (fun sp hsp => (hnone sp hsp).elim) (hzero id m hm))⟩

section Runs

variable {config : HostConfig} {p₀ p p' : Pool Observed Task} {as : List Action} {a : Action}

theorem guarded_of_run (h₀ : AtRest config.manager.libs p₀)
    (hc : Along (step config) (fun p a => Exclusive p a ∧ KeepsDays config.manager.libs p a) p₀ as)
    (hr : run (step config) p₀ as = some p) : Guarded config.manager.libs p := by
  refine run_invariant (fun q b q' hq hcb hstep => hq.of_step hcb.1 hcb.2 hstep) ?_ hc hr
  refine ⟨⟨trivial, ?_, ?_⟩, h₀.2⟩
  · rw [h₀.1]
    exact fun t ht => absurd ht not_mem_nil
  · rw [h₀.1]
    exact List.Pairwise.nil

theorem exclusive_of_nonOverlapping (h : NonOverlapping p a) : Exclusive p a := by
  cases a with
  | call task => trivial
  | transition tid state => trivial
  | advance i env =>
    intro t id _ _ u hu m hm
    have hidle := h u hu
    cases u <;> first | (cases hidle; done) | cases hm

/-- **The guardrails hold where operations are exclusive**: if nobody loads a mission in hand, and
days do not shift, threads are accounted for. -/
theorem guardrails_of_exclusive (h₀ : AtRest config.manager.libs p₀)
    (hc : Along (step config) (fun p a => Exclusive p a ∧ KeepsDays config.manager.libs p a) p₀
      (as ++ [a])) (hr : run (step config) p₀ as = some p) (ha : step config p a = some p') :
    WithinDailyBudget config.manager.libs p p' ∧ WithinConcurrency p p' ∧
      Accounted config.manager.libs p' := by
  obtain ⟨hcs, hca⟩ := Along.append_iff.mp hc
  obtain ⟨⟨hexclusive, hdays⟩, -⟩ := hca p hr
  have hguarded := guarded_of_run h₀ hcs hr
  exact ⟨hguarded.withinDailyBudget hdays ha, hguarded.withinConcurrency ha,
    (hguarded.of_step hexclusive hdays ha).2⟩

/-- **The daily budget of operations one after another.** If days do not shift, threads are within
it, and only those of its day stop a fire. -/
theorem budget_of_nonOverlapping (h₀ : AtRest config.manager.libs p₀)
    (hc : Along (step config) (fun p a => NonOverlapping p a ∧ KeepsDays config.manager.libs p a) p₀
      (as ++ [a])) (hr : run (step config) p₀ as = some p) (ha : step config p a = some p') :
    WithinDailyBudget config.manager.libs p p' ∧ BlocksFairly config p a := by
  have hexclusive := Along.mono
    (fun q b (h : NonOverlapping q b ∧ KeepsDays config.manager.libs q b) =>
      And.intro (exclusive_of_nonOverlapping h.1) h.2) hc
  obtain ⟨hcs, hca⟩ := Along.append_iff.mp hexclusive
  obtain ⟨⟨hexclusive, hdays⟩, -⟩ := hca p hr
  have hguarded := guarded_of_run h₀ hcs hr
  exact ⟨hguarded.withinDailyBudget hdays ha, hguarded.blocksFairly hexclusive hdays⟩

end Runs

def sampleLimited (cadence : MissionCadence) : Mission :=
  { sampleMission cadence with maxThreadsPerDay := 1, maxConcurrent := 1 }

def loneFire : List Action :=
  [.call (.fireMission sampleFire), sampleStep 0 0, sampleStep 0 0, sampleStep 0 0] ++
    [.advance 0 (sampleEnv 0 5 none)]

theorem atRest_sampleLimited :
    AtRest sampleLibraries ⟨sampleSystem (sampleLimited .manual), []⟩ := by
  refine atRest_of_unused rfl fun id m hm => ?_
  change (MissionStore.empty.saveMission (sampleLimited .manual)).loadMission id = some m at hm
  rw [MissionStore.loadMission_saveMission] at hm
  split_ifs at hm <;> cases hm
  rfl

theorem keepsDays_loneFire :
    Along (step sampleConfig) (KeepsDays sampleLibraries)
      ⟨sampleSystem (sampleLimited .manual), []⟩ loneFire := by
  refine Along.of_step rfl trivial (Along.of_step rfl ?_ (Along.of_step rfl ?_
    (Along.of_step rfl ?_ (Along.of_step rfl ?_ trivial))))
  all_goals
    intro t ht
    cases ht
  · exact fun m _ => le_rfl
  · trivial
  · trivial
  · exact ⟨fun m _ => le_rfl, rfl, nofun⟩

theorem nonOverlapping_loneFire :
    Along (step sampleConfig) NonOverlapping ⟨sampleSystem (sampleLimited .manual), []⟩
      loneFire := by
  decide

theorem guardrails_of_lone_fire :
    ∃ p p', step sampleConfig p (.advance 0 (sampleEnv 0 5 none)) = some p' ∧
      p'.shared.spawned = ⟨1, 5, 0⟩ :: p.shared.spawned ∧
      WithinDailyBudget sampleLibraries p p' ∧ WithinConcurrency p p' ∧
      Accounted sampleLibraries p' := by
  have hexclusive := Along.mono (fun _ _ => exclusive_of_nonOverlapping) nonOverlapping_loneFire
  exact ⟨_, _, rfl, rfl, guardrails_of_exclusive atRest_sampleLimited
    (hexclusive.and keepsDays_loneFire) rfl rfl⟩

theorem budget_of_lone_fire :
    ∃ p p', step sampleConfig p (.advance 0 (sampleEnv 0 5 none)) = some p' ∧
      p'.shared.spawned = ⟨1, 5, 0⟩ :: p.shared.spawned ∧
      WithinDailyBudget sampleLibraries p p' ∧
      BlocksFairly sampleConfig p (.advance 0 (sampleEnv 0 5 none)) :=
  ⟨_, _, rfl, rfl, budget_of_nonOverlapping atRest_sampleLimited
    (nonOverlapping_loneFire.and keepsDays_loneFire) rfl rfl⟩

/-- **Both of two fires spawn**, having loaded the mission before either saved it; one thread is
lost. -/
theorem two_fires_spawn :
    ∃ p, run (step sampleConfig) ⟨sampleSystem (sampleLimited .manual), []⟩
        [.call (.fireMission sampleFire), .call (.fireMission sampleFire),
          sampleStep 0 0, sampleStep 1 0, sampleStep 0 0, sampleStep 1 0, sampleStep 0 0,
          sampleStep 1 0, .advance 1 (sampleEnv 0 6 none), .advance 0 (sampleEnv 0 5 none),
          sampleStep 0 0, sampleStep 0 0, sampleStep 0 0,
          sampleStep 1 0, sampleStep 1 0, sampleStep 1 0] = some p ∧
      p.tasks = [.watchOutcome 1 5 0, .watchOutcome 1 6 0] ∧
      spawnedOn sampleLibraries (sampleLimited .manual) p.shared.spawned 0 = 2 ∧
      runningOf p.shared [5, 6] = 2 ∧
      (p.shared.store.loadMission 1).map Mission.threadHistory = some [6] ∧
      (p.shared.store.loadMission 1).map Mission.threadsToday = some 1 := by
  refine ⟨_, rfl, rfl, rfl, rfl, rfl, rfl⟩

/-- A fire from its call to its end, and from its call when there is a count to start anew. -/
def wholeFire (i : Nat) (tid : ThreadId) : List Action :=
  [.call (.fireMission sampleFire), sampleStep i 0, sampleStep i 0,
    .advance i (sampleEnv 0 tid none),
    sampleStep i 0, sampleStep i 0, sampleStep i 0]

def wholeFireAnew (i : Nat) (tid : ThreadId) : List Action :=
  [.call (.fireMission sampleFire), sampleStep i 0, sampleStep i 0, sampleStep i 0,
    .advance i (sampleEnv 0 tid none), sampleStep i 0, sampleStep i 0, sampleStep i 0]

def sampleUnreadable : Mission :=
  { sampleMission (.cron ['x'] none) with maxThreadsPerDay := 1 }

/-- **A cron expression that cannot be read lifts the daily budget**: the time of the last fire
stays unset. -/
theorem budget_exceeded :
    ∃ p, run (step sampleConfig) ⟨sampleSystem sampleUnreadable, []⟩
        (wholeFire 0 5 ++ wholeFireAnew 1 6) = some p ∧
      Along (step sampleConfig) NonOverlapping ⟨sampleSystem sampleUnreadable, []⟩
        (wholeFire 0 5 ++ wholeFireAnew 1 6) ∧
      spawnedOn sampleLibraries sampleUnreadable p.shared.spawned 0 = 2 := by
  exact ⟨_, rfl, by decide, rfl⟩

end IronClaw.Missions.Interleaving
