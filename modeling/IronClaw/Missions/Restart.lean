import IronClaw.Missions.Bootstrap
import IronClaw.Missions.Interleaving

/-!
# Missions after a restart

A new manager rebuilds the list of active missions project by project, and remembers nothing. It can
fire what the old one can, where the last project has all missions ready to fire, and no window is
open.
-/

namespace IronClaw.Missions

open Foundation (Text Json HashMap Effect run run_invariant)
open Interleaving (HostConfig)

/-- The mission is listed, the trigger selects it and is not held back, and the fire gives a thread.
-/
def CanFire (config : HostConfig) (env : CallEnv) (trigger : Trigger) (host : MissionHost)
    (id : MissionId) : Prop :=
  id ∈ host.system.active ∧ ∃ m, host.system.store.loadMission id = some m ∧
    trigger.selects config.events m = true ∧
    host.holdsBack config.events env.now trigger m = false ∧
    ∃ tid, ((Manager.fireMission config.manager env id (trigger.firesFor m) trigger.payload).exec
      host.system).1 = .ok (some tid)

namespace Manager

variable (config : ManagerConfig) (env : CallEnv)

def withinRate (userFireLog : HashMap Text (List Instant)) (userId : Text) : Bool :=
  (((userFireLog.lookup userId).getD []).dropWhile fun t => t < env.now - config.window).length <
    config.maxFires

/-- The user may fire the mission, as far as record, threads, budget and spawn are concerned. -/
def isFit (threads : HashMap ThreadId Thread) (m : Mission) (userId : Text) : Bool :=
  (m.isShared || m.isOwnedBy userId) && mayFire m &&
    guardsAllow env threads (countedToday config env m) && budgetAllows config m.userId m.id &&
    (env.spawn (countedToday config env m) userId).toBool

variable {config env} {s : MissionSystem} {m : Mission} {id : MissionId} {userId : Text}
  {triggerPayload : Option Json}

@[simp] theorem userId_countedToday : (countedToday config env m).userId = m.userId := by
  rw [countedToday]
  split_ifs <;> rfl

@[simp] theorem id_countedToday : (countedToday config env m).id = m.id := by
  rw [countedToday]
  split_ifs <;> rfl

@[simp] theorem status_countedToday : (countedToday config env m).status = m.status := by
  rw [countedToday]
  split_ifs <;> rfl

theorem spawnThread_eq_ok_iff :
    (∃ tid, ((spawnThread config env m userId triggerPayload).exec s).1 = .ok (some tid)) ↔
      (env.spawn m userId).toBool = true := by
  rw [spawnThread, Effect.exec_bind, Effect.exec_ofExcept]
  rcases env.spawn m userId with e | ⟨tid, thread⟩
  · exact iff_of_false (by rintro ⟨tid, ⟨⟩⟩) Bool.false_ne_true
  · exact iff_of_true ⟨tid, rfl⟩ rfl

theorem tryFire_eq_ok_iff :
    (∃ tid, ((tryFire config env m userId triggerPayload).exec s).1 = .ok (some tid)) ↔
      guardsAllow env s.threads m = true ∧ withinRate config env s.userFireLog m.userId = true ∧
      budgetAllows config m.userId m.id = true ∧ (env.spawn m userId).toBool = true := by
  rw [tryFire, Effect.exec_bind, Effect.exec_get]
  dsimp only
  by_cases hguards : guardsAllow env s.threads m = true
  · rw [if_neg (by simp [hguards])]
    have hrate : (checkUserRate config env m.userId).exec s =
        (.ok (withinRate config env s.userFireLog m.userId),
          ((checkUserRate config env m.userId).exec s).2) := rfl
    rw [Effect.exec_bind_ok hrate]
    by_cases hallowed : withinRate config env s.userFireLog m.userId = true ∧
        budgetAllows config m.userId m.id = true
    · rw [if_neg (by simp [hallowed]), spawnThread_eq_ok_iff]
      simp [hguards, hallowed]
    · rw [if_pos (by rw [not_and_or] at hallowed; simpa using hallowed)]
      refine iff_of_false (by rintro ⟨tid, ⟨⟩⟩) fun h => hallowed ⟨h.2.1, h.2.2.1⟩
  · rw [if_pos (by simpa using hguards)]
    exact iff_of_false (by rintro ⟨tid, ⟨⟩⟩) fun h => hguards h.1

theorem exec_loadAllowed_of_isSome {allowed : Mission → Bool}
    (hm : s.store.loadMission id = some m) (hallowed : allowed m = true) :
    (loadAllowed config allowed id userId).exec s = (.ok m, s) := by
  rw [loadAllowed, Effect.exec_bind, loadMission, Effect.exec_bind, Effect.exec_get]
  simp only [hm, Effect.exec_pure, Effect.exec_bind, hallowed]
  rfl

theorem exec_resetThreadsToday :
    ∃ store, (resetThreadsToday config env m).exec s = (.ok (), { s with store := store }) := by
  rw [resetThreadsToday]
  split_ifs
  · exact ⟨_, rfl⟩
  · exact ⟨s.store, rfl⟩

theorem exec_fireMission_of_refused (hm : s.store.loadMission id = some m)
    (hrefused : (m.isShared || m.isOwnedBy userId) = false) :
    (fireMission config env id userId triggerPayload).exec s =
      (.error (accessDenied config id userId), s) := by
  rw [fireMission, Effect.exec_bind, loadAllowed, Effect.exec_bind, loadMission,
    Effect.exec_bind, Effect.exec_get]
  simp only [hm, Effect.exec_pure, Effect.exec_bind, hrefused]
  rfl

theorem fireMission_eq_ok_iff (hm : s.store.loadMission id = some m) :
    (∃ tid, ((fireMission config env id userId triggerPayload).exec s).1 = .ok (some tid)) ↔
      isFit config env s.threads m userId = true ∧
        withinRate config env s.userFireLog m.userId = true := by
  by_cases hallowed : (m.isShared || m.isOwnedBy userId) = true
  · rw [fireMission, Effect.exec_bind_ok (exec_loadAllowed_of_isSome hm hallowed)]
    by_cases hmay : mayFire m = true
    · obtain ⟨store, hreset⟩ := exec_resetThreadsToday
      rw [if_neg (by simp [hmay]), Effect.exec_bind_ok hreset, tryFire_eq_ok_iff]
      simp only [isFit, hallowed, hmay, userId_countedToday, id_countedToday, Bool.true_and,
        Bool.and_eq_true]
      tauto
    · rw [if_pos (by simpa using hmay)]
      refine iff_of_false (by rintro ⟨tid, ⟨⟩⟩) fun h => ?_
      simp [isFit, hmay] at h
  · refine iff_of_false ?_ fun h => ?_
    · rintro ⟨tid, h⟩
      rw [exec_fireMission_of_refused hm (Bool.eq_false_of_not_eq_true hallowed)] at h
      cases h
    · simp [isFit, hallowed] at h

end Manager

section CanFire

variable {config : HostConfig} {env : CallEnv} {trigger : Trigger} {host : MissionHost}
  {threads : HashMap ThreadId Thread} {id : MissionId} {m : Mission}

/-- The trigger selects the mission, which is fit to be fired. -/
def Ready (config : HostConfig) (env : CallEnv) (trigger : Trigger)
    (threads : HashMap ThreadId Thread) (m : Mission) : Prop :=
  trigger.selects config.events m = true ∧
    Manager.isFit config.manager env threads m (trigger.firesFor m) = true

/-- No window that the manager remembers is in the way of a fire. -/
def IsOpen (config : HostConfig) (env : CallEnv) (trigger : Trigger) (host : MissionHost)
    (m : Mission) : Prop :=
  host.holdsBack config.events env.now trigger m = false ∧
    Manager.withinRate config.manager env host.system.userFireLog m.userId = true

/-- **What a trigger can fire**: a mission that is on the list, ready, and not held back. -/
theorem canFire_iff : CanFire config env trigger host id ↔
    id ∈ host.system.active ∧ ∃ m, host.system.store.loadMission id = some m ∧
      Ready config env trigger host.system.threads m ∧ IsOpen config env trigger host m := by
  refine and_congr_right fun _ => exists_congr fun m => and_congr_right fun hm => ?_
  rw [Manager.fireMission_eq_ok_iff hm]
  simp only [Ready, IsOpen]
  tauto

theorem isOpen_of_fresh (hattempt : host.system.lastFireAttempt = ∅)
    (hlog : host.system.userFireLog = ∅) (hdedup : host.dedupTable = ∅) :
    IsOpen config env trigger host m ↔ 0 < config.manager.maxFires := by
  have hheld : host.holdsBack config.events env.now trigger m = false := by
    cases trigger <;> simp [MissionHost.holdsBack, onCooldown, isDuplicate, hattempt, hdedup]
  simp [IsOpen, hheld, Manager.withinRate, hlog]

theorem IsOpen.maxFires_pos (h : IsOpen config env trigger host m) :
    0 < config.manager.maxFires := by
  have hlt := h.2
  rw [Manager.withinRate, decide_eq_true_eq] at hlt
  omega

theorem backfilled_of_selects {libs : Libraries} {now : Instant}
    (h : trigger.selects config.events m = true) : backfilled libs now m = m := by
  rcases backfilled_eq libs now m with heq | ⟨expression, timezone, next, hcadence, hnone, -, -⟩
  · exact heq
  · simp only [Trigger.selects, Bool.and_eq_true] at h
    obtain ⟨-, hmatches⟩ := h
    cases trigger <;> simp [Trigger.matchesCadence, hcadence, hnone] at hmatches

end CanFire

/-- What is done to missions: calls of users, what comes from outside, and what becomes of threads.
-/
inductive Operation where
  | create (projectId : ProjectId) (userId name goal : Text) (cadence : MissionCadence)
      (notifyChannels : List Text)
  | update (id : MissionId) (userId : Text) (updates : MissionUpdate)
  | pause (id : MissionId) (userId : Text)
  | resume (id : MissionId) (userId : Text)
  | complete (id : MissionId)
  | fire (id : MissionId) (userId : Text) (triggerPayload : Option Json)
  | trigger (trigger : Trigger)
  | transition (tid : ThreadId) (state : ThreadState)
  | outcome (id : MissionId) (tid : ThreadId) (firedAt : Instant) (outcome : ThreadOutcome)

def Manager.recordOutcome (libs : Libraries) (env : CallEnv) (id : MissionId) (tid : ThreadId)
    (firedAt : Instant) (outcome : ThreadOutcome) : MissionOp Unit :=
  modify fun s =>
    match (s.store.loadMission id).bind (processOutcome libs env tid firedAt outcome) with
    | some m => { s with store := s.store.saveMission m }
    | none => s

namespace MissionHost

variable (config : HostConfig)

def perform {α : Type} (op : MissionOp α) (host : MissionHost) : MissionHost :=
  { host with system := (op.exec host.system).2 }

/-- Fire the active missions a trigger selects. An error ends it, unless it is a tick. -/
def sweep (trigger : Trigger) : List (MissionId × CallEnv) → MissionHost → MissionHost
  | [], host => host
  | (id, env) :: rest, host =>
    match host.system.store.loadMission id with
    | none => sweep trigger rest host
    | some m =>
      if !trigger.selects config.events m then sweep trigger rest host
      else
        let noted := host.noted config.events env.now trigger m
        if host.holdsBack config.events env.now trigger m then sweep trigger rest noted
        else
          let op := Manager.fireMission config.manager env id (trigger.firesFor m) trigger.payload
          let fired := noted.perform op
          if (op.exec noted.system).1 matches .error _ && !trigger.isTick then fired
          else sweep trigger rest fired

/-- A trigger comes. A tick forgets the attempts that are long ago. -/
def receive (env : Nat → CallEnv) (trigger : Trigger) (host : MissionHost) : MissionHost :=
  let ids := host.system.active.zipIdx.map fun entry => (entry.1, env entry.2)
  match trigger with
  | .tick now =>
    sweep config trigger ids { host with system :=
      { host.system with lastFireAttempt := pruned now host.system.lastFireAttempt } }
  | _ => sweep config trigger ids host

end MissionHost

structure OperationCall where
  env : Nat → CallEnv
  operation : Operation

def MissionSystem.withThreadState (s : MissionSystem) (tid : ThreadId) (state : ThreadState) :
    MissionSystem :=
  { s with threads := HashMap.adjust s.threads tid fun thread => { thread with state := state } }

/-- One operation after the other. New ids are fresh, and threads change their states. -/
def operate (config : HostConfig) (host : MissionHost) (c : OperationCall) : Option MissionHost :=
  let env := c.env 0
  match c.operation with
  | .create projectId userId name goal cadence notifyChannels =>
    if (host.system.store.loadMission env.newMissionId).isSome then none
    else some (host.perform
      (Manager.createMission config.manager env projectId userId name goal cadence notifyChannels))
  | .update id userId updates =>
    some (host.perform (Manager.updateMission config.manager env id userId updates))
  | .pause id userId => some (host.perform (Manager.pauseMission config.manager env id userId))
  | .resume id userId => some (host.perform (Manager.resumeMission config.manager env id userId))
  | .complete id => some (host.perform (Manager.completeMission env id))
  | .fire id userId triggerPayload =>
    some (host.perform (Manager.fireMission config.manager env id userId triggerPayload))
  | .trigger trigger => some (host.receive config c.env trigger)
  | .transition tid state =>
    if (host.system.threads.lookup tid).any fun thread => thread.state.canTransitionTo state then
      some { host with system := host.system.withThreadState tid state }
    else none
  | .outcome id tid firedAt outcome =>
    some (host.perform (Manager.recordOutcome config.manager.libs env id tid firedAt outcome))

def Indexed (s : MissionSystem) : Prop :=
  ∀ id m, s.store.loadMission id = some m → m.status = .active → id ∈ s.active

/-- The list stays, and so do the statuses, unless it is the one that a mission had anyway. -/
def KeepsStatus (id : MissionId) (status : MissionStatus) (s s' : MissionSystem) : Prop :=
  s'.active = s.active ∧ ∀ id' m', s'.store.loadMission id' = some m' →
    (∃ m, s.store.loadMission id' = some m ∧ m.status = m'.status) ∨ id' = id ∧ m'.status = status

section Indexed

variable {s s' s'' : MissionSystem} {id : MissionId} {status : MissionStatus} {m : Mission}

theorem KeepsStatus.refl (s : MissionSystem) : KeepsStatus id status s s :=
  ⟨rfl, fun _ m' hm' => .inl ⟨m', hm', rfl⟩⟩

theorem KeepsStatus.trans (a b c : MissionSystem) (h : KeepsStatus id status a b)
    (h' : KeepsStatus id status b c) : KeepsStatus id status a c := by
  refine ⟨h'.1.trans h.1, fun id' m' hm' => ?_⟩
  rcases h'.2 id' m' hm' with ⟨m, hm, hstatus⟩ | hown
  · rcases h.2 id' m hm with ⟨m₀, hm₀, hstatus₀⟩ | ⟨hid, hstatus₀⟩
    · exact .inl ⟨m₀, hm₀, hstatus₀.trans hstatus⟩
    · exact .inr ⟨hid, hstatus.symm.trans hstatus₀⟩
  · exact .inr hown

theorem Indexed.of_keepsStatus (h : Indexed s) (hkeeps : KeepsStatus id status s s')
    (hid : status = .active → id ∈ s.active) : Indexed s' := by
  intro id' m' hm' hactive
  rw [hkeeps.1]
  rcases hkeeps.2 id' m' hm' with ⟨m, hm, hstatus⟩ | ⟨rfl, hstatus⟩
  · exact h id' m hm (hstatus.trans hactive)
  · exact hid (hstatus.symm.trans hactive)

theorem keepsStatus_save {s : MissionSystem} {m : Mission} :
    KeepsStatus m.id m.status s { s with store := s.store.saveMission m } := by
  refine ⟨rfl, fun id' m' hm' => ?_⟩
  change (s.store.saveMission m).loadMission id' = some m' at hm'
  rw [MissionStore.loadMission_saveMission] at hm'
  split_ifs at hm' with hid
  · cases hm'
    exact .inr ⟨hid, rfl⟩
  · exact .inl ⟨m', hm', rfl⟩

theorem Indexed.save {m' : Mission} (h : Indexed s) (hm : s.store.loadMission m'.id = some m)
    (hstatus : m'.status = .active → m.status = .active) :
    Indexed { s with store := s.store.saveMission m' } :=
  h.of_keepsStatus keepsStatus_save fun hactive => h m'.id m hm (hstatus hactive)

theorem Indexed.congr (h : Indexed s) (hstore : s'.store = s.store)
    (hactive : s'.active = s.active) : Indexed s' := by
  intro id m hm hstatus
  rw [hstore] at hm
  rw [hactive]
  exact h id m hm hstatus

end Indexed

namespace Manager

variable {config : ManagerConfig} {env : CallEnv} {id : MissionId} {userId : Text}
  {triggerPayload : Option Json} {s : MissionSystem} {m : Mission}

theorem status_firedMission {tid : ThreadId} :
    (firedMission config env m tid triggerPayload).status = m.status := by
  unfold firedMission
  dsimp only
  split
  · split <;> rfl
  · rfl

theorem keepsStatus_saveMission {m' : Mission} (hid : m'.id = m.id)
    (hstatus : m'.status = m.status) : (saveMission m').Within (KeepsStatus m.id m.status) := by
  intro s
  rw [← hid, ← hstatus]
  exact keepsStatus_save

theorem keepsStatus_modify {f : MissionSystem → MissionSystem}
    (hactive : ∀ s, (f s).active = s.active)
    (hstore : ∀ s, (f s).store = s.store) {status : MissionStatus} :
    (modify f : MissionOp Unit).Within (KeepsStatus id status) := by
  refine .modify fun s => ⟨hactive s, fun id' m' hm' => .inl ⟨m', ?_, rfl⟩⟩
  rwa [hstore s] at hm'

theorem keepsStatus_spawnThread :
    (spawnThread config env m userId triggerPayload).Within (KeepsStatus m.id m.status) := by
  rw [spawnThread]
  refine .bind KeepsStatus.trans (.of_reads .refl (.ofExcept _)) fun spawned => ?_
  refine .bind KeepsStatus.trans (keepsStatus_modify (fun _ => rfl) fun _ => rfl) fun _ => ?_
  refine .bind KeepsStatus.trans
    (keepsStatus_saveMission (id_firedMission config env m _ _) status_firedMission) fun _ => ?_
  refine .bind KeepsStatus.trans (keepsStatus_modify (fun _ => rfl) fun _ => rfl) fun _ => ?_
  exact .pure .refl _

theorem keepsStatus_tryFire (config : ManagerConfig) (env : CallEnv) (m : Mission) (userId : Text)
    (triggerPayload : Option Json) :
    (tryFire config env m userId triggerPayload).Within (KeepsStatus m.id m.status) := by
  rw [tryFire]
  refine .bind KeepsStatus.trans (.get .refl) fun s => .ite (.pure .refl _) ?_
  have hrate : (checkUserRate config env m.userId).Within (KeepsStatus m.id m.status) := by
    refine .bind KeepsStatus.trans (.get .refl) fun s => ?_
    refine .bind KeepsStatus.trans (keepsStatus_modify (fun _ => rfl) fun _ => rfl) fun _ => ?_
    exact .pure .refl _
  refine .bind KeepsStatus.trans hrate fun withinRate => .ite (.pure .refl _) ?_
  exact keepsStatus_spawnThread

theorem indexed_fireMission (h : Indexed s) :
    Indexed ((fireMission config env id userId triggerPayload).exec s).2 := by
  rw [fireMission]
  refine (reads_loadAllowed config _ id userId).bind_induction h fun m hload => ?_
  obtain ⟨hm, -⟩ := of_loadAllowed config hload
  have hid := MissionStore.id_of_loadMission hm
  have hreset : (resetThreadsToday config env m).Within (KeepsStatus m.id m.status) := by
    rw [resetThreadsToday]
    exact .ite (keepsStatus_saveMission id_countedToday status_countedToday) (.pure .refl _)
  have htry := keepsStatus_tryFire config env (countedToday config env m) userId triggerPayload
  rw [id_countedToday, status_countedToday] at htry
  have hfire : (if !mayFire m then pure none
      else do
        resetThreadsToday config env m
        tryFire config env (countedToday config env m) userId triggerPayload).Within
      (KeepsStatus m.id m.status) :=
    .ite (.pure .refl _) (.bind KeepsStatus.trans hreset fun _ => htry)
  refine h.of_keepsStatus (hfire s) fun hactive => ?_
  rw [hid]
  exact h id m hm hactive

theorem indexed_createMission (h : Indexed s) {projectId : ProjectId} {name goal : Text}
    {cadence : MissionCadence} {notifyChannels : List Text} :
    Indexed ((createMission config env projectId userId name goal cadence notifyChannels).exec
      s).2 := by
  rw [createMission]
  refine (Effect.Reads.ofExcept _).bind_induction h fun next _ => ?_
  intro id m hm hactive
  change id ∈ s.active ++ [env.newMissionId]
  change (s.store.saveMission _).loadMission id = some m at hm
  rw [MissionStore.loadMission_saveMission] at hm
  split_ifs at hm with hid
  · rw [hid]
    exact List.mem_append_right _ (List.mem_singleton.mpr rfl)
  · exact List.mem_append_left _ (h id m hm hactive)

theorem indexed_updateMission (h : Indexed s) {updates : MissionUpdate} :
    Indexed ((updateMission config env id userId updates).exec s).2 := by
  rw [updateMission]
  refine (reads_loadAllowed config _ id userId).bind_induction h fun m hload => ?_
  refine (Effect.Reads.ofExcept _).bind_induction h fun updated hupdated => ?_
  rw [Effect.exec_ofExcept] at hupdated
  have hok := (Prod.ext_iff.mp hupdated).1
  obtain ⟨hm, -⟩ := of_loadAllowed config hload
  have hid := (MissionUpdate.of_apply hok).1.trans (MissionStore.id_of_loadMission hm)
  refine h.save (by rwa [hid]) fun hactive => ?_
  rwa [← (MissionUpdate.of_apply hok).2.2]

theorem indexed_retire (h : Indexed s) {status : MissionStatus} (hstatus : status ≠ .active) :
    Indexed ((retire env id status).exec s).2 := by
  intro id' m' hm' hactive
  change (s.store.updateMissionStatus id status env.now).loadMission id' = some m' at hm'
  change id' ∈ s.active.filter fun mid => mid != id
  rw [MissionStore.loadMission_updateMissionStatus] at hm'
  split_ifs at hm' with hid
  · obtain ⟨m, -, rfl⟩ := Option.map_eq_some_iff.mp hm'
    exact absurd hactive hstatus
  · exact List.mem_filter.mpr ⟨h id' m' hm' hactive, by simpa using hid⟩

theorem indexed_pauseMission (h : Indexed s) :
    Indexed ((pauseMission config env id userId).exec s).2 := by
  rw [pauseMission]
  refine (reads_loadAllowed config _ id userId).bind_induction h fun m _ => ?_
  exact indexed_retire h MissionStatus.noConfusion

theorem indexed_resumeMission (h : Indexed s) :
    Indexed ((resumeMission config env id userId).exec s).2 := by
  rw [resumeMission]
  refine (reads_loadAllowed config _ id userId).bind_induction h fun m hload => ?_
  refine (Effect.Reads.require _ _).bind_induction h fun _ _ => ?_
  refine (Effect.Reads.ofExcept _).bind_induction h fun next _ => ?_
  have hid := MissionStore.id_of_loadMission (of_loadAllowed config hload).1
  intro id' m' hm' hactive
  change id' ∈ if s.active.contains id then s.active else s.active ++ [id]
  change (s.store.saveMission (resumedMission env m next)).loadMission id' = some m' at hm'
  rw [MissionStore.loadMission_saveMission] at hm'
  split_ifs at hm' with hsame
  · have hid' : id' = id := hsame.trans hid
    subst hid'
    split_ifs with hin
    · exact List.contains_iff_mem.mp hin
    · exact List.mem_append_right _ (List.mem_singleton.mpr rfl)
  · have hold := h id' m' hm' hactive
    split_ifs
    · exact hold
    · exact List.mem_append_left _ hold

theorem indexed_recordOutcome {libs : Libraries} (h : Indexed s) {tid : ThreadId}
    {firedAt : Instant} {outcome : ThreadOutcome} :
    Indexed ((recordOutcome libs env id tid firedAt outcome).exec s).2 := by
  rw [recordOutcome, Effect.exec_modify]
  split
  · rename_i m' hm'
    obtain ⟨m, hm, houtcome⟩ := Option.bind_eq_some_iff.mp hm'
    have hid := (id_of_processOutcome houtcome).trans (MissionStore.id_of_loadMission hm)
    refine h.save (by rwa [hid]) fun hactive => ?_
    by_contra hne
    exact status_ne_active_of_processOutcome houtcome hne hactive
  · exact h

end Manager

section Operate

variable {config : HostConfig} {host host' : MissionHost} {c : OperationCall}

theorem indexed_sweep {trigger : Trigger} {ids : List (MissionId × CallEnv)}
    (h : Indexed host.system) : Indexed (host.sweep config trigger ids).system := by
  induction ids generalizing host with
  | nil => exact h
  | cons entry rest ih =>
    obtain ⟨id, env⟩ := entry
    rw [MissionHost.sweep]
    split
    · exact ih h
    · rename_i m hm
      have hnoted : Indexed (host.noted config.events env.now trigger m).system := by
        rwa [MissionHost.system_noted]
      have hfired : Indexed ((host.noted config.events env.now trigger m).perform
          (Manager.fireMission config.manager env id (trigger.firesFor m)
            trigger.payload)).system :=
        Manager.indexed_fireMission hnoted
      split_ifs
      · exact ih h
      · exact ih hnoted
      · dsimp only
        split_ifs
        · exact hfired
        · exact ih hfired

theorem indexed_receive {trigger : Trigger} {env : Nat → CallEnv} (h : Indexed host.system) :
    Indexed (host.receive config env trigger).system := by
  cases trigger with
  | tick now => exact indexed_sweep (h.congr rfl rfl)
  | systemEvent source eventType userId payload => exact indexed_sweep h
  | messageEvent channel text userId payload => exact indexed_sweep h
  | webhook path userId payload => exact indexed_sweep h

theorem Indexed.of_operate (h : Indexed host.system) (hstep : operate config host c = some host') :
    Indexed host'.system := by
  obtain ⟨env, operation⟩ := c
  cases operation with
  | create projectId userId name goal cadence notifyChannels =>
    simp only [operate] at hstep
    split_ifs at hstep
    cases hstep
    exact Manager.indexed_createMission h
  | update id userId updates =>
    cases hstep
    exact Manager.indexed_updateMission h
  | pause id userId =>
    cases hstep
    exact Manager.indexed_pauseMission h
  | resume id userId =>
    cases hstep
    exact Manager.indexed_resumeMission h
  | complete id =>
    cases hstep
    exact Manager.indexed_retire h MissionStatus.noConfusion
  | fire id userId triggerPayload =>
    cases hstep
    exact Manager.indexed_fireMission h
  | trigger trigger =>
    cases hstep
    exact indexed_receive h
  | transition tid state =>
    simp only [operate] at hstep
    split_ifs at hstep
    cases hstep
    exact h.congr rfl rfl
  | outcome id tid firedAt outcome =>
    cases hstep
    exact Manager.indexed_recordOutcome h

end Operate

/-- A trigger fires the same missions on the manager and on a new one over the store. -/
def SameAfterRestart (config : HostConfig) (env : CallEnv) (clock : MissionId → Instant)
    (projects : List ProjectId) (trigger : Trigger) (host : MissionHost) : Prop :=
  ∀ id, CanFire config env trigger (restarted config.manager.libs clock projects host.system) id ↔
    CanFire config env trigger host id

/-- Where fires are allowed, a listed mission that is ready is active and in the last project,
exactly if no window is in its way; filled-in schedules make none ready. -/
def RestartSafe (config : HostConfig) (env : CallEnv) (clock : MissionId → Instant)
    (projects : List ProjectId) (trigger : Trigger) (host : MissionHost) : Prop :=
  0 < config.manager.maxFires → ∀ id m, host.system.store.loadMission id = some m →
    (id ∈ host.system.active → Ready config env trigger host.system.threads m →
      (m.status = .active ∧ projects.getLast? = some m.projectId ↔
        IsOpen config env trigger host m)) ∧
    (m.status = .active ∧ projects.getLast? = some m.projectId →
      backfilled config.manager.libs (clock id) m ≠ m →
      ¬ Ready config env trigger host.system.threads (backfilled config.manager.libs (clock id) m))

section Restart

variable {config : HostConfig} {env : CallEnv} {clock : MissionId → Instant}
  {projects : List ProjectId} {trigger : Trigger} {host₀ host : MissionHost} {id : MissionId}
  {m : Mission}

theorem canFire_restarted_iff (hm : host.system.store.loadMission id = some m) :
    CanFire config env trigger (restarted config.manager.libs clock projects host.system) id ↔
      0 < config.manager.maxFires ∧ m.status = .active ∧ projects.getLast? = some m.projectId ∧
        Ready config env trigger host.system.threads
          (backfilled config.manager.libs (clock id) m) := by
  obtain ⟨store, active, P, heq, -⟩ :=
    restarted_eq config.manager.libs clock projects host.system
  rw [canFire_iff]
  constructor
  · rintro ⟨hid, m', hm', hready, hopen⟩
    obtain ⟨m₀, hm₀, hactive, hlast⟩ := mem_active_restarted.mp hid
    rw [hm] at hm₀
    cases hm₀
    rw [loadMission_restarted hid, hm] at hm'
    cases hm'
    rw [heq] at hready
    exact ⟨hopen.maxFires_pos, hactive, hlast, hready⟩
  · rintro ⟨hpos, hactive, hlast, hready⟩
    have hid : id ∈
        (restarted config.manager.libs clock projects host.system).system.active :=
      mem_active_restarted.mpr ⟨m, hm, hactive, hlast⟩
    refine ⟨hid, backfilled config.manager.libs (clock id) m, ?_, ?_, ?_⟩
    · rw [loadMission_restarted hid, hm, Option.map_some]
    · rw [heq]
      exact hready
    · refine (isOpen_of_fresh ?_ ?_ rfl).mpr hpos <;> rw [heq] <;> rfl

/-- **When a restart changes nothing**: after any operations on a manager that lists all active
missions, exactly under the condition. -/
theorem restart_iff {calls : List OperationCall} (h₀ : Indexed host₀.system)
    (hr : run (operate config) host₀ calls = some host) (env : CallEnv)
    (clock : MissionId → Instant) (projects : List ProjectId) (trigger : Trigger) :
    SameAfterRestart config env clock projects trigger host ↔
      RestartSafe config env clock projects trigger host := by
  -- in every run, the active missions are listed under their ids
  have hindexed : Indexed host.system := by
    refine run_invariant (I := fun host => Indexed host.system) (C := fun _ _ => True)
      (fun host c host' h _ hstep => h.of_operate hstep) h₀ ?_ hr
    exact .of_forall_mem (fun _ _ _ => trivial) host₀
  constructor
  · intro hsame hpos id m hm
    have hiff := hsame id
    rw [canFire_restarted_iff hm, canFire_iff] at hiff
    constructor
    · intro hid hready
      rw [backfilled_of_selects hready.1] at hiff
      constructor
      · rintro ⟨hactive, hlast⟩
        obtain ⟨-, m', hm', -, hopen⟩ := hiff.mp ⟨hpos, hactive, hlast, hready⟩
        rw [hm] at hm'
        cases hm'
        exact hopen
      · intro hopen
        obtain ⟨-, hactive, hlast, -⟩ := hiff.mpr ⟨hid, m, hm, hready, hopen⟩
        exact ⟨hactive, hlast⟩
    · rintro ⟨hactive, hlast⟩ hne hready
      obtain ⟨-, m', hm', hready', -⟩ := hiff.mp ⟨hpos, hactive, hlast, hready⟩
      rw [hm] at hm'
      cases hm'
      exact hne (backfilled_of_selects hready'.1)
  · intro hsafe id
    cases hm : host.system.store.loadMission id with
    | none =>
      refine iff_of_false (fun h => ?_) fun h => ?_
      · obtain ⟨m, hm', -⟩ := mem_active_restarted.mp h.1
        rw [hm] at hm'
        cases hm'
      · obtain ⟨-, m, hm', -⟩ := h
        rw [hm] at hm'
        cases hm'
    | some m =>
      rw [canFire_restarted_iff hm, canFire_iff]
      constructor
      · rintro ⟨hpos, hactive, hlast, hready⟩
        obtain ⟨hlisted, hfilled⟩ := hsafe hpos id m hm
        -- an active mission that the restart changes is not ready afterwards
        have hsame : backfilled config.manager.libs (clock id) m = m := by
          by_contra hne
          exact hfilled ⟨hactive, hlast⟩ hne hready
        rw [hsame] at hready
        have hid := hindexed id m hm hactive
        exact ⟨hid, m, hm, hready, (hlisted hid hready).mp ⟨hactive, hlast⟩⟩
      · rintro ⟨hid, m', hm', hready, hopen⟩
        rw [hm] at hm'
        cases hm'
        have hpos := hopen.maxFires_pos
        obtain ⟨hactive, hlast⟩ := ((hsafe hpos id m hm).1 hid hready).mpr hopen
        rw [backfilled_of_selects hready.1]
        exact ⟨hpos, hactive, hlast, hready⟩

end Restart

def emptyHost : MissionHost := ⟨⟨MissionStore.empty, [], ∅, ∅, ∅, ∅⟩, ∅⟩

/-- A user has a mission made in a project that fires on a webhook. -/
def createHook (id : MissionId) (projectId : ProjectId) : OperationCall where
  env _ := { (Interleaving.sampleEnv 0 5 none).toCallEnv with newMissionId := id }
  operation := .create projectId Interleaving.sampleUser [] [] (.webhook ['p'] none) []

def hook : Trigger := .webhook ['p'] Interleaving.sampleUser none

theorem indexed_emptyHost : Indexed emptyHost.system := fun id m hm => by cases hm

theorem restart_of_one_project :
    ∃ host, run (operate Interleaving.sampleConfig) emptyHost [createHook 1 7] = some host ∧
      SameAfterRestart Interleaving.sampleConfig (Interleaving.sampleEnv 0 5 none).toCallEnv
        (fun _ => 0) [7] hook host := by
  have hrun : run (operate Interleaving.sampleConfig) emptyHost [createHook 1 7] = some _ := rfl
  refine ⟨_, hrun, (restart_iff indexed_emptyHost hrun _ _ _ _).mpr fun _ id m hm => ?_⟩
  change (MissionStore.empty.saveMission _).loadMission id = some m at hm
  rw [MissionStore.loadMission_saveMission] at hm
  split_ifs at hm <;> cases hm
  refine ⟨fun _ _ => iff_of_true ⟨rfl, rfl⟩ ⟨rfl, rfl⟩, fun _ hne => absurd ?_ hne⟩
  exact backfilled_of_not_cron fun _ _ => MissionCadence.noConfusion

def achieveHook : List OperationCall :=
  [.trigger hook, .transition 5 .completed, .transition 5 .done,
    .outcome 1 5 0 (.completed (some "Mission complete".toList))].map fun operation =>
      ⟨fun _ => (Interleaving.sampleEnv 0 5 none).toCallEnv, operation⟩

/-- **A restart forgets missions** of the first project bootstrapped, and a completed one that
reacts to events. -/
theorem restart_forgets_missions :
    (∃ host, run (operate Interleaving.sampleConfig) emptyHost [createHook 1 7, createHook 2 8] =
        some host ∧
      CanFire Interleaving.sampleConfig (Interleaving.sampleEnv 0 5 none).toCallEnv hook host 1 ∧
      ¬ CanFire Interleaving.sampleConfig (Interleaving.sampleEnv 0 5 none).toCallEnv hook
        (restarted Interleaving.sampleLibraries (fun _ => 0) [7, 8] host.system) 1) ∧
    ∃ host, run (operate Interleaving.sampleConfig) emptyHost (createHook 1 7 :: achieveHook) =
        some host ∧ CanFire Interleaving.sampleConfig
        (Interleaving.sampleEnv 1000000000000 6 none).toCallEnv hook host 1 ∧
      ¬ CanFire Interleaving.sampleConfig
        (Interleaving.sampleEnv 1000000000000 6 none).toCallEnv hook
        (restarted Interleaving.sampleLibraries (fun _ => 0) [7] host.system) 1 := by
  refine ⟨⟨_, rfl, ⟨by decide, _, rfl, rfl, rfl, 5, rfl⟩, fun h => ?_⟩,
    ⟨_, rfl, ⟨by decide, _, rfl, rfl, rfl, 6, rfl⟩, fun h => ?_⟩⟩
  · exact absurd h.1 (by decide)
  · exact absurd h.1 (by decide)

end IronClaw.Missions
