import IronClaw.Foundation.Run
import IronClaw.Missions.Calls

/-!
# Missions and their owners

A call for a user leaves the missions of others alone, and tells nothing about them; a shared one is
shown to everyone. Completing a mission never checks the owner.
-/

namespace IronClaw.Missions

open Foundation (Text Json Effect Along)

/-- The missions that satisfy `P` have the same record, and are as often among the active ones. -/
def Keeps (P : MissionId → Mission → Prop) (s s' : MissionSystem) : Prop :=
  ∀ id m, s.store.loadMission id = some m → P id m →
    s'.store.loadMission id = some m ∧ s'.active.count id = s.active.count id

/-- A fire leaves the list of active missions alone, and all records but one. -/
def FireFrame (id : MissionId) (s s' : MissionSystem) : Prop :=
  s'.active = s.active ∧ ∀ id' ≠ id, s'.store.loadMission id' = s.store.loadMission id'

section Keeps

variable {P : MissionId → Mission → Prop} {s s' s'' : MissionSystem}

theorem Keeps.refl (s : MissionSystem) : Keeps P s s := fun _ _ h _ => ⟨h, rfl⟩

theorem Keeps.trans (h : Keeps P s s') (h' : Keeps P s' s'') : Keeps P s s'' := by
  intro id m hload hP
  obtain ⟨hload', hcount⟩ := h id m hload hP
  obtain ⟨hload'', hcount'⟩ := h' id m hload' hP
  exact ⟨hload'', hcount'.trans hcount⟩

theorem keeps_save {m : Mission} (h : ∀ old, s.store.loadMission m.id = some old → ¬ P m.id old) :
    Keeps P s { s with store := s.store.saveMission m } := by
  intro id old hload hP
  refine ⟨?_, rfl⟩
  rw [MissionStore.loadMission_saveMission, if_neg]
  · exact hload
  · rintro rfl
    exact h old hload hP

theorem count_append_ne {id id' : MissionId} (h : id' ≠ id) (active : List MissionId) :
    (active ++ [id]).count id' = active.count id' := by
  rw [List.count_append, List.count_singleton]
  simp [h.symm]

theorem keeps_retire {env : CallEnv} {id : MissionId} {status : MissionStatus}
    (h : ∀ m, s.store.loadMission id = some m → ¬ P id m) :
    Keeps P s ((Manager.retire env id status).exec s).2 := by
  intro id' m hload hP
  have hne : id' ≠ id := by
    rintro rfl
    exact h m hload hP
  constructor
  · change (s.store.updateMissionStatus id status env.now).loadMission id' = some m
    rw [MissionStore.loadMission_updateMissionStatus, if_neg hne, hload]
  · change (s.active.filter fun mid => mid != id).count id' = s.active.count id'
    exact List.count_filter (by simpa using hne)

theorem FireFrame.refl (id : MissionId) (s : MissionSystem) : FireFrame id s s :=
  ⟨rfl, fun _ _ => rfl⟩

theorem FireFrame.trans {id : MissionId} (h : FireFrame id s s') (h' : FireFrame id s' s'') :
    FireFrame id s s'' :=
  ⟨h'.1.trans h.1, fun id' hne => (h'.2 id' hne).trans (h.2 id' hne)⟩

end Keeps

namespace Manager

variable (config : ManagerConfig) (env : CallEnv) {P : MissionId → Mission → Prop}
  {id : MissionId} {userId : Text} {s : MissionSystem}

theorem reads_loadMission (id : MissionId) : (loadMission config id).Reads := by
  intro s
  rw [loadMission, Effect.exec_bind, Effect.exec_get]
  dsimp only
  split <;> rfl

theorem reads_loadAllowed (allowed : Mission → Bool) (id : MissionId) (userId : Text) :
    (loadAllowed config allowed id userId).Reads := by
  intro s
  rw [loadAllowed]
  refine (reads_loadMission config id).bind_induction (P := fun s' => s' = s) rfl fun m _ => ?_
  exact (Effect.Reads.require _ _).bind_induction (P := fun s' => s' = s) rfl fun _ _ => rfl

theorem of_loadAllowed {allowed : Mission → Bool} {m : Mission}
    (h : (loadAllowed config allowed id userId).exec s = (.ok m, s)) :
    s.store.loadMission id = some m ∧ allowed m = true := by
  rw [loadAllowed, loadMission] at h
  cases hload : s.store.loadMission id with
  | none =>
    rw [Effect.exec_bind, Effect.exec_bind, Effect.exec_get] at h
    simp only [hload] at h
    cases h
  | some found =>
    have hfound : (loadMission config id).exec s = (.ok found, s) := by
      rw [loadMission, Effect.exec_bind, Effect.exec_get]
      simp only [hload]
      rfl
    rw [← loadMission, Effect.exec_bind_ok hfound, Effect.exec_require_bind_eq_ok_iff] at h
    obtain ⟨hallowed, hpure⟩ := h
    cases hpure
    exact ⟨rfl, hallowed⟩

section Managed

variable (hP : ∀ id m, P id m → m.managedBy userId = false)

include hP

theorem not_kept_of_loadManaged {m : Mission}
    (h : (loadManaged config id userId).exec s = (.ok m, s)) :
    m.id = id ∧ ∀ old, s.store.loadMission id = some old → ¬ P id old := by
  obtain ⟨hload, hmanaged⟩ := of_loadAllowed config h
  refine ⟨MissionStore.id_of_loadMission hload, fun old hold hkept => ?_⟩
  rw [hload] at hold
  cases hold
  rw [hP id m hkept] at hmanaged
  cases hmanaged

theorem keeps_updateMission (id : MissionId) (updates : MissionUpdate) :
    (updateMission config env id userId updates).Within (Keeps P) := by
  intro s
  rw [updateMission]
  refine (reads_loadAllowed config _ id userId).bind_induction (.refl s) fun m hm => ?_
  obtain ⟨hid, hnot⟩ := not_kept_of_loadManaged config hP hm
  refine (Effect.Reads.ofExcept _).bind_induction (.refl s) fun updated hupdated => ?_
  rw [Effect.exec_ofExcept] at hupdated
  obtain ⟨hid', -⟩ := MissionUpdate.of_apply (Prod.ext_iff.mp hupdated).1
  refine keeps_save ?_
  rw [hid', hid]
  exact hnot

theorem keeps_pauseMission (id : MissionId) :
    (pauseMission config env id userId).Within (Keeps P) := by
  intro s
  rw [pauseMission]
  refine (reads_loadAllowed config _ id userId).bind_induction (.refl s) fun m hm => ?_
  exact keeps_retire (not_kept_of_loadManaged config hP hm).2

theorem keeps_resumeMission (id : MissionId) :
    (resumeMission config env id userId).Within (Keeps P) := by
  intro s
  rw [resumeMission]
  refine (reads_loadAllowed config _ id userId).bind_induction (.refl s) fun m hm => ?_
  obtain ⟨hid, hnot⟩ := not_kept_of_loadManaged config hP hm
  refine (Effect.Reads.require _ _).bind_induction (.refl s) fun _ _ => ?_
  refine (Effect.Reads.ofExcept _).bind_induction (.refl s) fun next _ => ?_
  have hsave : Keeps P s { s with store := s.store.saveMission (resumedMission env m next) } := by
    refine keeps_save ?_
    rw [show (resumedMission env m next).id = id from hid]
    exact hnot
  intro id' old hload hkept
  refine ⟨(hsave id' old hload hkept).1, ?_⟩
  have hne : id' ≠ id := by
    rintro rfl
    exact hnot old hload hkept
  change List.count id' (if s.active.contains id then s.active else s.active ++ [id]) = _
  split_ifs
  · rfl
  · exact count_append_ne hne _

end Managed

theorem keeps_createMission (hfresh : s.store.loadMission env.newMissionId = none)
    (projectId : ProjectId) (name goal : Text) (cadence : MissionCadence)
    (notifyChannels : List Text) :
    Keeps P s ((createMission config env projectId userId name goal cadence notifyChannels).exec
      s).2 := by
  rw [createMission]
  refine (Effect.Reads.ofExcept _).bind_induction (.refl s) fun next _ => ?_
  intro id m hload hP
  have hne : id ≠ env.newMissionId := by
    rintro rfl
    rw [hfresh] at hload
    cases hload
  constructor
  · change (s.store.saveMission _).loadMission id = some m
    rw [MissionStore.loadMission_saveMission]
    exact (if_neg hne).trans hload
  · exact count_append_ne hne _

theorem frame_save {m : Mission} (hid : m.id = id) : (saveMission m).Within (FireFrame id) := by
  intro s
  refine ⟨rfl, fun id' hne => ?_⟩
  change (s.store.saveMission m).loadMission id' = _
  rw [MissionStore.loadMission_saveMission, if_neg (hid ▸ hne)]

theorem id_firedMission (m : Mission) (tid : ThreadId) (triggerPayload : Option Json) :
    (firedMission config env m tid triggerPayload).id = m.id := by
  unfold firedMission
  cases m.cadence with
  | cron expression timezone =>
    dsimp only
    cases nextCronFire config.libs env.fireInstant expression timezone <;> rfl
  | _ => rfl

theorem frame_spawnThread {m : Mission} (hid : m.id = id) (userId : Text)
    (triggerPayload : Option Json) :
    (spawnThread config env m userId triggerPayload).Within (FireFrame id) := by
  have htrans : ∀ a b c, FireFrame id a b → FireFrame id b c → FireFrame id a c :=
    fun _ _ _ => FireFrame.trans
  rw [spawnThread]
  refine .bind htrans (.of_reads (FireFrame.refl id) (.ofExcept _)) fun spawned => ?_
  refine .bind htrans (.modify fun s => ⟨rfl, fun _ _ => rfl⟩) fun _ => ?_
  refine .bind htrans (frame_save ((id_firedMission config env m _ _).trans hid)) fun _ => ?_
  exact .bind htrans (.modify fun s => ⟨rfl, fun _ _ => rfl⟩) fun _ => .pure (FireFrame.refl id) _

theorem frame_tryFire {m : Mission} (hid : m.id = id) (userId : Text)
    (triggerPayload : Option Json) :
    (tryFire config env m userId triggerPayload).Within (FireFrame id) := by
  have htrans : ∀ a b c, FireFrame id a b → FireFrame id b c → FireFrame id a c :=
    fun _ _ _ => FireFrame.trans
  rw [tryFire]
  refine .bind htrans (.get (FireFrame.refl id)) fun s => ?_
  refine .ite (.pure (FireFrame.refl id) _) ?_
  have hrate : (checkUserRate config env m.userId).Within (FireFrame id) := by
    refine .bind htrans (.get (FireFrame.refl id)) fun s => ?_
    exact .bind htrans (.modify fun s => ⟨rfl, fun _ _ => rfl⟩) fun _ =>
      .pure (FireFrame.refl id) _
  refine .bind htrans hrate fun withinRate => ?_
  exact .ite (.pure (FireFrame.refl id) _) (frame_spawnThread config env hid userId triggerPayload)

theorem frame_fireMission (id : MissionId) (userId : Text) (triggerPayload : Option Json) :
    (fireMission config env id userId triggerPayload).Within (FireFrame id) := by
  have htrans : ∀ a b c, FireFrame id a b → FireFrame id b c → FireFrame id a c :=
    fun _ _ _ => FireFrame.trans
  intro s
  rw [fireMission]
  refine (reads_loadAllowed config _ id userId).bind_induction (.refl id s) fun m hm => ?_
  have hid := MissionStore.id_of_loadMission (of_loadAllowed config hm).1
  have hid' : (countedToday config env m).id = id := by
    rw [countedToday]
    split_ifs <;> exact hid
  have hreset : (resetThreadsToday config env m).Within (FireFrame id) := by
    rw [resetThreadsToday]
    exact .ite (frame_save hid') (.pure (FireFrame.refl id) _)
  have hfire : (if !mayFire m then pure none
      else do
        resetThreadsToday config env m
        tryFire config env (countedToday config env m) userId triggerPayload).Within
      (FireFrame id) :=
    .ite (.pure (FireFrame.refl id) _)
      (.bind htrans hreset fun _ => frame_tryFire config env hid' userId triggerPayload)
  exact hfire s

theorem exec_fireMission_of_denied (triggerPayload : Option Json)
    (h : ∀ m, s.store.loadMission id = some m → (m.isShared || m.isOwnedBy userId) = false) :
    ((fireMission config env id userId triggerPayload).exec s).2 = s := by
  rw [fireMission]
  refine (reads_loadAllowed config _ id userId).bind_induction (P := fun s' => s' = s) rfl
    fun m hm => ?_
  obtain ⟨hload, hallowed⟩ := of_loadAllowed config hm
  rw [h m hload] at hallowed
  cases hallowed

end Manager

/-- A call: what it takes from outside, the thread it is made in, and the action. -/
structure CallEvent where
  env : CallEnv
  ctx : ThreadExecutionContext
  actionName : Text
  params : Json

namespace CallEvent

variable (config : ManagerConfig) (c : CallEvent)

def call : MissionCall := effectiveCall config.libs c.actionName c.params

def action : Option MissionAction := MissionAction.ofName (c.call config).actionName

def target (keys : List String) : Option MissionId :=
  (parseMissionId config.libs (idParam (c.call config).params keys)).toOption

def handled : Option (MissionOp ActionResult) :=
  handleMissionCall config c.env c.ctx c.actionName c.params

def result (s : MissionSystem) : Option (Except EngineError ActionResult) :=
  (c.handled config).map fun x => (x.exec s).1

def next (s : MissionSystem) : MissionSystem :=
  match c.handled config with
  | some x => (x.exec s).2
  | none => s

end CallEvent

/-- One call. The id drawn for a new mission is not that of another one. -/
def step (config : ManagerConfig) (s : MissionSystem) (c : CallEvent) : Option MissionSystem :=
  if s.store.loadMission c.env.newMissionId = none then some (c.next config s) else none

def AllowedFire (config : ManagerConfig) (c : CallEvent) (id : MissionId) (m : Mission) : Prop :=
  c.action config = some .fire ∧ c.target config ["id"] = some id ∧ m.isShared = true

/-- A call that completes a mission is made for a user who may change it. -/
def CompletesOwn (config : ManagerConfig) (s : MissionSystem) (c : CallEvent) : Prop :=
  c.action config = some .complete →
    ∀ id m, c.target config ["id", "name"] = some id → s.store.loadMission id = some m →
      m.managedBy c.ctx.userId = true

section Frame

variable (config : ManagerConfig) (env : CallEnv) (ctx : ThreadExecutionContext)
  {P : MissionId → Mission → Prop} {s : MissionSystem}

theorem exec_finish_snd (callId actionName : Text) (x : MissionOp Reply) (s : MissionSystem) :
    ((finish callId actionName x).exec s).2 = (x.exec s).2 := by
  rw [finish, Effect.exec_bind, Effect.exec_attempt]
  dsimp only
  rcases (x.exec s).1 with e | (j | msg | e) <;> rfl

theorem of_parseMissionId {libs : Libraries} {idStr : Text} {id : MissionId} {s : MissionSystem}
    (h : (Effect.ofExcept (parseMissionId libs idStr) : MissionOp MissionId).exec s = (.ok id, s)) :
    (parseMissionId libs idStr).toOption = some id := by
  rw [Effect.exec_ofExcept] at h
  rw [(Prod.mk.inj h).1]
  rfl

theorem keeps_with_id {libs : Libraries} {idStr : Text} {f : MissionId → MissionOp Reply}
    (hf : ∀ id, (parseMissionId libs idStr).toOption = some id → Keeps P s ((f id).exec s).2) :
    Keeps P s (((Effect.ofExcept (parseMissionId libs idStr) : MissionOp MissionId) >>= f).exec
      s).2 :=
  (Effect.Reads.ofExcept _).bind_induction (.refl s) fun id hid => hf id (of_parseMissionId hid)

theorem keeps_missionCreate (hP : ∀ id m, P id m → m.managedBy ctx.userId = false)
    (hfresh : s.store.loadMission env.newMissionId = none) (params : Json)
    (postCreateUpdate : Option MissionUpdate) :
    Keeps P s ((Calls.missionCreate config env ctx params postCreateUpdate).exec s).2 := by
  have htrans : ∀ a b c, Keeps P a b → Keeps P b c → Keeps P a c := fun _ _ _ => Keeps.trans
  rw [Calls.missionCreate, Effect.exec_bind, Effect.exec_get]
  dsimp only
  cases Calls.createRequest config ctx params postCreateUpdate s.projects with
  | error reply => exact .refl s
  | ok req =>
    refine Effect.rel_exec_bind htrans
      (Manager.keeps_createMission config env hfresh _ _ _ _ _) fun id s' _ => ?_
    rw [Effect.exec_bind_reads fun _ => Effect.Reads.pure _, Calls.applyUpdates]
    split_ifs
    · exact Manager.keeps_updateMission config env hP id _ s'
    · exact .refl s'

/-- **What an action changes.** Missions of others are kept, but for a fired or completed one. -/
theorem keeps_runAction {call : MissionCall} {action : MissionAction}
    (hP : ∀ id m, P id m → m.managedBy ctx.userId = false)
    (hfire : action = .fire → ∀ id m, P id m →
      (parseMissionId config.libs (idParam call.params ["id"])).toOption = some id →
        m.isShared = false) (hcomplete : action = .complete → ∀ id m, P id m →
      (parseMissionId config.libs (idParam call.params ["id", "name"])).toOption = some id →
        s.store.loadMission id ≠ some m) (hfresh : s.store.loadMission env.newMissionId = none) :
    Keeps P s ((runAction config env ctx call action).exec s).2 := by
  cases action with
  | create => exact keeps_missionCreate config env ctx hP hfresh call.params call.postCreateUpdate
  | list => exact .refl s
  | get =>
    refine keeps_with_id fun id _ => ?_
    rw [Effect.exec_bind, Effect.exec_get]
    dsimp only
    cases s.store.loadMission id <;> exact .refl s
  | fire =>
    refine keeps_with_id fun id hid => ?_
    rw [Effect.exec_bind_reads fun fired => by cases fired <;> exact .pure _]
    intro id' m hload hkept
    by_cases hne : id' = id
    · -- a mission of another user that is not shared is not fired
      subst hne
      have hshared := hfire rfl id' m hkept hid
      have hmanaged := hP id' m hkept
      rw [Manager.exec_fireMission_of_denied]
      · exact ⟨hload, rfl⟩
      · intro m' hload'
        rw [hload] at hload'
        cases hload'
        rw [Mission.managedBy, hshared] at hmanaged
        rw [hshared]
        exact hmanaged
    · obtain ⟨hactive, hstore⟩ := Manager.frame_fireMission config env id ctx.userId none s
      exact ⟨(hstore id' hne).trans hload, by rw [hactive]⟩
  | pause =>
    refine keeps_with_id fun id _ => ?_
    rw [Effect.exec_bind_reads fun _ => Effect.Reads.pure _]
    exact Manager.keeps_pauseMission config env hP id s
  | resume =>
    refine keeps_with_id fun id _ => ?_
    rw [Effect.exec_bind_reads fun _ => Effect.Reads.pure _]
    exact Manager.keeps_resumeMission config env hP id s
  | complete =>
    refine keeps_with_id fun id hid => ?_
    rw [Effect.exec_bind_reads fun _ => Effect.Reads.pure _]
    exact keeps_retire fun m hload hkept => hcomplete rfl id m hkept hid hload
  | update =>
    refine keeps_with_id fun id _ => ?_
    cases Calls.updateRequest config ctx call.params with
    | error msg => exact .refl s
    | ok updates =>
      dsimp only
      rw [Effect.exec_bind_reads fun _ => Effect.Reads.pure _]
      exact Manager.keeps_updateMission config env hP id updates s

end Frame

def Mission.visibleTo (m : Mission) (userId : Text) : Bool := m.isShared || m.userId == userId

def SameMission (userId : Text) (m m' : Mission) : Prop :=
  m' = m ∨ m.visibleTo userId = false ∧ m'.userId = m.userId

/-- Two systems differ only in what the missions contain that a user does not see. -/
structure SameFor (userId : Text) (s t : MissionSystem) : Prop where
  entries : List.Forall₂ (fun e e' : Σ _ : MissionId, Mission =>
    e'.1 = e.1 ∧ SameMission userId e.2 e'.2) s.store.entries.entries t.store.entries.entries
  userFireLog : t.userFireLog = s.userFireLog
  threads : t.threads = s.threads
  projects : t.projects = s.projects

structure LoadsSame (userId : Text) (s t : MissionSystem) : Prop where
  load : ∀ id, Option.Rel (SameMission userId) (s.store.loadMission id) (t.store.loadMission id)
  userFireLog : t.userFireLog = s.userFireLog
  threads : t.threads = s.threads
  projects : t.projects = s.projects

section Telling

variable {userId : Text} {m m' : Mission} {s t : MissionSystem}

theorem SameMission.check (h : SameMission userId m m') {p : Mission → Bool}
    (hvisible : ∀ m, p m = true → m.visibleTo userId = true) :
    m' = m ∨ p m = false ∧ p m' = false := by
  rcases h with heq | ⟨hhidden, howner⟩
  · exact .inl heq
  · have hhidden' : m'.visibleTo userId = false := by
      rw [Mission.visibleTo, Mission.isShared, howner]
      exact hhidden
    refine .inr ⟨?_, ?_⟩
    · by_contra hp
      have hv := hvisible m (by simpa using hp)
      rw [hhidden] at hv
      cases hv
    · by_contra hp
      have hv := hvisible m' (by simpa using hp)
      rw [hhidden'] at hv
      cases hv

theorem visibleTo_of_fireable (h : (m.isShared || m.isOwnedBy userId) = true) :
    m.visibleTo userId = true := by
  rw [Mission.isOwnedBy] at h
  rw [Mission.visibleTo]
  simp only [Bool.or_eq_true, Bool.and_eq_true] at h ⊢
  exact h.imp_right And.right

theorem visibleTo_of_managedBy (h : m.managedBy userId = true) : m.visibleTo userId = true := by
  rw [Mission.managedBy] at h
  split_ifs at h with hshared
  · rw [Mission.visibleTo, hshared]
    rfl
  · exact visibleTo_of_fireable (by rw [h, Bool.or_true])

theorem filter_eq_of_forall₂ {p : Mission → Bool}
    (hvisible : ∀ m, p m = true → m.visibleTo userId = true)
    {entries entries' : List (Σ _ : MissionId, Mission)}
    (h : List.Forall₂ (fun e e' : Σ _ : MissionId, Mission =>
      e'.1 = e.1 ∧ SameMission userId e.2 e'.2) entries entries') :
    (entries'.map Sigma.snd).filter p = (entries.map Sigma.snd).filter p := by
  induction h with
  | nil => rfl
  | cons hsame _ ih =>
    simp only [List.map_cons, List.filter_cons, ih]
    rcases hsame.2.check hvisible with heq | ⟨hp, hp'⟩
    · rw [heq]
    · rw [hp, hp']
      rfl

theorem rel_dlookup_of_forall₂ {entries entries' : List (Σ _ : MissionId, Mission)}
    (h : List.Forall₂ (fun e e' : Σ _ : MissionId, Mission =>
      e'.1 = e.1 ∧ SameMission userId e.2 e'.2) entries entries') (id : MissionId) :
    Option.Rel (SameMission userId) (entries.dlookup id) (entries'.dlookup id) := by
  induction h with
  | nil => exact .none
  | @cons e e' _ _ hsame _ ih =>
    obtain ⟨k, m⟩ := e
    obtain ⟨k', m'⟩ := e'
    obtain ⟨rfl, hm⟩ := hsame
    by_cases hid : id = k'
    · subst hid
      rw [List.dlookup_cons_eq, List.dlookup_cons_eq]
      exact .some hm
    · rw [List.dlookup_cons_ne _ _ hid, List.dlookup_cons_ne _ _ hid]
      exact ih

theorem SameFor.loadsSame (h : SameFor userId s t) : LoadsSame userId s t where
  load := rel_dlookup_of_forall₂ h.entries
  userFireLog := h.userFireLog
  threads := h.threads
  projects := h.projects

theorem SameFor.listMissions (h : SameFor userId s t) {owner : Text}
    (howner : isSharedOwner owner = true ∨ owner = userId) (projectId : ProjectId) :
    t.store.listMissions projectId owner = s.store.listMissions projectId owner := by
  refine filter_eq_of_forall₂ (fun m hm => ?_) h.entries
  simp only [Bool.and_eq_true, beq_iff_eq] at hm
  rw [Mission.visibleTo, Mission.isShared, hm.2]
  rcases howner with hshared | rfl
  · rw [hshared, Bool.true_or]
  · rw [beq_self_eq_true, Bool.or_true]

theorem SameFor.listMissionsWithShared (h : SameFor userId s t) (projectId : ProjectId) :
    t.store.listMissionsWithShared projectId userId =
      s.store.listMissionsWithShared projectId userId := by
  have hshared : t.store.listSharedMissions projectId = s.store.listSharedMissions projectId := by
    have hcandidates : ∀ owner ∈ sharedOwnerCandidates,
        t.store.listMissions projectId owner = s.store.listMissions projectId owner :=
      fun owner howner => h.listMissions (.inl (isSharedOwner_iff.mpr howner)) projectId
    rw [MissionStore.listSharedMissions, MissionStore.listSharedMissions,
      List.flatMap_congr hcandidates]
  rw [MissionStore.listMissionsWithShared, MissionStore.listMissionsWithShared, hshared,
    h.listMissions (.inr rfl)]

theorem LoadsSame.load_cases (h : LoadsSame userId s t) (id : MissionId) :
    (s.store.loadMission id = none ∧ t.store.loadMission id = none) ∨
      ∃ m m', s.store.loadMission id = some m ∧ t.store.loadMission id = some m' ∧
        SameMission userId m m' := by
  have hload := h.load id
  revert hload
  cases s.store.loadMission id <;> cases t.store.loadMission id <;> intro hload <;> cases hload
  · exact .inl ⟨rfl, rfl⟩
  · next m m' hm => exact .inr ⟨m, m', rfl, rfl, hm⟩

theorem LoadsSame.save (h : LoadsSame userId s t) (m : Mission) :
    LoadsSame userId { s with store := s.store.saveMission m }
      { t with store := t.store.saveMission m } where
  load := by
    intro id
    change Option.Rel _ ((s.store.saveMission m).loadMission id)
      ((t.store.saveMission m).loadMission id)
    rw [MissionStore.loadMission_saveMission, MissionStore.loadMission_saveMission]
    split_ifs
    · exact .some (.inl rfl)
    · exact h.load id
  userFireLog := h.userFireLog
  threads := h.threads
  projects := h.projects

end Telling

namespace Manager

variable (config : ManagerConfig) (env : CallEnv) {userId : Text}

theorem respects_saveMission (m : Mission) : (saveMission m).Respects (LoadsSame userId) :=
  .modify fun _ _ h => h.save m

theorem respects_retire (id : MissionId) (status : MissionStatus) :
    (retire env id status).Respects (LoadsSame userId) := by
  refine .modify fun s t h => ⟨fun id' => ?_, h.userFireLog, h.threads, h.projects⟩
  change Option.Rel _ ((s.store.updateMissionStatus id status env.now).loadMission id')
    ((t.store.updateMissionStatus id status env.now).loadMission id')
  rw [MissionStore.loadMission_updateMissionStatus, MissionStore.loadMission_updateMissionStatus]
  split_ifs
  · rcases h.load_cases id' with ⟨hs, ht⟩ | ⟨m, m', hs, ht, rfl | ⟨hhidden, howner⟩⟩
    · rw [hs, ht]
      exact .none
    · rw [hs, ht]
      exact .some (.inl rfl)
    · rw [hs, ht]
      exact .some (.inr ⟨hhidden, howner⟩)
  · exact h.load id'

theorem respects_loadAllowed {allowed : Mission → Bool}
    (hvisible : ∀ m, allowed m = true → m.visibleTo userId = true) (id : MissionId)
    (user : Text) : (loadAllowed config allowed id user).Respects (LoadsSame userId) := by
  intro s t h
  have hexec : ∀ (s : MissionSystem), (loadAllowed config allowed id user).exec s =
      ((s.store.loadMission id).elim (.error (missionNotFound config id)) fun m =>
        if allowed m then .ok m else .error (accessDenied config id user), s) := by
    intro s
    rw [loadAllowed, loadMission, Effect.exec_bind, Effect.exec_bind, Effect.exec_get]
    dsimp only
    cases s.store.loadMission id with
    | none => rfl
    | some m =>
      dsimp only
      rw [Effect.exec_pure]
      cases hallowed : allowed m <;> simp [Effect.require, hallowed] <;> rfl
  rw [hexec, hexec]
  refine ⟨?_, h⟩
  rcases h.load_cases id with ⟨hs, ht⟩ | ⟨m, m', hs, ht, hm⟩
  · rw [hs, ht]
  · rw [hs, ht]
    rcases hm.check hvisible with rfl | ⟨hp, hp'⟩
    · rfl
    · simp only [Option.elim_some, hp, hp', Bool.false_eq_true, if_false]

theorem respects_loadManaged (id : MissionId) :
    (loadManaged config id userId).Respects (LoadsSame userId) :=
  respects_loadAllowed config (fun _ => visibleTo_of_managedBy) id userId

theorem respects_updateMission (id : MissionId) (updates : MissionUpdate) :
    (updateMission config env id userId updates).Respects (LoadsSame userId) :=
  (respects_loadManaged config id).bind fun _ => (Effect.Respects.ofExcept _).bind fun updated =>
    respects_saveMission updated

theorem respects_pauseMission (id : MissionId) :
    (pauseMission config env id userId).Respects (LoadsSame userId) :=
  (respects_loadManaged config id).bind fun _ => respects_retire env id .paused

theorem respects_activate (f : MissionSystem → List MissionId) :
    (modify fun s => { s with active := f s } : MissionOp Unit).Respects (LoadsSame userId) :=
  .modify fun _ _ h => ⟨h.load, h.userFireLog, h.threads, h.projects⟩

theorem respects_resumeMission (id : MissionId) :
    (resumeMission config env id userId).Respects (LoadsSame userId) :=
  (respects_loadManaged config id).bind fun _ => (Effect.Respects.require _ _).bind fun _ =>
    (Effect.Respects.ofExcept _).bind fun _ => (respects_saveMission _).bind fun _ =>
      respects_activate _

theorem respects_createMission (projectId : ProjectId) (owner name goal : Text)
    (cadence : MissionCadence) (notifyChannels : List Text) :
    (createMission config env projectId owner name goal cadence notifyChannels).Respects
      (LoadsSame userId) :=
  (Effect.Respects.ofExcept _).bind fun _ => (respects_saveMission _).bind fun _ =>
    (respects_activate _).bind fun _ => .pure _

theorem respects_checkUserRate (user : Text) :
    (checkUserRate config env user).Respects (LoadsSame userId) := by
  refine .get_bind fun s t h => ?_
  rw [h.userFireLog]
  refine ⟨rfl, h.load, ?_, h.threads, h.projects⟩
  change t.userFireLog.insert user _ = s.userFireLog.insert user _
  rw [h.userFireLog]

theorem respects_spawnThread (m : Mission) (user : Text) (triggerPayload : Option Json) :
    (spawnThread config env m user triggerPayload).Respects (LoadsSame userId) := by
  refine (Effect.Respects.ofExcept _).bind fun spawned => ?_
  refine Effect.Respects.bind (.modify fun a b h => ?_) fun _ =>
    (respects_saveMission _).bind fun _ => Effect.Respects.bind (.modify fun a b h => ?_)
      fun _ => .pure _
  · exact ⟨h.load, h.userFireLog, by rw [h.threads], h.projects⟩
  · exact ⟨h.load, by rw [h.userFireLog], h.threads, h.projects⟩

theorem respects_tryFire (m : Mission) (user : Text) (triggerPayload : Option Json) :
    (tryFire config env m user triggerPayload).Respects (LoadsSame userId) := by
  refine .get_bind fun s t h => ?_
  rw [h.threads]
  refine Effect.Respects.ite (R := LoadsSame userId) (.pure _) ?_ s t h
  exact (respects_checkUserRate config env m.userId).bind fun withinRate =>
    .ite (.pure _) (respects_spawnThread config env m user triggerPayload)

theorem respects_fireMission (id : MissionId) (triggerPayload : Option Json) :
    (fireMission config env id userId triggerPayload).Respects (LoadsSame userId) := by
  refine (respects_loadAllowed config (fun _ => visibleTo_of_fireable) id userId).bind fun m => ?_
  refine .ite (.pure _) (.bind ?_ fun _ => respects_tryFire config env _ userId triggerPayload)
  rw [resetThreadsToday]
  exact .ite (respects_saveMission _) (.pure _)

end Manager

section Actions

variable (config : ManagerConfig) (env : CallEnv) (ctx : ThreadExecutionContext)

theorem respects_missionCreate (params : Json) (postCreateUpdate : Option MissionUpdate) :
    (Calls.missionCreate config env ctx params postCreateUpdate).Respects
      (LoadsSame ctx.userId) := by
  refine .get_bind fun s t h => ?_
  rw [h.projects]
  cases Calls.createRequest config ctx params postCreateUpdate s.projects with
  | error reply => exact ⟨rfl, h⟩
  | ok req =>
    refine Effect.Respects.bind (R := LoadsSame ctx.userId)
      (Manager.respects_createMission config env _ _ _ _ _ _) (fun id => ?_) s t h
    refine Effect.Respects.bind ?_ fun _ => .pure _
    rw [Calls.applyUpdates]
    exact .ite (Manager.respects_updateMission config env id _).attempt (.pure _)

theorem respects_missionGet (params : Json) :
    (Calls.missionGet config ctx params).Respects (LoadsSame ctx.userId) := by
  refine (Effect.Respects.ofExcept _).bind fun id => .get_bind fun s t h => ?_
  rw [h.threads]
  rcases h.load_cases id with ⟨hs, ht⟩ | ⟨m, m', hs, ht, hm⟩
  · rw [hs, ht]
    exact ⟨rfl, h⟩
  · rw [hs, ht]
    refine ⟨?_, h⟩
    dsimp only
    rw [Effect.exec_pure, Effect.exec_pure]
    have hown : ∀ m : Mission, (m.userId == ctx.userId) = true → m.visibleTo ctx.userId = true :=
      fun m hm => by rw [Mission.visibleTo, hm, Bool.or_true]
    rcases hm.check hown with rfl | ⟨hp, hp'⟩
    · rfl
    · simp only [Calls.shownMission, bne, hp, hp', Bool.not_false, if_true]

/-- **What an action tells** depends on nothing that the user does not see. -/
theorem respects_runAction {s t : MissionSystem} (h : SameFor ctx.userId s t) (call : MissionCall)
    (action : MissionAction) : ((runAction config env ctx call action).exec s).1 =
      ((runAction config env ctx call action).exec t).1 := by
  cases action with
  | create =>
    exact (respects_missionCreate config env ctx call.params call.postCreateUpdate s t
      h.loadsSame).1
  | list =>
    change Except.ok (Reply.output (.arr ((s.store.listMissionsWithShared _ _).map _))) =
      Except.ok (Reply.output (.arr ((t.store.listMissionsWithShared _ _).map _)))
    rw [h.listMissionsWithShared]
  | get => exact (respects_missionGet config ctx call.params s t h.loadsSame).1
  | fire =>
    refine (Effect.Respects.bind (R := LoadsSame ctx.userId) (.ofExcept _) (fun id => ?_) s t
      h.loadsSame).1
    refine (Manager.respects_fireMission config env id none).bind fun fired => ?_
    cases fired <;> exact .pure _
  | pause =>
    exact (Effect.Respects.bind (R := LoadsSame ctx.userId) (.ofExcept _) (fun id =>
      (Manager.respects_pauseMission config env id).bind fun _ => .pure _) s t h.loadsSame).1
  | resume =>
    exact (Effect.Respects.bind (R := LoadsSame ctx.userId) (.ofExcept _) (fun id =>
      (Manager.respects_resumeMission config env id).bind fun _ => .pure _) s t h.loadsSame).1
  | complete =>
    exact (Effect.Respects.bind (R := LoadsSame ctx.userId) (.ofExcept _) (fun id =>
      (Manager.respects_retire env id .completed).bind fun _ => .pure _) s t h.loadsSame).1
  | update =>
    refine (Effect.Respects.bind (R := LoadsSame ctx.userId) (.ofExcept _) (fun id => ?_) s t
      h.loadsSame).1
    cases Calls.updateRequest config ctx call.params with
    | error msg => exact .pure _
    | ok updates =>
      exact (Manager.respects_updateMission config env id updates).bind fun _ => .pure _

end Actions

/-- A call leaves the missions of others alone, unless it is an allowed fire, and does not depend on
those its user cannot see. -/
structure SafeCall (config : ManagerConfig) (s : MissionSystem) (c : CallEvent) : Prop where
  records : ∀ s', step config s c = some s' → ∀ id m, s.store.loadMission id = some m →
    m.managedBy c.ctx.userId = false → ¬ AllowedFire config c id m →
      s'.store.loadMission id = some m
  active : ∀ s', step config s c = some s' → ∀ id m, s.store.loadMission id = some m →
    m.managedBy c.ctx.userId = false → ¬ AllowedFire config c id m →
      s'.active.count id = s.active.count id
  returned : ∀ t, SameFor c.ctx.userId s t → c.result config t = c.result config s

/-- **Missions stay with their owners** if calls complete only what their users may change. -/
theorem safe_of_completesOwn {config : ManagerConfig} {s : MissionSystem} {calls : List CallEvent}
    (h : Along (step config) (CompletesOwn config) s calls) :
    Along (step config) (SafeCall config) s calls := by
  refine h.mono fun s c hc => ?_
  -- missions that the caller does not manage are kept, but for the fires that are allowed
  have hkeeps : ∀ s', step config s c = some s' →
      Keeps (fun id m => m.managedBy c.ctx.userId = false ∧ ¬ AllowedFire config c id m) s s' := by
    intro s' hstep
    rw [step] at hstep
    split_ifs at hstep with hfresh
    cases hstep
    rw [CallEvent.next, CallEvent.handled, handleMissionCall]
    cases haction : MissionAction.ofName (c.call config).actionName with
    | none =>
      rw [CallEvent.call] at haction
      simp only [haction, Option.map_none]
      exact .refl s
    | some action =>
      have hcall : c.action config = some action := haction
      rw [CallEvent.call] at haction
      simp only [haction, Option.map_some, exec_finish_snd]
      refine keeps_runAction config c.env c.ctx (fun id m hP => hP.1) ?_ ?_ hfresh
      · rintro rfl id m hP htarget
        by_contra hshared
        exact hP.2 ⟨hcall, htarget, by simpa using hshared⟩
      · rintro rfl id m hP htarget hload
        have hmanaged := hc hcall id m htarget hload
        rw [hP.1] at hmanaged
        cases hmanaged
  refine ⟨fun s' hs' id m hload hm hfire => (hkeeps s' hs' id m hload ⟨hm, hfire⟩).1,
    fun s' hs' id m hload hm hfire => (hkeeps s' hs' id m hload ⟨hm, hfire⟩).2, fun t ht => ?_⟩
  rw [CallEvent.result, CallEvent.result, CallEvent.handled, handleMissionCall]
  cases MissionAction.ofName (effectiveCall config.libs c.actionName c.params).actionName with
  | none => rfl
  | some action =>
    refine congrArg some ?_
    have hrun := respects_runAction config c.env c.ctx ht
      (effectiveCall config.libs c.actionName c.params) action
    simp only [finish, Effect.exec_bind, Effect.exec_attempt, hrun]
    rcases ((runAction config c.env c.ctx _ action).exec t).1 with e | (j | msg | e) <;> rfl

def sampleLibraries : Libraries where
  parseUuid s := if s == "7".toList then .ok 7 else .error "invalid character".toList
  uuidText n := (toString n).toList
  toLowercase := Text.toAsciiLowercase
  isTimezone _ := false
  checkRegex _ := .ok ()
  cronUpcoming _ _ _ := .ok none
  dateIn _ now := now
  rfc3339 _ := []
  debugCadence _ := []
  jsonText _ := []

def sampleConfig : ManagerConfig := ⟨sampleLibraries, 10, 60000000000, none⟩

def sampleEnv (newMissionId : MissionId) : CallEnv :=
  ⟨0, 0, 0, newMissionId, 0, fun _ _ => .error (.other [])⟩

def sampleCall (userId : Text) (newMissionId : MissionId) (actionName : String)
    (params : Json) : CallEvent :=
  ⟨sampleEnv newMissionId, ⟨.mission, 1, userId, none, none, none, none⟩, actionName.toList, params⟩

def emptySystem : MissionSystem := ⟨.empty, [], ∅, ∅, ∅, ∅⟩

def createCall (userId : Text) : CallEvent :=
  sampleCall userId 7 "mission_create" (.obj [("cadence".toList, .str "manual".toList)])

theorem safe_of_own_completion : Along (step sampleConfig) (SafeCall sampleConfig) emptySystem
      [createCall "alice".toList, sampleCall "alice".toList 8 "mission_pause"
        (.obj [("id".toList, .str "7".toList)]), sampleCall "alice".toList 9 "routine_delete"
        (.obj [("name".toList, .str "7".toList)])] := by
  refine safe_of_completesOwn ⟨fun h => ?_, fun s hs => ⟨fun h => ?_, fun s' hs' =>
    ⟨fun _ id m htarget hload => ?_, fun _ _ => trivial⟩⟩⟩
  · exact absurd h (by decide)
  · exact absurd h (by decide)
  · cases hs
    cases hs'
    cases htarget
    cases hload
    decide

/-- Bob completes the mission of Alice: it is no longer active. -/
theorem foreign_mission_completed : ¬ Along (step sampleConfig) (SafeCall sampleConfig) emptySystem
      [createCall "alice".toList, sampleCall "bob".toList 8 "mission_complete"
        (.obj [("id".toList, .str "7".toList)])] := by
  intro h
  have hsafe := (h.2 _ rfl).1
  have hactive := hsafe.active _ rfl 7 _ rfl (by decide) (fun hfire => absurd hfire.1 (by decide))
  exact absurd hactive (by decide)

end IronClaw.Missions
