import IronClaw.Missions.Ownership
import IronClaw.Missions.Triggers

/-!
# Starting the manager

The list of active missions is filled project by project from what is stored. A cron mission that
has no next fire time gets one on the way.
-/

namespace IronClaw.Missions

open Foundation (HashMap Effect)

def MissionStore.listAllMissions (store : MissionStore) (projectId : ProjectId) : List Mission :=
  store.entries.values.filter fun m => m.projectId == projectId

theorem MissionStore.mem_listAllMissions {store : MissionStore} {projectId : ProjectId}
    {m : Mission} : m ∈ store.listAllMissions projectId ↔
      store.loadMission m.id = some m ∧ m.projectId = projectId := by
  simp only [listAllMissions, List.mem_filter, HashMap.mem_values, beq_iff_eq]
  refine and_congr_left fun _ => ⟨?_, fun hm => ⟨m.id, hm⟩⟩
  rintro ⟨id, hm⟩
  rwa [store.keyed id m hm]

namespace Manager

variable (libs : Libraries) (clock : MissionId → Instant)

/-- Compute a missing next fire time. The stored mission is saved unless it has one. -/
def backfill (mission : Mission) : MissionOp Unit :=
  match mission.cadence with
  | .cron expression timezone =>
    if mission.nextFireAt.isNone then
      match nextCronFire libs (clock mission.id) expression timezone with
      | .ok (some next) => do
        let s ← get
        match s.store.loadMission mission.id with
        | some fresh =>
          if fresh.nextFireAt.isNone then saveMission { fresh with nextFireAt := some next }
          else pure ()
        | none => pure ()
      | _ => pure ()
    else pure ()
  | _ => pure ()

def collectActive : List Mission → MissionOp (List MissionId)
  | [] => pure []
  | mission :: missions =>
    if mission.status != .active then collectActive missions
    else do
      backfill libs clock mission
      let activeIds ← collectActive missions
      pure (mission.id :: activeIds)

def bootstrapProject (projectId : ProjectId) : MissionOp Nat := do
  let s ← get
  let activeIds ← collectActive libs clock (s.store.listAllMissions projectId)
  modify fun s => { s with active := activeIds }
  pure activeIds.length

end Manager

/-- The record of a cron mission with a missing next fire time filled in, if any. -/
def backfilled (libs : Libraries) (now : Instant) (m : Mission) : Mission :=
  match m.cadence with
  | .cron expression timezone =>
    if m.nextFireAt.isNone then
      match nextCronFire libs now expression timezone with
      | .ok (some next) => { m with nextFireAt := some next }
      | _ => m
    else m
  | _ => m

section Backfill

variable {libs : Libraries} {now : Instant} {clock : MissionId → Instant} {m m' : Mission}

theorem backfilled_eq (libs : Libraries) (now : Instant) (m : Mission) :
    backfilled libs now m = m ∨ ∃ expression timezone next,
      m.cadence = .cron expression timezone ∧ m.nextFireAt = none ∧
      nextCronFire libs now expression timezone = .ok (some next) ∧
      backfilled libs now m = { m with nextFireAt := some next } := by
  unfold backfilled
  split
  · rename_i expression timezone hcadence
    split_ifs with hnone
    · split
      · rename_i next hnext
        exact .inr ⟨expression, timezone, next, hcadence, Option.isNone_iff_eq_none.mp hnone, hnext,
          rfl⟩
      · exact .inl rfl
    · exact .inl rfl
  · exact .inl rfl

theorem backfilled_eq_with (libs : Libraries) (now : Instant) (m : Mission) :
    backfilled libs now m = { m with nextFireAt := (backfilled libs now m).nextFireAt } := by
  rcases backfilled_eq libs now m with heq | ⟨expression, timezone, next, -, -, -, heq⟩ <;> rw [heq]

@[simp] theorem status_backfilled : (backfilled libs now m).status = m.status := by
  rw [backfilled_eq_with]

@[simp] theorem projectId_backfilled : (backfilled libs now m).projectId = m.projectId := by
  rw [backfilled_eq_with]

theorem backfilled_of_isSome (h : m.nextFireAt.isSome) : backfilled libs now m = m := by
  rcases backfilled_eq libs now m with heq | ⟨expression, timezone, next, -, hnone, -, -⟩
  · exact heq
  · rw [hnone] at h
    cases h

theorem backfilled_of_not_cron (h : ∀ expression timezone, m.cadence ≠ .cron expression timezone) :
    backfilled libs now m = m := by
  rcases backfilled_eq libs now m with heq | ⟨expression, timezone, next, hcadence, -, -, -⟩
  · exact heq
  · exact absurd hcadence (h expression timezone)

theorem backfilled_backfilled :
    backfilled libs now (backfilled libs now m) = backfilled libs now m := by
  rcases backfilled_eq libs now m with heq | ⟨expression, timezone, next, -, -, -, heq⟩
  · rw [heq, heq]
  · apply backfilled_of_isSome
    rw [heq]
    rfl

end Backfill

def Fills (libs : Libraries) (clock : MissionId → Instant) (P : MissionId → Prop)
    (store store' : MissionStore) : Prop :=
  ∀ id, (P id → store'.loadMission id = (store.loadMission id).map (backfilled libs (clock id))) ∧
    (¬ P id → store'.loadMission id = store.loadMission id)

section Bootstrap

variable {libs : Libraries} {clock : MissionId → Instant} {P Q : MissionId → Prop}
  {s : MissionSystem} {store store' store'' : MissionStore}

theorem Fills.congr (h : Fills libs clock P store store') (hPQ : ∀ id, P id ↔ Q id) :
    Fills libs clock Q store store' := by
  have heq : P = Q := funext fun id => propext (hPQ id)
  rwa [← heq]

theorem Fills.refl (h : ∀ id m, P id → store.loadMission id = some m →
    backfilled libs (clock id) m = m) : Fills libs clock P store store := by
  intro id
  refine ⟨fun hP => ?_, fun _ => rfl⟩
  cases hm : store.loadMission id with
  | none => rfl
  | some m => rw [Option.map_some, h id m hP hm]

theorem Fills.trans (h : Fills libs clock P store store') (h' : Fills libs clock Q store' store'') :
    Fills libs clock (fun id => P id ∨ Q id) store store'' := by
  intro id
  obtain ⟨hP, hnP⟩ := h id
  obtain ⟨hQ, hnQ⟩ := h' id
  have htwice : ∀ o : Option Mission, (o.map (backfilled libs (clock id))).map
      (backfilled libs (clock id)) = o.map (backfilled libs (clock id)) := by
    intro o
    cases o with
    | none => rfl
    | some m => exact congrArg some backfilled_backfilled
  constructor
  · intro hPQ
    by_cases hq : Q id
    · by_cases hp : P id
      · rw [hQ hq, hP hp, htwice]
      · rw [hQ hq, hnP hp]
    · rw [hnQ hq, hP (hPQ.resolve_right hq)]
  · intro hPQ
    rw [hnQ fun hq => hPQ (.inr hq), hnP fun hp => hPQ (.inl hp)]

def Listed (libs : Libraries) (clock : MissionId → Instant) (store : MissionStore) (m : Mission) :
    Prop :=
  store.loadMission m.id = some m ∨ store.loadMission m.id = some (backfilled libs (clock m.id) m)

theorem Listed.of_fills {m : Mission} (h : Listed libs clock store m)
    (hfills : Fills libs clock P store store') : Listed libs clock store' m := by
  by_cases hP : P m.id
  · refine .inr ?_
    rw [(hfills m.id).1 hP]
    rcases h with h | h
    · rw [h, Option.map_some]
    · rw [h, Option.map_some, backfilled_backfilled]
  · rw [Listed, (hfills m.id).2 hP]
    exact h

theorem exec_backfill {m : Mission} (h : Listed libs clock s.store m) :
    ∃ store, (Manager.backfill libs clock m).exec s = (.ok (), { s with store := store }) ∧
      Fills libs clock (fun id => id = m.id) s.store store := by
  have hsame : backfilled libs (clock m.id) m = m →
      Fills libs clock (fun id => id = m.id) s.store s.store := by
    rintro heq
    refine .refl fun id m' hid hm' => ?_
    subst hid
    rcases h with hm | hm <;> rw [hm'] at hm <;> cases hm <;> simp [heq]
  unfold Manager.backfill
  split
  · rename_i expression timezone hcadence
    split_ifs with hnone
    · split
      · rename_i next hnext
        have hfilled : backfilled libs (clock m.id) m = { m with nextFireAt := some next } := by
          simp only [backfilled, hcadence, hnone, hnext, if_true]
        rcases h with hm | hm
        · -- nobody has filled it in yet
          refine ⟨s.store.saveMission { m with nextFireAt := some next }, ?_, fun id => ?_⟩
          · rw [Effect.exec_bind, Effect.exec_get]
            simp only [hm, hnone, if_true]
            rfl
          · rw [MissionStore.loadMission_saveMission]
            refine ⟨fun hid => ?_, fun hid => if_neg hid⟩
            subst hid
            rw [if_pos rfl, hm, ← hfilled, Option.map_some]
        · refine ⟨s.store, ?_, .refl fun id m' hid hm' => ?_⟩
          · rw [Effect.exec_bind, Effect.exec_get]
            simp only [hm, hfilled]
            rfl
          · subst hid
            rw [hm'] at hm
            cases hm
            exact backfilled_backfilled
      · rename_i hother
        refine ⟨s.store, rfl, hsame ?_⟩
        rcases backfilled_eq libs (clock m.id) m with heq | ⟨e, tz, next, hc, -, hnext, -⟩
        · exact heq
        · rw [hcadence] at hc
          cases hc
          exact absurd hnext (hother next)
    · refine ⟨s.store, rfl, hsame (backfilled_of_isSome ?_)⟩
      rwa [Option.isNone_iff_eq_none, ← ne_eq, Option.ne_none_iff_isSome] at hnone
  · rename_i hcadence
    exact ⟨s.store, rfl, hsame (backfilled_of_not_cron hcadence)⟩

theorem exec_collectActive {missions : List Mission}
    (h : ∀ m ∈ missions, Listed libs clock s.store m) :
    ∃ store, (Manager.collectActive libs clock missions).exec s =
        (.ok ((missions.filter fun m => m.status == .active).map Mission.id),
          { s with store := store }) ∧
      Fills libs clock (fun id => ∃ m ∈ missions, m.id = id ∧ m.status = .active) s.store
        store := by
  induction missions generalizing s with
  | nil => exact ⟨s.store, rfl, .refl fun id m ⟨_, hmem, _⟩ => absurd hmem List.not_mem_nil⟩
  | cons m missions ih =>
    have hrest : ∀ m' ∈ missions, Listed libs clock s.store m' := fun m' hm' =>
      h m' (List.mem_cons_of_mem m hm')
    rw [Manager.collectActive]
    by_cases hactive : m.status = .active
    · obtain ⟨store, hexec, hstore⟩ := exec_backfill (h m List.mem_cons_self)
      obtain ⟨store', hexec', hstore'⟩ := ih (s := { s with store := store })
        fun m' hm' => (hrest m' hm').of_fills hstore
      refine ⟨store', ?_, (hstore.trans hstore').congr fun id => ?_⟩
      · rw [if_neg (by simp [hactive]), Effect.exec_bind_ok hexec, Effect.exec_bind_ok hexec']
        simp [hactive]
      · simp [hactive, eq_comm]
    · obtain ⟨store, hexec, hstore⟩ := ih hrest
      refine ⟨store, ?_, hstore.congr fun id => ?_⟩
      · rw [if_pos (by simp [hactive]), hexec]
        simp [hactive]
      · simp [hactive]

theorem exec_bootstrapProject (libs : Libraries) (clock : MissionId → Instant) (s : MissionSystem)
    (projectId : ProjectId) :
    ∃ store active, ((Manager.bootstrapProject libs clock projectId).exec s).2 =
        { s with store := store, active := active } ∧
      (∀ id, id ∈ active ↔ ∃ m, s.store.loadMission id = some m ∧ m.status = .active ∧
        m.projectId = projectId) ∧
      Fills libs clock (fun id => id ∈ active) s.store store := by
  have hlisted : ∀ m ∈ s.store.listAllMissions projectId, Listed libs clock s.store m :=
    fun m hm => .inl (MissionStore.mem_listAllMissions.mp hm).1
  obtain ⟨store, hexec, hstore⟩ := exec_collectActive hlisted
  refine ⟨store, ((s.store.listAllMissions projectId).filter fun m => m.status == .active).map
    Mission.id, ?_, fun id => ?_, hstore.congr fun id => ?_⟩
  · rw [Manager.bootstrapProject, Effect.exec_bind, Effect.exec_get]
    dsimp only
    rw [Effect.exec_bind_ok hexec]
    rfl
  · simp only [List.mem_map, List.mem_filter, beq_iff_eq, MissionStore.mem_listAllMissions]
    constructor
    · rintro ⟨m, ⟨⟨hm, hproject⟩, hstatus⟩, rfl⟩
      exact ⟨m, hm, hstatus, hproject⟩
    · rintro ⟨m, hm, hstatus, hproject⟩
      have hid := MissionStore.id_of_loadMission hm
      exact ⟨m, ⟨⟨hid ▸ hm, hproject⟩, hstatus⟩, hid⟩
  · simp only [List.mem_map, List.mem_filter, beq_iff_eq]
    exact exists_congr fun m => by tauto

theorem Fills.active_iff (h : Fills libs clock P store store') {id : MissionId}
    {projectId : ProjectId} :
    (∃ m, store'.loadMission id = some m ∧ m.status = .active ∧ m.projectId = projectId) ↔
      ∃ m, store.loadMission id = some m ∧ m.status = .active ∧ m.projectId = projectId := by
  by_cases hP : P id
  · rw [(h id).1 hP]
    simp [Option.map_eq_some_iff]
  · rw [(h id).2 hP]

end Bootstrap

/-- A manager over the same store that remembers nothing. -/
def MissionSystem.fresh (s : MissionSystem) : MissionSystem :=
  { s with active := [], lastFireAttempt := ∅, userFireLog := ∅ }

/-- A new manager over the same store, which bootstrapped some projects in turn. -/
def restarted (libs : Libraries) (clock : MissionId → Instant) (projects : List ProjectId)
    (s : MissionSystem) : MissionHost where
  system := projects.foldl (fun s projectId =>
    ((Manager.bootstrapProject libs clock projectId).exec s).2) s.fresh
  dedupTable := ∅

section Restarted

variable {libs : Libraries} {clock : MissionId → Instant} {projects : List ProjectId}
  {s : MissionSystem} {id : MissionId}

theorem restarted_concat (projectId : ProjectId) :
    (restarted libs clock (projects ++ [projectId]) s).system =
      ((Manager.bootstrapProject libs clock projectId).exec
        (restarted libs clock projects s).system).2 := by
  simp only [restarted, List.foldl_append, List.foldl_cons, List.foldl_nil]

theorem restarted_eq (libs : Libraries) (clock : MissionId → Instant) (projects : List ProjectId)
    (s : MissionSystem) : ∃ store active P, (restarted libs clock projects s).system =
      { s.fresh with store := store, active := active } ∧ Fills libs clock P s.store store := by
  induction projects using List.reverseRecOn with
  | nil => exact ⟨s.store, [], fun _ => False, rfl, .refl fun id m hfalse => hfalse.elim⟩
  | append_singleton projects projectId ih =>
    obtain ⟨store, active, P, heq, hfills⟩ := ih
    obtain ⟨store', active', hexec, -, hfills'⟩ :=
      exec_bootstrapProject libs clock (restarted libs clock projects s).system projectId
    rw [heq] at hexec hfills'
    exact ⟨store', active', _, by rw [restarted_concat, heq, hexec], hfills.trans hfills'⟩

theorem mem_active_restarted : id ∈ (restarted libs clock projects s).system.active ↔
    ∃ m, s.store.loadMission id = some m ∧ m.status = .active ∧
      projects.getLast? = some m.projectId := by
  rcases List.eq_nil_or_concat projects with rfl | ⟨projects, projectId, rfl⟩
  · simp [restarted, MissionSystem.fresh]
  · obtain ⟨store, active, P, heq, hfills⟩ := restarted_eq libs clock projects s
    obtain ⟨store', active', hexec, hmem, -⟩ :=
      exec_bootstrapProject libs clock (restarted libs clock projects s).system projectId
    rw [heq] at hexec hmem
    rw [List.concat_eq_append, restarted_concat, heq, hexec]
    dsimp only
    rw [hmem id]
    simp only [List.getLast?_append, List.getLast?_singleton, Option.some_or, Option.some.injEq]
    rw [hfills.active_iff]
    simp only [eq_comm]

theorem loadMission_restarted (h : id ∈ (restarted libs clock projects s).system.active) :
    (restarted libs clock projects s).system.store.loadMission id =
      (s.store.loadMission id).map (backfilled libs (clock id)) := by
  rcases List.eq_nil_or_concat projects with rfl | ⟨projects, projectId, rfl⟩
  · cases h
  · obtain ⟨store, active, P, heq, hfills⟩ := restarted_eq libs clock projects s
    obtain ⟨store', active', hexec, -, hfills'⟩ :=
      exec_bootstrapProject libs clock (restarted libs clock projects s).system projectId
    rw [List.concat_eq_append, restarted_concat, heq] at h ⊢
    rw [heq] at hexec hfills'
    rw [hexec] at h ⊢
    exact ((hfills.trans hfills') id).1 (.inr h)

end Restarted

end IronClaw.Missions
