import IronClaw.Missions.Watcher

/-!
# What a pause stops

A pause takes the mission off the list of the active ones. An operation that has loaded it before
goes on, and a fire asks only whether the mission is over.
-/

namespace IronClaw.Missions.Interleaving

open Foundation (Text Pool run Along run_invariant)
open List (mem_append mem_singleton not_mem_nil)

def Task.isPausing (id : MissionId) : Task → Bool
  | deactivate id' status => id' == id && status == .paused
  | forgetAttempt id' status => id' == id && status == .paused
  | _ => false

/-- A pause of the mission has written the status, and nobody has begun to resume the mission. -/
def Stopped (p : Pool Observed Task) (id : MissionId) : Prop :=
  id ∈ p.shared.paused ∨ ∃ t ∈ p.tasks, t.isPausing id = true

instance (p : Pool Observed Task) (id : MissionId) : Decidable (Stopped p id) :=
  inferInstanceAs (Decidable (_ ∨ _))

/-- The task has loaded the mission to fire it, or is going to save it as an active one. -/
def Task.MayRevive (id : MissionId) : Task → Prop
  | resetThreadsToday fire => fire.call.id = id
  | countRunning fire _ _ => fire.call.id = id
  | checkUserRate fire => fire.call.id = id
  | spawnThread fire => fire.call.id = id
  | armCooldown _ _ _ updated => updated.id = id ∧ updated.status = .active
  | saveFired _ _ updated => updated.id = id ∧ updated.status = .active
  | saveMission _ m => m.id = id ∧ m.status = .active
  | _ => False

/-- Nobody fires a stopped mission; a pause writes while no task may revive it; nobody resumes it
before the pause has returned. -/
def Task.KeepsPauses (config : HostConfig) (p : Pool Observed Task) (i : Nat) (env : StepEnv) :
    Task → Prop
  | fireMission call => ∀ m, p.shared.store.loadMission call.id = some m →
    (m.isShared || m.isOwnedBy call.userId) = true → Manager.mayFire m = true →
    ¬ Stopped p call.id
  | setPaused id => ∀ u ∈ p.others i, ¬ u.MayRevive id
  | resumeMission id userId => ∀ m nextFireAt, loadManaged p.shared.store id userId = some m →
    m.status = .paused ∨ m.status = .failed →
    Manager.resumedFire config.manager env.toCallEnv m = .ok nextFireAt →
    ∀ u ∈ p.others i, u.isPausing id = false
  | _ => True

def KeepsPauses (config : HostConfig) (p : Pool Observed Task) : Action → Prop
  | .advance i env => ∀ t, p.tasks[i]? = some t → t.KeepsPauses config p i env
  | _ => True

def Inactive (s : Observed) (id : MissionId) : Prop :=
  ∃ m, s.store.loadMission id = some m ∧ m.status ≠ .active

/-- The paused missions are inactive, and a step spawns no thread for them. -/
def Quiet (p p' : Pool Observed Task) : Prop :=
  ∀ id ∈ p.shared.paused, Inactive p.shared id ∧
    ∀ sp, p'.shared.spawned = sp :: p.shared.spawned → sp.mission ≠ id

/-- A fire has its mission under its id, and a mission about to be paused is stored. -/
def Task.WellFormed (s : Observed) : Task → Prop
  | resetThreadsToday fire => fire.mission.id = fire.call.id
  | countRunning fire _ _ => fire.mission.id = fire.call.id
  | checkUserRate fire => fire.mission.id = fire.call.id
  | spawnThread fire => fire.mission.id = fire.call.id
  | setPaused id => (s.store.loadMission id).isSome
  | _ => True

/-- A stopped mission is inactive, and no task may revive it. -/
structure PauseInvariant (p : Pool Observed Task) : Prop where
  wellFormed : ∀ t ∈ p.tasks, t.WellFormed p.shared
  inactive : ∀ id, Stopped p id → Inactive p.shared id
  harmless : ∀ id, Stopped p id → ∀ t ∈ p.tasks, ¬ t.MayRevive id

section Step

variable {config : HostConfig} {env : StepEnv} {s s' : Observed} {t t' : Task} {ts : List Task}
  {id : MissionId} {m : Mission}

theorem not_mayRevive_of_isPlain (h : t.isPlain = true) : ¬ t.MayRevive id := by
  cases t <;> first | exact not_false | cases h

theorem wellFormed_of_isPlain (h : t.isPlain = true) : t.WellFormed s := by
  cases t <;> trivial

theorem status_ne_active_of_saves (hwf : t.WellFormed s) (h : ¬ t.MayRevive id)
    (hsaves : t.saves = some m) (hid : m.id = id) : m.status ≠ .active := by
  intro hstatus
  cases t with
  | resetThreadsToday fire =>
    cases hsaves
    exact h (hwf.symm.trans hid)
  | saveFired fire tid updated =>
    cases hsaves
    exact h ⟨hid, hstatus⟩
  | saveMission kind m' =>
    cases hsaves
    exact h ⟨hid, hstatus⟩
  | _ => cases hsaves

theorem inactive_of_next (hnext : next config env s t = some (s', ts)) (hwf : t.WellFormed s)
    (h : ¬ t.MayRevive id) (hinactive : Inactive s id) : Inactive s' id := by
  obtain ⟨m, hm, hstatus⟩ := hinactive
  cases change_of_next hnext with
  | none hstore hspawned hthreads => exact ⟨m, by rwa [hstore], hstatus⟩
  | save m' hsaves hstore hspawned hthreads =>
    rw [Inactive, hstore, MissionStore.loadMission_saveMission]
    split
    · rename_i hid
      exact ⟨m', rfl, status_ne_active_of_saves hwf h hsaves hid.symm⟩
    · exact ⟨m, hm, hstatus⟩
  | status id' status htask hstore hspawned hthreads =>
    rw [Inactive, hstore, MissionStore.loadMission_updateMissionStatus]
    split
    · refine ⟨_, congrArg _ hm, ?_⟩
      rcases htask with ⟨-, rfl⟩ | ⟨-, rfl⟩ <;> exact MissionStatus.noConfusion
    · exact ⟨m, hm, hstatus⟩
  | spawn fire tid thread htask hfresh hstate =>
    subst hstate
    exact ⟨m, hm, hstatus⟩

theorem inactive_of_setPaused (hnext : next config env s (.setPaused id) = some (s', ts))
    (hwf : (Task.setPaused id).WellFormed s) : Inactive s' id := by
  cases hnext
  obtain ⟨m, hm⟩ := Option.isSome_iff_exists.mp hwf
  refine ⟨{ m with status := .paused, updatedAt := env.now }, ?_, MissionStatus.noConfusion⟩
  rw [Observed.store_withStore, MissionStore.loadMission_updateMissionStatus, if_pos rfl, hm]
  rfl

theorem wellFormed_of_next (hnext : next config env s t = some (s', ts)) (hwf : t.WellFormed s)
    (ht : t' ∈ ts) : t'.WellFormed s' := by
  cases follows_of_next hnext ht with
  | plain h => exact wellFormed_of_isPlain h
  | stale hm _ _ _ => exact MissionStore.id_of_loadMission hm
  | fresh hm _ _ _ h => cases h <;> exact MissionStore.id_of_loadMission hm
  | reset h => cases h <;> exact hwf
  | counting | counted | rated => exact hwf
  | pausing hm => exact isSome_of_next hnext (Option.isSome_iff_exists.mpr ⟨_, hm⟩)
  | _ => trivial

theorem mayRevive_of_next (hnext : next config env s t = some (s', ts)) (hwf : t.WellFormed s)
    (hinactive : Inactive s id) (ht : t' ∈ ts) (h : t'.MayRevive id) : t.MayRevive id ∨
      (∃ call m, t = .fireMission call ∧ call.id = id ∧ s.store.loadMission id = some m ∧
        (m.isShared || m.isOwnedBy call.userId) = true ∧ Manager.mayFire m = true) ∨
      ∃ userId m nextFireAt, t = .resumeMission id userId ∧
        loadManaged s.store id userId = some m ∧ (m.status = .paused ∨ m.status = .failed) ∧
        Manager.resumedFire config.manager env.toCallEnv m = .ok nextFireAt := by
  obtain ⟨m₀, hm₀, hstatus⟩ := hinactive
  -- a mission that is saved as it was loaded
  have hkept : ∀ {id' : MissionId} {m m' : Mission}, s.store.loadMission id' = some m →
    m'.id = m.id →
      (m.status ≠ .active → m'.status ≠ .active) → ¬ (m'.id = id ∧ m'.status = .active) := by
    rintro id' m m' hm hid hkeeps ⟨rfl, hactive⟩
    have hid' := MissionStore.id_of_loadMission hm
    rw [hid, hid', hm] at hm₀
    cases hm₀
    exact hkeeps hstatus hactive
  cases follows_of_next hnext ht with
  | plain hplain => exact absurd h (not_mayRevive_of_isPlain hplain)
  | stale hm hallowed hmay _ =>
    cases h
    exact .inr (.inl ⟨_, _, rfl, rfl, hm, hallowed, hmay⟩)
  | fresh hm hallowed hmay _ hchecks =>
    cases hchecks <;> cases h <;> exact .inr (.inl ⟨_, _, rfl, rfl, hm, hallowed, hmay⟩)
  | reset hchecks => cases hchecks <;> exact .inl h
  | counting | counted | rated => exact .inl h
  | @spawned fire tid =>
    have hid := (recorded_firedMission config.manager env.toCallEnv fire.mission tid
      fire.call.triggerPayload).id
    exact .inl (hwf.symm.trans (hid.symm.trans h.1))
  | armed => exact .inl h
  | processed hm hw =>
    exact absurd h (hkept hm (id_of_processOutcome hw) (status_ne_active_of_processOutcome hw))
  | created hid _ hfree _ =>
    rw [← h.1, hid, hfree] at hm₀
    cases hm₀
  | updated hm hu =>
    refine absurd h (hkept hm (MissionUpdate.of_apply hu).1 fun hne => ?_)
    rwa [(MissionUpdate.of_apply hu).2.2]
  | resumed hload hpaused hfire =>
    have hid := MissionStore.id_of_loadMission (Option.filter_eq_some_iff.mp hload).1
    obtain rfl := hid.symm.trans h.1
    exact .inr (.inr ⟨_, _, _, rfl, hload, hpaused, hfire⟩)
  | watched | ended | pausing | paused | completed | deactivated => exact absurd h not_false

theorem paused_of_next (hnext : next config env s t = some (s', ts)) (h : id ∈ s'.paused) :
    id ∈ s.paused ∨ t.isPausing id = true := by
  cases t with
  | forgetAttempt id' status =>
    cases hnext
    dsimp only at h
    split_ifs at h with hstatus
    · rcases List.mem_cons.mp h with rfl | h
      · exact .inr (by simp [Task.isPausing, hstatus])
      · exact .inl h
    · exact .inl h
  | resumeMission id' userId =>
    simp only [next] at hnext
    (repeat' split at hnext) <;> cases hnext
    · exact .inl h
    · exact .inl h
    · exact .inl (List.mem_of_mem_filter h)
    · exact .inl h
  | spawnThread fire =>
    rcases next_spawnThread hnext with ⟨rfl, -⟩ | ⟨tid, thread, hfresh, rfl, -⟩ <;> exact .inl h
  | checkUserRate fire =>
    obtain ⟨fires, rfl, -⟩ := next_checkUserRate hnext
    exact .inl h
  | countRunning fire rest running => cases rest <;> cases hnext <;> exact .inl h
  | sweep trigger ids => cases ids <;> cases hnext <;> exact .inl h
  | watchOutcome id' tid firedAt =>
    obtain ⟨outcome, -, hnext⟩ := Option.map_eq_some_iff.mp hnext
    cases hnext
    exact .inl h
  | _ =>
    simp only [next] at hnext
    first
    | cases hnext
      exact .inl h
    | (repeat' split at hnext) <;> cases hnext <;> exact .inl h

theorem resumed_of_next {userId : Text}
    (hnext : next config env s (.resumeMission id userId) = some (s', ts)) (ht : t' ∈ ts) :
    id ∉ s'.paused ∧ ∀ u ∈ ts, u.isPausing id = false := by
  simp only [next] at hnext
  (repeat' split at hnext) <;> cases hnext
  · cases ht
  · cases ht
  · refine ⟨fun h => ?_, fun u hu => ?_⟩
    · simp at h
    · rw [mem_singleton.mp hu]
      rfl
  · cases ht

theorem isPausing_of_next (hnext : next config env s t = some (s', ts)) (ht : t' ∈ ts)
    (h : t'.isPausing id = true) : t.isPausing id = true ∨ t = .setPaused id := by
  cases follows_of_next hnext ht with
  | plain hplain => cases t' <;> first | cases h | cases hplain
  | fresh _ _ _ _ hchecks => cases hchecks <;> cases h
  | reset hchecks => cases hchecks <;> cases h
  | paused =>
    simp only [Task.isPausing, Bool.and_eq_true, beq_iff_eq] at h
    exact .inr (congrArg _ h.1)
  | completed => simp [Task.isPausing] at h
  | deactivated => exact .inl h
  | _ => cases h

theorem WellFormed.frame (hwf : t.WellFormed s)
    (hsome : ∀ id, (s.store.loadMission id).isSome → (s'.store.loadMission id).isSome) :
    t.WellFormed s' := by
  cases t with
  | setPaused id => exact hsome id hwf
  | _ => exact hwf

end Step

section Invariant

variable {config : HostConfig} {env : StepEnv} {p p' : Pool Observed Task} {a : Action}
  {front back ts : List Task} {t : Task} {s' : Observed} {id : MissionId} {i : Nat}

theorem stopped_of_next (htasks : p.tasks = front ++ t :: back)
    (hnext : next config env p.shared t = some (s', ts))
    (h : Stopped ⟨s', front ++ ts ++ back⟩ id) : Stopped p id ∨ t = .setPaused id := by
  have hmem : t ∈ p.tasks := by simp [htasks]
  rcases h with hpaused | ⟨u, hu, hpausing⟩
  · exact .inl ((paused_of_next hnext hpaused).imp_right fun hpausing => ⟨t, hmem, hpausing⟩)
  · simp only [mem_append, or_assoc] at hu
    rcases hu with hu | hu | hu
    · exact .inl (.inr ⟨u, by simp [htasks, hu], hpausing⟩)
    · exact (isPausing_of_next hnext hu hpausing).imp_left fun hpausing => .inr ⟨t, hmem, hpausing⟩
    · exact .inl (.inr ⟨u, by simp [htasks, hu], hpausing⟩)

theorem harmless_of_next (h : PauseInvariant p) (htasks : p.tasks = front ++ t :: back)
    (hi : front.length = i) (hcond : t.KeepsPauses config p i env)
    (hnext : next config env p.shared t = some (s', ts)) (hbefore : Stopped p id)
    (hafter : Stopped ⟨s', front ++ ts ++ back⟩ id) {t' : Task} (ht : t' ∈ ts) :
    ¬ t'.MayRevive id := by
  have hmem : t ∈ p.tasks := by simp [htasks]
  intro hrevives
  rcases mayRevive_of_next hnext (h.wellFormed t hmem) (h.inactive id hbefore) ht hrevives with
    hthere | ⟨call, m, rfl, rfl, hm, hallowed, hmay⟩ |
      ⟨userId, m, nextFireAt, rfl, hload, hstatus, hfire⟩
  · exact h.harmless id hbefore t hmem hthere
  · exact hcond m hm hallowed hmay hbefore
  · -- nobody pauses the mission that is resumed
    obtain ⟨hpaused, hnone⟩ := resumed_of_next hnext ht
    have hothers := hcond m nextFireAt hload hstatus hfire
    rw [Pool.others_eq htasks hi] at hothers
    rcases hafter with hin | ⟨u, hu, hpausing⟩
    · exact hpaused hin
    · simp only [mem_append, or_assoc] at hu
      rcases hu with hu | hu | hu
      · rw [hothers u (List.mem_append_left _ hu)] at hpausing
        cases hpausing
      · rw [hnone u hu] at hpausing
        cases hpausing
      · rw [hothers u (List.mem_append_right _ hu)] at hpausing
        cases hpausing

theorem PauseInvariant.advance (h : PauseInvariant p) (hcond :
    KeepsPauses config p (.advance i env))
    (hstep : step config p (.advance i env) = some p') : PauseInvariant p' := by
  obtain ⟨front, t, back, s', ts, htasks, hi, hnext, rfl⟩ := Pool.advance_eq_some_iff.mp hstep
  have hcond' := hcond t (by simp [htasks, ← hi])
  have hmem : t ∈ p.tasks := by simp [htasks]
  have hwf := h.wellFormed t hmem
  have hother : ∀ u ∈ front ++ back, u ∈ p.tasks := fun u hu =>
    Pool.mem_of_mem_others (Pool.mem_others_of_mem htasks hi hu)
  have hsplit : ∀ u ∈ front ++ ts ++ back, u ∈ ts ∨ u ∈ front ++ back := by
    intro u hu
    simp only [mem_append] at hu ⊢
    tauto
  refine ⟨fun u hu => ?_, fun id hstop => ?_, fun id hstop u hu => ?_⟩
  · rcases hsplit u hu with hu | hu
    · exact wellFormed_of_next hnext hwf hu
    · exact WellFormed.frame (h.wellFormed u (hother u hu)) fun id => isSome_of_next hnext
  · rcases stopped_of_next htasks hnext hstop with hbefore | rfl
    · exact inactive_of_next hnext hwf (h.harmless id hbefore t hmem) (h.inactive id hbefore)
    · exact inactive_of_setPaused hnext hwf
  · rcases stopped_of_next htasks hnext hstop with hbefore | rfl
    · rcases hsplit u hu with hu | hu
      · exact harmless_of_next h htasks hi hcond' hnext hbefore hstop hu
      · exact h.harmless id hbefore u (hother u hu)
    · rcases hsplit u hu with hnew | hu
      · cases hnext
        rw [mem_singleton.mp hnew]
        exact not_false
      · exact hcond' u (Pool.mem_others_of_mem htasks hi hu)

theorem harmless_of_isEntry (h : t.isEntry = true) : t.isPausing id = false ∧ ¬ t.MayRevive id := by
  cases t <;> first | exact ⟨rfl, not_false⟩ | cases h

theorem wellFormed_of_isEntry {s : Observed} (h : t.isEntry = true) : t.WellFormed s := by
  cases t <;> trivial

theorem PauseInvariant.of_step (h : PauseInvariant p) (hcond : KeepsPauses config p a)
    (hstep : step config p a = some p') : PauseInvariant p' := by
  cases a with
  | advance i env => exact h.advance hcond hstep
  | call task =>
    simp only [step] at hstep
    split_ifs at hstep with hentry
    cases hstep
    have hbefore : ∀ id, Stopped (p.start task) id → Stopped p id := by
      rintro id (hpaused | ⟨u, hu, hpausing⟩)
      · exact .inl hpaused
      · rcases mem_append.mp hu with hu | hu
        · exact .inr ⟨u, hu, hpausing⟩
        · rw [mem_singleton.mp hu, (harmless_of_isEntry hentry).1] at hpausing
          cases hpausing
    refine ⟨fun u hu => ?_, fun id hstop => h.inactive id (hbefore id hstop),
      fun id hstop u hu => ?_⟩
    · rcases mem_append.mp hu with hu | hu
      · exact h.wellFormed u hu
      · rw [mem_singleton.mp hu]
        exact wellFormed_of_isEntry hentry
    · rcases mem_append.mp hu with hu | hu
      · exact h.harmless id (hbefore id hstop) u hu
      · rw [mem_singleton.mp hu]
        exact (harmless_of_isEntry hentry).2
  | transition tid state =>
    simp only [step] at hstep
    split at hstep
    · cases hstep
    · split_ifs at hstep
      cases hstep
      exact ⟨fun u hu => WellFormed.frame (h.wellFormed u hu) fun _ hsome => hsome, h.inactive,
        h.harmless⟩

end Invariant

/-- **A pause holds**, in any order of steps, if nobody fires a paused mission, no pause writes
while it may be revived, and nobody resumes it before. -/
theorem quiet_of_keepsPauses {config : HostConfig} {p₀ p p' : Pool Observed Task}
    {as : List Action} {a : Action} (hrest : p₀.tasks = [])
    (h₀ : ∀ id ∈ p₀.shared.paused, Inactive p₀.shared id)
    (hc : Along (step config) (KeepsPauses config) p₀ as)
    (hr : run (step config) p₀ as = some p) (ha : step config p a = some p') : Quiet p p' := by
  have hnone : ∀ t ∈ p₀.tasks, False := by
    rw [hrest]
    exact fun t => not_mem_nil
  have hinvariant : PauseInvariant p := by
    refine run_invariant (fun q b q' hq hcb hstep => hq.of_step hcb hstep) ?_ hc hr
    refine ⟨fun t ht => (hnone t ht).elim, ?_, fun id _ t ht => (hnone t ht).elim⟩
    rintro id (hpaused | ⟨t, ht, -⟩)
    · exact h₀ id hpaused
    · exact (hnone t ht).elim
  intro id hid
  refine ⟨hinvariant.inactive id (.inl hid), fun sp hsp => ?_⟩
  obtain ⟨i, env, fire, thread, rfl, -, hmem, -, hspeq, -⟩ := spawnThread_of_step ha hsp
  rw [hspeq]
  exact fun heq => hinvariant.harmless id (.inl hid) _ hmem heq

def pauseSample (i : Nat) : List Action :=
  [.call (.pauseMission 1 sampleUser), sampleStep i 0, sampleStep i 0, sampleStep i 0,
    sampleStep i 0]

theorem keepsPauses_pauseSample :
    Along (step sampleConfig) (KeepsPauses sampleConfig)
      ⟨sampleSystem (sampleMission .manual), []⟩
      (pauseSample 0 ++ [.call (.trigger (.tick 0))]) := by
  refine Along.of_step rfl trivial (Along.of_step rfl ?_ (Along.of_step rfl ?_
    (Along.of_step rfl ?_ (Along.of_step rfl ?_ (Along.of_step rfl trivial trivial)))))
  all_goals
    intro t ht
    cases ht
  · trivial
  · exact fun u hu => absurd hu not_mem_nil
  · trivial
  · trivial

theorem quiet_of_lone_pause :
    ∃ p p', run (step sampleConfig) ⟨sampleSystem (sampleMission .manual), []⟩
        (pauseSample 0 ++ [.call (.trigger (.tick 0))]) = some p ∧
      p.shared.paused = [1] ∧ step sampleConfig p (sampleStep 0 0) = some p' ∧ Quiet p p' :=
  ⟨_, _, rfl, rfl, rfl, quiet_of_keepsPauses (a := sampleStep 0 0) rfl
    (fun _ hid => absurd hid not_mem_nil) keepsPauses_pauseSample rfl rfl⟩

/-- **A paused mission fires**, and becomes active: by hand, and by a fire that had loaded it. -/
theorem paused_mission_fires :
    (∃ p p', run (step sampleConfig) ⟨sampleSystem (sampleMission .manual), []⟩
        (pauseSample 0) = some p ∧ p.tasks = [] ∧ p.shared.paused = [1] ∧ p.shared.spawned = [] ∧
      run (step sampleConfig) p [.call (.fireMission sampleFire), sampleStep 0 0, sampleStep 0 0,
        .advance 0 (sampleEnv 0 5 none)] = some p' ∧
      p'.shared.paused = [1] ∧ p'.shared.spawned = [⟨1, 5, 0⟩]) ∧
    ∃ p, run (step sampleConfig) ⟨sampleSystem (sampleMission .manual), []⟩
        ([.call (.fireMission sampleFire), sampleStep 0 0, sampleStep 0 0,
          .advance 0 (sampleEnv 0 5 none)] ++ pauseSample 2 ++ [sampleStep 0 0, sampleStep 0 0]) =
        some p ∧
      p.shared.paused = [1] ∧
      (p.shared.store.loadMission 1).map Mission.status = some .active :=
  ⟨⟨_, _, rfl, rfl, rfl, rfl, rfl, rfl, rfl⟩, _, rfl, rfl, rfl⟩

end IronClaw.Missions.Interleaving
