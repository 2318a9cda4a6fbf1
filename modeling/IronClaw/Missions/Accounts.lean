import IronClaw.Missions.Interleaving

/-!
# The accounts of a mission

A mission lists its threads and counts those of the day of its last fire. Here that is compared with
the threads that were spawned.
-/

namespace IronClaw.Missions.Interleaving


def budgetZone (m : Mission) : Option ValidTimezone :=
  match m.cadence with
  | .cron _ timezone => timezone
  | _ => none

def day (libs : Libraries) (m : Mission) (t : Instant) : Int := libs.dateIn (budgetZone m) t

def spawnedOn (libs : Libraries) (m : Mission) (spawned : List Spawned) (d : Int) : Nat :=
  spawned.countP fun sp => sp.mission == m.id && day libs m sp.firedAt == d

def countAt (libs : Libraries) (m : Mission) (now : Instant) : Nat :=
  if threadsTodayIsStale libs m now then 0 else m.threadsToday

variable {libs : Libraries} {m : Mission} {now : Instant}

theorem threadsTodayIsStale_iff : threadsTodayIsStale libs m now = true ↔
      m.threadsToday ≠ 0 ∧ ∀ last, m.lastFireAt = some last → day libs m last < day libs m now := by
  unfold threadsTodayIsStale day budgetZone
  split
  · rename_i hzero
    simp [hzero]
  · rename_i hpos
    cases hlast : m.lastFireAt with
    | none => simp [hpos]
    | some last =>
      rcases hcadence : m.cadence with ⟨expression, timezone⟩ | _ | _ | _ | _
      · cases timezone <;> simp [hpos]
      all_goals simp [hpos]

theorem countAt_of_fired {last : Instant} (h : m.lastFireAt = some last) :
    countAt libs m now = if day libs m last < day libs m now then 0 else m.threadsToday := by
  unfold countAt
  by_cases hzero : m.threadsToday = 0
  · simp [hzero]
  · refine if_congr ?_ rfl rfl
    rw [threadsTodayIsStale_iff]
    constructor
    · exact fun hstale => hstale.2 last h
    · intro hlt
      refine ⟨hzero, fun last' hlast => ?_⟩
      rw [h] at hlast
      cases hlast
      exact hlt

theorem spawnedOn_cons (sp : Spawned) (spawned : List Spawned) (d : Int) :
    spawnedOn libs m (sp :: spawned) d = spawnedOn libs m spawned d + if sp.mission = m.id ∧
        day libs m sp.firedAt = d then 1 else 0 := by
  simp [spawnedOn, List.countP_cons]

theorem spawnedOn_cons_of_ne {sp : Spawned} (h : sp.mission ≠ m.id) (spawned : List Spawned)
    (d : Int) : spawnedOn libs m (sp :: spawned) d = spawnedOn libs m spawned d := by
  rw [spawnedOn_cons, if_neg fun hsp => h hsp.1, Nat.add_zero]

theorem spawnedOn_eq_zero {spawned : List Spawned} {d : Int}
    (h : ∀ sp ∈ spawned, sp.mission = m.id → day libs m sp.firedAt ≠ d) :
    spawnedOn libs m spawned d = 0 := by
  rw [spawnedOn, List.countP_eq_zero]
  intro sp hsp hmatch
  simp only [Bool.and_eq_true, beq_iff_eq] at hmatch
  exact h sp hsp hmatch.1 hmatch.2

theorem accounts_of_apply {updates : MissionUpdate} {m' : Mission}
    (h : updates.apply libs now m = .ok m') :
    m'.threadHistory = m.threadHistory ∧ m'.threadsToday = m.threadsToday ∧
      m'.lastFireAt = m.lastFireAt := by
  unfold MissionUpdate.apply at h
  cases hnext : updates.nextFire libs now m with
  | error e =>
    rw [hnext] at h
    cases h
  | ok next =>
    rw [hnext] at h
    cases h
    exact ⟨rfl, rfl, rfl⟩

/-- The history lists the mission's threads, none from a later day, and fires go by those of their
day. -/
structure Settled (libs : Libraries) (s : Observed) (m : Mission) : Prop where
  listed : ∀ sp ∈ s.spawned, sp.mission = m.id → sp.thread ∈ m.threadHistory
  past : ∀ sp ∈ s.spawned, sp.mission = m.id → day libs m sp.firedAt ≤ day libs m s.clock
  counted : ∀ now, day libs m s.clock ≤ day libs m now →
    countAt libs m now = spawnedOn libs m s.spawned (day libs m now)

namespace Settled

variable {s s' : Observed} {m' : Mission}

theorem of_unused (hnone : ∀ sp ∈ s.spawned, sp.mission ≠ m.id) (hzero : m.threadsToday = 0) :
    Settled libs s m where
  listed := fun sp hsp hid => absurd hid (hnone sp hsp)
  past := fun sp hsp hid => absurd hid (hnone sp hsp)
  counted := by
    intro now _
    rw [spawnedOn_eq_zero fun sp hsp hid => absurd hid (hnone sp hsp), countAt, hzero, ite_self]

theorem frame (h : Settled libs s m) (hspawned : s'.spawned = s.spawned ∨
      ∃ sp, sp.mission ≠ m.id ∧ s'.spawned = sp :: s.spawned)
    (hclock : day libs m s.clock ≤ day libs m s'.clock) : Settled libs s' m := by
  have hmem : ∀ sp ∈ s'.spawned, sp.mission = m.id → sp ∈ s.spawned := by
    intro sp hsp hid
    rcases hspawned with heq | ⟨new, hne, heq⟩
    · rwa [heq] at hsp
    · rw [heq] at hsp
      rcases List.mem_cons.mp hsp with rfl | hsp
      · exact absurd hid hne
      · exact hsp
  refine ⟨fun sp hsp hid => h.listed sp (hmem sp hsp hid) hid,
    fun sp hsp hid => (h.past sp (hmem sp hsp hid) hid).trans hclock, fun now hnow => ?_⟩
  rw [h.counted now (hclock.trans hnow)]
  rcases hspawned with heq | ⟨new, hne, heq⟩
  · rw [heq]
  · rw [heq, spawnedOn_cons_of_ne hne]

theorem congr (h : Settled libs s m) (hid : m'.id = m.id)
    (hhistory : m'.threadHistory = m.threadHistory) (htoday : m'.threadsToday = m.threadsToday)
    (hlast : m'.lastFireAt = m.lastFireAt) (hzone : budgetZone m' = budgetZone m) :
    Settled libs s m' := by
  have hday : ∀ t, day libs m' t = day libs m t := fun t => by rw [day, hzone, day]
  have hcount : ∀ now, countAt libs m' now = countAt libs m now := by
    intro now
    unfold countAt
    refine if_congr ?_ rfl htoday
    simp only [threadsTodayIsStale_iff, htoday, hlast, hday]
  refine ⟨fun sp hsp => ?_, fun sp hsp => ?_, fun now => ?_⟩
  · rw [hid, hhistory]
    exact h.listed sp hsp
  · rw [hid, hday, hday]
    exact h.past sp hsp
  · rw [hday, hday, hcount, spawnedOn, hid]
    simp only [hday]
    exact h.counted now

theorem reset (h : Settled libs s m) (hstale : threadsTodayIsStale libs m now = true)
    (hnow : day libs m now ≤ day libs m s.clock) :
    Settled libs s { m with threadsToday := 0 } where
  listed := h.listed
  past := h.past
  counted := by
    intro later hlater
    have hstale' : threadsTodayIsStale libs m later = true := by
      rw [threadsTodayIsStale_iff] at hstale ⊢
      exact ⟨hstale.1, fun last hlast => (hstale.2 last hlast).trans_le (hnow.trans hlater)⟩
    have hcounted := h.counted later hlater
    rw [countAt, if_pos hstale'] at hcounted
    rw [countAt, ite_self]
    exact hcounted

theorem fired (h : Settled libs s m) {tid : ThreadId} {firedAt : Instant} {m' : Mission}
    (hfresh : threadsTodayIsStale libs m firedAt = false)
    (hclock : day libs m s.clock ≤ day libs m firedAt)
    (hspawned : s'.spawned = ⟨m.id, tid, firedAt⟩ :: s.spawned) (hnow : s'.clock = firedAt)
    (hid : m'.id = m.id) (hhistory : m'.threadHistory = m.threadHistory ++ [tid])
    (htoday : m'.threadsToday = m.threadsToday + 1) (hlast : m'.lastFireAt = some firedAt)
    (hzone : budgetZone m' = budgetZone m) : Settled libs s' m' := by
  have hday : ∀ t, day libs m' t = day libs m t := fun t => by rw [day, hzone, day]
  have hpast : ∀ sp ∈ s'.spawned, sp.mission = m.id →
    day libs m sp.firedAt ≤ day libs m firedAt := by
    intro sp hsp hsid
    rw [hspawned] at hsp
    rcases List.mem_cons.mp hsp with rfl | hsp
    · exact le_rfl
    · exact (h.past sp hsp hsid).trans hclock
  refine ⟨fun sp hsp hsid => ?_, fun sp hsp hsid => ?_, fun now hge => ?_⟩
  · rw [hhistory]
    rw [hspawned] at hsp
    rcases List.mem_cons.mp hsp with rfl | hsp
    · exact List.mem_append_right _ (List.mem_singleton.mpr rfl)
    · exact List.mem_append_left _ (h.listed sp hsp (hsid.trans hid))
  · rw [hday, hday, hnow]
    exact hpast sp hsp (hsid.trans hid)
  · rw [hday, hday, hnow] at hge
    rw [countAt_of_fired hlast, hday, hday, spawnedOn]
    simp only [hid, hday]
    change _ = spawnedOn libs m s'.spawned (day libs m now)
    split_ifs with hlt
    · -- nothing was spawned on a day after the last fire
      rw [spawnedOn_eq_zero fun sp hsp hsid => ((hpast sp hsp hsid).trans_lt hlt).ne]
    · have hsame : day libs m firedAt = day libs m now := le_antisymm hge (not_lt.mp hlt)
      have hcounted := h.counted firedAt hclock
      rw [countAt, hfresh, if_neg Bool.false_ne_true] at hcounted
      rw [hspawned, spawnedOn_cons, if_pos ⟨rfl, hsame⟩, htoday, hcounted, hsame]

theorem processOutcome (h : Settled libs s m) {env : CallEnv} {tid : ThreadId} {firedAt : Instant}
    {outcome : ThreadOutcome} (hmem : tid ∈ m.threadHistory)
    (hw : Missions.processOutcome libs env tid firedAt outcome m = some m') :
    Settled libs s m' := by
  obtain ⟨focus, -, rfl⟩ := processOutcome_eq_some_iff.mp hw
  rw [reconciled_of_mem hmem]
  exact h.congr rfl rfl rfl rfl rfl

theorem updated (h : Settled libs s m) {updates : MissionUpdate} {now : Instant}
    (hu : updates.apply libs now m = .ok m') (hzone : budgetZone m' = budgetZone m) :
    Settled libs s m' := by
  obtain ⟨hhistory, htoday, hlast⟩ := accounts_of_apply hu
  exact h.congr (MissionUpdate.of_apply hu).1 hhistory htoday hlast hzone

end Settled

end IronClaw.Missions.Interleaving
