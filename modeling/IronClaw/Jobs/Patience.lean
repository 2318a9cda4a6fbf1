import IronClaw.Jobs.RepairSteps

/-!
# How often and how soon jobs are repaired

A job is reported again only if it was recovered after every report so far. It is not interrupted
before the threshold, as long as no job is recovered shortly before a scan, or put back in progress
behind it.
-/

namespace IronClaw.Jobs

open Context (JobContext JobState Uuid)
open Foundation (Along HashMap Successively run run_invariant)
open List (map_append map_cons mem_append mem_append_right mem_cons_of_mem mem_singleton nodup_cons)

def RepairEvent.interrupts : RepairEvent → Option (Uuid × Nanos)
  | markedStuck jobId now | markedFailed jobId now .inProgress => some (jobId, now)
  | _ => none

def FailsLast (config : RepairConfig) (e : RepairEvent) (earlier : List RepairEvent) : Prop :=
  ∀ jobId now fromState, e = .markedFailed jobId now fromState →
    config.maxRepairAttempts ≤ recoveriesOf jobId earlier

/-- A job in progress is interrupted only some time after its last recovery. -/
def Waits (config : RepairConfig) (e : RepairEvent) (earlier : List RepairEvent) : Prop :=
  ∀ jobId now r, e.interrupts = some (jobId, now) → lastRecovery jobId earlier = some r →
    r + config.stuckThreshold ≤ now

structure Repairs (config : RepairConfig) (h : RepairHost) : Prop where
  bounded : ∀ jobId, recoveriesOf jobId h.log ≤ config.maxRepairAttempts
  failsLast : Successively (FailsLast config) h.log
  waits : Successively (Waits config) h.log
  reports : ∀ jobId, reportsOf jobId h.log ≤ config.maxRepairAttempts + 1
  ended : ∀ jobId, reportsOf jobId h.log = config.maxRepairAttempts + 1 →
    jobId ∉ h.phase.found.map StuckJob.jobId → ∀ c, h.job? jobId = some c → c.state.isTerminal

/-- The last recovery of a job, if any, is at least the threshold ago. -/
def Vetted (config : RepairConfig) (h : RepairHost) (jobId : Uuid) : Prop :=
  ∀ r, lastRecovery jobId h.log = some r → r + config.stuckThreshold ≤ h.now

/-- A scan finds no job recovered shortly before, nor does a worker put one in progress. -/
def Spares (config : RepairConfig) (h : RepairHost) : RepairAction → Prop
  | .goOn => h.phase = .idle → ∀ jobId c, h.job? jobId = some c → c.state = .inProgress →
      looksStuck config h.now c = true → Vetted config h jobId
  | .worker jobId newState _ => newState = .inProgress → jobId ∈ h.phase.waiting →
      Vetted config h jobId
  | _ => True

/-- What the reports and the recoveries of a job are to each other while it is not reported. -/
structure Settled (config : RepairConfig) (h : RepairHost) (jobId : Uuid) : Prop where
  running : ∀ c, h.job? jobId = some c → c.state.isParallelBlocking →
    reportsOf jobId h.log = recoveriesOf jobId h.log
  reports : reportsOf jobId h.log ≤ config.maxRepairAttempts + 1
  ended : reportsOf jobId h.log = config.maxRepairAttempts + 1 →
    ∀ c, h.job? jobId = some c → c.state.isTerminal

/-- A job's attempts are its recoveries, and all reports led to one, but the last if it is not dealt
with. -/
structure Accounted (config : RepairConfig) (h : RepairHost) : Prop where
  nodup : h.phase.jobs.Nodup
  attempts : ∀ jobId c, h.job? jobId = some c → c.repairAttempts = recoveriesOf jobId h.log
  bounded : ∀ jobId, recoveriesOf jobId h.log ≤ config.maxRepairAttempts
  failsLast : Successively (FailsLast config) h.log
  measured : ∀ jobId ∈ h.phase.measured, reportsOf jobId h.log = recoveriesOf jobId h.log ∧
    ∀ c, h.job? jobId = some c → c.state ≠ .pending
  found : ∀ job ∈ h.phase.found, job.repairAttempts = recoveriesOf job.jobId h.log ∧
    reportsOf job.jobId h.log = job.repairAttempts + 1 ∧
      ∀ c, h.job? job.jobId = some c → c.state ≠ .pending
  settled : ∀ jobId, jobId ∉ h.phase.found.map StuckJob.jobId → Settled config h jobId

section Accounts

variable {config : RepairConfig} {h h' : RepairHost}

/-- Each job is one that was there, perhaps after a transition. -/
def Follows (h h' : RepairHost) : Prop :=
  ∀ jobId c', h'.job? jobId = some c' → ∃ c, h.job? jobId = some c ∧ Moved h.now c c'

theorem Follows.of_same (hsame : ∀ jobId, h'.job? jobId = h.job? jobId) : Follows h h' :=
  fun jobId c hc => ⟨c, hsame jobId ▸ hc, .refl h.now c⟩

theorem Follows.of_moved {jobId : Uuid} {c c' : JobContext} (hc : h.job? jobId = some c)
    (hmoved : Moved h.now c c')
    (hm : ∀ id, h'.job? id = if id = jobId then some c' else h.job? id) : Follows h h' := by
  intro id c₁ hc₁
  rw [hm] at hc₁
  split_ifs at hc₁ with hid
  · cases hc₁
    exact ⟨c, hid ▸ hc, hmoved⟩
  · exact ⟨c₁, hc₁, .refl h.now c₁⟩

theorem Follows.of_removed {jobId : Uuid}
    (hm : ∀ id, h'.job? id = if id = jobId then none else h.job? id) : Follows h h' := by
  intro id c hc
  rw [hm] at hc
  split_ifs at hc
  exact ⟨c, hc, .refl h.now c⟩

theorem Accounted.follow (hA : Accounted config h) (hfollows : Follows h h')
    (hrecoveries : ∀ jobId, recoveriesOf jobId h'.log = recoveriesOf jobId h.log)
    (hreports : ∀ jobId, reportsOf jobId h'.log = reportsOf jobId h.log)
    (hfails : Successively (FailsLast config) h'.log) (hnodup : h'.phase.jobs.Nodup)
    (hmeasured : ∀ jobId ∈ h'.phase.measured, jobId ∈ h.phase.measured ∨
      ∃ c, h.job? jobId = some c ∧ (c.state = .stuck ∨ c.state = .inProgress) ∧
        jobId ∉ h.phase.found.map StuckJob.jobId)
    (hfound : h'.phase.found = h.phase.found) : Accounted config h' := by
  have hpending : ∀ jobId, (∀ c, h.job? jobId = some c → c.state ≠ .pending) →
      ∀ c', h'.job? jobId = some c' → c'.state ≠ .pending := by
    intro jobId hne c' hc'
    obtain ⟨c, hc, hmoved⟩ := hfollows jobId c' hc'
    exact hmoved.ne_pending (hne c hc)
  refine ⟨hnodup, fun jobId c' hc' => ?_, fun jobId => ?_, hfails, fun jobId hmem => ?_,
    fun job hmem => ?_, fun jobId hmem => ⟨fun c' hc' hblocking => ?_, ?_, fun hall c' hc' => ?_⟩⟩
  · obtain ⟨c, hc, hmoved⟩ := hfollows jobId c' hc'
    rw [hrecoveries, hmoved.attempts]
    exact hA.attempts jobId c hc
  · rw [hrecoveries]
    exact hA.bounded jobId
  · rw [hrecoveries, hreports]
    rcases hmeasured jobId hmem with hold | ⟨c, hc, hstate, hfound'⟩
    · exact ⟨(hA.measured jobId hold).1, hpending jobId (hA.measured jobId hold).2⟩
    · refine ⟨(hA.settled jobId hfound').running c hc ?_, hpending jobId fun c₁ hc₁ => ?_⟩
      · rcases hstate with hstate | hstate <;> rw [hstate] <;> rfl
      · rw [hc] at hc₁
        cases hc₁
        rcases hstate with hstate | hstate <;> rw [hstate] <;> decide
  · rw [hfound] at hmem
    rw [hrecoveries, hreports]
    obtain ⟨hattempts, hcount, hne⟩ := hA.found job hmem
    exact ⟨hattempts, hcount, hpending job.jobId hne⟩
  · rw [hfound] at hmem
    obtain ⟨c, hc, hmoved⟩ := hfollows jobId c' hc'
    rw [hrecoveries, hreports]
    exact (hA.settled jobId hmem).running c hc (hmoved.isParallelBlocking hblocking)
  · rw [hfound] at hmem
    rw [hreports]
    exact (hA.settled jobId hmem).reports
  · rw [hfound] at hmem
    rw [hreports] at hall
    obtain ⟨c, hc, hmoved⟩ := hfollows jobId c' hc'
    exact hmoved.isTerminal ((hA.settled jobId hmem).ended hall c hc)

theorem recoveriesOf_cons (jobId : Uuid) (e : RepairEvent) (log : List RepairEvent) :
    recoveriesOf jobId (e :: log) =
      recoveriesOf jobId log + if (e.recoveryOf jobId).isSome then 1 else 0 :=
  List.countP_cons

theorem reportsOf_cons (jobId : Uuid) (e : RepairEvent) (log : List RepairEvent) :
    reportsOf jobId (e :: log) = reportsOf jobId log + if e = .reported jobId then 1 else 0 := by
  simp [reportsOf, List.countP_cons]

variable (jobId jobId' : Uuid)

@[simp] theorem recoveryOf_recovered (now : Nanos) :
    (RepairEvent.recovered jobId' now).recoveryOf jobId =
      if jobId' = jobId then some now else none := rfl

@[simp] theorem recoveryOf_reported : (RepairEvent.reported jobId').recoveryOf jobId = none := rfl

@[simp] theorem recoveryOf_markedStuck (now : Nanos) :
    (RepairEvent.markedStuck jobId' now).recoveryOf jobId = none := rfl

@[simp] theorem recoveryOf_markedFailed (now : Nanos) (s : JobState) :
    (RepairEvent.markedFailed jobId' now s).recoveryOf jobId = none := rfl

theorem recoveriesOf_recoveryEvents (h : RepairHost) (job : StuckJob) (c : JobContext)
    (jobId : Uuid) (log : List RepairEvent) : recoveriesOf jobId (h.recoveryEvents job c ++ log) =
      recoveriesOf jobId log + if job.jobId = jobId then 1 else 0 := by
  unfold RepairHost.recoveryEvents
  split_ifs <;> simp_all [recoveriesOf_cons]

theorem reportsOf_recoveryEvents (h : RepairHost) (job : StuckJob) (c : JobContext)
    (jobId : Uuid) (log : List RepairEvent) :
    reportsOf jobId (h.recoveryEvents job c ++ log) = reportsOf jobId log := by
  unfold RepairHost.recoveryEvents
  split_ifs <;> simp [reportsOf_cons]

variable {job : StuckJob} {c : JobContext}

theorem failsLast_recoveryEvents {log : List RepairEvent}
    (hlog : Successively (FailsLast config) log) :
    Successively (FailsLast config) (h.recoveryEvents job c ++ log) := by
  unfold RepairHost.recoveryEvents
  split_ifs
  · exact ⟨by simp [FailsLast], by simp [FailsLast], hlog⟩
  · exact ⟨by simp [FailsLast], hlog⟩

theorem Accounted.others_ne {front back : List StuckJob} (hA : Accounted config h)
    (hphase : h.phase = .repairing (front ++ job :: back)) :
    ∀ job' ∈ front ++ back, job'.jobId ≠ job.jobId := by
  have hnodup := hA.nodup
  simp only [hphase, RepairPhase.jobs, RepairPhase.waiting, RepairPhase.measured,
    RepairPhase.found, List.nil_append] at hnodup
  have hperm : (front ++ job :: back).Perm (job :: (front ++ back)) := List.perm_middle
  have hcons := (hperm.map StuckJob.jobId).nodup_iff.mp hnodup
  rw [map_cons, nodup_cons] at hcons
  intro job' hmem heq
  exact hcons.1 (heq ▸ List.mem_map_of_mem hmem)

theorem Accounted.deal {front back : List StuckJob} (hA : Accounted config h)
    (hphase : h.phase = .repairing (front ++ job :: back))
    (hphase' : h'.phase = .repairing (front ++ back))
    (hjobs : ∀ id, id ≠ job.jobId → h'.job? id = h.job? id)
    (hrecoveries : ∀ id, id ≠ job.jobId → recoveriesOf id h'.log = recoveriesOf id h.log)
    (hreports : ∀ id, reportsOf id h'.log = reportsOf id h.log)
    (hattempts : ∀ c', h'.job? job.jobId = some c' →
      c'.repairAttempts = recoveriesOf job.jobId h'.log)
    (hbounded : recoveriesOf job.jobId h'.log ≤ config.maxRepairAttempts)
    (hfails : Successively (FailsLast config) h'.log) (hsettled : Settled config h' job.jobId) :
    Accounted config h' := by
  have hnodup := hA.nodup
  have hfound := hA.found
  have hold := hA.settled
  simp only [hphase, RepairPhase.jobs, RepairPhase.waiting, RepairPhase.measured,
    RepairPhase.found, List.nil_append] at hnodup hfound hold
  have hne := hA.others_ne hphase
  refine ⟨?_, fun id c' hc' => ?_, fun id => ?_, hfails, fun id hmem => ?_, fun job' hmem => ?_,
    fun id hmem => ?_⟩
  · rw [hphase']
    exact hnodup.sublist (((List.sublist_cons_self job back).append_left front).map _)
  · by_cases hid : id = job.jobId
    · subst hid
      exact hattempts c' hc'
    · rw [hjobs id hid] at hc'
      rw [hrecoveries id hid]
      exact hA.attempts id c' hc'
  · by_cases hid : id = job.jobId
    · subst hid
      exact hbounded
    · rw [hrecoveries id hid]
      exact hA.bounded id
  · rw [hphase'] at hmem
    cases hmem
  · rw [hphase'] at hmem
    have hid := hne job' hmem
    rw [hrecoveries _ hid, hreports, hjobs _ hid]
    refine hfound job' ?_
    rcases mem_append.mp hmem with hfront | hback
    · exact List.mem_append_left _ hfront
    · exact mem_append_right _ (mem_cons_of_mem _ hback)
  · by_cases hid : id = job.jobId
    · subst hid
      exact hsettled
    · have hmem' : id ∉ (front ++ job :: back).map StuckJob.jobId := by
        rw [hphase'] at hmem
        simp only [RepairPhase.found, map_append, map_cons, mem_append,
          List.mem_cons, not_or] at hmem ⊢
        exact ⟨hmem.1, hid, hmem.2⟩
      obtain ⟨hrunning, hcount, hended⟩ := hold id hmem'
      refine ⟨fun c' hc' => ?_, ?_, fun hall c' hc' => ?_⟩
      · rw [hjobs id hid] at hc'
        rw [hrecoveries id hid, hreports]
        exact hrunning c' hc'
      · rw [hreports]
        exact hcount
      · rw [hjobs id hid] at hc'
        rw [hreports] at hall
        exact hended hall c' hc'

theorem split_of_getElem? {α : Type*} {l : List α} {k : Nat} {a : α} (ha : l[k]? = some a) :
    ∃ front back, l = front ++ a :: back ∧ l.eraseIdx k = front ++ back := by
  obtain ⟨hk, rfl⟩ := List.getElem?_eq_some_iff.mp ha
  refine ⟨l.take k, l.drop (k + 1), ?_, List.eraseIdx_eq_take_drop_succ l k⟩
  rw [List.getElem_cons_drop, List.take_append_drop]

theorem accounted_reported {jobId : Uuid} {justTransitioned : Bool} {rest : List Uuid}
    {found : List StuckJob} (hA : Accounted config h)
    (hphase : h.phase = .measuring jobId justTransitioned rest found) (hc : h.job? jobId = some c)
    (hid : job.jobId = jobId) (hattempts : job.repairAttempts = c.repairAttempts) :
    Accounted config
      { h with phase := .detecting rest (found ++ [job]), log := .reported jobId :: h.log } := by
  subst hid
  have hrecoveries : ∀ id,
      recoveriesOf id (.reported job.jobId :: h.log) = recoveriesOf id h.log := fun id => by
    simp [recoveriesOf_cons]
  have hreports : ∀ id, id ≠ job.jobId →
      reportsOf id (.reported job.jobId :: h.log) = reportsOf id h.log := fun id hne => by
    simp [reportsOf_cons, Ne.symm hne]
  have hnodup := hA.nodup
  have hfound := hA.found
  have hold := hA.settled
  obtain ⟨hcount, hpending⟩ := hA.measured job.jobId (by simp [hphase, RepairPhase.measured])
  simp only [hphase, RepairPhase.jobs, RepairPhase.waiting, RepairPhase.measured,
    RepairPhase.found] at hnodup hfound hold
  have hnew : job.jobId ∉ found.map StuckJob.jobId := by
    rw [List.append_assoc, List.nodup_append] at hnodup
    exact (nodup_cons.mp hnodup.2.1).1
  refine ⟨?_, fun id c' hc' => ?_, fun id => ?_, ⟨by simp [FailsLast], hA.failsLast⟩,
    fun id hmem => (nomatch hmem), fun job' hmem => ?_, fun id hmem => ?_⟩
  · have hperm : (rest ++ [job.jobId] ++ found.map StuckJob.jobId).Perm
        (rest ++ [] ++ (found ++ [job]).map StuckJob.jobId) := by
      rw [List.append_nil, List.append_assoc, map_append]
      exact List.perm_append_comm.append_left rest
    exact hperm.nodup_iff.mp hnodup
  · rw [hrecoveries]
    exact hA.attempts id c' hc'
  · rw [hrecoveries]
    exact hA.bounded id
  · rcases mem_append.mp hmem with hmem | hmem
    · have hne : job'.jobId ≠ job.jobId := fun heq => hnew (heq ▸ List.mem_map_of_mem hmem)
      rw [hrecoveries, hreports _ hne]
      exact hfound job' hmem
    · rw [mem_singleton.mp hmem, hrecoveries, hattempts, hA.attempts _ c hc]
      refine ⟨rfl, ?_, hpending⟩
      simp [reportsOf_cons, hcount]
  · simp only [RepairPhase.found, map_append, mem_append, not_or] at hmem
    have hne : id ≠ job.jobId := fun heq => hmem.2 (by simp [heq])
    obtain ⟨hrunning, hle, hended⟩ := hold id hmem.1
    refine ⟨fun c' hc' hblocking => ?_, ?_, fun hall => ?_⟩
    · rw [hrecoveries, hreports id hne]
      exact hrunning c' hc' hblocking
    · rw [hreports id hne]
      exact hle
    · rw [hreports id hne] at hall
      exact hended hall

theorem accounted_inserted {m : HashMap Uuid JobContext} (hA : Accounted config h)
    (hm : ∀ id, m.lookup id = if id = c.jobId then some c else h.job? id)
    (hunused : h.isUnused c.jobId = true) (hattempts : c.repairAttempts = 0) :
    Accounted config (h.setContexts m) := by
  simp only [RepairHost.isUnused, Bool.and_eq_true, Option.isNone_iff_eq_none, Bool.not_eq_true',
    List.contains_eq_mem, decide_eq_false_iff_not, beq_iff_eq, RepairPhase.jobs,
    mem_append, not_or] at hunused
  obtain ⟨⟨⟨-, ⟨-, hmeasured⟩, hfound⟩, hrecoveries⟩, hreports⟩ := hunused
  have hother : ∀ id c', (h.setContexts m).job? id = some c' → id ≠ c.jobId →
      h.job? id = some c' := by
    intro id c' hc' hne
    rw [RepairHost.job?, RepairHost.setContexts, hm, if_neg hne] at hc'
    exact hc'
  have hself : ∀ c', (h.setContexts m).job? c.jobId = some c' → c' = c := by
    intro c' hc'
    rw [RepairHost.job?, RepairHost.setContexts, hm, if_pos rfl] at hc'
    exact (Option.some.inj hc').symm
  refine ⟨hA.nodup, fun id c' hc' => ?_, hA.bounded, hA.failsLast, fun id hmem => ?_,
    fun job hmem => ?_, fun id hmem => ?_⟩
  · by_cases hid : id = c.jobId
    · subst hid
      rw [hself c' hc', hattempts]
      exact hrecoveries.symm
    · exact hA.attempts id c' (hother id c' hc' hid)
  · have hne : id ≠ c.jobId := fun heq => hmeasured (heq ▸ hmem)
    exact ⟨(hA.measured id hmem).1, fun c' hc' => (hA.measured id hmem).2 c' (hother id c' hc' hne)⟩
  · have hne : job.jobId ≠ c.jobId := fun heq => hfound (heq ▸ List.mem_map_of_mem hmem)
    obtain ⟨hjob, hcount, hpending⟩ := hA.found job hmem
    exact ⟨hjob, hcount, fun c' hc' => hpending c' (hother _ c' hc' hne)⟩
  · by_cases hid : id = c.jobId
    · subst hid
      have hnone : reportsOf c.jobId (h.setContexts m).log = 0 := hreports
      refine ⟨fun _ _ _ => hreports.trans hrecoveries.symm, ?_, fun hall => ?_⟩
      · rw [hnone]
        exact Nat.zero_le _
      · rw [hnone] at hall
        omega
    · obtain ⟨hrunning, hle, hended⟩ := hA.settled id hmem
      exact ⟨fun c' hc' => hrunning c' (hother id c' hc' hid), hle,
        fun hall c' hc' => hended hall c' (hother id c' hc' hid)⟩

theorem jobs_measuring_perm (jobId : Uuid) (justTransitioned : Bool) (rest : List Uuid)
    (found : List StuckJob) : (RepairPhase.measuring jobId justTransitioned rest found).jobs.Perm
      (jobId :: rest ++ [] ++ found.map StuckJob.jobId) := by
  rw [List.append_nil]
  have hswap : (rest ++ [jobId]).Perm ([jobId] ++ rest) := List.perm_append_comm
  exact hswap.append_right _

theorem Accounted.goTo (hA : Accounted config h) (phase : RepairPhase)
    (hnodup : phase.jobs.Nodup) (hmeasured : phase.measured = []) {m : HashMap Uuid JobContext}
    (hm : ∀ id, m.lookup id = h.job? id) (hfound : phase.found = h.phase.found) :
    Accounted config { h.setContexts m with phase } := by
  refine hA.follow (.of_same hm) (fun _ => rfl) (fun _ => rfl) hA.failsLast hnodup ?_ hfound
  intro jobId hmem
  rw [hmeasured] at hmem
  cases hmem

theorem accounted_of_goOn (hA : Accounted config h) (hmove : RepairMove config h .goOn h') :
    Accounted config h' := by
  have hnodup := hA.nodup
  cases hmove with
  | scanned hphase =>
    refine hA.goTo (.detecting _ []) ?_ rfl (m := h.manager.contexts) (fun _ => rfl)
      (by rw [hphase]; rfl)
    simp [RepairPhase.jobs, RepairPhase.waiting, RepairPhase.measured, RepairPhase.found,
      findStuckJobsWithThreshold, HashMap.nodup_keysWhere]
  | detected found hphase =>
    rw [hphase] at hnodup
    exact hA.goTo (.repairing found) hnodup rfl (m := h.manager.contexts) (fun _ => rfl)
      (by rw [hphase]; rfl)
  | skipped jobId rest found hphase m hm =>
    have hsub : (RepairPhase.detecting rest found).jobs.Sublist h.phase.jobs := by
      rcases hphase with hphase | hphase | ⟨b, hphase⟩ <;> rw [hphase]
      · exact List.sublist_cons_self _ _
      · exact List.sublist_cons_self _ _
      · exact ((List.nil_sublist [jobId]).append_left rest).append_right _
    refine hA.goTo (.detecting rest found) (hnodup.sublist hsub) rfl hm ?_
    rcases hphase with hphase | hphase | ⟨b, hphase⟩ <;> rw [hphase] <;> rfl
  | foundStuck jobId rest found c hphase hc hstate =>
    rw [hphase] at hnodup
    have hnew : jobId ∉ found.map StuckJob.jobId := fun hmem =>
      (nodup_cons.mp hnodup).1 (mem_append_right _ hmem)
    refine hA.follow (.of_same fun _ => rfl) (fun _ => rfl) (fun _ => rfl) hA.failsLast
      ((jobs_measuring_perm _ _ _ _).nodup_iff.mpr hnodup) ?_ (by rw [hphase]; rfl)
    intro id hmem
    rw [mem_singleton.mp hmem, hphase]
    exact .inr ⟨c, hc, .inl hstate, hnew⟩
  | foundInProgress jobId rest found hphase =>
    rw [hphase] at hnodup
    exact hA.goTo (.marking jobId rest found) hnodup rfl (m := h.manager.contexts) (fun _ => rfl)
      (by rw [hphase]; rfl)
  | marked jobId rest found c c' m hphase hc hstate hm hmoved hstate' =>
    rw [hphase] at hnodup
    have hnew : jobId ∉ found.map StuckJob.jobId := fun hmem =>
      (nodup_cons.mp hnodup).1 (mem_append_right _ hmem)
    refine hA.follow (.of_moved hc hmoved hm) (fun _ => ?_) (fun _ => ?_)
      ⟨by simp [FailsLast], hA.failsLast⟩
      ((jobs_measuring_perm _ _ _ _).nodup_iff.mpr hnodup) ?_ (by rw [hphase]; rfl)
    · simp [recoveriesOf_cons]
    · simp [reportsOf_cons]
    · intro id hmem
      rw [mem_singleton.mp hmem, hphase]
      exact .inr ⟨c, hc, .inr hstate, hnew⟩
  | reported jobId justTransitioned rest found c job hphase hc hlong hid hattempts =>
    exact accounted_reported hA hphase hc hid hattempts
  | ended hphase =>
    exact hA.goTo .idle List.nodup_nil rfl (m := h.manager.contexts) (fun _ => rfl)
      (by rw [hphase]; rfl)

theorem accounted_of_repair {k : Nat} (hA : Accounted config h)
    (hmove : RepairMove config h (.repair k) h') : Accounted config h' := by
  cases hmove with
  | failed _ found job c c' m hphase hjob hmax hc hm hmoved hstate' =>
    obtain ⟨front, back, rfl, herase⟩ := split_of_getElem? hjob
    obtain ⟨hattempts, hcount, -⟩ := hA.found job (by simp [hphase, RepairPhase.found])
    have hbounded := hA.bounded job.jobId
    have hrecoveries : ∀ id, recoveriesOf id
        (.markedFailed job.jobId h.now c.state :: h.log) = recoveriesOf id h.log := fun id => by
      simp [recoveriesOf_cons]
    have hreports : ∀ id, reportsOf id
        (.markedFailed job.jobId h.now c.state :: h.log) = reportsOf id h.log := fun id => by
      simp [reportsOf_cons]
    have hself : ∀ c₁, m.lookup job.jobId = some c₁ → c₁ = c' := by
      intro c₁ hc₁
      rw [hm, if_pos rfl] at hc₁
      exact (Option.some.inj hc₁).symm
    refine hA.deal hphase (by rw [herase]) (fun id hid => (hm id).trans (if_neg hid))
      (fun id _ => hrecoveries id) hreports (fun c₁ hc₁ => ?_) ?_ ⟨?_, hA.failsLast⟩
      ⟨fun c₁ hc₁ hblocking => ?_, ?_, fun _ c₁ hc₁ => ?_⟩
    · rw [hself c₁ hc₁, hrecoveries, hmoved.attempts]
      exact hA.attempts _ c hc
    · rw [hrecoveries]
      exact hbounded
    · -- a job is marked failed when its recoveries are used up
      rintro id now s ⟨⟩
      omega
    · rw [hself c₁ hc₁, hstate'] at hblocking
      cases hblocking
    · rw [hreports]
      omega
    · rw [hself c₁ hc₁, hstate']
      rfl
  | recovered _ found job c c' m hphase hjob hmax hc hstate hm hstate' hattempts' =>
    obtain ⟨front, back, rfl, herase⟩ := split_of_getElem? hjob
    obtain ⟨hattempts, hcount, -⟩ := hA.found job (by simp [hphase, RepairPhase.found])
    have hself : ∀ c₁, m.lookup job.jobId = some c₁ → c₁ = c' := by
      intro c₁ hc₁
      rw [hm, if_pos rfl] at hc₁
      exact (Option.some.inj hc₁).symm
    have hmore : recoveriesOf job.jobId (h.recoveryEvents job c ++ h.log) =
        recoveriesOf job.jobId h.log + 1 := by
      rw [recoveriesOf_recoveryEvents, if_pos rfl]
    refine hA.deal hphase (by rw [herase]) (fun id hid => (hm id).trans (if_neg hid))
      (fun id hid => ?_) (fun id => reportsOf_recoveryEvents h job c id h.log)
      (fun c₁ hc₁ => ?_) ?_ (failsLast_recoveryEvents hA.failsLast)
      ⟨fun c₁ hc₁ hblocking => ?_, ?_, fun hall => ?_⟩
    · dsimp only
      rw [recoveriesOf_recoveryEvents, if_neg (Ne.symm hid), Nat.add_zero]
    · dsimp only
      rw [hself c₁ hc₁, hmore, hattempts', hA.attempts _ c hc]
    · dsimp only
      omega
    · dsimp only
      rw [reportsOf_recoveryEvents, hmore]
      omega
    · dsimp only
      rw [reportsOf_recoveryEvents]
      omega
    · dsimp only at hall
      rw [reportsOf_recoveryEvents] at hall
      omega
  | passedOver _ found job hphase hjob hover m hm =>
    obtain ⟨front, back, rfl, herase⟩ := split_of_getElem? hjob
    obtain ⟨hattempts, hcount, hpending⟩ := hA.found job (by simp [hphase, RepairPhase.found])
    have hbounded := hA.bounded job.jobId
    have hself : ∀ c, m.lookup job.jobId = some c → h.job? job.jobId = some c := fun c hc =>
      (hm _).symm.trans hc
    refine hA.deal hphase (by rw [herase]) (fun id _ => hm id) (fun _ _ => rfl) (fun _ => rfl)
      (fun c hc => hA.attempts _ c (hself c hc)) hbounded hA.failsLast
      ⟨fun c hc hblocking => ?_, ?_, fun hall c hc => ?_⟩
    · -- what is passed over has ended, or is in no state that blocks
      have hthis := hover c (hself c hc)
      have hne := hpending c (hself c hc)
      exfalso
      split_ifs at hthis
      · exact JobState.not_isParallelBlocking_of_isTerminal hthis hblocking
      · revert hblocking hthis hne
        cases c.state <;> simp [JobState.isParallelBlocking]
    · show reportsOf job.jobId h.log ≤ _
      omega
    · have hthis := hover c (hself c hc)
      have hall : reportsOf job.jobId h.log = config.maxRepairAttempts + 1 := hall
      rw [if_pos (by omega)] at hthis
      exact hthis

theorem accounted_of_repairStep {a : RepairAction} (hA : Accounted config h)
    (hstep : repairStep config h a = some h') : Accounted config h' := by
  have hmove := move_of_repairStep hstep
  cases a with
  | insert c =>
    cases hmove with
    | inserted _ m hm hunused hattempts => exact accounted_inserted hA hm hunused hattempts
  | remove jobId =>
    cases hmove with
    | removed _ m hm =>
      exact hA.follow (.of_removed hm) (fun _ => rfl) (fun _ => rfl) hA.failsLast hA.nodup
        (fun _ => .inl) rfl
  | clock now =>
    cases hmove with
    | clocked _ hle =>
      exact hA.follow (.of_same fun _ => rfl) (fun _ => rfl) (fun _ => rfl) hA.failsLast hA.nodup
        (fun _ => .inl) rfl
  | worker jobId newState reason =>
    cases hmove with
    | unknown => exact hA
    | worked _ _ _ c c' m hc hm hmoved hstate =>
      exact hA.follow (.of_moved hc hmoved hm) (fun _ => rfl) (fun _ => rfl) hA.failsLast hA.nodup
        (fun _ => .inl) rfl
  | goOn => exact accounted_of_goOn hA hmove
  | repair k => exact accounted_of_repair hA hmove

end Accounts

/-- A job was marked stuck for the last time after its last recovery, if at all. -/
def StuckAfter (h : RepairHost) (jobId : Uuid) (c : JobContext) : Prop :=
  ∀ r t, lastRecovery jobId h.log = some r → stuckSince c = some t → r ≤ t

/-- A job that waits to be looked at is vetted if in progress, and so is every reported job. -/
structure Patient (config : RepairConfig) (h : RepairHost) : Prop where
  past : ∀ jobId r, lastRecovery jobId h.log = some r → r ≤ h.now
  stuck : ∀ jobId c, h.job? jobId = some c → c.state = .stuck → StuckAfter h jobId c
  waiting : ∀ jobId ∈ h.phase.waiting, ∀ c, h.job? jobId = some c → c.state = .inProgress →
    Vetted config h jobId
  measured : ∀ jobId justTransitioned rest found,
    h.phase = .measuring jobId justTransitioned rest found →
      if justTransitioned then Vetted config h jobId
      else ∀ c, h.job? jobId = some c → StuckAfter h jobId c
  found : ∀ job ∈ h.phase.found, Vetted config h job.jobId
  waits : Successively (Waits config) h.log

section Patience

variable {config : RepairConfig} {h h' : RepairHost}

variable {jobId : Uuid}

theorem Vetted.later (hvetted : Vetted config h jobId) (hnow : h.now ≤ h'.now)
    (hlast : lastRecovery jobId h'.log = lastRecovery jobId h.log) : Vetted config h' jobId := by
  intro r hr
  rw [hlast] at hr
  exact (hvetted r hr).trans hnow

theorem StuckAfter.moved {c c' : JobContext} (hstuck : StuckAfter h jobId c)
    (hpast : ∀ r, lastRecovery jobId h.log = some r → r ≤ h.now) (hmoved : Moved h.now c c') :
    StuckAfter h jobId c' := by
  intro r t hr ht
  rcases hmoved.since t ht with rfl | hold
  · exact hpast r hr
  · exact hstuck r t hr hold

theorem add_le_of_wholeSecs {r since now threshold : Nat} (hnow : r ≤ now) (hsince : r ≤ since)
    (hlong : threshold ≤ (now - since) / 10 ^ 9 * 10 ^ 9) : r + threshold ≤ now := by
  omega

theorem vetted_of_stuckAfter {c : JobContext} (hstuck : StuckAfter h jobId c)
    (hpast : ∀ r, lastRecovery jobId h.log = some r → r ≤ h.now)
    (hlong : config.stuckThreshold ≤ stuckDuration h.now c * 10 ^ 9) : Vetted config h jobId := by
  intro r hr
  rw [stuckDuration] at hlong
  cases hsince : stuckSince c with
  | none =>
    rw [hsince, Option.elim_none, Nat.zero_mul] at hlong
    rw [Nat.le_zero.mp hlong]
    exact hpast r hr
  | some since =>
    rw [hsince, Option.elim_some, wholeSecs] at hlong
    exact add_le_of_wholeSecs (hpast r hr) (hstuck r since hr hsince) hlong

theorem Patient.follow (hP : Patient config h) (hfollows : Follows h h') (hnow : h.now ≤ h'.now)
    (hlast : ∀ jobId, lastRecovery jobId h'.log = lastRecovery jobId h.log)
    (hwaits : Successively (Waits config) h'.log)
    (hwaiting : ∀ jobId ∈ h'.phase.waiting, ∀ c', h'.job? jobId = some c' →
      c'.state = .inProgress → Vetted config h jobId)
    (hmeasured : ∀ jobId justTransitioned rest found,
      h'.phase = .measuring jobId justTransitioned rest found →
        if justTransitioned then Vetted config h jobId
        else ∀ c, h.job? jobId = some c → StuckAfter h jobId c)
    (hfound : ∀ job ∈ h'.phase.found, Vetted config h job.jobId) : Patient config h' := by
  have hafter : ∀ jobId c, StuckAfter h jobId c → StuckAfter h' jobId c := by
    intro jobId c hstuck r t hr
    rw [hlast] at hr
    exact hstuck r t hr
  refine ⟨fun jobId r hr => ?_, fun jobId c' hc' hstate => ?_, fun jobId hmem c' hc' hstate => ?_,
    fun jobId justTransitioned rest found hphase => ?_, fun job hmem => ?_, hwaits⟩
  · rw [hlast] at hr
    exact (hP.past jobId r hr).trans hnow
  · obtain ⟨c, hc, hmoved⟩ := hfollows jobId c' hc'
    refine hafter jobId c' ?_
    rcases hmoved.stuck hstate with rfl | hentered
    · exact hP.stuck jobId c' hc hstate
    · intro r t hr ht
      rw [hentered t ht]
      exact hP.past jobId r hr
  · exact (hwaiting jobId hmem c' hc' hstate).later hnow (hlast jobId)
  · have hold := hmeasured jobId justTransitioned rest found hphase
    cases justTransitioned with
    | true => exact Vetted.later hold hnow (hlast jobId)
    | false =>
      intro c' hc'
      obtain ⟨c, hc, hmoved⟩ := hfollows jobId c' hc'
      exact hafter jobId c' ((hold c hc).moved (hP.past jobId) hmoved)
  · exact (hfound job hmem).later hnow (hlast job.jobId)

theorem lastRecovery_cons (jobId : Uuid) (e : RepairEvent) (log : List RepairEvent) :
    lastRecovery jobId (e :: log) = (e.recoveryOf jobId).or (lastRecovery jobId log) := by
  rw [lastRecovery, List.findSome?_cons]
  cases e.recoveryOf jobId <;> rfl

theorem lastRecovery_recoveryEvents (h : RepairHost) (job : StuckJob) (c : JobContext)
    (jobId : Uuid) (log : List RepairEvent) : lastRecovery jobId (h.recoveryEvents job c ++ log) =
      if job.jobId = jobId then some h.now else lastRecovery jobId log := by
  unfold RepairHost.recoveryEvents
  split_ifs <;> simp_all [lastRecovery_cons]

theorem patient_inserted {c : JobContext} {m : HashMap Uuid JobContext} (hP : Patient config h)
    (hm : ∀ id, m.lookup id = if id = c.jobId then some c else h.job? id)
    (hunused : h.isUnused c.jobId = true) : Patient config (h.setContexts m) := by
  simp only [RepairHost.isUnused, Bool.and_eq_true, beq_iff_eq] at hunused
  -- a new job has not been recovered
  have hnone : lastRecovery c.jobId h.log = none := by
    rw [lastRecovery, List.findSome?_eq_none_iff]
    intro e he
    have hcount := hunused.1.2
    rw [recoveriesOf, List.countP_eq_zero] at hcount
    simpa using hcount e he
  have hother : ∀ id c', (h.setContexts m).job? id = some c' →
      lastRecovery id h.log = none ∨ h.job? id = some c' := by
    intro id c' hc'
    rw [RepairHost.job?, RepairHost.setContexts, hm] at hc'
    split_ifs at hc' with hid
    · exact .inl (hid ▸ hnone)
    · exact .inr hc'
  refine ⟨hP.past, fun id c' hc' hstate => ?_, fun id hmem c' hc' hstate => ?_,
    fun id b rest found hphase => ?_, hP.found, hP.waits⟩
  · rcases hother id c' hc' with hnever | hold
    · intro r t hr
      rw [show lastRecovery id h.log = some r from hr] at hnever
      cases hnever
    · exact hP.stuck id c' hold hstate
  · rcases hother id c' hc' with hnever | hold
    · intro r hr
      rw [show lastRecovery id h.log = some r from hr] at hnever
      cases hnever
    · exact hP.waiting id hmem c' hold hstate
  · have hold := hP.measured id b rest found hphase
    cases b with
    | true => exact hold
    | false =>
      intro c' hc'
      rcases hother id c' hc' with hnever | hc
      · intro r t hr
        rw [show lastRecovery id h.log = some r from hr] at hnever
        cases hnever
      · exact hold c' hc

theorem patient_of_goOn (hP : Patient config h) (hspares : Spares config h .goOn)
    (hmove : RepairMove config h .goOn h') : Patient config h' := by
  have hwaiting := hP.waiting
  have hfound := hP.found
  have hsame : ∀ jobId, lastRecovery jobId h.log = lastRecovery jobId h.log := fun _ => rfl
  cases hmove with
  | scanned hphase =>
    refine hP.follow (.of_same fun _ => rfl) (Nat.le_refl _) hsame hP.waits
      (fun jobId hmem c hc hstate => ?_) (fun _ _ _ _ heq => nomatch heq) fun _ hmem => nomatch hmem
    have hmem : jobId ∈ findStuckJobsWithThreshold config h.now h.manager := hmem
    rw [findStuckJobsWithThreshold, HashMap.mem_keysWhere] at hmem
    obtain ⟨c', hc', hlooks⟩ := hmem
    rw [show h.manager.contexts.lookup jobId = some c from hc] at hc'
    cases hc'
    exact hspares hphase jobId c hc hstate hlooks
  | detected found hphase =>
    rw [hphase] at hfound
    exact hP.follow (.of_same fun _ => rfl) (Nat.le_refl _) hsame hP.waits
      nofun nofun hfound
  | skipped jobId rest found hphase m hm =>
    refine hP.follow (.of_same hm) (Nat.le_refl _) hsame hP.waits
      (fun id hmem c hc hstate => hwaiting id ?_ c ((hm id).symm.trans hc) hstate)
      nofun fun job hmem => hfound job ?_
    · rcases hphase with hphase | hphase | ⟨b, hphase⟩ <;> rw [hphase]
      · exact mem_cons_of_mem _ hmem
      · exact mem_cons_of_mem _ hmem
      · exact hmem
    · rcases hphase with hphase | hphase | ⟨b, hphase⟩ <;> rw [hphase] <;> exact hmem
  | foundStuck jobId rest found c hphase hc hstate =>
    rw [hphase] at hwaiting hfound
    refine hP.follow (.of_same fun _ => rfl) (Nat.le_refl _) hsame hP.waits
      (fun id hmem => hwaiting id (mem_cons_of_mem _ hmem)) ?_ hfound
    rintro id b rest' found' ⟨⟩ c' hc'
    rw [hc] at hc'
    cases hc'
    exact hP.stuck jobId c hc hstate
  | foundInProgress jobId rest found hphase =>
    rw [hphase] at hwaiting hfound
    exact hP.follow (.of_same fun _ => rfl) (Nat.le_refl _) hsame hP.waits hwaiting
      nofun hfound
  | marked jobId rest found c c' m hphase hc hstate hm hmoved hstate' =>
    rw [hphase] at hwaiting hfound
    -- a job in progress waits only if its last recovery is long enough ago
    have hvetted : Vetted config h jobId := hwaiting jobId List.mem_cons_self c hc hstate
    refine hP.follow (.of_moved hc hmoved hm) (Nat.le_refl _) (fun id => ?_) ⟨?_, hP.waits⟩
      (fun id hmem c₁ hc₁ hstate₁ => ?_) ?_ hfound
    · simp [lastRecovery_cons]
    · rintro id now r ⟨⟩ hr
      exact hvetted r hr
    · rw [RepairHost.job?, RepairHost.setContexts, hm] at hc₁
      split_ifs at hc₁ with hid
      · rw [hid]
        exact hvetted
      · exact hwaiting id (mem_cons_of_mem _ hmem) c₁ hc₁ hstate₁
    · rintro id b rest' found' ⟨⟩
      exact hvetted
  | reported jobId justTransitioned rest found c job hphase hc hlong hid hattempts =>
    have hmeasured := hP.measured jobId justTransitioned rest found hphase
    rw [hphase] at hwaiting hfound
    refine hP.follow (.of_same fun _ => rfl) (Nat.le_refl _) (fun id => ?_)
      ⟨fun _ _ _ heq => (nomatch heq), hP.waits⟩ hwaiting nofun
      fun job' hmem => ?_
    · simp [lastRecovery_cons]
    · rcases mem_append.mp hmem with hold | hnew
      · exact hfound job' hold
      · rw [mem_singleton.mp hnew, hid]
        cases justTransitioned with
        | true => exact hmeasured
        -- a job that has been stuck for so long was recovered before
        | false => exact vetted_of_stuckAfter (hmeasured c hc) (hP.past jobId) (hlong rfl)
  | ended hphase =>
    exact hP.follow (.of_same fun _ => rfl) (Nat.le_refl _) hsame hP.waits
      (fun _ hmem => nomatch hmem) (fun _ _ _ _ heq => nomatch heq) fun _ hmem => nomatch hmem

theorem patient_recovered {k : Nat} {found : List StuckJob} {job : StuckJob} {c c' : JobContext}
    {m : HashMap Uuid JobContext} (hA : Accounted config h) (hP : Patient config h)
    (hphase : h.phase = .repairing found) (hjob : found[k]? = some job)
    (hm : ∀ id, m.lookup id = if id = job.jobId then some c' else h.job? id)
    (hstate' : c'.state = .inProgress) :
    Patient config
      { h.setContexts m with
        phase := .repairing (found.eraseIdx k), log := h.recoveryEvents job c ++ h.log } := by
  obtain ⟨front, back, rfl, herase⟩ := split_of_getElem? hjob
  have hvetted : Vetted config h job.jobId := hP.found job (by simp [hphase, RepairPhase.found])
  have hother : ∀ id c₁, m.lookup id = some c₁ → c₁.state = .stuck →
      h.job? id = some c₁ ∧ job.jobId ≠ id := by
    intro id c₁ hc₁ hstate₁
    rw [hm] at hc₁
    split_ifs at hc₁ with hid
    · cases hc₁
      rw [hstate'] at hstate₁
      cases hstate₁
    · exact ⟨hc₁, Ne.symm hid⟩
  refine ⟨fun id r hr => ?_, fun id c₁ hc₁ hstate₁ r t hr => ?_, fun id hmem => (nomatch hmem),
    fun _ _ _ _ heq => (nomatch heq), fun job' hmem r hr => ?_, ?_⟩
  · rw [lastRecovery_recoveryEvents] at hr
    split_ifs at hr
    · cases hr
      exact Nat.le_refl _
    · exact hP.past id r hr
  · obtain ⟨hold, hne⟩ := hother id c₁ hc₁ hstate₁
    rw [lastRecovery_recoveryEvents, if_neg hne] at hr
    exact hP.stuck id c₁ hold hstate₁ r t hr
  · have hmem : job' ∈ front ++ back := by
      rw [← herase]
      exact hmem
    rw [lastRecovery_recoveryEvents, if_neg (hA.others_ne hphase job' hmem).symm] at hr
    refine hP.found job' ?_ r hr
    rw [hphase]
    rcases mem_append.mp hmem with hfront | hback
    · exact List.mem_append_left _ hfront
    · exact mem_append_right _ (mem_cons_of_mem _ hback)
  · show Successively (Waits config) (h.recoveryEvents job c ++ h.log)
    unfold RepairHost.recoveryEvents
    split_ifs
    · refine ⟨fun _ _ _ heq => (nomatch heq), ?_, hP.waits⟩
      rintro id now r ⟨⟩ hr
      exact hvetted r hr
    · exact ⟨fun _ _ _ heq => (nomatch heq), hP.waits⟩

theorem patient_of_repair {k : Nat} (hA : Accounted config h) (hP : Patient config h)
    (hmove : RepairMove config h (.repair k) h') : Patient config h' := by
  cases hmove with
  | failed _ found job c c' m hphase hjob hmax hc hm hmoved hstate' =>
    have hfound := hP.found
    rw [hphase] at hfound
    refine hP.follow (.of_moved hc hmoved hm) (Nat.le_refl _) (fun id => ?_) ⟨?_, hP.waits⟩
      nofun nofun
      fun job' hmem => hfound job' (List.mem_of_mem_eraseIdx hmem)
    · simp [lastRecovery_cons]
    · -- only a job that is failed while it is in progress is interrupted
      intro id now r hinterrupts hr
      unfold RepairEvent.interrupts at hinterrupts
      split at hinterrupts
      · next heq => cases heq
      · next heq =>
        injection heq with hid hnow hprogress
        subst hid hnow
        cases hinterrupts
        exact hfound job (List.mem_of_getElem? hjob) r hr
      · cases hinterrupts
  | recovered _ found job c c' m hphase hjob hmax hc hstate hm hstate' hattempts' =>
    exact patient_recovered hA hP hphase hjob hm hstate'
  | passedOver _ found job hphase hjob hover m hm =>
    have hfound := hP.found
    rw [hphase] at hfound
    exact hP.follow (.of_same hm) (Nat.le_refl _) (fun _ => rfl) hP.waits
      nofun nofun
      fun job' hmem => hfound job' (List.mem_of_mem_eraseIdx hmem)

theorem patient_of_repairStep {a : RepairAction} (hA : Accounted config h) (hP : Patient config h)
    (hspares : Spares config h a) (hstep : repairStep config h a = some h') :
    Patient config h' := by
  have hmove := move_of_repairStep hstep
  cases a with
  | insert c =>
    cases hmove with
    | inserted _ m hm hunused hattempts => exact patient_inserted hP hm hunused
  | remove jobId =>
    cases hmove with
    | removed _ m hm =>
      refine hP.follow (.of_removed hm) (Nat.le_refl _) (fun _ => rfl) hP.waits
        (fun id hmem c hc => hP.waiting id hmem c ?_) hP.measured hP.found
      rw [RepairHost.job?, RepairHost.setContexts, hm] at hc
      split_ifs at hc
      exact hc
  | clock now =>
    cases hmove with
    | clocked _ hle =>
      exact hP.follow (.of_same fun _ => rfl) hle (fun _ => rfl) hP.waits hP.waiting hP.measured
        hP.found
  | worker jobId newState reason =>
    cases hmove with
    | unknown => exact hP
    | worked _ _ _ c c' m hc hm hmoved hstate =>
      refine hP.follow (.of_moved hc hmoved hm) (Nat.le_refl _) (fun _ => rfl) hP.waits
        (fun id hmem c₁ hc₁ hstate₁ => ?_) hP.measured hP.found
      rw [RepairHost.job?, RepairHost.setContexts, hm] at hc₁
      split_ifs at hc₁ with hid
      · cases hc₁
        subst hid
        rcases hstate with rfl | hnew
        · exact hP.waiting _ hmem _ hc hstate₁
        · exact hspares (hnew.symm.trans hstate₁) hmem
      · exact hP.waiting id hmem c₁ hc₁ hstate₁
  | goOn => exact patient_of_goOn hP hspares hmove
  | repair k => exact patient_of_repair hA hP hmove

end Patience

theorem accounted_start (config : RepairConfig) (maxJobs : Nat) :
    Accounted config (.start maxJobs) := by
  refine ⟨List.nodup_nil, fun _ _ hc => (nomatch hc), fun _ => Nat.zero_le _, trivial,
    fun _ hmem => (nomatch hmem), fun _ hmem => (nomatch hmem), fun _ _ => ⟨?_, ?_, ?_⟩⟩
  · exact fun _ _ _ => rfl
  · exact Nat.zero_le _
  · exact nofun

theorem patient_start (config : RepairConfig) (maxJobs : Nat) : Patient config (.start maxJobs) :=
  ⟨fun _ _ hr => (nomatch hr), fun _ _ hc => (nomatch hc), fun _ hmem => (nomatch hmem),
    fun _ _ _ _ heq => (nomatch heq), fun _ hmem => (nomatch hmem), trivial⟩

theorem Accounted.repairs {config : RepairConfig} {h : RepairHost} (hA : Accounted config h)
    (hP : Patient config h) : Repairs config h := by
  refine ⟨hA.bounded, hA.failsLast, hP.waits, fun jobId => ?_, fun jobId hall hmem =>
    (hA.settled jobId hmem).ended hall⟩
  by_cases hmem : jobId ∈ h.phase.found.map StuckJob.jobId
  · obtain ⟨job, hfound, rfl⟩ := List.mem_map.mp hmem
    obtain ⟨hattempts, hcount, -⟩ := hA.found job hfound
    rw [hcount, hattempts]
    exact Nat.add_le_add_right (hA.bounded job.jobId) 1
  · exact (hA.settled jobId hmem).reports

/-- **Self-repair is bounded and patient** in the runs that spare recovered jobs. -/
theorem repairs_of_spares {config : RepairConfig} {maxJobs : Nat} {h : RepairHost}
    {as : List RepairAction} (hc : Along (repairStep config) (Spares config) (.start maxJobs) as)
    (hr : run (repairStep config) (.start maxJobs) as = some h) : Repairs config h := by
  have hboth : Accounted config h ∧ Patient config h :=
    run_invariant (I := fun h => Accounted config h ∧ Patient config h)
      (fun _ _ _ hinv hspares hstep => ⟨accounted_of_repairStep hinv.1 hstep,
        patient_of_repairStep hinv.1 hinv.2 hspares hstep⟩)
      ⟨accounted_start config maxJobs, patient_start config maxJobs⟩ hc hr
  exact hboth.1.repairs hboth.2

theorem spares_worker_of_idle {config : RepairConfig} {h : RepairHost} {jobId : Uuid}
    {newState : JobState} {reason : Option String} (hphase : h.phase = .idle) :
    Spares config h (.worker jobId newState reason) := by
  intro _ hmem
  rw [hphase] at hmem
  cases hmem

theorem spares_goOn_of_phase {config : RepairConfig} {h : RepairHost} (p : RepairPhase)
    (hphase : h.phase = p) (hp : p ≠ .idle) : Spares config h .goOn :=
  fun hidle => absurd (hphase.symm.trans hidle) hp

def fiveMinutes : RepairConfig := ⟨300 * 10 ^ 9, 3⟩

def startJob : List RepairAction :=
  [.insert (.withUser 7 0 "user" "build" ""), .worker 7 .inProgress none]

def recoverJob : List RepairAction :=
  startJob ++ [.clock (400 * 10 ^ 9), .goOn, .goOn, .goOn, .goOn, .goOn, .repair 0, .goOn]

def foundLater : List RepairAction := recoverJob ++ [.clock (800 * 10 ^ 9), .goOn]

def foundAtOnce : List RepairAction :=
  recoverJob ++ [.clock (401 * 10 ^ 9), .goOn, .goOn, .goOn]

theorem repairs_foundLater : ∃ h, run (repairStep fiveMinutes) (.start 1) foundLater = some h ∧
    recoveriesOf 7 h.log = 1 ∧ h.phase.waiting = [7] ∧ Repairs fiveMinutes h := by
  obtain ⟨h, hr, hcount, hwaiting⟩ : ∃ h,
      run (repairStep fiveMinutes) (.start 1) foundLater = some h ∧
      recoveriesOf 7 h.log = 1 ∧ h.phase.waiting = [7] := ⟨_, rfl, rfl, rfl⟩
  refine ⟨h, hr, hcount, hwaiting, repairs_of_spares ?_ hr⟩
  refine .of_step rfl trivial (.of_step rfl (spares_worker_of_idle rfl) ?_)
  -- nothing has been recovered when the first scan is made
  refine .of_step rfl trivial (.of_step rfl nofun ?_)
  refine .of_step rfl (spares_goOn_of_phase (.detecting [7] []) rfl nofun) ?_
  refine .of_step rfl (spares_goOn_of_phase (.marking 7 [] []) rfl nofun) ?_
  refine .of_step rfl (spares_goOn_of_phase (.measuring 7 true [] []) rfl nofun) ?_
  refine .of_step rfl (spares_goOn_of_phase (.detecting [] _) rfl nofun) ?_
  refine .of_step rfl trivial ?_
  refine .of_step rfl (spares_goOn_of_phase (.repairing []) rfl nofun) ?_
  -- the job was recovered long before the second scan
  refine .of_step rfl trivial (.of_step rfl (fun _ id c hc _ _ r hr => ?_) trivial)
  change lastRecovery id [.recovered 7 (400 * 10 ^ 9), .reported 7,
    .markedStuck 7 (400 * 10 ^ 9)] = some r at hr
  show r + 300 * 10 ^ 9 ≤ 800 * 10 ^ 9
  simp only [lastRecovery_cons, recoveryOf_recovered, recoveryOf_reported] at hr
  split_ifs at hr
  · cases hr
    decide
  · cases hr

theorem interrupted_at_once : ∃ h earlier,
    run (repairStep fiveMinutes) (.start 1) foundAtOnce = some h ∧
    h.log = .markedStuck 7 (401 * 10 ^ 9) :: earlier ∧
    lastRecovery 7 earlier = some (400 * 10 ^ 9) ∧ ¬ Repairs fiveMinutes h := by
  refine ⟨_, _, rfl, rfl, rfl, fun h => ?_⟩
  have hwaits := h.waits.1 7 (401 * 10 ^ 9) (400 * 10 ^ 9) rfl rfl
  revert hwaits
  decide

end IronClaw.Jobs
