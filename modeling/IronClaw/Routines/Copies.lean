import IronClaw.Routines.Engine

/-!
# Copies of routines

Tasks work on copies of routines. What holds of the rows at the start, and is kept by what is
written, holds of every copy.
-/

namespace IronClaw.Routines

open Foundation (Pool)
open List (mem_append mem_cons mem_cons_self mem_map mem_singleton nil_subset subset_cons_self)

namespace EngineTask

def copies : EngineTask → List Routine
  | ticking due => due
  | tickCooling r rest | tickCounting r rest | tickFiring r rest => r :: rest
  | counting _ matchers => matchers.map EventMatcher.routine
  | checking _ _ rest triggered => rest.map EventMatcher.routine ++ triggered
  | emitting _ _ r rest => r :: rest.map EventMatcher.routine
  | triggering _ triggered => triggered
  | webhookCooling r _ | webhookCounting r _ | webhookLimiting r _ | manualCounting r _ => [r]
  | firing r _ => [r]
  | recording run | starting run | executing run | completing run _ => [run.routine]
  | reckoning r _ | scheduling r _ _ | writing r _ _ _ => [r]
  | applying r _ | saving r => [r]
  | replacing _ cache => cache.map EventMatcher.routine
  | _ => []

def edits : EngineTask → Option Uuid
  | changing id _ => some id
  | applying r _ | saving r => some r.id
  | _ => none

end EngineTask

/-- What is kept of a routine when it is written back, patched in the cache, or edited. -/
structure Persistent (env : RoutineEnv) (since : Time) (mayEdit : Uuid → Prop)
    (P : Routine → Prop) : Prop where
  written : ∀ {r old : Routine} (t lastRunAt : Time) (runCount failures : Nat), P r → P old →
    old.id = r.id → since ≤ t →
      P (old.withRuntime lastRunAt (env.libs.nextFire t r.trigger) runCount failures)
  patched : ∀ {r : Routine} (lastRunAt : Time) (runCount failures : Nat), P r →
    P { r with lastRunAt := some lastRunAt, runCount, consecutiveFailures := failures }
  edited : ∀ {r r' : Routine} (edit : RoutineEdit) (t : Time), P r → mayEdit r.id → since ≤ t →
    edit.apply env.libs t r = some r' → P r'
  saved : ∀ {r old : Routine}, P r → P old → old.id = r.id → mayEdit r.id →
    P (r.withoutRuntime old)

/-- A task's copies are as they should be, its edits allowed, and what it writes back is recent. -/
structure TaskOk (env : RoutineEnv) (since : Time) (mayEdit : Uuid → Prop) (P : Routine → Prop)
    (t : EngineTask) : Prop where
  copies : ∀ r ∈ t.copies, P r
  edits : ∀ id ∈ t.edits, mayEdit id
  reckoned : ∀ r status lastRunAt nextFireAt, t = .writing r status lastRunAt nextFireAt →
    ∃ now, since ≤ now ∧ nextFireAt = env.libs.nextFire now r.trigger

structure SharedOk (since : Time) (P : Routine → Prop) (s : EngineShared) : Prop where
  now : since ≤ s.now
  rows : ∀ id r, s.routines.lookup id = some r → P r
  cache : ∀ m ∈ s.eventCache, P m.routine
  fires : ∀ f ∈ s.fires, P f.routine

structure Everywhere (env : RoutineEnv) (since : Time) (mayEdit : Uuid → Prop) (P : Routine → Prop)
    (p : EnginePool) : Prop where
  shared : SharedOk since P p.shared
  tasks : ∀ t ∈ p.tasks, TaskOk env since mayEdit P t

section Steps

variable {env : RoutineEnv} {since : Time} {mayEdit : Uuid → Prop} {P : Routine → Prop}
  {s s' : EngineShared} {t : EngineTask} {ts : List EngineTask}

variable {r : Routine}

theorem SharedOk.list (hs : SharedOk since P s) (hr : r ∈ s.routines.list) : P r :=
  hs.rows r.id r (RoutineTable.mem_list.mp hr)

theorem routine_mapRoutine (f : Routine → Routine) (m : EventMatcher) :
    (m.mapRoutine f).routine = f m.routine := by
  cases m <;> rfl

variable {libs : RoutineLibs}

theorem mem_of_mem_buildCache {routines : List Routine} {m : EventMatcher}
    (h : m ∈ buildCache libs routines) : m.routine ∈ routines := by
  obtain ⟨r, hr, hm⟩ := List.mem_filterMap.mp h
  split at hm
  · split_ifs at hm
    cases hm
    exact hr
  · cases hm
    exact hr
  · cases hm

theorem mem_patchCache {id : Uuid} {lastRunAt : Time} {runCount failures : Nat}
    {cache : List EventMatcher} {m : EventMatcher}
    (h : m ∈ EngineShared.patchCache id lastRunAt runCount failures cache) :
    m ∈ cache ∨ ∃ old ∈ cache, m = old.mapRoutine fun r =>
      { r with lastRunAt := some lastRunAt, runCount, consecutiveFailures := failures } := by
  induction cache with
  | nil => cases h
  | cons c cache ih =>
    rw [EngineShared.patchCache] at h
    split_ifs at h
    · rcases mem_cons.mp h with rfl | h
      · exact .inr ⟨c, mem_cons_self, rfl⟩
      · exact .inl (List.mem_cons_of_mem c h)
    · rcases mem_cons.mp h with rfl | h
      · exact .inl mem_cons_self
      · rcases ih h with h | ⟨old, hold, heq⟩
        · exact .inl (List.mem_cons_of_mem c h)
        · exact .inr ⟨old, List.mem_cons_of_mem c hold, heq⟩

theorem TaskOk.of_copies (hedits : t.edits = none)
    (hwriting : ∀ r status lastRunAt nextFireAt, t ≠ .writing r status lastRunAt nextFireAt)
    (h : ∀ r ∈ t.copies, P r) : TaskOk env since mayEdit P t where
  copies := h
  edits := by simp [hedits]
  reckoned := fun r status lastRunAt nextFireAt heq => absurd heq (hwriting _ _ _ _)

theorem exists_of_apply {now : Time} {r r' : Routine} {edit : RoutineEdit}
    (h : edit.apply libs now r = some r') : ∃ enabled trigger action nextFireAt,
      r' = { r with enabled, trigger, action, nextFireAt } := by
  cases edit with
  | toggle enabled =>
    simp only [RoutineEdit.apply, Routine.toggled] at h
    split at h
    · split_ifs at h
      · obtain ⟨next, -, rfl⟩ := Option.map_eq_some_iff.mp h
        exact ⟨_, _, _, _, rfl⟩
      · cases h
        exact ⟨_, _, _, _, rfl⟩
    · cases h
      exact ⟨_, _, _, _, rfl⟩
  | update enabled prompt schedule timezone =>
    simp only [RoutineEdit.apply] at h
    split_ifs at h
    · cases h
      exact ⟨_, _, _, _, rfl⟩
    · simp only [Routine.withSchedule] at h
      split at h
      · obtain ⟨next, -, rfl⟩ := Option.map_eq_some_iff.mp h
        exact ⟨_, _, _, _, rfl⟩
      · cases h
  | retrigger trigger =>
    cases h
    exact ⟨_, _, _, _, rfl⟩

theorem id_of_apply {now : Time} {r r' : Routine} {edit : RoutineEdit}
    (h : edit.apply libs now r = some r') : r'.id = r.id := by
  obtain ⟨_, _, _, _, rfl⟩ := exists_of_apply h
  rfl

theorem ok_of_subset {u : EngineTask} (ht : TaskOk env since mayEdit P t) (hedits : u.edits = none)
    (hwriting : ∀ r status lastRunAt nextFireAt, u ≠ .writing r status lastRunAt nextFireAt)
    (hsub : u.copies ⊆ t.copies) : TaskOk env since mayEdit P u :=
  .of_copies hedits hwriting fun r hr => ht.copies r (hsub hr)

theorem ok_checkNext {e : EngineInput} {counts : Uuid → Nat} {triggered : List Routine}
    {rest : List EventMatcher} (hs : SharedOk since P s)
    (ht : TaskOk env since mayEdit P (.checking e counts rest triggered)) :
    SharedOk since P (EngineTask.checkNext env e counts triggered s rest).1 ∧
      ∀ u ∈ (EngineTask.checkNext env e counts triggered s rest).2,
        TaskOk env since mayEdit P u := by
  cases rest with
  | nil =>
    refine ⟨⟨hs.now, hs.rows, hs.cache, hs.fires⟩, fun u hu => ?_⟩
    simp only [EngineTask.checkNext] at hu
    split_ifs at hu
    · rw [mem_singleton.mp hu]
      exact ok_of_subset ht rfl (by simp) (by simp [EngineTask.copies])
    · cases hu
  | cons m rest =>
    simp only [EngineTask.checkNext]
    split_ifs
    all_goals
      refine ⟨hs, fun u hu => ?_⟩
      rw [mem_singleton.mp hu]
      refine ok_of_subset ht rfl (by simp) ?_
      simp only [EngineTask.copies, List.map_cons, List.cons_append]
    · -- a selected routine joins the ones that are triggered
      intro r
      simp only [mem_append, mem_cons, List.not_mem_nil, or_false]
      rintro (hr | hr | rfl)
      · exact .inr (.inl hr)
      · exact .inr (.inr hr)
      · exact .inl rfl
    · exact List.cons_subset_cons _ (List.subset_append_left _ _)
    · exact subset_cons_self _ _

theorem SharedOk.written (hp : Persistent env since mayEdit P) (hs : SharedOk since P s) (hr : P r)
    {t : Time} (ht : since ≤ t) (lastRunAt : Time) (runCount failures : Nat) :
    SharedOk since P (s.updateRoutineRuntime r.id lastRunAt (env.libs.nextFire t r.trigger)
      runCount failures) where
  now := hs.now
  rows := by
    intro id row h
    rw [EngineShared.lookup_updateRoutineRuntime] at h
    split_ifs at h with hid
    · obtain ⟨old, hold, rfl⟩ := Option.map_eq_some_iff.mp h
      have hkey : old.id = r.id := (RoutineTable.id_of_lookup hold).trans hid
      exact hp.written t lastRunAt runCount failures hr (hs.rows id old hold) hkey ht
    · exact hs.rows id row h
  cache := hs.cache
  fires := hs.fires

theorem SharedOk.saved (hp : Persistent env since mayEdit P) (hs : SharedOk since P s) (hr : P r)
    (hedit : mayEdit r.id) : SharedOk since P (s.updateRoutine r) where
  now := hs.now
  rows := by
    intro id row h
    rw [EngineShared.lookup_updateRoutine] at h
    split_ifs at h with hid
    · obtain ⟨old, hold, rfl⟩ := Option.map_eq_some_iff.mp h
      have hkey : old.id = r.id := (RoutineTable.id_of_lookup hold).trans hid
      exact hp.saved hr (hs.rows id old hold) hkey hedit
    · exact hs.rows id row h
  cache := hs.cache
  fires := hs.fires

theorem SharedOk.erased (hs : SharedOk since P s) (id : Uuid) :
    SharedOk since P { s with routines := s.routines.erase id } where
  now := hs.now
  rows := by
    intro id' row h
    rw [RoutineTable.lookup_erase] at h
    split_ifs at h
    exact hs.rows id' row h
  cache := hs.cache
  fires := hs.fires

theorem SharedOk.patched (hp : Persistent env since mayEdit P) (hs : SharedOk since P s) (id : Uuid)
    (lastRunAt : Time) (runCount failures : Nat) :
    SharedOk since P { s with
      eventCache := EngineShared.patchCache id lastRunAt runCount failures s.eventCache } where
  now := hs.now
  rows := hs.rows
  cache := by
    intro m hm
    rcases mem_patchCache hm with hm | ⟨old, hold, rfl⟩
    · exact hs.cache m hm
    · rw [routine_mapRoutine]
      exact hp.patched lastRunAt runCount failures (hs.cache old hold)
  fires := hs.fires

theorem ok_goNext (hp : Persistent env since mayEdit P) (hs : SharedOk since P s)
    (ht : TaskOk env since mayEdit P t) (h : EngineTask.goNext env s t = some (s', ts)) :
    SharedOk since P s' ∧ ∀ u ∈ ts, TaskOk env since mayEdit P u := by
  -- a task that is left alone, with copies that the former one had
  have hone : ∀ {u v : EngineTask}, u ∈ [v] → v.edits = none →
      (∀ r status lastRunAt nextFireAt, v ≠ .writing r status lastRunAt nextFireAt) →
      v.copies ⊆ t.copies → TaskOk env since mayEdit P u := by
    intro u v hu hedits hwriting hsub
    rw [mem_singleton.mp hu]
    exact ok_of_subset ht hedits hwriting hsub
  -- a task that is left with a copy of a row
  have hrow : ∀ {u v : EngineTask} {r : Routine} {id : Uuid}, u ∈ [v] →
      s.routines.lookup id = some r → v.edits = none →
      (∀ r status lastRunAt nextFireAt, v ≠ .writing r status lastRunAt nextFireAt) →
      v.copies = [r] → TaskOk env since mayEdit P u := by
    intro u v r id hu hr hedits hwriting hcopies
    rw [mem_singleton.mp hu]
    refine .of_copies hedits hwriting fun r' hr' => ?_
    rw [hcopies, mem_singleton] at hr'
    rw [hr']
    exact hs.rows id r hr
  cases t with
  | listing =>
    cases h
    refine ⟨hs, fun u hu => ?_⟩
    rw [mem_singleton.mp hu]
    exact .of_copies rfl (by simp) fun r hr => hs.list (List.mem_of_mem_filter hr)
  | ticking due =>
    cases due with
    | nil =>
      cases h
      exact ⟨hs, by simp⟩
    | cons r rest =>
      cases h
      refine ⟨hs, fun u hu => ?_⟩
      split_ifs at hu
      · cases hu
      · exact hone hu rfl (by simp) (List.Subset.refl _)
  | tickCooling r rest =>
    cases h
    refine ⟨hs, fun u hu => ?_⟩
    split_ifs at hu
    · exact hone hu rfl (by simp) (List.Subset.refl _)
    · exact hone hu rfl (by simp) (subset_cons_self _ _)
  | tickCounting r rest =>
    cases h
    refine ⟨hs, fun u hu => ?_⟩
    split_ifs at hu
    · exact hone hu rfl (by simp) (List.Subset.refl _)
    · exact hone hu rfl (by simp) (subset_cons_self _ _)
  | arriving e =>
    simp only [EngineTask.goNext] at h
    split_ifs at h
    · cases h
      refine ⟨⟨hs.now, hs.rows, hs.cache, hs.fires⟩, fun u hu => ?_⟩
      rw [mem_singleton.mp hu]
      refine .of_copies rfl (by simp) fun r hr => ?_
      obtain ⟨m, hm, rfl⟩ := mem_map.mp hr
      exact hs.cache m hm
    · cases h
      exact ⟨hs, by simp⟩
  | counting e matchers =>
    cases h
    exact ⟨hs, fun u hu => hone hu rfl (by simp) (by simp [EngineTask.copies])⟩
  | checking e counts rest triggered =>
    obtain ⟨rfl, rfl⟩ := Prod.ext_iff.mp (Option.some.inj h)
    exact ok_checkNext hs ht
  | triggering e triggered =>
    cases triggered with
    | nil =>
      cases h
      exact ⟨hs, by simp⟩
    | cons r triggered => cases h
  | webhookLoading id path =>
    simp only [EngineTask.goNext] at h
    split at h
    · next r hr =>
      cases h
      refine ⟨hs, fun u hu => ?_⟩
      split_ifs at hu
      · exact hrow hu hr rfl (by simp) rfl
      · cases hu
    · cases h
      exact ⟨hs, by simp⟩
  | webhookCooling r path =>
    cases h
    refine ⟨hs, fun u hu => ?_⟩
    split_ifs at hu
    · exact hone hu rfl (by simp) (List.Subset.refl _)
    · cases hu
  | webhookCounting r path =>
    cases h
    refine ⟨hs, fun u hu => ?_⟩
    split_ifs at hu
    · exact hone hu rfl (by simp) (List.Subset.refl _)
    · cases hu
  | webhookLimiting r path =>
    cases h
    refine ⟨hs, fun u hu => ?_⟩
    split_ifs at hu
    · exact hone hu rfl (by simp) (List.Subset.refl _)
    · cases hu
  | manualLoading id userId =>
    simp only [EngineTask.goNext] at h
    split at h
    · next r hr =>
      cases h
      refine ⟨hs, fun u hu => ?_⟩
      split_ifs at hu
      · exact hrow hu hr rfl (by simp) rfl
      · cases hu
    · cases h
      exact ⟨hs, by simp⟩
  | manualCounting r userId =>
    cases h
    refine ⟨hs, fun u hu => ?_⟩
    split_ifs at hu
    · exact hone hu rfl (by simp) (List.Subset.refl _)
    · cases hu
  | recording run =>
    cases h
    refine ⟨⟨hs.now, hs.rows, hs.cache, hs.fires⟩, fun u hu => ?_⟩
    exact hone hu rfl (by simp) (List.Subset.refl _)
  | starting run =>
    cases h
    refine ⟨⟨hs.now, hs.rows, hs.cache, hs.fires⟩, fun u hu => ?_⟩
    exact hone hu rfl (by simp) (List.Subset.refl _)
  | completing run status =>
    cases h
    refine ⟨⟨hs.now, hs.rows, hs.cache, hs.fires⟩, fun u hu => ?_⟩
    exact hone hu rfl (by simp) (List.Subset.refl _)
  | reckoning r status =>
    cases h
    exact ⟨hs, fun u hu => hone hu rfl (by simp) (List.Subset.refl _)⟩
  | scheduling r status lastRunAt =>
    cases h
    refine ⟨hs, fun u hu => ?_⟩
    rw [mem_singleton.mp hu]
    refine ⟨ht.copies, by simp [EngineTask.edits], fun r' status' lastRunAt' nextFireAt heq => ?_⟩
    cases heq
    exact ⟨s.now, hs.now, rfl⟩
  | writing r status lastRunAt nextFireAt =>
    obtain ⟨now, hnow, rfl⟩ := ht.reckoned r status lastRunAt nextFireAt rfl
    have hr : P r := ht.copies r mem_cons_self
    cases h
    refine ⟨hs.written hp hr hnow _ _ _, fun u hu => ?_⟩
    split_ifs at hu
    · exact hone hu rfl (by simp) (nil_subset _)
    · cases hu
  | patching id lastRunAt runCount failures =>
    simp only [EngineTask.goNext] at h
    split_ifs at h
    cases h
    exact ⟨hs.patched hp id lastRunAt runCount failures, by simp⟩
  | dispatchedCompleting run status =>
    cases h
    refine ⟨⟨hs.now, hs.rows, hs.cache, hs.fires⟩, fun u hu => ?_⟩
    exact hone hu rfl (by simp) (nil_subset _)
  | dispatchedLoading routineId status =>
    cases h
    refine ⟨hs, fun u hu => ?_⟩
    cases hr : s.routines.lookup routineId with
    | none =>
      rw [hr] at hu
      cases hu
    | some r =>
      rw [hr] at hu
      exact hrow hu hr rfl (by simp) rfl
  | changing id edit =>
    cases h
    refine ⟨hs, fun u hu => ?_⟩
    cases hr : s.routines.lookup id with
    | none =>
      rw [hr] at hu
      cases hu
    | some r =>
      rw [hr] at hu
      rw [mem_singleton.mp hu]
      refine ⟨?_, ?_, by simp⟩
      · simpa [EngineTask.copies] using hs.rows id r hr
      · -- the row under an id has this id
        simpa [EngineTask.edits, RoutineTable.id_of_lookup hr] using ht.edits id rfl
  | applying r edit =>
    cases h
    refine ⟨hs, fun u hu => ?_⟩
    cases hr : edit.apply env.libs s.now r with
    | none =>
      rw [hr] at hu
      cases hu
    | some r' =>
      rw [hr] at hu
      rw [mem_singleton.mp hu]
      have hedit : mayEdit r.id := ht.edits r.id rfl
      refine ⟨?_, ?_, by simp⟩
      · have hr' : P r' := hp.edited edit s.now (ht.copies r mem_cons_self) hedit hs.now hr
        simpa [EngineTask.copies] using hr'
      · simpa [EngineTask.edits, id_of_apply hr] using hedit
  | saving r =>
    cases h
    have hr : P r := ht.copies r mem_cons_self
    refine ⟨hs.saved hp hr (ht.edits r.id rfl), fun u hu => ?_⟩
    exact hone hu rfl (by simp) (nil_subset _)
  | deleting id =>
    cases h
    exact ⟨hs.erased id, fun u hu => hone hu rfl (by simp) (nil_subset _)⟩
  | refreshing author =>
    cases h
    refine ⟨hs, fun u hu => ?_⟩
    rw [mem_singleton.mp hu]
    refine .of_copies rfl (by simp) fun r hr => ?_
    obtain ⟨m, hm, rfl⟩ := mem_map.mp hr
    exact hs.list (List.mem_of_mem_filter (mem_of_mem_buildCache hm))
  | replacing author cache =>
    simp only [EngineTask.goNext] at h
    split_ifs at h
    cases h
    refine ⟨⟨hs.now, hs.rows, fun m hm => ?_, hs.fires⟩, by simp⟩
    exact ht.copies m.routine (List.mem_map_of_mem hm)
  | _ => cases h

theorem ok_pending {origin : Origin} {rest : List EngineTask} (ht : TaskOk env since mayEdit P t)
    (h : t.pending = some (r, origin, rest)) : P r ∧ ∀ u ∈ rest, TaskOk env since mayEdit P u := by
  unfold EngineTask.pending at h
  split at h <;> cases h
  · refine ⟨ht.copies r mem_cons_self, fun u hu => ?_⟩
    rw [mem_singleton.mp hu]
    exact ok_of_subset ht rfl (by simp) (subset_cons_self _ _)
  · refine ⟨ht.copies r mem_cons_self, fun u hu => ?_⟩
    rw [mem_singleton.mp hu]
    refine ok_of_subset ht rfl (by simp) ?_
    simp [EngineTask.copies]
  · refine ⟨ht.copies r mem_cons_self, fun u hu => ?_⟩
    rw [mem_singleton.mp hu]
    exact ok_of_subset ht rfl (by simp) (subset_cons_self _ _)
  · exact ⟨ht.copies r mem_cons_self, by simp⟩

theorem ok_fireNext {runId : Uuid} (hs : SharedOk since P s) (ht : TaskOk env since mayEdit P t)
    (h : EngineTask.fireNext env runId s t = some (s', ts)) :
    SharedOk since P s' ∧ ∀ u ∈ ts, TaskOk env since mayEdit P u := by
  unfold EngineTask.fireNext at h
  split at h
  · next r origin rest hpending =>
    split_ifs at h
    cases h
    obtain ⟨hr, hrest⟩ := ok_pending ht hpending
    refine ⟨⟨hs.now, hs.rows, hs.cache, fun f hf => ?_⟩, fun u hu => ?_⟩
    · rcases mem_append.mp hf with hf | hf
      · exact hs.fires f hf
      · rw [mem_singleton.mp hf]
        exact hr
    · rcases mem_append.mp hu with hu | hu
      · exact hrest u hu
      · rw [mem_singleton.mp hu]
        exact .of_copies rfl (by simp) (by simpa [EngineTask.copies, EngineShared.fire] using hr)
  · cases h

theorem ok_next {event : EngineEvent} (hp : Persistent env since mayEdit P)
    (hs : SharedOk since P s) (ht : TaskOk env since mayEdit P t)
    (h : EngineTask.next env event s t = some (s', ts)) :
    SharedOk since P s' ∧ ∀ u ∈ ts, TaskOk env since mayEdit P u := by
  unfold EngineTask.next at h
  split at h
  · exact ok_goNext hp hs ht h
  · exact ok_fireNext hs ht h
  · split_ifs at h
    cases h
    refine ⟨⟨hs.now, hs.rows, hs.cache, hs.fires⟩, fun u hu => ?_⟩
    rw [mem_singleton.mp hu]
    exact ok_of_subset ht rfl (by simp) (List.Subset.refl _)
  · cases h

theorem Everywhere.start {p : EnginePool} {u : EngineTask} (h : Everywhere env since mayEdit P p)
    (hu : TaskOk env since mayEdit P u) : Everywhere env since mayEdit P (p.start u) where
  shared := h.shared
  tasks := by
    intro v hv
    rcases mem_append.mp hv with hv | hv
    · exact h.tasks v hv
    · rw [mem_singleton.mp hv]
      exact hu

theorem everywhere_of_engineStep (hp : Persistent env since mayEdit P) {p p' : EnginePool}
    {a : EngineAction} (h : Everywhere env since mayEdit P p)
    (hedit : ∀ id edit, a = .edit id edit → mayEdit id) (hstep : engineStep env p a = some p') :
    Everywhere env since mayEdit P p' := by
  cases a with
  | tick =>
    simp only [engineStep] at hstep
    split_ifs at hstep
    cases hstep
    exact h.start (.of_copies rfl (by simp) (by simp [EngineTask.copies]))
  | recover run status =>
    simp only [engineStep] at hstep
    split_ifs at hstep
    cases hstep
    exact h.start (.of_copies rfl (by simp) (by simp [EngineTask.copies]))
  | edit id edit =>
    cases hstep
    refine h.start ⟨by simp [EngineTask.copies], ?_, by simp⟩
    simpa [EngineTask.edits] using hedit id edit rfl
  | clock now =>
    simp only [engineStep] at hstep
    split_ifs at hstep with hle
    cases hstep
    have hs := h.shared
    exact ⟨⟨hs.now.trans hle, hs.rows, hs.cache, hs.fires⟩, h.tasks⟩
  | advance i event =>
    obtain ⟨front, t, back, s', ts, htasks, -, hnext, rfl⟩ := Pool.advance_eq_some_iff.mp hstep
    have ht : t ∈ p.tasks := by simp [htasks]
    obtain ⟨hs', hts⟩ := ok_next hp h.shared (h.tasks t ht) hnext
    refine ⟨hs', fun u hu => ?_⟩
    simp only [mem_append, or_assoc] at hu
    rcases hu with hu | hu | hu
    · exact h.tasks u (Pool.mem_of_split htasks (List.mem_append_left _ hu))
    · exact hts u hu
    · exact h.tasks u (Pool.mem_of_split htasks (List.mem_append_right _ hu))
  | _ =>
    cases hstep
    exact h.start (.of_copies rfl (by simp) (by simp [EngineTask.copies]))

end Steps

end IronClaw.Routines
