import IronClaw.Routines.Copies
import IronClaw.Routines.Steps
import Mathlib.Data.Set.Card

/-!
# Occurrences of a schedule

The next fire of a cron routine is computed anew when a run is written back, so until then every
tick finds the routine due for the same occurrence.
-/

namespace IronClaw.Routines

open Foundation (Along Pool Text run run_invariant)

/-- The runs of a routine that ticks have started up to a point in time. -/
def cronFires (id : Uuid) (t : Time) (s : EngineShared) : List FiredRun :=
  s.fires.filter fun f =>
    decide (f.routine.id = id) && decide (f.origin = .cron) && decide (f.startedAt ≤ t)

/-- A tick fires a routine from a copy with another next fire than all before. -/
def OtherOccurrence (id : Uuid) (p : EnginePool) (a : EngineAction) : Prop :=
  ∀ i runId r rest, a = .advance i (.fire runId) → p.tasks[i]? = some (.tickFiring r rest) →
    r.id = id → ∀ f ∈ p.shared.fires, f.routine.id = id → f.origin = .cron →
      f.routine.nextFireAt ≠ r.nextFireAt

def Untouched (id : Uuid) (a : EngineAction) : Prop := ∀ edit, a ≠ .edit id edit

def Routine.DueBy (t : Time) (r : Routine) : Prop := ∃ n, r.nextFireAt = some n ∧ n ≤ t

/-- A routine with the given trigger, due next at one of its times from the first one on. -/
def OnSchedule (libs : RoutineLibs) (occurs : libs.Schedule → Option Text → Time → Prop)
    (id : Uuid) (trigger : Trigger) (first : Time) (r : Routine) : Prop :=
  r.id = id → r.trigger = trigger ∧
    ∀ n, r.nextFireAt = some n → first ≤ n ∧ libs.Occurs occurs n trigger

/-- What ticks have at hand is due, what they fired was, and each time for another occurrence. -/
structure Ticked (id : Uuid) (p : EnginePool) : Prop where
  due : ∀ t ∈ p.tasks, t.isTicker → ∀ r ∈ t.copies, r.DueBy p.shared.now
  called : OnlyCalls p
  fired : ∀ f ∈ p.shared.fires, f.origin = .cron → f.routine.DueBy f.startedAt
  apart : p.shared.fires.Pairwise fun f f' => f.routine.id = id → f'.routine.id = id →
    f.origin = .cron → f'.origin = .cron → f.routine.nextFireAt ≠ f'.routine.nextFireAt

section Steps

variable {env : RoutineEnv} {id : Uuid} {s s' : EngineShared} {p p' : EnginePool}
  {a : EngineAction} {t : EngineTask} {ts : List EngineTask}

theorem Routine.DueBy.mono {r : Routine} {t t' : Time} (h : r.DueBy t) (hle : t ≤ t') :
    r.DueBy t' := by
  obtain ⟨n, hn, hnt⟩ := h
  exact ⟨n, hn, hnt.trans hle⟩

theorem dueBy_of_listed {r : Routine} (h : r ∈ s.listDueCronRoutines) : r.DueBy s.now := by
  obtain ⟨-, hdue⟩ := List.mem_filter.mp h
  simp only [Bool.and_eq_true] at hdue
  obtain ⟨n, hn, hle⟩ := (Option.any_eq_true _ _).mp hdue.2
  exact ⟨n, hn, of_decide_eq_true hle⟩

theorem onSchedule_persist (id : Uuid) {occurs : env.libs.Schedule → Option Text → Time → Prop}
    (hlaw : env.libs.Lawful occurs) {trigger : Trigger} {first t₀ since : Time} (ht₀ : t₀ ≤ since)
    (hfirst : env.libs.nextFire t₀ trigger = some first) :
    Persistent env since (· ≠ id) (OnSchedule env.libs occurs id trigger first) where
  written := by
    intro r old t lastRunAt runCount failures hr hold hid hsince holdId
    have hrId : r.id = id := hid.symm.trans holdId
    refine ⟨(hold holdId).1, fun n hn => ?_⟩
    -- the next fire is computed from the trigger of the copy, which is that of the row
    have hn : env.libs.nextFire t r.trigger = some n := hn
    rw [(hr hrId).1] at hn
    obtain ⟨⟨hlt, hoccurs⟩, -⟩ := RoutineLibs.nextFire_spec hlaw hn
    refine ⟨?_, hoccurs⟩
    exact (RoutineLibs.nextFire_spec hlaw hfirst).2 ⟨(ht₀.trans hsince).trans_lt hlt, hoccurs⟩
  patched := fun _ _ _ hr => hr
  edited := by
    intro r r' edit t _ hne _ hedit hid
    rw [id_of_apply hedit] at hid
    exact absurd hid hne
  saved := by
    intro r old _ _ hid hne holdId
    exact absurd (hid.symm.trans holdId) hne

theorem pending_not_cron {r : Routine} {origin : Origin} {rest : List EngineTask}
    (hcalled : ∀ r origin, t = .firing r origin → origin.isCall)
    (h : t.pending = some (r, origin, rest)) (hcron : origin = .cron) :
    ∃ due, t = .tickFiring r due := by
  rcases pending_cases h with ⟨due, rfl, -, -⟩ | ⟨e, counts, matchers, -, horigin, -⟩ |
    ⟨e, triggered, -, horigin, -⟩ | ⟨rfl, -⟩
  · exact ⟨due, rfl⟩
  · cases e <;> exact absurd (horigin.symm.trans hcron) (by simp [EngineInput.origin])
  · cases e <;> exact absurd (horigin.symm.trans hcron) (by simp [EngineInput.origin])
  · rw [hcron] at hcalled
    cases hcalled r .cron rfl

theorem due_of_precedes {u : EngineTask}
    (hdue : t.isTicker → ∀ r ∈ t.copies, r.DueBy s.now) (hprecedes : Precedes env s t u)
    (hu : u.isTicker) : ∀ r ∈ u.copies, r.DueBy s.now := by
  cases u with
  | ticking due =>
    rcases hprecedes with ⟨rfl, rfl⟩ | ⟨r', rfl | rfl⟩
    · exact fun r hr => dueBy_of_listed hr
    · exact fun r hr => hdue rfl r (List.mem_cons_of_mem r' hr)
    · exact fun r hr => hdue rfl r (List.mem_cons_of_mem r' hr)
  | tickCooling r rest =>
    obtain ⟨rfl, -⟩ := hprecedes
    exact hdue rfl
  | tickCounting r rest =>
    obtain ⟨rfl, -⟩ := hprecedes
    exact hdue rfl
  | tickFiring r rest =>
    obtain ⟨rfl, -⟩ := hprecedes
    exact hdue rfl
  | listing => exact hprecedes.elim
  | dispatchedCompleting run status => exact hprecedes.elim
  | _ => cases hu

theorem ticked_of_engineStep (h : Ticked id p) (hc : OtherOccurrence id p a)
    (hstep : engineStep env p a = some p') : Ticked id p' := by
  have hcalled := onlyCalls_of_engineStep h.called hstep
  rcases engineStep_cases hstep with ⟨u, hu, rfl⟩ | ⟨now, rfl, hle, rfl⟩ |
    ⟨event, front, t, back, s', ts, rfl, htasks, hnext, rfl⟩
  · refine ⟨fun v hv hticker r hr => ?_, hcalled, h.fired, h.apart⟩
    rcases List.mem_append.mp hv with hv | hv
    · exact h.due v hv hticker r hr
    · -- what comes in has nothing at hand yet
      rw [List.mem_singleton.mp hv] at hr
      cases a <;> cases hu <;> cases hr
  · exact ⟨fun t ht hticker r hr => (h.due t ht hticker r hr).mono hle, hcalled, h.fired, h.apart⟩
  · have hmem : t ∈ p.tasks := by simp [htasks]
    have hothers : ∀ u ∈ front ++ back, u ∈ p.tasks := fun u => Pool.mem_of_split htasks
    rcases next_cases hnext with ⟨rfl, hgo⟩ | ⟨runId, r, origin, rest, rfl, hpending, -, rfl, rfl⟩ |
      ⟨status, run, rfl, rfl, hstatus, rfl, rfl⟩
    · have hshared := sharedStep_of_goNext hgo
      have hnow : s'.now = p.shared.now := now_of_sharedStep hshared
      have hfires : s'.fires = p.shared.fires := fires_of_sharedStep hshared
      refine ⟨fun v hv hticker => ?_, hcalled, ?_, ?_⟩
      · show ∀ r ∈ v.copies, r.DueBy s'.now
        rw [hnow]
        rcases mem_replaced_iff.mp hv with hv | hv
        · exact due_of_precedes (h.due t hmem) (precedes_of_goNext hgo v hv) hticker
        · exact h.due v (hothers v hv) hticker
      · show ∀ f ∈ s'.fires, _
        rw [hfires]
        exact h.fired
      · show s'.fires.Pairwise _
        rw [hfires]
        exact h.apart
    · have hfiring : origin = .cron → ∃ due, t = .tickFiring r due :=
        pending_not_cron (fun r' origin' heq => h.called r' origin' (heq ▸ hmem)) hpending
      refine ⟨fun v hv hticker => ?_, hcalled, ?_, ?_⟩
      · rcases mem_replaced_iff.mp hv with hv | hv
        · rcases mem_of_pending hpending hv with rfl | ⟨due, rfl, rfl⟩ |
            ⟨e, counts, matchers, -, rfl⟩ | ⟨e, triggered, -, rfl⟩
          · cases hticker
          · -- the rest of the routines that the tick has found
            exact fun r' hr' => h.due _ hmem rfl r' (List.mem_cons_of_mem r hr')
          · cases hticker
          · cases hticker
        · exact h.due v (hothers v hv) hticker
      · intro f hf hcron
        rcases List.mem_append.mp hf with hf | hf
        · exact h.fired f hf hcron
        · rw [List.mem_singleton.mp hf] at hcron ⊢
          obtain ⟨due, rfl⟩ := hfiring hcron
          exact h.due _ hmem rfl r List.mem_cons_self
      · refine List.pairwise_append.mpr ⟨h.apart, List.pairwise_singleton _ _, ?_⟩
        intro f hf f' hf' hid hid' hcron hcron'
        rw [List.mem_singleton.mp hf'] at hid' hcron' ⊢
        obtain ⟨due, rfl⟩ := hfiring hcron'
        exact hc _ runId r due rfl (getElem_length htasks) hid' f hf hid hcron
    · refine ⟨fun v hv hticker => ?_, hcalled, h.fired, h.apart⟩
      rcases mem_replaced_iff.mp hv with hv | hv
      · rw [List.mem_singleton.mp hv] at hticker
        cases hticker
      · exact h.due v (hothers v hv) hticker

end Steps

theorem length_le_ncard {fires : List FiredRun} {S : Set Time}
    (hapart : fires.Pairwise fun f f' => f.routine.nextFireAt ≠ f'.routine.nextFireAt)
    (hmem : ∀ f ∈ fires, ∃ n ∈ S, f.routine.nextFireAt = some n) (hS : S.Finite) :
    fires.length ≤ S.ncard := by
  have hnodup : (fires.map fun f => f.routine.nextFireAt).Nodup := List.pairwise_map.mpr hapart
  have hsub : (↑(fires.map fun f => f.routine.nextFireAt).toFinset : Set (Option Time)) ⊆
      some '' S := by
    intro o ho
    obtain ⟨f, hf, rfl⟩ := List.mem_map.mp (List.mem_toFinset.mp ho)
    obtain ⟨n, hn, heq⟩ := hmem f hf
    exact ⟨n, hn, heq.symm⟩
  have hcard := Set.ncard_le_ncard hsub (hS.image some)
  rw [Set.ncard_coe_finset, List.toFinset_card_of_nodup hnodup, List.length_map] at hcard
  exact hcard.trans (Set.ncard_image_le hS)

def onTheClock : smallLibs.Schedule → Option Text → Time → Prop :=
  fun every _ n => Every.period every ∣ n

theorem lawful_onTheClock : smallLibs.Lawful onTheClock := by
  rintro every tz t n ⟨rfl⟩
  have hpos : 0 < every.period := by cases every <;> decide
  refine ⟨⟨?_, Dvd.intro_left _ rfl⟩, ?_⟩
  · rw [Nat.mul_comm]
    exact Nat.lt_mul_div_succ t hpos
  · rintro _ ⟨hlt, k, rfl⟩
    -- a later multiple is at least the next one
    have hk : t / every.period < k :=
      (Nat.div_lt_iff_lt_mul hpos).mpr (by rwa [Nat.mul_comm] at hlt)
    rw [Nat.mul_comm]
    exact Nat.mul_le_mul_left every.period hk

def firstTick : List EngineAction :=
  [.clock anHour, .tick, .advance 0 .go, .advance 0 .go, .advance 0 .go, .advance 0 .go,
    .advance 0 (.fire 7)]

/-- The run ends at once, and is completed. A second tick comes before the run is written back. -/
def secondTick : List EngineAction :=
  [.advance 0 .go, .advance 0 .go, .advance 0 .go, .advance 0 (.finish .ok), .advance 0 .go,
    .tick, .advance 1 .go, .advance 1 .go, .advance 1 .go, .advance 1 .go, .advance 1 (.fire 8)]

end IronClaw.Routines
