import IronClaw.Routines.Copies
import IronClaw.Routines.Steps

/-!
# The event cache

Messages and events are matched against copies of the routines, which a refresh replaces later: they
start what the database shows, as long as none puts back something older.
-/

namespace IronClaw.Routines

open Foundation (Along Pool run run_invariant)
open List (map_cons mem_append mem_cons mem_singleton)

namespace EngineTask

def refreshes : EngineTask → Option Uuid
  | refreshing author | replacing author _ => author
  | _ => none

def reads : EngineTask → Bool
  | counting _ _ | checking _ _ _ _ | emitting _ _ _ _ => true
  | _ => false

def eventCopies : EngineTask → List Routine
  | counting _ matchers => matchers.map EventMatcher.routine
  | checking _ _ rest triggered => rest.map EventMatcher.routine ++ triggered
  | emitting _ _ r rest => r :: rest.map EventMatcher.routine
  | triggering _ triggered => triggered
  | _ => []

end EngineTask

/-- No change of a routine waits for the refresh that follows it. -/
def Settled (tasks : List EngineTask) (id : Uuid) : Prop := ∀ t ∈ tasks, t.refreshes ≠ some id

/-- The database has the routine enabled, with the trigger of the copy. -/
def Shown (s : EngineShared) (r : Routine) : Prop :=
  ∃ row, s.routines.lookup r.id = some row ∧ row.enabled = true ∧ row.trigger = r.trigger

/-- What a message or a system event is about to start is shown, if it is settled. -/
def EventsFollow (p : EnginePool) : Prop :=
  ∀ t ∈ p.tasks, ∀ r origin rest, t.pending = some (r, origin, rest) → origin ≠ .cron →
    origin.isCall = false → Settled p.tasks r.id → Shown p.shared r

/-- A refresh shows its routines and those selected before, up to those whose changes wait for
another refresh. -/
def RefreshCurrent (p : EnginePool) (a : EngineAction) : Prop :=
  ∀ i author cache, a = .advance i .go → p.tasks[i]? = some (.replacing author cache) →
    ∀ r, (r ∈ cache.map EventMatcher.routine ∨
      ∃ e triggered, .triggering e triggered ∈ p.tasks ∧ r ∈ triggered) →
    Settled (p.others i) r.id → Shown p.shared r

/-- What cache and inputs have of settled routines is shown, and the lock counts its holders. -/
structure CacheShown (p : EnginePool) : Prop where
  calls : OnlyCalls p
  locks : p.shared.cacheReaders = p.tasks.countP EngineTask.reads
  cached : ∀ m ∈ p.shared.eventCache, Settled p.tasks m.routine.id → Shown p.shared m.routine
  chosen : ∀ t ∈ p.tasks, ∀ r ∈ t.eventCopies, Settled p.tasks r.id → Shown p.shared r

section Steps

variable {env : RoutineEnv} {s s' : EngineShared} {p p' : EnginePool} {a : EngineAction}
  {t : EngineTask} {ts front back : List EngineTask} {r : Routine} {id : Uuid}

theorem Settled.of_subset {tasks tasks' : List EngineTask} (h : Settled tasks id)
    (hsub : tasks' ⊆ tasks) : Settled tasks' id :=
  fun t ht => h t (hsub ht)

theorem settled_before (hgo : EngineTask.goNext env s t = some (s', ts))
    (ht : ∀ author cache, t ≠ .replacing author cache) (h : Settled (front ++ ts ++ back) id) :
    Settled (front ++ t :: back) id := by
  intro u hu
  rcases Pool.mem_split_iff.mp hu with rfl | hu
  · cases u with
    | refreshing author =>
      -- the refresh goes on with the same author
      cases hgo
      exact h (.replacing author (buildCache env.libs s.listEventRoutines)) (by simp)
    | replacing author cache => exact absurd rfl (ht author cache)
    | _ => simp [EngineTask.refreshes]
  · exact h u (mem_replaced_iff.mpr (.inr hu))

theorem shown_of_goNext (hgo : EngineTask.goNext env s t = some (s', ts))
    (hsettled : Settled ts r.id) (h : Shown s r) : Shown s' r := by
  obtain ⟨row, hrow, henabled, htrigger⟩ := h
  cases sharedStep_of_goNext hgo with
  | written r' status lastRunAt nextFireAt =>
    have hrow' := s.lookup_updateRoutineRuntime r'.id lastRunAt nextFireAt (r'.runCount + 1)
      (failuresAfter r'.consecutiveFailures status) r.id
    rw [hrow] at hrow'
    split_ifs at hrow'
    · exact ⟨_, hrow', henabled, htrigger⟩
    · exact ⟨row, hrow', henabled, htrigger⟩
  | saved r' =>
    cases hgo
    refine ⟨row, ?_, henabled, htrigger⟩
    rw [EngineShared.lookup_updateRoutine, if_neg, hrow]
    rintro heq
    exact hsettled _ (List.mem_singleton_self _) (congrArg some heq.symm)
  | deleted id =>
    cases hgo
    refine ⟨row, ?_, henabled, htrigger⟩
    rw [RoutineTable.lookup_erase, if_neg, hrow]
    rintro heq
    exact hsettled _ (List.mem_singleton_self _) (congrArg some heq.symm)
  | _ => exact ⟨row, hrow, henabled, htrigger⟩

theorem mem_eventCopies_of_precedes {u : EngineTask} (h : Precedes env s t u)
    (hr : r ∈ u.eventCopies) : r ∈ t.eventCopies ∨ ∃ m ∈ s.eventCache, r = m.routine := by
  cases u with
  | counting e matchers =>
    obtain ⟨rfl, rfl⟩ := h
    obtain ⟨m, hm, rfl⟩ := List.mem_map.mp hr
    exact .inr ⟨m, hm, rfl⟩
  | checking e counts rest triggered =>
    left
    rcases h with ⟨rfl, -, rfl⟩ | ⟨m, chosen, rfl, rfl | ⟨-, -, rfl⟩⟩
    · simpa [EngineTask.eventCopies] using hr
    · exact List.mem_cons_of_mem _ hr
    · simp only [EngineTask.eventCopies, mem_append, map_cons, mem_cons,
        List.not_mem_nil, or_false] at hr ⊢
      tauto
  | emitting e counts r' rest =>
    obtain ⟨m, triggered, rfl, -, -, rfl⟩ := h
    left
    simp only [EngineTask.eventCopies, mem_append, map_cons, mem_cons] at hr ⊢
    tauto
  | triggering e triggered =>
    obtain ⟨counts, rfl, -⟩ := h
    exact .inl hr
  | _ => cases hr

theorem mem_eventCopies_of_pending {r' : Routine} {origin : Origin} {rest : List EngineTask}
    {f : FiredRun} {u : EngineTask} (h : t.pending = some (r', origin, rest))
    (hu : u ∈ rest ++ [.recording f]) (hr : r ∈ u.eventCopies) : r ∈ t.eventCopies := by
  rcases mem_of_pending h hu with rfl | ⟨due, -, rfl⟩ | ⟨e, counts, matchers, rfl, rfl⟩ |
    ⟨e, triggered, rfl, rfl⟩
  · cases hr
  · cases hr
  · refine List.mem_cons_of_mem r' ?_
    simpa [EngineTask.eventCopies] using hr
  · exact List.mem_cons_of_mem r' hr

theorem readers_of_goNext (hgo : EngineTask.goNext env s t = some (s', ts))
    (harriving : ∀ e, t ≠ .arriving e) (hreads : t.reads = false) :
    s'.cacheReaders = s.cacheReaders ∧ ts.countP EngineTask.reads = 0 := by
  constructor
  · cases sharedStep_of_goNext hgo with
    | locked e => exact absurd rfl (harriving e)
    | unlocked e counts triggered => cases hreads
    | _ => rfl
  · rw [List.countP_eq_zero]
    intro u hu hlocked
    have hprecedes := precedes_of_goNext hgo u hu
    cases u with
    | counting e matchers => exact harriving e hprecedes.1
    | checking e counts rest triggered =>
      rcases hprecedes with ⟨rfl, -⟩ | ⟨m, chosen, rfl, -⟩ <;> cases hreads
    | emitting e counts r rest =>
      obtain ⟨m, triggered, rfl, -⟩ := hprecedes
      cases hreads
    | _ => cases hlocked

theorem locks_of_goNext (hgo : EngineTask.goNext env s t = some (s', ts))
    (hlocked : t.reads → 0 < s.cacheReaders) :
    s'.cacheReaders + (if t.reads then 1 else 0) = s.cacheReaders + ts.countP EngineTask.reads := by
  cases t with
  | arriving e =>
    simp only [EngineTask.goNext] at hgo
    split_ifs at hgo <;> cases hgo <;> simp [EngineTask.reads]
  | counting e matchers =>
    cases hgo
    simp [EngineTask.reads]
  | checking e counts rest triggered =>
    cases rest with
    | nil =>
      have hpos : 0 < s.cacheReaders := hlocked rfl
      cases hgo
      have hleft : (if e.isMessage then [EngineTask.triggering e triggered] else []).countP
          EngineTask.reads = 0 := by
        split_ifs <;> rfl
      rw [hleft]
      show s.cacheReaders - 1 + 1 = s.cacheReaders + 0
      omega
    | cons m rest =>
      simp only [EngineTask.goNext, EngineTask.checkNext] at hgo
      split_ifs at hgo <;> cases hgo <;> simp [EngineTask.reads]
  | emitting e counts r rest => cases hgo
  | _ =>
    obtain ⟨hreaders, hleft⟩ := readers_of_goNext hgo (by simp) rfl
    rw [hreaders, hleft]
    rfl

theorem reads_of_pending {r : Routine} {origin : Origin} {rest : List EngineTask} {f : FiredRun}
    (h : t.pending = some (r, origin, rest)) :
    (rest ++ [EngineTask.recording f]).countP EngineTask.reads = if t.reads then 1 else 0 := by
  rcases pending_cases h with ⟨due, rfl, -, rfl⟩ | ⟨e, counts, matchers, rfl, -, rfl⟩ |
    ⟨e, triggered, rfl, -, rfl⟩ | ⟨rfl, rfl⟩ <;> rfl

theorem cacheShown_of_replacing (h : CacheShown p) {author : Option Uuid}
    {cache : List EventMatcher} (htasks : p.tasks = front ++ .replacing author cache :: back)
    (hreaders : p.shared.cacheReaders = 0)
    (hcurrent : ∀ r, (r ∈ cache.map EventMatcher.routine ∨
      ∃ e triggered, .triggering e triggered ∈ p.tasks ∧ r ∈ triggered) →
      Settled (front ++ back) r.id → Shown p.shared r) :
    CacheShown ⟨{ p.shared with eventCache := cache }, front ++ back⟩ := by
  have hothers : ∀ u ∈ front ++ back, u ∈ p.tasks := fun u => Pool.mem_of_split htasks
  have hnone : p.tasks.countP EngineTask.reads = 0 := h.locks ▸ hreaders
  refine ⟨fun r origin hmem => h.calls r origin (hothers _ hmem), ?_, ?_, ?_⟩
  · rw [htasks] at hnone
    simp only [List.countP_append, List.countP_cons] at hnone ⊢
    show p.shared.cacheReaders = _
    omega
  · exact fun m hm hsettled => hcurrent m.routine (.inl (List.mem_map_of_mem hm)) hsettled
  · intro u hu r hr hsettled
    -- nobody holds the lock, so only messages have selected something
    have hreads : ¬ u.reads := List.countP_eq_zero.mp hnone u (hothers u hu)
    cases u with
    | triggering e triggered => exact hcurrent r (.inr ⟨e, triggered, hothers _ hu, hr⟩) hsettled
    | counting e matchers => exact absurd rfl hreads
    | checking e counts rest triggered => exact absurd rfl hreads
    | emitting e counts r rest => exact absurd rfl hreads
    | _ => cases hr

theorem cacheShown_of_goNext (h : CacheShown p) (htasks : p.tasks = front ++ t :: back)
    (hgo : EngineTask.goNext env p.shared t = some (s', ts))
    (ht : ∀ author cache, t ≠ .replacing author cache)
    (hcalls : OnlyCalls ⟨s', front ++ ts ++ back⟩) : CacheShown ⟨s', front ++ ts ++ back⟩ := by
  have hmem : t ∈ p.tasks := by simp [htasks]
  have hbefore : ∀ {id}, Settled (front ++ ts ++ back) id → Settled p.tasks id := by
    intro id hsettled
    rw [htasks]
    exact settled_before hgo ht hsettled
  have hshown : ∀ {r : Routine}, Settled (front ++ ts ++ back) r.id → Shown p.shared r →
      Shown s' r := fun hsettled =>
    shown_of_goNext hgo (hsettled.of_subset fun u hu => mem_replaced_iff.mpr (.inl hu))
  refine ⟨hcalls, ?_, fun m hm hsettled => ?_, fun u hu r hr hsettled => ?_⟩
  · have hcount := countP_replace EngineTask.reads front t ts back
    have hlocked : t.reads → 0 < p.shared.cacheReaders := by
      intro hreads
      rw [h.locks]
      exact List.countP_pos_iff.mpr ⟨t, hmem, hreads⟩
    have hlocks := locks_of_goNext hgo hlocked
    rw [← htasks, ← h.locks] at hcount
    show s'.cacheReaders = (front ++ ts ++ back).countP EngineTask.reads
    omega
  · -- a patched copy has the name and the trigger that it had
    have hcached : ∃ old ∈ p.shared.eventCache, old.routine.id = m.routine.id ∧
        old.routine.trigger = m.routine.trigger := by
      have hm : m ∈ s'.eventCache := hm
      cases sharedStep_of_goNext hgo with
      | patched id lastRunAt runCount failures hreaders =>
        rcases mem_patchCache hm with hm | ⟨old, hold, rfl⟩
        · exact ⟨m, hm, rfl, rfl⟩
        · refine ⟨old, hold, ?_, ?_⟩ <;> rw [routine_mapRoutine]
      | replaced author cache hreaders => exact absurd rfl (ht author cache)
      | _ => exact ⟨m, hm, rfl, rfl⟩
    obtain ⟨old, hold, hid, htrigger⟩ := hcached
    have hold' := h.cached old hold (hbefore (hid ▸ hsettled))
    rw [Shown, hid, htrigger] at hold'
    exact hshown hsettled hold'
  · refine hshown hsettled ?_
    rcases mem_replaced_iff.mp hu with hu | hu
    · rcases mem_eventCopies_of_precedes (precedes_of_goNext hgo u hu) hr with hr | ⟨m, hm, rfl⟩
      · exact h.chosen t hmem r hr (hbefore hsettled)
      · exact h.cached m hm (hbefore hsettled)
    · exact h.chosen u (Pool.mem_of_split htasks hu) r hr (hbefore hsettled)

theorem cacheShown_of_kept (h : CacheShown p) (htasks : p.tasks = front ++ t :: back)
    (hroutines : s'.routines = p.shared.routines) (hcache : s'.eventCache = p.shared.eventCache)
    (hreaders : s'.cacheReaders = p.shared.cacheReaders) (ht : t.refreshes = none)
    (hreads : ts.countP EngineTask.reads = if t.reads then 1 else 0)
    (hcopies : ∀ u ∈ ts, ∀ r ∈ u.eventCopies, r ∈ t.eventCopies)
    (hcalls : OnlyCalls ⟨s', front ++ ts ++ back⟩) : CacheShown ⟨s', front ++ ts ++ back⟩ := by
  have hmem : t ∈ p.tasks := by simp [htasks]
  have hbefore : ∀ {id}, Settled (front ++ ts ++ back) id → Settled p.tasks id := by
    intro id hsettled u hu
    rw [htasks] at hu
    rcases Pool.mem_split_iff.mp hu with rfl | hu
    · simp [ht]
    · exact hsettled u (mem_replaced_iff.mpr (.inr hu))
  have hshown : ∀ {r : Routine}, Shown p.shared r → Shown s' r := by
    intro r hr
    rw [Shown, hroutines]
    exact hr
  refine ⟨hcalls, ?_, fun m hm hsettled => ?_, fun u hu r hr hsettled => hshown ?_⟩
  · have hcount := countP_replace EngineTask.reads front t ts back
    rw [← htasks, ← h.locks, hreads] at hcount
    show s'.cacheReaders = (front ++ ts ++ back).countP EngineTask.reads
    omega
  · exact hshown (h.cached m (hcache ▸ hm) (hbefore hsettled))
  · rcases mem_replaced_iff.mp hu with hu | hu
    · exact h.chosen t hmem r (hcopies u hu r hr) (hbefore hsettled)
    · exact h.chosen u (Pool.mem_of_split htasks hu) r hr (hbefore hsettled)

theorem cacheShown_of_engineStep (h : CacheShown p) (hcurrent : RefreshCurrent p a)
    (hstep : engineStep env p a = some p') : CacheShown p' := by
  have hcalls := onlyCalls_of_engineStep h.calls hstep
  rcases engineStep_cases hstep with ⟨u, hu, rfl⟩ | ⟨now, rfl, -, rfl⟩ |
    ⟨event, front, t, back, s', ts, rfl, htasks, hnext, rfl⟩
  · have hkept : ∀ {id}, Settled (p.tasks ++ [u]) id → Settled p.tasks id := fun hsettled =>
      hsettled.of_subset (List.subset_append_left _ _)
    have hreads : u.reads = false := by cases a <;> cases hu <;> rfl
    have hcopies : u.eventCopies = [] := by cases a <;> cases hu <;> rfl
    refine ⟨hcalls, ?_, fun m hm hsettled => h.cached m hm (hkept hsettled), ?_⟩
    · rw [Pool.start, List.countP_append, List.countP_singleton, hreads]
      exact h.locks
    · intro v hv r hr hsettled
      rcases mem_append.mp hv with hv | hv
      · exact h.chosen v hv r hr (hkept hsettled)
      · rw [mem_singleton.mp hv, hcopies] at hr
        cases hr
  · exact ⟨hcalls, h.locks, h.cached, h.chosen⟩
  · have hmem : t ∈ p.tasks := by simp [htasks]
    have hget := getElem_length htasks
    rcases next_cases hnext with ⟨rfl, hgo⟩ | ⟨runId, r, origin, rest, rfl, hpending, -, rfl, rfl⟩ |
      ⟨status, run, rfl, rfl, hstatus, rfl, rfl⟩
    · by_cases ht : ∃ author cache, t = .replacing author cache
      · obtain ⟨author, cache, rfl⟩ := ht
        simp only [EngineTask.goNext] at hgo
        split_ifs at hgo with hreaders
        cases hgo
        have hcur := hcurrent _ author cache rfl hget
        rw [Pool.others_eq htasks rfl] at hcur
        rw [List.append_nil]
        exact cacheShown_of_replacing h htasks hreaders hcur
      · exact cacheShown_of_goNext h htasks hgo (fun author cache heq => ht ⟨author, cache, heq⟩)
          hcalls
    · have hrefreshes : t.refreshes = none := by
        rcases pending_cases hpending with ⟨due, rfl, -⟩ | ⟨e, counts, matchers, rfl, -⟩ |
          ⟨e, triggered, rfl, -⟩ | ⟨rfl, -⟩ <;> rfl
      exact cacheShown_of_kept h htasks rfl rfl rfl hrefreshes (reads_of_pending hpending)
        (fun u hu r hr => mem_eventCopies_of_pending hpending hu hr) hcalls
    · refine cacheShown_of_kept h htasks rfl rfl rfl rfl rfl (fun u hu r hr => ?_) hcalls
      rw [mem_singleton.mp hu] at hr
      cases hr

theorem eventsFollow_of_cacheShown (h : CacheShown p) : EventsFollow p := by
  intro t ht r origin rest hpending hcron hcall hsettled
  rcases pending_cases hpending with ⟨due, rfl, rfl, -⟩ | ⟨e, counts, matchers, rfl, -, -⟩ |
    ⟨e, triggered, rfl, -, -⟩ | ⟨rfl, -⟩
  · exact absurd rfl hcron
  · exact h.chosen _ ht r List.mem_cons_self hsettled
  · exact h.chosen _ ht r List.mem_cons_self hsettled
  · rw [h.calls r origin ht] at hcall
    cases hcall

end Steps

def deployRoutine : Routine := freshRoutine "user1" (.event none "deploy".toList) none

def deployEngine : EnginePool := .boot 0 (.single deployRoutine) []

def oneMessage : List EngineAction :=
  [.refresh, .advance 0 .go, .advance 0 .go,
    .input (.message "user1" "cli".toList "deploy now".toList),
    .advance 0 .go, .advance 0 .go, .advance 0 .go, .advance 0 .go]

/-- A refresh has read the database when the author disables the routine, and is put in place last.
-/
def slowRefresh : List EngineAction :=
  [.refresh, .advance 0 .go,
    .edit 1 (.toggle (some false)), .advance 1 .go, .advance 1 .go, .advance 1 .go,
    .advance 1 .go, .advance 1 .go,
    .advance 0 .go,
    .input (.message "user1" "cli".toList "deploy now".toList),
    .advance 0 .go, .advance 0 .go, .advance 0 .go, .advance 0 .go, .advance 0 (.fire 7)]

end IronClaw.Routines
