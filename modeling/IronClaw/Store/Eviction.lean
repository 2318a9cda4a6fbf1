import IronClaw.Foundation.Log
import IronClaw.Store.HybridStore

/-!
# Eviction of finished threads

A load reads an evicted entry from its file. Files are written outside the lock, so a change may be
written after a later one, and a load may put back what it read before.
-/

namespace IronClaw.Store

open Engine (CapabilityLease LeaseId ThreadId)
open Foundation (Along Cache run run_invariant snoc_eq_append_cons)
open List (append_inj' mem_append mem_append_left mem_append_right mem_cons mem_cons_of_mem
  mem_cons_self singleton_inj)

def Change.step {id : ThreadId} : Change (.steps id) → Step
  | .saveStep step => step

def Change.events {id : ThreadId} : Change (.events id) → List ThreadEvent
  | .appendEvents _ events => events.1

/-- Steps and events, the last of each id, the last state, and a revocation that no save has
followed. -/
def Kept : (e : Entry) → List (Change e) → Option e.Content → Prop
  | .thread id, changes, content =>
    ∀ front state, changes = front ++ [Change.updateThreadState id state] →
      ∀ thread, content = some thread → thread.1.state = state
  | .steps _, changes, content =>
    ∀ front step back, changes.map Change.step = front ++ step :: back →
      (∀ later ∈ back, later.id ≠ step.id) → step ∈ stepsOf content
  | .events _, changes, content => ∀ event ∈ changes.flatMap Change.events, event ∈ eventsOf content
  | .lease id, changes, content => ∀ front, changes = front ++ [Change.revokeLease id] →
      ∀ lease, content = some lease → lease.1.revoked = true

/-- What at least the first `n` changes made, as if nothing was evicted, with all that was saved. -/
def Shows (s : System) (e : Entry) (n : Nat) (content : Option e.Content) : Prop :=
  ∃ m, n ≤ m ∧ m ≤ (s.shared.given e).length ∧ s.shared.after Change.apply e m = content ∧
    Kept e ((s.shared.given e).take m) content

/-- Files, answers of loads, and the leases that a restart would read show all completed changes. -/
structure Transparent (s : System) : Prop where
  files : ∀ e, Shows s e (s.shared.completed e) (s.shared.files.lookup e)
  answers : ∀ e seen answer, .loaded e seen answer ∈ s.tasks → Shows s e seen answer
  leases : ∀ id, Shows s (.lease id) (s.shared.completed (.lease id))
    ((loadStateFromWorkspace s.shared.files).lookup (.lease id))

def Agree (new events : List ThreadEvent) : Prop :=
  ∀ event ∈ new, ∀ existing ∈ events ++ new, existing.id = event.id → existing = event

def Change.Allowed : (e : Entry) → Change e → Option e.Content → Prop
  | .events _, .appendEvents _ new, content => Agree new.1 (eventsOf content)
  | _, _, _ => True

/-- A step does to the entry what it would without evictions, writes no stale file unless it is
recent, and puts back an entry as it should be. -/
def Undisturbed (s : System) (a : Action) : Prop :=
  ∀ action, a.onCache = some action → Cache.Orderly Change.apply s action ∧
    Cache.Allows Change.apply Change.Allowed s action

section Spec

variable {step s : Step} {steps : List Step} {event : ThreadEvent} {new events : List ThreadEvent}

theorem mem_overwriteStep_self (h : ∃ existing ∈ steps, existing.id = step.id) :
    step ∈ overwriteStep step steps := by
  induction steps with
  | nil =>
    obtain ⟨_, hmem, _⟩ := h
    cases hmem
  | cons first steps ih =>
    rw [overwriteStep]
    split_ifs with hfirst
    · exact mem_cons_self
    · obtain ⟨existing, hmem, hid⟩ := h
      rcases mem_cons.mp hmem with rfl | hmem
      · exact absurd hid hfirst
      · exact mem_cons_of_mem first (ih ⟨existing, hmem, hid⟩)

theorem mem_overwriteStep_of_ne (h : s ∈ steps) (hne : s.id ≠ step.id) :
    s ∈ overwriteStep step steps := by
  induction steps with
  | nil => cases h
  | cons first steps ih =>
    rw [overwriteStep]
    split_ifs with hfirst
    · rcases mem_cons.mp h with rfl | h
      · exact absurd hfirst hne
      · exact mem_cons_of_mem step h
    · rcases mem_cons.mp h with rfl | h
      · exact mem_cons_self
      · exact mem_cons_of_mem first (ih h)

theorem mem_storeStep_self : step ∈ storeStep step steps := by
  rw [storeStep]
  split_ifs with h
  · apply mem_overwriteStep_self
    simpa using h
  · rw [List.mem_insertionSort]
    exact mem_append_right steps (List.mem_singleton_self step)

theorem mem_storeStep_of_ne (h : s ∈ steps) (hne : s.id ≠ step.id) : s ∈ storeStep step steps := by
  rw [storeStep]
  split_ifs
  · exact mem_overwriteStep_of_ne h hne
  · rw [List.mem_insertionSort]
    exact mem_append_left _ h

theorem mem_appendNew_of_agree (h : Agree new events) (hevent : event ∈ events ++ new) :
    event ∈ appendNew new events := by
  rw [appendNew, List.mem_insertionSort]
  induction new generalizing events with
  | nil => simpa using hevent
  | cons first new ih =>
    rw [List.foldl_cons]
    split_ifs with hknown
    · -- the first one is there already
      obtain ⟨existing, hmem, hid⟩ : ∃ existing ∈ events, existing.id = first.id := by
        simpa using hknown
      have hfirst : existing = first :=
        h first mem_cons_self existing (mem_append_left _ hmem) hid
      refine ih (fun a ha b hb => h a (mem_cons_of_mem first ha) b ?_) ?_
      · rcases mem_append.mp hb with hb | hb
        · exact mem_append_left _ hb
        · exact mem_append_right _ (mem_cons_of_mem first hb)
      · rcases mem_append.mp hevent with hevent | hevent
        · exact mem_append_left _ hevent
        · rcases mem_cons.mp hevent with rfl | hevent
          · exact mem_append_left _ (hfirst ▸ hmem)
          · exact mem_append_right _ hevent
    · refine ih (fun a ha b hb => h a (mem_cons_of_mem first ha) b ?_) ?_
      · simpa using hb
      · simpa using hevent

end Spec

section Changes

variable {e : Entry}

theorem isSome_apply (e : Entry) (c : Change e) (content : e.Content) :
    (Change.apply e c (some content)).isSome := by
  cases c <;> rfl

theorem lookup_of_load {files : Records} {content : e.Content}
    (h : (loadStateFromWorkspace files).lookup e = some content) :
      files.lookup e = some content := by
  rw [← Option.mem_def, AList.mem_lookup_iff] at h ⊢
  exact (List.mem_filter.mp h).1

theorem lookup_load_lease (files : Records) (id : LeaseId) :
    (loadStateFromWorkspace files).lookup (.lease id) = files.lookup (.lease id) := by
  ext content
  constructor
  · exact lookup_of_load
  · intro h
    rw [← Option.mem_def, AList.mem_lookup_iff] at h
    rw [← Option.mem_def, AList.mem_lookup_iff]
    exact List.mem_filter.mpr ⟨h, rfl⟩

theorem Kept.change {changes : List (Change e)} {c : Change e} {content : Option e.Content}
    (h : Kept e changes content) (hallowed : c.Allowed e content) :
    Kept e (changes ++ [c]) (c.apply e content) := by
  cases c with
  | saveThread thread =>
    intro front state hchanges
    cases singleton_inj.mp (append_inj' hchanges rfl).2
  | updateThreadState id state =>
    intro front state' hchanges thread hthread
    cases singleton_inj.mp (append_inj' hchanges rfl).2
    obtain ⟨old, -, rfl⟩ := Option.map_eq_some_iff.mp hthread
    rfl
  | saveStep step =>
    intro front latest back hchanges hlater
    rw [List.map_append, List.map_singleton] at hchanges
    show latest ∈ storeStep step (stepsOf content)
    rcases snoc_eq_append_cons hchanges with ⟨back', hfront⟩ | ⟨-, rfl⟩
    · rw [hfront, List.append_assoc, List.cons_append] at hchanges
      have hback : back = back' ++ [step] := (List.cons.inj
        (List.append_cancel_left hchanges)).2.symm
      have hkept : latest ∈ stepsOf content := by
        refine h front latest back' hfront fun later hmem => hlater later ?_
        rw [hback]
        exact mem_append_left _ hmem
      refine mem_storeStep_of_ne hkept (Ne.symm (hlater step ?_))
      rw [hback]
      exact mem_append_right _ (List.mem_singleton_self step)
    · exact mem_storeStep_self
  | appendEvents id new =>
    intro event hevent
    have hevent : event ∈ changes.flatMap Change.events ++ new.1 := by
      simpa [List.flatMap_append, Change.events] using hevent
    apply mem_appendNew_of_agree hallowed
    rcases mem_append.mp hevent with hold | hnew
    · exact mem_append_left _ (h event hold)
    · exact mem_append_right _ hnew
  | saveLease lease =>
    intro front hchanges
    cases singleton_inj.mp (append_inj' hchanges rfl).2
  | revokeLease id =>
    intro front hchanges lease hlease
    obtain ⟨old, -, rfl⟩ := Option.map_eq_some_iff.mp hlease
    rfl

theorem kept_nil (e : Entry) (content : Option e.Content) : Kept e [] content := by
  cases e with
  | thread id =>
    intro front state h
    simp at h
  | steps id =>
    intro front step back h
    simp at h
  | events id =>
    intro event hevent
    cases hevent
  | lease id =>
    intro front h
    simp at h

end Changes

structure Coherent (s : System) : Prop where
  consistent : Cache.Consistent Change.apply s
  allowed : Cache.Allowed Change.apply Change.Allowed s.shared

variable {s s' : System} {e : Entry} {n : Nat} {content : Option e.Content}

theorem Coherent.shows (h : Coherent s) (hrecent : s.shared.Recent Change.apply e n content) :
    Shows s e n content := by
  obtain ⟨m, hm, hlength, rfl⟩ := hrecent
  refine ⟨m, hm, hlength, rfl, ?_⟩
  exact Cache.after_rule h.allowed (kept_nil e _) (fun _ _ _ hkept hc => hkept.change hc) hlength

theorem Coherent.transparent (h : Coherent s) : Transparent s where
  files e := h.shows (h.consistent.shared.files e)
  answers e seen answer hmem := h.shows (h.consistent.tasks _ hmem)
  leases id := by
    rw [lookup_load_lease]
    exact h.shows (h.consistent.shared.files (.lease id))

theorem coherent_of_step (h : Coherent s) {a : Action} (hundisturbed : Undisturbed s a)
    (hs : Store.step s a = some s') : Coherent s' := by
  obtain ⟨action, haction, hstep⟩ := Option.bind_eq_some_iff.mp hs
  obtain ⟨horderly, hallows⟩ := hundisturbed action haction
  exact ⟨Cache.consistent_of_step isSome_apply (fun _ _ _ =>
    lookup_of_load) h.consistent horderly hstep,
    Cache.allowed_of_step h.allowed hallows hstep⟩

theorem coherent_atRest (h : Cache.AtRest s) : Coherent s where
  consistent := h.consistent
  allowed := by
    intro k n c hc
    rw [h.given] at hc
    cases hc

/-- **Eviction cannot be seen in undisturbed runs**, in files, loads, and leases after a restart. -/
theorem transparent_of_undisturbed {actions : List Action} (h : Cache.AtRest s)
    (hundisturbed : Along Store.step Undisturbed s actions) (hr :
      run Store.step s actions = some s') : Transparent s' :=
  (run_invariant (fun _ _ _ hcoherent hstep hs => coherent_of_step hcoherent hstep hs)
    (coherent_atRest h) hundisturbed hr).transparent

def finishedThread : Thread := ⟨0, .done, 0, some 0, .null⟩

def plainStep (id : StepId) : Step := ⟨id, 0, id, .null⟩

def expiredLease : CapabilityLease := ⟨0, 0, [], .all, some 50, none, none, false⟩

/-- A store of a thread done at time 0 and a lease that has expired at time 50. -/
def finishedStore : System :=
  let records : Records := (AList.insert (.lease 0) ⟨expiredLease, rfl⟩ ∅ :
    Records).insert (.thread 0)
    ⟨finishedThread, rfl⟩
  ⟨⟨records, records, records, fun _ => [], fun _ => 0⟩, []⟩

def late : Reading := ⟨fun _ => 100, []⟩

theorem undisturbed_call (s : System) (c : Call) : Undisturbed s (.call c) := by
  intro action haction
  cases action with
  | run moves => exact ⟨trivial, trivial⟩
  | load e => exact ⟨trivial, trivial⟩
  | advance i reading => cases c <;> simp [Action.onCache, Call.action] at haction
  | restart => exact ⟨trivial, trivial⟩

theorem undisturbed_advance {s : System} {i : Nat} {reading : Reading}
    {t : Cache.Task Entry.Content Change Reading} (ht : s.tasks[i]? = some t)
    (horderly : s.shared.OrderlyTask Change.apply t)
    (hallowed : ∀ e c rest, t = .moves (.change e c :: rest) →
      c.Allowed e (s.shared.intended Change.apply e)) : Undisturbed s (.advance i reading) := by
  rintro action ⟨⟩
  constructor
  · intro t' ht'
    rw [ht] at ht'
    cases ht'
    exact horderly
  · intro e c rest ht'
    rw [ht] at ht'
    cases ht'
    exact hallowed e c rest rfl

/-- A step is saved and evicted. A load reads it back before the next step is saved. -/
def reloadingRun : List Action :=
  [.call (.saveStep (plainStep 1)), .advance 0 late, .advance 0 late,
    .call (.cleanupTerminalState 100 10), .advance 1 late, .advance 1 late, .advance 1 late,
    .advance 1 late,
    .call (.loadSteps 0), .advance 2 late, .advance 2 late, .advance 2 late,
    .call (.saveStep (plainStep 2)), .advance 3 late, .advance 3 late]

theorem transparent_reloadingRun :
    ∃ s, run Store.step finishedStore reloadingRun = some s ∧ Transparent s := by
  obtain ⟨s, hr⟩ : ∃ s, run Store.step finishedStore reloadingRun = some s := ⟨_, rfl⟩
  have hrest : Cache.AtRest finishedStore := ⟨rfl, fun _ _ h => h, rfl, fun _ => rfl, fun _ => rfl⟩
  refine ⟨s, hr, transparent_of_undisturbed hrest ?_ hr⟩
  -- the first step is saved
  refine .of_step rfl (undisturbed_call _ _) (.of_step rfl (undisturbed_advance rfl ?_ ?_)
    (.of_step rfl (undisturbed_advance rfl ?_ ?_) ?_))
  · rfl
  · rintro _ _ _ ⟨⟩
    trivial
  · exact .inl (by decide)
  · rintro _ _ _ ⟨⟩
  -- the cleanup drops the thread, its events and its steps
  refine .of_step rfl (undisturbed_call _ _) (.of_step rfl (undisturbed_advance rfl trivial ?_)
    (.of_step rfl (undisturbed_advance rfl trivial ?_) (.of_step rfl
      (undisturbed_advance rfl trivial ?_)
      (.of_step rfl (undisturbed_advance rfl trivial ?_) ?_))))
  iterate 4 rintro _ _ _ ⟨⟩
  -- the load reads the file
  refine .of_step rfl (undisturbed_call _ _) (.of_step rfl (undisturbed_advance rfl trivial ?_)
    (.of_step rfl (undisturbed_advance rfl trivial ?_) (.of_step rfl
      (undisturbed_advance rfl ?_ ?_) ?_)))
  · rintro _ _ _ ⟨⟩
  · rintro _ _ _ ⟨⟩
  · rfl
  · rintro _ _ _ ⟨⟩
  -- the second step is saved with the first one
  refine .of_step rfl (undisturbed_call _ _) (.of_step rfl (undisturbed_advance rfl ?_ ?_)
    (.of_step rfl (undisturbed_advance rfl ?_ ?_) trivial))
  · rfl
  · rintro _ _ _ ⟨⟩
    trivial
  · exact .inl (by decide)
  · rintro _ _ _ ⟨⟩

/-- After a cleanup steps, states and revocations are lost. Two steps are written out of order. -/
theorem evicted_records_lost : (∃ s, run Store.step finishedStore
      [.call (.saveStep (plainStep 1)), .advance 0 late, .advance 0 late,
        .call (.cleanupTerminalState 100 10), .advance 1 late, .advance 1 late, .advance 1 late,
        .advance 1 late,
        .call (.saveStep (plainStep 2)), .advance 2 late, .advance 2 late] = some s ∧
      ¬ Transparent s) ∧ (∃ s, run Store.step finishedStore
      [.call (.cleanupTerminalState 100 10), .advance 0 late, .advance 0 late,
        .call (.updateThreadState 0 .failed), .advance 1 late,
        .call (.loadThread 0), .advance 2 late, .advance 2 late, .advance 2 late] = some s ∧
      ¬ Transparent s) ∧ (∃ s, run Store.step finishedStore
      [.call (.cleanupTerminalState 0 0), .advance 0 late, .advance 0 late, .advance 0 late,
        .call (.revokeLease 0), .advance 1 late] = some s ∧ ¬ Transparent s) ∧
    ∃ s, run Store.step finishedStore
      [.call (.saveStep (plainStep 1)), .call (.saveStep (plainStep 2)), .advance 0 late,
        .advance 1 late, .advance 1 late, .advance 0 late] = some s ∧ ¬ Transparent s := by
  refine ⟨⟨_, rfl, fun h => ?_⟩, ⟨_, rfl, fun h => ?_⟩, ⟨_, rfl, fun h => ?_⟩,
    ⟨_, rfl, fun h => ?_⟩⟩
  · obtain ⟨m, hm, hlength, hvalue, -⟩ := h.files (.steps 0)
    have htwo : m = 2 := le_antisymm hlength hm
    subst htwo
    have hsteps := congrArg (fun c => (stepsOf c).length) hvalue
    exact absurd hsteps (by decide)
  · obtain ⟨m, hm, hlength, hvalue, -⟩ := h.files (.thread 0)
    have hone : m = 1 := le_antisymm hlength hm
    subst hone
    have hstate := congrArg (fun c => c.map fun thread => thread.1.state) hvalue
    exact absurd hstate (by decide)
  · obtain ⟨m, hm, hlength, hvalue, -⟩ := h.leases 0
    have hone : m = 1 := le_antisymm hlength hm
    subst hone
    have hrevoked := congrArg (fun c => c.map fun lease => lease.1.revoked) hvalue
    exact absurd hrevoked (by decide)
  · obtain ⟨m, hm, hlength, hvalue, -⟩ := h.files (.steps 0)
    have htwo : m = 2 := le_antisymm hlength hm
    subst htwo
    have hsteps := congrArg (fun c => (stepsOf c).length) hvalue
    exact absurd hsteps (by decide)

end IronClaw.Store
