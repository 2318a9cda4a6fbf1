import IronClaw.Gate.Interleaving

/-!
# A gate is resolved exactly once

Across restarts a gate should be taken at most once, and stay pending until then. So it is as long
as no persistence write overtakes an earlier one to its key.
-/

namespace IronClaw.Gate

open Foundation (Write flush run Along)
open List (count_eq_zero mem_append mem_append_right mem_cons mem_cons_of_mem mem_cons_self mem_map
  mem_singleton pairwise_append pairwise_cons)

def StoreInner.Pending (inner : StoreInner) (r : Uuid) : Prop :=
  ∃ k gate, inner.byKey.lookup k = some gate ∧ gate.requestId = r

namespace System

variable {s s' : System}

def Pending (s : System) (r : Uuid) : Prop := s.inner.Pending r

def Persisted (s : System) (r : Uuid) : Prop :=
  ∃ k gate, s.file.lookup k = some gate ∧ gate.requestId = r

/-- Gates in the maps, in the file and in calls have been inserted, under one key each. -/
structure Traced (s : System) : Prop where
  unique : ∀ r k k', .inserted r k ∈ s.trace → .inserted r k' ∈ s.trace → k = k'
  pending : ∀ k gate, s.inner.byKey.lookup k = some gate → .inserted gate.requestId k ∈ s.trace
  persisted : ∀ k gate, s.file.lookup k = some gate → .inserted gate.requestId k ∈ s.trace
  inserts : ∀ c ∈ s.inFlight, ∀ gate saved, c = .insert gate saved →
    .inserted gate.requestId gate.key ∈ s.trace
  takes : ∀ c ∈ s.inFlight, ∀ key gate removed, c = .takeVerified key gate removed →
    .inserted gate.requestId key ∈ s.trace
  replied : ∀ r, .insertOk r ∈ s.trace ∨ .takeOk r ∈ s.trace → ∃ k, .inserted r k ∈ s.trace

/-- The contents of the file once all calls in flight have persisted. -/
def settled (s : System) : PendingGateKey → Option PendingGate :=
  flush s.file.lookup s.outstanding

/-- The outstanding writes lead to the gates in the maps, up to gates that expired. -/
structure Behind (s : System) : Prop where
  pending : ∀ k gate, s.inner.byKey.lookup k = some gate →
    ∃ g, s.settled k = some g ∧ g.requestId = gate.requestId
  settled : ∀ k g, s.settled k = some g → s.inner.byKey.lookup k = none →
    .expired g.requestId ∈ s.trace

/-- A later call neither inserts a gate an earlier one inserts or takes, nor takes one an
earlier one takes. -/
def Apart (c d : InFlight) : Prop :=
  ∀ r, (c.Inserts r → ¬ d.Inserts r) ∧ (c.Takes r → ¬ d.Inserts r ∧ ¬ d.Takes r)

/-- Gates being taken are not pending, and nothing puts them back once they are off the file. -/
structure Exclusive (s : System) : Prop where
  apart : s.inFlight.Pairwise Apart
  taking : ∀ c ∈ s.inFlight, ∀ r, c.Takes r → ¬ s.Pending r
  removed : ∀ c ∈ s.inFlight, ∀ key gate, c = .takeVerified key gate true →
    ¬ s.Persisted gate.requestId ∧ ∀ d ∈ s.inFlight, ¬ d.Saves gate.requestId
  taken : ∀ r, .takeOk r ∈ s.trace →
    ¬ s.Pending r ∧ ¬ s.Persisted r ∧ ∀ c ∈ s.inFlight, ¬ c.Saves r ∧ ¬ c.Takes r
  once : ∀ r, s.trace.count (.takeOk r) ≤ 1

/-- A gate is pending from its insertion until it leaves, and persisted once the
insertion has returned. -/
structure Kept (s : System) : Prop where
  inserting : ∀ c ∈ s.inFlight, ∀ r, c.Inserts r → Left s.trace r ∨ s.Pending r
  inserted : ∀ r, .insertOk r ∈ s.trace →
    (Left s.trace r ∨ s.Pending r) ∧ ∀ c ∈ s.inFlight, ¬ c.Saves r

structure Inv (s : System) : Prop where
  traced : s.Traced
  behind : s.Behind
  exclusive : s.Exclusive
  kept : s.Kept

/-- **What the store promises**: no gate is returned twice; an inserted one is pending unless taken,
discarded or expired. -/
def ExactlyOnce (s : System) : Prop :=
  (∀ r, s.trace.count (.takeOk r) ≤ 1) ∧
    ∀ r, .insertOk r ∈ s.trace → ¬ Left s.trace r → s.Pending r

theorem Inv.exactlyOnce (h : s.Inv) : s.ExactlyOnce :=
  ⟨h.exclusive.once, fun r hr hl => (h.kept.inserted r hr).1.resolve_left hl⟩

theorem inv_init : init.Inv where
  traced := by constructor <;> simp [init, StoreInner.new, PendingGateFile.new,
    PendingGateFile.lookup]
  behind := by
    constructor <;> simp [init, StoreInner.new, settled, outstanding, PendingGateFile.new,
      PendingGateFile.lookup]
  exclusive := by constructor <;> simp [init]
  kept := by constructor <;> simp [init]

theorem mem_of_departures {es trace : List Event} (hes : ∀ e ∈ es, e.IsDeparture) {e : Event}
    (he : ¬ e.IsDeparture) (hmem : e ∈ es ++ trace) : e ∈ trace :=
  (mem_append.mp hmem).resolve_left fun h => he (hes e h)

theorem expired_departures (gates : List PendingGate) :
    ∀ e ∈ gates.map fun gate => Event.expired gate.requestId, e.IsDeparture := by
  intro e he
  obtain ⟨gate, -, rfl⟩ := mem_map.mp he
  trivial

variable {w : Write PendingGateKey PendingGate} {gate : PendingGate}

theorem write_keyed {c : InFlight} (hw : w ∈ c.todo) (hv : w.value = some gate) : w.key = gate.key ∧
      c = .insert gate false := by
  cases w with
  | put k g =>
    cases hv
    obtain ⟨hc, hk⟩ := InFlight.put_mem_todo.mp hw
    exact ⟨hk, hc⟩
  | del k => cases hv

theorem lookup_write_cases {file : PendingGateFile} {c : InFlight} (hw : w ∈ c.todo)
    {k : PendingGateKey} (h : (file.write w).lookup k = some gate) :
    (k ≠ w.key ∧ file.lookup k = some gate) ∨ (k = gate.key ∧ c = .insert gate false) := by
  rw [file.lookup_write fun g hg => (write_keyed hw hg).1] at h
  by_cases hk : k = w.key
  · subst hk
    rw [Write.apply_self] at h
    obtain ⟨hkey, hc⟩ := write_keyed hw h
    exact .inr ⟨hkey, hc⟩
  · rw [Write.apply_of_ne hk] at h
    exact .inl ⟨hk, h⟩

section Calls

variable {pre post : List InFlight} {c c' d : InFlight}

theorem mem_of_split (hsplit : s.inFlight = pre ++ c :: post) (hd : d ∈ pre ++ post) :
    d ∈ s.inFlight := by
  rw [hsplit]
  exact List.perm_middle.mem_iff.mpr (mem_cons_of_mem c hd)

theorem mem_or_eq_of_split (hsplit : s.inFlight = pre ++ c :: post) (hd : d ∈ pre ++ c' :: post) :
    d ∈ s.inFlight ∨ d = c' := by
  rcases mem_cons.mp (List.perm_middle.mem_iff.mp hd) with rfl | hd
  · exact .inr rfl
  · exact .inl (mem_of_split hsplit hd)

end Calls

theorem Traced.step (h : s.Traced) (t : Transition s s') : s'.Traced := by
  cases t with
  | skip => exact h
  | enter gate hfresh hnone =>
    constructor
    · intro r k k' hk hk'
      simp only [mem_cons, Event.inserted.injEq] at hk hk'
      rcases hk with ⟨rfl, rfl⟩ | hk <;> rcases hk' with ⟨he, rfl⟩ | hk'
      · rfl
      · exact absurd hk' (hfresh k')
      · exact absurd (he ▸ hk) (hfresh k)
      · exact h.unique r k k' hk hk'
    · intro k g hg
      rw [StoreInner.lookup_put] at hg
      split_ifs at hg with hk
      · cases hg
        rw [hk]
        exact mem_cons_self
      · exact mem_cons_of_mem _ (h.pending k g hg)
    · intro k g hg
      exact mem_cons_of_mem _ (h.persisted k g hg)
    · intro c hc g saved hcg
      rcases mem_append.mp hc with hc | hc
      · exact mem_cons_of_mem _ (h.inserts c hc g saved hcg)
      · rw [mem_singleton.mp hc] at hcg
        cases hcg
        exact mem_cons_self
    · intro c hc key g removed hcg
      rcases mem_append.mp hc with hc | hc
      · exact mem_cons_of_mem _ (h.takes c hc key g removed hcg)
      · rw [mem_singleton.mp hc] at hcg
        cases hcg
    · intro r hr
      simp only [mem_cons, reduceCtorEq, false_or] at hr
      obtain ⟨k, hk⟩ := h.replied r hr
      exact ⟨k, mem_cons_of_mem _ hk⟩
  | remove keys inner c es hlookup htodo hinserts htakes hes hleft =>
    have hold {e : Event} (he : ¬ e.IsDeparture) (hmem : e ∈ es ++ s.trace) : e ∈ s.trace :=
      mem_of_departures hes he hmem
    constructor
    · intro r k k' hk hk'
      exact h.unique r k k' (hold id hk) (hold id hk')
    · intro k g hg
      rw [hlookup] at hg
      split_ifs at hg
      exact mem_append_right _ (h.pending k g hg)
    · intro k g hg
      exact mem_append_right _ (h.persisted k g hg)
    · intro d hd g saved hdg
      rcases mem_append.mp hd with hd | hd
      · exact mem_append_right _ (h.inserts d hd g saved hdg)
      · rw [mem_singleton.mp hd] at hdg
        exact absurd ⟨g, saved, hdg, rfl⟩ (hinserts g.requestId)
    · intro d hd key g removed hdg
      rcases mem_append.mp hd with hd | hd
      · exact mem_append_right _ (h.takes d hd key g removed hdg)
      · rw [mem_singleton.mp hd] at hdg
        exact mem_append_right _ (h.pending key g (htakes key g removed hdg).2.2)
    · intro r hr
      obtain ⟨k, hk⟩ := h.replied r (hr.imp (hold id) (hold id))
      exact ⟨k, mem_append_right _ hk⟩
  | lapse key gate hsome =>
    constructor
    · intro r k k' hk hk'
      exact h.unique r k k' (by simpa using hk) (by simpa using hk')
    · intro k g hg
      rw [StoreInner.lookup_removeKey] at hg
      split_ifs at hg
      exact mem_cons_of_mem _ (h.pending k g hg)
    · intro k g hg
      exact mem_cons_of_mem _ (h.persisted k g hg)
    · intro c hc g saved hcg
      exact mem_cons_of_mem _ (h.inserts c hc g saved hcg)
    · intro c hc key g removed hcg
      exact mem_cons_of_mem _ (h.takes c hc key g removed hcg)
    · intro r hr
      obtain ⟨k, hk⟩ := h.replied r (by simpa using hr)
      exact ⟨k, mem_cons_of_mem _ hk⟩
  | write pre post c w ws hsplit htodo horder =>
    have hc : c ∈ s.inFlight := by simp [hsplit]
    refine ⟨h.unique, h.pending, ?_, ?_, ?_, h.replied⟩
    · intro k g hg
      rcases lookup_write_cases (htodo ▸ mem_cons_self) hg with ⟨-, hg⟩ | ⟨rfl, rfl⟩
      · exact h.persisted k g hg
      · exact h.inserts _ hc g false rfl
    · intro d hd g saved hdg
      rcases mem_or_eq_of_split hsplit hd with hd | rfl
      · exact h.inserts d hd g saved hdg
      · obtain ⟨g', saved', rfl, -⟩ := InFlight.inserts_advance.mp ⟨g, saved, hdg, rfl⟩
        cases hdg
        exact h.inserts _ hc g saved' rfl
    · intro d hd key g removed hdg
      rcases mem_or_eq_of_split hsplit hd with hd | rfl
      · exact h.takes d hd key g removed hdg
      · obtain ⟨key', g', removed', rfl, -⟩ := InFlight.takes_advance.mp ⟨key, g, removed, hdg, rfl⟩
        cases hdg
        exact h.takes _ hc key g removed' rfl
  | «return» pre post c hsplit htodo =>
    have hc : c ∈ s.inFlight := by simp [hsplit]
    have hold : ∀ r k, .inserted r k ∈ c.reply ++ s.trace → .inserted r k ∈ s.trace := by
      intro r k hk
      refine (mem_append.mp hk).resolve_left ?_
      cases c <;> simp [InFlight.reply]
    constructor
    · intro r k k' hk hk'
      exact h.unique r k k' (hold r k hk) (hold r k' hk')
    · intro k g hg
      exact mem_append_right _ (h.pending k g hg)
    · intro k g hg
      exact mem_append_right _ (h.persisted k g hg)
    · intro d hd g saved hdg
      exact mem_append_right _ (h.inserts d (mem_of_split hsplit hd) g saved hdg)
    · intro d hd key g removed hdg
      exact mem_append_right _ (h.takes d (mem_of_split hsplit hd) key g removed hdg)
    · intro r hr
      suffices hk : ∃ k, .inserted r k ∈ s.trace from hk.imp fun k hk => mem_append_right _ hk
      simp only [mem_append] at hr
      cases c with
      | insert gate saved =>
        by_cases hg : r = gate.requestId
        · exact ⟨gate.key, hg ▸ h.inserts _ hc gate saved rfl⟩
        · exact h.replied r (by simpa [InFlight.reply, hg] using hr)
      | takeVerified key gate removed =>
        by_cases hg : r = gate.requestId
        · exact ⟨key, hg ▸ h.takes _ hc key gate removed rfl⟩
        · exact h.replied r (by simpa [InFlight.reply, hg] using hr)
      | _ => exact h.replied r (by simpa [InFlight.reply] using hr)
  | restart clock =>
    have hold {e : Event} (he : ¬ e.IsDeparture)
        (hmem : e ∈ (s.file.expired clock).map (fun gate => Event.expired gate.requestId) ++
          s.trace) :
        e ∈ s.trace := mem_of_departures (expired_departures _) he hmem
    constructor
    · intro r k k' hk hk'
      exact h.unique r k k' (hold id hk) (hold id hk')
    · intro k g hg
      obtain ⟨g', hg', -, rfl⟩ := StoreInner.lookup_restore.mp hg
      exact mem_append_right _ (h.persisted k g' hg')
    · intro k g hg
      exact mem_append_right _ (h.persisted k g hg)
    · intro c hc
      cases hc
    · intro c hc
      cases hc
    · intro r hr
      obtain ⟨k, hk⟩ := h.replied r (hr.imp (hold id) (hold id))
      exact ⟨k, mem_append_right _ hk⟩

theorem settled_append {c : InFlight} {cs : List InFlight} (hcs : s'.inFlight = cs ++ [c])
    (hs : s.inFlight = cs) (hfile : s'.file = s.file) : s'.settled = flush s.settled c.todo := by
  rw [settled, settled, outstanding, outstanding, hcs, hs, hfile, List.flatMap_append,
    Foundation.flush_append, List.flatMap_singleton]

theorem settled_write {pre post : List InFlight} {c : InFlight}
    {ws : List (Write PendingGateKey PendingGate)} (hsplit : s.inFlight = pre ++ c :: post)
    (htodo : c.todo = w :: ws) (horder : ∀ d ∈ pre, ∀ v ∈ d.todo, v.key ≠ w.key) :
    settled { s with file := s.file.write w, inFlight := pre ++ c.advance :: post } =
      s.settled := by
  have hpre : ∀ v ∈ pre.flatMap InFlight.todo, v.key ≠ w.key := by
    intro v hv
    obtain ⟨d, hd, hv⟩ := List.mem_flatMap.mp hv
    exact horder d hd v hv
  have hw : w ∈ c.todo := htodo ▸ mem_cons_self
  simp only [settled, outstanding, hsplit, List.flatMap_append, List.flatMap_cons,
    InFlight.todo_advance, htodo, List.tail_cons, List.cons_append]
  rw [s.file.lookup_write fun g hg => (write_keyed hw hg).1, Foundation.flush_overtake hpre]

theorem Behind.step (h : s.Behind) (t : Transition s s') : s'.Behind := by
  cases t with
  | skip => exact h
  | enter gate hfresh hnone =>
    have hset : System.settled { s with
        inner := s.inner.put gate
        inFlight := s.inFlight ++ [.insert gate false]
        trace := .inserted gate.requestId gate.key :: s.trace } =
        flush s.settled (InFlight.insert gate false).todo := settled_append rfl rfl rfl
    have hset' : ∀ k, _ = if k = gate.key then some gate else s.settled k := fun k =>
      (congrFun hset k).trans (Function.update_apply ..)
    constructor
    · intro k g hg
      rw [StoreInner.lookup_put] at hg
      rw [hset']
      split_ifs at hg ⊢ with hk
      · exact ⟨gate, rfl, by cases hg; rfl⟩
      · exact h.pending k g hg
    · intro k g hg hk
      rw [StoreInner.lookup_put] at hk
      rw [hset'] at hg
      split_ifs at hg hk with hkey
      exact mem_cons_of_mem _ (h.settled k g hg hk)
  | remove keys inner c es hlookup htodo hinserts htakes hes hleft =>
    have hset : System.settled { s with
        inner := inner, inFlight := s.inFlight ++ [c], trace := es ++ s.trace } =
        flush s.settled c.todo := settled_append rfl rfl rfl
    have hset' : ∀ k, _ = if k ∈ keys then none else s.settled k := fun k =>
      (congrFun hset k).trans (htodo ▸ Foundation.flush_map_del ..)
    constructor
    · intro k g hg
      rw [hlookup] at hg
      rw [hset']
      split_ifs at hg ⊢
      exact h.pending k g hg
    · intro k g hg hk
      rw [hlookup] at hk
      rw [hset'] at hg
      split_ifs at hg hk
      exact mem_append_right _ (h.settled k g hg hk)
  | lapse key gate hsome =>
    constructor
    · intro k g hg
      rw [StoreInner.lookup_removeKey] at hg
      split_ifs at hg
      exact h.pending k g hg
    · intro k g hg hk
      rw [StoreInner.lookup_removeKey] at hk
      by_cases hkey : k = key
      · subst hkey
        obtain ⟨g', hg', hr⟩ := h.pending k gate hsome
        have he : g = g' := Option.some.inj (hg.symm.trans hg')
        rw [he, hr]
        exact mem_cons_self
      · rw [if_neg hkey] at hk
        exact mem_cons_of_mem _ (h.settled k g hg hk)
  | write pre post c w ws hsplit htodo horder =>
    have hset := settled_write hsplit htodo horder
    exact ⟨fun k g hg => hset ▸ h.pending k g hg, fun k g hg hk => h.settled k g (hset ▸ hg) hk⟩
  | «return» pre post c hsplit htodo =>
    have hset : System.settled { s with inFlight := pre ++ post, trace := c.reply ++ s.trace } =
        s.settled := by
      simp [System.settled, outstanding, hsplit, htodo]
    exact ⟨fun k g hg => hset ▸ h.pending k g hg,
      fun k g hg hk => mem_append_right _ (h.settled k g (hset ▸ hg) hk)⟩
  | restart clock =>
    -- nothing is outstanding after a restart
    constructor
    · intro k g hg
      obtain ⟨g', hg', -, rfl⟩ := StoreInner.lookup_restore.mp hg
      exact ⟨g', hg', rfl⟩
    · intro k g hg hk
      replace hg : s.file.lookup k = some g := hg
      obtain ⟨hmem, hkey⟩ := PendingGateFile.lookup_eq_some.mp hg
      have hexp : g.isExpired (clock k) = true := by
        by_contra hne
        rw [StoreInner.lookup_restore.mpr ⟨g, hg, by simpa using hne, rfl⟩] at hk
        cases hk
      refine List.mem_append_left _ (mem_map.mpr ⟨g, ?_, rfl⟩)
      rw [PendingGateFile.expired, List.mem_filter, hkey]
      exact ⟨hmem, hexp⟩

theorem Traced.of_inserts (h : s.Traced) {c : InFlight} (hc : c ∈ s.inFlight) {r : Uuid}
    (hr : c.Inserts r) : ∃ k, .inserted r k ∈ s.trace := by
  obtain ⟨gate, saved, rfl, rfl⟩ := hr
  exact ⟨gate.key, h.inserts _ hc gate saved rfl⟩

theorem Traced.of_takes (h : s.Traced) {c : InFlight} (hc : c ∈ s.inFlight) {r : Uuid}
    (hr : c.Takes r) : ∃ k, .inserted r k ∈ s.trace := by
  obtain ⟨key, gate, removed, rfl, rfl⟩ := hr
  exact ⟨key, h.takes _ hc key gate removed rfl⟩

theorem pending_put {inner : StoreInner} {r : Uuid} (h : (inner.put gate).Pending r) :
    r = gate.requestId ∨ inner.Pending r := by
  obtain ⟨k, g, hg, rfl⟩ := h
  rw [StoreInner.lookup_put] at hg
  split_ifs at hg
  · cases hg
    exact .inl rfl
  · exact .inr ⟨k, g, hg, rfl⟩

theorem pending_put_self (inner : StoreInner) (gate : PendingGate) :
    (inner.put gate).Pending gate.requestId :=
  ⟨gate.key, gate, by rw [StoreInner.lookup_put, if_pos rfl], rfl⟩

theorem pending_put_of_none {inner : StoreInner} {r : Uuid}
    (hnone : inner.byKey.lookup gate.key = none) (h : inner.Pending r) :
    (inner.put gate).Pending r := by
  obtain ⟨k, g, hg, rfl⟩ := h
  have hk : k ≠ gate.key := by
    rintro rfl
    rw [hnone] at hg
    cases hg
  exact ⟨k, g, by rwa [StoreInner.lookup_put, if_neg hk], rfl⟩

section Removal

variable {inner inner' : StoreInner} {keys : List PendingGateKey} {r : Uuid}
  (hlookup : ∀ k, inner'.byKey.lookup k = if k ∈ keys then none else inner.byKey.lookup k)

include hlookup

theorem pending_of_removal (h : inner'.Pending r) : inner.Pending r := by
  obtain ⟨k, g, hg, rfl⟩ := h
  rw [hlookup] at hg
  split_ifs at hg
  exact ⟨k, g, hg, rfl⟩

theorem left_or_pending_of_removal {es : List Event}
    (hleft : ∀ k ∈ keys, ∀ gate, inner.byKey.lookup k = some gate → Left es gate.requestId)
    (h : inner.Pending r) : Left es r ∨ inner'.Pending r := by
  obtain ⟨k, g, hg, rfl⟩ := h
  by_cases hk : k ∈ keys
  · exact .inl (hleft k hk g hg)
  · exact .inr ⟨k, g, by rwa [hlookup, if_neg hk], rfl⟩

end Removal

theorem lookup_removeKey_singleton (inner : StoreInner) (key k : PendingGateKey) :
    (inner.removeKey key).byKey.lookup k = if k ∈ [key] then none else inner.byKey.lookup k := by
  simp [StoreInner.lookup_removeKey]

theorem persisted_of_restored {clock : PendingGateKey → Time} {r : Uuid}
    (h : (StoreInner.restore clock s.file.gates .new).Pending r) : s.Persisted r := by
  obtain ⟨k, g, hg, rfl⟩ := h
  obtain ⟨g', hg', -, rfl⟩ := StoreInner.lookup_restore.mp hg
  exact ⟨k, g', hg', rfl⟩

theorem apart_advance_left {c d : InFlight} : Apart c.advance d ↔ Apart c d := by
  simp only [Apart, InFlight.inserts_advance, InFlight.takes_advance]

theorem apart_advance_right {c d : InFlight} : Apart c d.advance ↔ Apart c d := by
  simp only [Apart, InFlight.inserts_advance, InFlight.takes_advance]

theorem Exclusive.enter (h : s.Exclusive) (ht : s.Traced)
    (hfresh : ∀ k, .inserted gate.requestId k ∉ s.trace) :
    Exclusive { s with
      inner := s.inner.put gate
      inFlight := s.inFlight ++ [.insert gate false]
      trace := .inserted gate.requestId gate.key :: s.trace } := by
  have hins : ∀ c ∈ s.inFlight, ¬ c.Inserts gate.requestId := fun c hc hr =>
    (ht.of_inserts hc hr).elim hfresh
  have htak : ∀ c ∈ s.inFlight, ¬ c.Takes gate.requestId := fun c hc hr =>
    (ht.of_takes hc hr).elim hfresh
  have hnew : ∀ {c}, c ∈ s.inFlight ++ [.insert gate false] →
      c ∈ s.inFlight ∨ c = .insert gate false := by simp
  constructor
  · refine pairwise_append.mpr ⟨h.apart, List.pairwise_singleton .., ?_⟩
    intro c hc d hd r
    rw [mem_singleton.mp hd]
    refine ⟨?_, fun hr => ⟨?_, by simp [InFlight.Takes]⟩⟩
    · rintro hr ⟨g, saved, ⟨⟩, rfl⟩
      exact hins c hc hr
    · rintro ⟨g, saved, ⟨⟩, rfl⟩
      exact htak c hc hr
  · intro c hc r hr hp
    rcases hnew hc with hc | rfl
    · rcases pending_put hp with rfl | hp
      · exact htak c hc hr
      · exact h.taking c hc r hr hp
    · obtain ⟨key, g, removed, ⟨⟩, -⟩ := hr
  · intro c hc key g hcg
    rcases hnew hc with hc | rfl
    · refine ⟨(h.removed c hc key g hcg).1, fun d hd hs => ?_⟩
      rcases hnew hd with hd | rfl
      · exact (h.removed c hc key g hcg).2 d hd hs
      · obtain ⟨g', ⟨⟩, hr⟩ := hs
        exact htak c hc ⟨key, g, true, hcg, hr.symm⟩
    · cases hcg
  · intro r hr
    replace hr : .takeOk r ∈ s.trace := by simpa using hr
    have hne : r ≠ gate.requestId := by
      rintro rfl
      exact (ht.replied _ (.inr hr)).elim hfresh
    obtain ⟨hp, hf, hc⟩ := h.taken r hr
    refine ⟨fun hp' => (pending_put hp').elim hne hp, hf, fun c hc' => ?_⟩
    rcases hnew hc' with hc' | rfl
    · exact hc c hc'
    · refine ⟨?_, by simp [InFlight.Takes]⟩
      rintro ⟨g, ⟨⟩, rfl⟩
      exact hne rfl
  · intro r
    simpa using h.once r

theorem count_takeOk_departures {es trace : List Event} (hes : ∀ e ∈ es, e.IsDeparture) (r : Uuid) :
    (es ++ trace).count (.takeOk r) = trace.count (.takeOk r) := by
  rw [List.count_append, count_eq_zero.mpr fun h => hes (.takeOk r) h, Nat.zero_add]

theorem Exclusive.remove (h : s.Exclusive) (ht : s.Traced) {keys : List PendingGateKey}
    {inner : StoreInner} {c : InFlight} {es : List Event}
    (hlookup : ∀ k, inner.byKey.lookup k = if k ∈ keys then none else s.inner.byKey.lookup k)
    (hinserts : ∀ r, ¬ c.Inserts r)
    (htakes : ∀ key gate removed, c = .takeVerified key gate removed →
      removed = false ∧ key ∈ keys ∧ s.inner.byKey.lookup key = some gate)
    (hes : ∀ e ∈ es, e.IsDeparture) :
    Exclusive { s with inner := inner, inFlight := s.inFlight ++ [c], trace := es ++ s.trace } := by
  have hnew : ∀ {d}, d ∈ s.inFlight ++ [c] → d ∈ s.inFlight ∨ d = c := by simp
  -- what the call takes was pending
  have hwas : ∀ r, c.Takes r → s.Pending r := by
    rintro r ⟨key, gate, removed, hc, rfl⟩
    exact ⟨key, gate, (htakes key gate removed hc).2.2, rfl⟩
  constructor
  · refine pairwise_append.mpr ⟨h.apart, List.pairwise_singleton .., ?_⟩
    intro d hd c' hc' r
    rw [mem_singleton.mp hc']
    exact ⟨fun _ => hinserts r, fun hr => ⟨hinserts r, fun hr' => h.taking d hd r hr (hwas r hr')⟩⟩
  · intro d hd r hr hp
    rcases hnew hd with hd | rfl
    · exact h.taking d hd r hr (pending_of_removal hlookup hp)
    · obtain ⟨key, gate, removed, hc, rfl⟩ := hr
      obtain ⟨-, hkey, hsome⟩ := htakes key gate removed hc
      obtain ⟨k, g, hg, hgr⟩ := hp
      rw [hlookup] at hg
      split_ifs at hg with hk
      have he : k = key := ht.unique _ k key (hgr ▸ ht.pending k g hg) (ht.pending key gate hsome)
      exact hk (he ▸ hkey)
  · intro d hd key gate hdg
    rcases hnew hd with hd | rfl
    · refine ⟨(h.removed d hd key gate hdg).1, fun d' hd' hs => ?_⟩
      rcases hnew hd' with hd' | rfl
      · exact (h.removed d hd key gate hdg).2 d' hd' hs
      · exact hinserts _ hs.inserts
    · cases (htakes key gate true hdg).1
  · intro r hr
    obtain ⟨hp, hf, hc⟩ := h.taken r (mem_of_departures hes id hr)
    refine ⟨fun hp' => hp (pending_of_removal hlookup hp'), hf, fun d hd => ?_⟩
    rcases hnew hd with hd | rfl
    · exact hc d hd
    · exact ⟨fun hs => hinserts r hs.inserts, fun hr' => hp (hwas r hr')⟩
  · intro r
    rw [count_takeOk_departures hes]
    exact h.once r

theorem Exclusive.write (h : s.Exclusive) (ht : s.Traced) {pre post : List InFlight} {c : InFlight}
    {ws : List (Write PendingGateKey PendingGate)} (hsplit : s.inFlight = pre ++ c :: post)
    (htodo : c.todo = w :: ws) (horder : ∀ d ∈ pre, ∀ v ∈ d.todo, v.key ≠ w.key) :
    Exclusive { s with file := s.file.write w, inFlight := pre ++ c.advance :: post } := by
  have hc : c ∈ s.inFlight := by simp [hsplit]
  have hw : w ∈ c.todo := htodo ▸ mem_cons_self
  have hnew : ∀ {d}, d ∈ pre ++ c.advance :: post → d ∈ s.inFlight ∨ d = c.advance :=
    mem_or_eq_of_split hsplit
  -- what is persisted now was persisted, or the call was saving it
  have hwas : ∀ r, Persisted { s with file := s.file.write w } r → s.Persisted r ∨ c.Saves r := by
    rintro r ⟨k, g, hg, rfl⟩
    rcases lookup_write_cases hw hg with ⟨-, hg⟩ | ⟨-, hcg⟩
    · exact .inl ⟨k, g, hg, rfl⟩
    · exact .inr ⟨g, hcg, rfl⟩
  constructor
  · have hp := h.apart
    rw [hsplit] at hp
    simp only [pairwise_append, pairwise_cons, mem_cons, forall_eq_or_imp,
      apart_advance_left, apart_advance_right] at hp ⊢
    exact hp
  · intro d hd r hr
    rcases hnew hd with hd | rfl
    · exact h.taking d hd r hr
    · exact h.taking c hc r (InFlight.takes_advance.mp hr)
  · intro d hd key gate hdg
    rcases hnew hd with hd' | rfl
    · obtain ⟨hf, hs⟩ := h.removed d hd' key gate hdg
      refine ⟨fun hp => (hwas _ hp).elim hf (hs c hc), fun d' hd' hs' => ?_⟩
      rcases hnew hd' with hd' | rfl
      · exact hs d' hd' hs'
      · exact InFlight.not_saves_advance hs'
    · -- this write removes the gate the call takes
      have htk : c.Takes gate.requestId :=
        InFlight.takes_advance.mp ⟨key, gate, true, hdg, rfl⟩
      obtain ⟨key', gate', removed, rfl, -⟩ := htk
      cases hdg
      have hkey := ht.takes _ hc key gate removed rfl
      have hdel : w = .del key := by
        cases removed
        · cases htodo
          rfl
        · cases htodo
      subst hdel
      refine ⟨?_, fun d hd' hs => ?_⟩
      · rintro ⟨k, g, hg, hr⟩
        rcases lookup_write_cases hw hg with ⟨hk, hg⟩ | ⟨-, hcg⟩
        · exact hk (ht.unique _ k key (hr ▸ ht.persisted k g hg) hkey)
        · cases hcg
      · have hap := h.apart
        rw [hsplit, pairwise_append, pairwise_cons] at hap
        rcases mem_append.mp hd' with hpre | hpost
        · -- an earlier save has the same key, and has not been made
          obtain ⟨g, rfl, hr⟩ := hs
          have hins := ht.inserts _ (by simp [hsplit, hpre]) g false rfl
          exact horder _ hpre (.put g.key g) (InFlight.put_mem_todo.mpr ⟨rfl, rfl⟩)
            (ht.unique _ _ _ (hr ▸ hins) hkey)
        · rcases mem_cons.mp hpost with rfl | hpost
          · exact InFlight.not_saves_advance hs
          · exact ((hap.2.1.1 d hpost _).2 ⟨key, gate, removed, rfl, rfl⟩).1 hs.inserts
  · intro r hr
    obtain ⟨hp, hf, hcs⟩ := h.taken r hr
    refine ⟨hp, fun hp' => (hwas r hp').elim hf (hcs c hc).1, fun d hd => ?_⟩
    rcases hnew hd with hd | rfl
    · exact hcs d hd
    · exact ⟨InFlight.not_saves_advance, fun hr' =>
        (hcs c hc).2 (InFlight.takes_advance.mp hr')⟩
  · exact h.once

theorem Exclusive.return (h : s.Exclusive) {pre post : List InFlight} {c : InFlight}
    (hsplit : s.inFlight = pre ++ c :: post) (htodo : c.todo = []) :
    Exclusive { s with inFlight := pre ++ post, trace := c.reply ++ s.trace } := by
  have hc : c ∈ s.inFlight := by simp [hsplit]
  have hsub : ∀ d ∈ pre ++ post, d ∈ s.inFlight := fun d hd => mem_of_split hsplit hd
  have hap := h.apart
  rw [hsplit, pairwise_append, pairwise_cons] at hap
  -- a reply to a take is the first one about its gate
  have hreply : ∀ r, .takeOk r ∈ c.reply → c.Takes r ∧ c.reply = [.takeOk r] ∧
      ∃ key gate, c = .takeVerified key gate true ∧ gate.requestId = r := by
    intro r hr
    cases c with
    | takeVerified key gate removed =>
      simp only [InFlight.reply, mem_singleton, Event.takeOk.injEq] at hr
      subst hr
      cases removed
      · cases htodo
      · exact ⟨⟨key, gate, true, rfl, rfl⟩, rfl, key, gate, rfl, rfl⟩
    | _ => simp [InFlight.reply] at hr
  constructor
  · exact pairwise_append.mpr ⟨hap.1, hap.2.1.2, fun d hd d' hd' =>
      hap.2.2 d hd d' (mem_cons_of_mem _ hd')⟩
  · intro d hd
    exact h.taking d (hsub d hd)
  · intro d hd key gate hdg
    obtain ⟨hf, hs⟩ := h.removed d (hsub d hd) key gate hdg
    exact ⟨hf, fun d' hd' => hs d' (hsub d' hd')⟩
  · intro r hr
    rcases mem_append.mp hr with hr | hr
    · obtain ⟨htk, -, key, gate, hcg, rfl⟩ := hreply r hr
      obtain ⟨hf, hs⟩ := h.removed c hc key gate hcg
      refine ⟨h.taking c hc _ htk, hf, fun d hd => ⟨hs d (hsub d hd), fun hd' => ?_⟩⟩
      rcases mem_append.mp hd with hpre | hpost
      · exact ((hap.2.2 d hpre c mem_cons_self _).2 hd').2 htk
      · exact ((hap.2.1.1 d hpost _).2 htk).2 hd'
    · obtain ⟨hp, hf, hcs⟩ := h.taken r hr
      exact ⟨hp, hf, fun d hd => hcs d (hsub d hd)⟩
  · intro r
    rw [List.count_append]
    by_cases hr : .takeOk r ∈ c.reply
    · obtain ⟨htk, hone, -⟩ := hreply r hr
      have hzero : s.trace.count (.takeOk r) = 0 :=
        count_eq_zero.mpr fun hmem => ((h.taken r hmem).2.2 c hc).2 htk
      rw [hone, hzero]
      simp
    · rw [count_eq_zero.mpr hr, Nat.zero_add]
      exact h.once r

theorem Exclusive.restart (h : s.Exclusive) (clock : PendingGateKey → Time) :
    Exclusive
      { inner := .restore clock s.file.gates .new
        file := s.file
        inFlight := []
        trace := (s.file.expired clock).map (fun gate => .expired gate.requestId) ++ s.trace } := by
  constructor
  · exact List.Pairwise.nil
  · simp
  · simp
  · intro r hr
    obtain ⟨-, hf, -⟩ := h.taken r (mem_of_departures (expired_departures _) id hr)
    exact ⟨fun hp => hf (persisted_of_restored hp), hf, by simp⟩
  · intro r
    rw [count_takeOk_departures (expired_departures _)]
    exact h.once r

theorem Exclusive.step (h : s.Exclusive) (ht : s.Traced) (t : Transition s s') : s'.Exclusive := by
  cases t with
  | skip => exact h
  | enter gate hfresh hnone => exact h.enter ht hfresh
  | remove keys inner c es hlookup htodo hinserts htakes hes hleft =>
    exact h.remove ht hlookup hinserts htakes hes
  | lapse key gate hsome =>
    refine ⟨h.apart, fun c hc r hr hp => ?_, h.removed, fun r hr => ?_, fun r => ?_⟩
    · exact h.taking c hc r hr (pending_of_removal (lookup_removeKey_singleton _ _) hp)
    · obtain ⟨hp, hrest⟩ := h.taken r (by simpa using hr)
      exact ⟨fun hp' => hp (pending_of_removal (lookup_removeKey_singleton _ _) hp'), hrest⟩
    · simpa using h.once r
  | write pre post c w ws hsplit htodo horder => exact h.write ht hsplit htodo horder
  | «return» pre post c hsplit htodo => exact h.return hsplit htodo
  | restart clock => exact h.restart clock

theorem Kept.restart (h : s.Kept) (hb : s.Behind) (clock : PendingGateKey → Time) :
    Kept
      { inner := .restore clock s.file.gates .new
        file := s.file
        inFlight := []
        trace := (s.file.expired clock).map (fun gate => .expired gate.requestId) ++ s.trace } := by
  refine ⟨by simp, fun r hr => ⟨?_, by simp⟩⟩
  obtain ⟨hkept, hsaved⟩ := h.inserted r (mem_of_departures (expired_departures _) id hr)
  rcases hkept with hl | ⟨k, g, hg, rfl⟩
  · exact .inl (hl.append _)
  · -- nobody is about to save the pending gate, so it is persisted
    obtain ⟨g', hg', hr'⟩ := hb.pending k g hg
    have hfile : s.file.lookup k = some g' := by
      rcases Foundation.flush_eq_some hg' with hput | ⟨-, hlook⟩
      · obtain ⟨c, hc, hput⟩ := List.mem_flatMap.mp hput
        exact absurd ⟨g', (InFlight.put_mem_todo.mp hput).1, hr'⟩ (hsaved c hc)
      · exact hlook
    obtain ⟨hmem, hkey⟩ := PendingGateFile.lookup_eq_some.mp hfile
    by_cases he : g'.isExpired (clock k) = true
    · refine .inl (.inr (.inr (List.mem_append_left _ (mem_map.mpr ⟨g', ?_, by rw [hr']⟩))))
      rw [PendingGateFile.expired, List.mem_filter, hkey]
      exact ⟨hmem, he⟩
    · exact .inr ⟨k, g'.rehydrated,
        StoreInner.lookup_restore.mpr ⟨g', hfile, by simpa using he, rfl⟩, hr'⟩

theorem Kept.step (h : s.Kept) (ht : s.Traced) (hb : s.Behind) (he : s.Exclusive)
    (t : Transition s s') : s'.Kept := by
  cases t with
  | skip => exact h
  | enter gate hfresh hnone =>
    have hmono : ∀ r, Left s.trace r ∨ s.Pending r →
        Left (.inserted gate.requestId gate.key :: s.trace) r ∨ (s.inner.put gate).Pending r :=
      fun r => Or.imp (fun hl => hl.append [_]) (pending_put_of_none hnone)
    constructor
    · intro c hc r hr
      rcases mem_append.mp hc with hc | hc
      · exact hmono r (h.inserting c hc r hr)
      · rw [mem_singleton.mp hc] at hr
        obtain ⟨g, saved, ⟨⟩, rfl⟩ := hr
        exact .inr (pending_put_self _ gate)
    · intro r hr
      replace hr : .insertOk r ∈ s.trace := by simpa using hr
      obtain ⟨hkept, hsaved⟩ := h.inserted r hr
      refine ⟨hmono r hkept, fun c hc hs => ?_⟩
      rcases mem_append.mp hc with hc | hc
      · exact hsaved c hc hs
      · rw [mem_singleton.mp hc] at hs
        obtain ⟨g, ⟨⟩, rfl⟩ := hs
        exact (ht.replied _ (.inl hr)).elim hfresh
  | remove keys inner c es hlookup htodo hinserts htakes hes hleft =>
    have hmono : ∀ r, Left s.trace r ∨ s.Pending r → Left (es ++ s.trace) r ∨ inner.Pending r := by
      rintro r (hl | hp)
      · exact .inl (hl.append es)
      · refine (left_or_pending_of_removal hlookup hleft hp).imp_left fun hl => ?_
        simp only [Left, mem_append] at hl ⊢
        tauto
    constructor
    · intro d hd r hr
      rcases mem_append.mp hd with hd | hd
      · exact hmono r (h.inserting d hd r hr)
      · rw [mem_singleton.mp hd] at hr
        exact absurd hr (hinserts r)
    · intro r hr
      obtain ⟨hkept, hsaved⟩ := h.inserted r (mem_of_departures hes id hr)
      refine ⟨hmono r hkept, fun d hd hs => ?_⟩
      rcases mem_append.mp hd with hd | hd
      · exact hsaved d hd hs
      · rw [mem_singleton.mp hd] at hs
        exact hinserts r hs.inserts
  | lapse key gate hsome =>
    have hleft : ∀ k ∈ [key], ∀ g, s.inner.byKey.lookup k = some g →
        Left [.expired gate.requestId] g.requestId := by
      intro k hk g hg
      rw [mem_singleton.mp hk, hsome] at hg
      cases hg
      simp [Left]
    have hmono : ∀ r, Left s.trace r ∨ s.Pending r →
        Left (.expired gate.requestId :: s.trace) r ∨ (s.inner.removeKey key).Pending r := by
      rintro r (hl | hp)
      · exact .inl (hl.append [_])
      · refine (left_or_pending_of_removal (lookup_removeKey_singleton _ key) hleft hp).imp_left
          fun hl => ?_
        simp only [Left, mem_cons, List.not_mem_nil, or_false] at hl ⊢
        tauto
    refine ⟨fun c hc r hr => hmono r (h.inserting c hc r hr), fun r hr => ?_⟩
    obtain ⟨hkept, hsaved⟩ := h.inserted r (by simpa using hr)
    exact ⟨hmono r hkept, hsaved⟩
  | write pre post c w ws hsplit htodo horder =>
    have hc : c ∈ s.inFlight := by simp [hsplit]
    have hnew : ∀ {d}, d ∈ pre ++ c.advance :: post → d ∈ s.inFlight ∨ d = c.advance :=
      mem_or_eq_of_split hsplit
    constructor
    · intro d hd r hr
      rcases hnew hd with hd | rfl
      · exact h.inserting d hd r hr
      · exact h.inserting c hc r (InFlight.inserts_advance.mp hr)
    · intro r hr
      obtain ⟨hkept, hsaved⟩ := h.inserted r hr
      refine ⟨hkept, fun d hd hs => ?_⟩
      rcases hnew hd with hd | rfl
      · exact hsaved d hd hs
      · exact InFlight.not_saves_advance hs
  | «return» pre post c hsplit htodo =>
    have hc : c ∈ s.inFlight := by simp [hsplit]
    have hsub : ∀ d ∈ pre ++ post, d ∈ s.inFlight := fun d hd => mem_of_split hsplit hd
    have hap := he.apart
    rw [hsplit, pairwise_append, pairwise_cons] at hap
    constructor
    · intro d hd r hr
      exact (h.inserting d (hsub d hd) r hr).imp_left fun hl => hl.append _
    · intro r hr
      rcases mem_append.mp hr with hr | hr
      · -- the insertion that returns has no rival
        have hins : c.Inserts r := by
          cases c with
          | insert gate saved =>
            simp only [InFlight.reply, mem_singleton, Event.insertOk.injEq] at hr
            exact ⟨gate, saved, rfl, hr.symm⟩
          | _ => simp [InFlight.reply] at hr
        refine ⟨(h.inserting c hc r hins).imp_left fun hl => hl.append _, fun d hd hs => ?_⟩
        rcases mem_append.mp hd with hpre | hpost
        · exact (hap.2.2 d hpre c mem_cons_self r).1 hs.inserts hins
        · exact (hap.2.1.1 d hpost r).1 hins hs.inserts
      · obtain ⟨hkept, hsaved⟩ := h.inserted r hr
        exact ⟨hkept.imp_left fun hl => hl.append _, fun d hd => hsaved d (hsub d hd)⟩
  | restart clock => exact h.restart hb clock

theorem Inv.step (h : s.Inv) (t : Transition s s') : s'.Inv where
  traced := h.traced.step t
  behind := h.behind.step t
  exclusive := h.exclusive.step h.traced t
  kept := h.kept.step h.traced h.behind h.exclusive t

end System

/-- **Exactly once, across restarts**, if no write overtakes an earlier one to its key. -/
theorem exactlyOnce_of_inOrder {as : List Action} {s : System}
    (horder : Along step System.InOrder .init as) (hrun : run step .init as = some s) :
    s.ExactlyOnce := by
  have hinv : s.Inv := Foundation.run_invariant (I := System.Inv)
    (fun s a s' hs ho h => hs.step (step_transition ho h)) System.inv_init horder hrun
  exact hinv.exactlyOnce

/-! ## Writes out of order

The gate of thread 1 is inserted and taken. Its removal is persisted before its save in the
first run below. In the second one the next gate of the thread is saved before the removal. -/

def sampleGate (requestId : Uuid) : PendingGate where
  requestId := requestId
  userId := "user1"
  threadId := 1
  sourceChannel := "telegram"
  actionName := "shell"
  expiresAt := 300
  approvalAlreadyGranted := false

def sampleTake (requestId : Uuid) : Action :=
  .takeVerified 0 (sampleGate requestId).key requestId "telegram"

def sequentialRun : List Action :=
  [.insert (sampleGate 1), .persist 0, .reply 0, sampleTake 1, .persist 0, .reply 0,
    .insert (sampleGate 2), .persist 0, .reply 0, .restart fun _ => 0]

theorem exactlyOnce_sequentialRun :
    ∃ s, run step .init sequentialRun = some s ∧ s.trace.count (.takeOk 1) = 1 ∧
      .insertOk 2 ∈ s.trace ∧ s.ExactlyOnce := by
  obtain ⟨s, hs⟩ : ∃ s, run step .init sequentialRun = some s :=
    Option.isSome_iff_exists.mp (by decide)
  have horder : Along step System.InOrder .init sequentialRun := by
    refine Along.of_forall_mem (fun a ha s => ?_) _
    simp only [sequentialRun, sampleTake, mem_cons, List.not_mem_nil, or_false] at ha
    rcases ha with rfl | rfl | rfl | rfl | rfl | rfl | rfl | rfl | rfl | rfl <;>
      simp [System.InOrder]
  have htrace : ((run step .init sequentialRun).map fun s => s.trace) = some s.trace :=
    congrArg _ hs
  have htrace' : s.trace = [.insertOk 2, .inserted 2 (sampleGate 2).key, .takeOk 1, .taken 1,
      .insertOk 1, .inserted 1 (sampleGate 1).key] :=
    Option.some.inj (htrace.symm.trans (by decide))
  exact ⟨s, hs, htrace' ▸ by decide, htrace' ▸ by decide, exactlyOnce_of_inOrder horder hs⟩

def resurrectingRun : List Action :=
  [.insert (sampleGate 1), sampleTake 1, .persist 1, .reply 1, .persist 0, .restart fun _ => 0,
    sampleTake 1, .persist 0, .reply 0]

/-- The next gate's save is persisted before the removal of the one taken. -/
def losingRun : List Action :=
  [.insert (sampleGate 1), .persist 0, .reply 0, sampleTake 1, .insert (sampleGate 2), .persist 1,
    .reply 1, .persist 0, .reply 0, .restart fun _ => 0]

theorem resurrectingRun_trace :
    ((run step .init resurrectingRun).map fun s => s.trace.count (.takeOk 1)) = some 2 := by
  decide

theorem losingRun_state :
    ((run step .init losingRun).map fun s => (s.trace, s.inner.byKey.entries)) =
      some ([.takeOk 1, .insertOk 2, .inserted 2 (sampleGate 2).key, .taken 1, .insertOk 1,
        .inserted 1 (sampleGate 1).key], []) := by
  decide

/-- One run returns a gate twice, and another loses a gate whose insertion returned. -/
theorem not_exactlyOnce_out_of_order :
    (∃ s, run step .init resurrectingRun = some s ∧ 1 < s.trace.count (.takeOk 1)) ∧
      ∃ s, run step .init losingRun = some s ∧ .insertOk 2 ∈ s.trace ∧ ¬ Left s.trace 2 ∧
        ¬ s.Pending 2 := by
  constructor
  · obtain ⟨s, hs, hcount⟩ := Option.map_eq_some_iff.mp resurrectingRun_trace
    exact ⟨s, hs, by omega⟩
  · obtain ⟨s, hs, hstate⟩ := Option.map_eq_some_iff.mp losingRun_state
    obtain ⟨htrace, hentries⟩ := Prod.mk.inj hstate
    refine ⟨s, hs, by rw [htrace]; decide, by rw [htrace]; simp [Left], ?_⟩
    rintro ⟨k, gate, hg, -⟩
    have hmem := AList.mem_lookup_iff.mp hg
    rw [hentries] at hmem
    cases hmem

end IronClaw.Gate
