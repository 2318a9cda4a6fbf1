import IronClaw.Foundation.Run
import IronClaw.Gate.Store

/-!
# The request ids of pending gates

Besides the gates by key, the store keeps the key of each request id. All operations keep the maps
inverse, except for a restore that meets a pending gate under its key.
-/

namespace IronClaw.Gate

open Foundation (HashMap Along Throughout run)
open List (mem_cons_of_mem mem_cons_self mem_map)

namespace StoreInner

/-- A request id maps to a key exactly when the gate under that key has this request id. -/
def Inverse (inner : StoreInner) : Prop :=
  ∀ r k, inner.byRequestId.lookup r = some k ↔
    ∃ gate, inner.byKey.lookup k = some gate ∧ gate.requestId = r

variable {inner : StoreInner} {gate : PendingGate} {key : PendingGateKey} {gates : List PendingGate}
  {clock : PendingGateKey → Time}

theorem inverse_new : new.Inverse := by
  intro r k
  simp [new]

theorem Inverse.put (h : inner.Inverse)
    (hkey : ∀ g, inner.byKey.lookup gate.key = some g → g.requestId = gate.requestId)
    (hother : ∀ k g, inner.byKey.lookup k = some g → g.requestId = gate.requestId → k = gate.key) :
    (inner.put gate).Inverse := by
  intro r k
  rw [lookup_put]
  simp only [StoreInner.put, HashMap.lookup_insert]
  by_cases hk : k = gate.key
  · by_cases hr : r = gate.requestId
    · simp [hk, hr]
    · rw [if_neg hr, if_pos hk, h r k]
      constructor
      · rintro ⟨g, hg, hgr⟩
        exact absurd (hgr.symm.trans (hkey g (hk ▸ hg))) hr
      · rintro ⟨g, hg, hgr⟩
        cases hg
        exact absurd hgr.symm hr
  · by_cases hr : r = gate.requestId
    · rw [if_pos hr, if_neg hk]
      constructor
      · intro heq
        exact absurd (Option.some.inj heq).symm hk
      · rintro ⟨g, hg, hgr⟩
        exact absurd (hother k g hg (hgr.trans hr)) hk
    · rw [if_neg hr, if_neg hk, h r k]

theorem Inverse.removeKey (h : inner.Inverse) (key : PendingGateKey) :
    (inner.removeKey key).Inverse := by
  unfold StoreInner.removeKey
  split
  · exact h
  · rename_i gate hgate
    intro r k
    simp only [HashMap.lookup_erase]
    have hrid : inner.byRequestId.lookup gate.requestId = some key := (h _ _).mpr ⟨gate, hgate, rfl⟩
    by_cases hk : k = key
    · by_cases hr : r = gate.requestId
      · simp [hk, hr]
      · rw [if_neg hr, if_pos hk, h r k, hk, hgate]
        constructor
        · rintro ⟨g, hg, hgr⟩
          cases hg
          exact absurd hgr.symm hr
        · rintro ⟨g, hg, -⟩
          cases hg
    · by_cases hr : r = gate.requestId
      · rw [if_pos hr, if_neg hk]
        constructor
        · intro heq
          cases heq
        · rintro ⟨g, hg, hgr⟩
          have hmapped := (h r k).mpr ⟨g, hg, hgr⟩
          rw [hr, hrid] at hmapped
          exact absurd (Option.some.inj hmapped).symm hk
      · rw [if_neg hr, if_neg hk, h r k]

theorem Inverse.removeKeys (h : inner.Inverse) (keys : List PendingGateKey) :
    (StoreInner.removeKeys keys inner).2.Inverse := by
  induction keys generalizing inner with
  | nil => exact h
  | cons key keys ih =>
    unfold StoreInner.removeKeys
    split
    · exact ih h
    · exact ih (h.removeKey key)

/-- The same request id is never in use for two keys. -/
def Distinct (inner : StoreInner) (gates : List PendingGate) : Prop :=
  ∀ g ∈ gates, ∀ k g', inner.byKey.lookup k = some g' → g'.requestId = g.requestId → k = g.key

def FindsOwn (clock : PendingGateKey → Time) (gates : List PendingGate) (inner : StoreInner) :
    Prop :=
  ∀ g ∈ gates, g.isExpired (clock g.key) = false →
    ∀ g', inner.byKey.lookup g.key = some g' → g'.requestId = g.requestId

theorem lookup_byRequestId_restore {r : Uuid} (h : ∀ g ∈ gates, g.requestId ≠ r) :
    (restore clock gates inner).byRequestId.lookup r = inner.byRequestId.lookup r := by
  induction gates generalizing inner with
  | nil => rfl
  | cons g gates ih =>
    rw [restore, List.foldl_cons, ← restore, ih fun g' hg' => h g' (mem_cons_of_mem g hg')]
    split_ifs
    · rfl
    · simp only [StoreInner.put, HashMap.lookup_insert, PendingGate.rehydrated_requestId]
      exact if_neg (h g mem_cons_self).symm

theorem Inverse.restore (h : inner.Inverse) (hkeys : (gates.map PendingGate.key).Nodup)
    (hids : (gates.map PendingGate.requestId).Nodup) (hdistinct : inner.Distinct gates)
    (hown : inner.FindsOwn clock gates) : (StoreInner.restore clock gates inner).Inverse := by
  induction gates generalizing inner with
  | nil => exact h
  | cons g gates ih =>
    rw [List.map_cons, List.nodup_cons] at hkeys hids
    have hmem : g ∈ g :: gates := mem_cons_self
    rw [StoreInner.restore, List.foldl_cons, ← StoreInner.restore]
    split_ifs with hexpired
    · exact ih h hkeys.2 hids.2 (fun g' hg' => hdistinct g' (mem_cons_of_mem g hg'))
        fun g' hg' => hown g' (mem_cons_of_mem g hg')
    · refine ih ?_ hkeys.2 hids.2 ?_ ?_
      · refine h.put (hown g hmem (by simpa using hexpired)) fun k g' hg' hr => ?_
        exact hdistinct g hmem k g' hg' hr
      · intro g' hg' k g'' hg'' hr
        rw [lookup_put] at hg''
        split_ifs at hg'' with hk
        · cases hg''
          exact absurd (mem_map.mpr ⟨g', hg', hr.symm⟩) hids.1
        · exact hdistinct g' (mem_cons_of_mem g hg') k g'' hg'' hr
      · intro g' hg' hopen g'' hg''
        have hne : g'.key ≠ g.key := fun he => hkeys.1 (mem_map.mpr ⟨g', hg', he⟩)
        rw [lookup_put, PendingGate.rehydrated_key, if_neg hne] at hg''
        exact hown g' (mem_cons_of_mem g hg') hopen g'' hg''

theorem inverse_restore_iff (h : inner.Inverse) (hkeys : (gates.map PendingGate.key).Nodup)
    (hids : (gates.map PendingGate.requestId).Nodup) (hdistinct : inner.Distinct gates) :
    (StoreInner.restore clock gates inner).Inverse ↔ inner.FindsOwn clock gates := by
  refine ⟨fun hinverse g hg hopen g' hg' => ?_, h.restore hkeys hids hdistinct⟩
  by_contra hne
  -- the request id that is left behind is not that of a restored gate
  have hleft : ∀ g₁ ∈ gates, g₁.requestId ≠ g'.requestId := by
    intro g₁ hg₁ hr
    have hkey : g.key = g₁.key := hdistinct g₁ hg₁ g.key g' hg' hr.symm
    have heq : g = g₁ := List.inj_on_of_nodup_map hkeys hg hg₁ hkey
    exact hne (heq ▸ hr.symm)
  have hmapped : (StoreInner.restore clock gates inner).byRequestId.lookup g'.requestId =
      some g.key := by
    rw [lookup_byRequestId_restore hleft]
    exact (h _ _).mpr ⟨g', hg', rfl⟩
  obtain ⟨g₂, hg₂, hr₂⟩ := (hinverse _ _).mp hmapped
  rcases (lookup_restore_from clock hkeys inner g.key g₂).mp hg₂ with
    ⟨g₁, hg₁, -, -, rfl⟩ | ⟨hexpired, -⟩
  · exact hleft g₁ hg₁ hr₂
  · rw [hexpired g hg rfl] at hopen
    cases hopen

end StoreInner

structure GateHost where
  inner : StoreInner
  file : PendingGateFile

/-- A call, with the clock it reads and whether its access to the persisted gates succeeds. -/
inductive StoreCall where
  | insert (gate : PendingGate) (persisted : Bool)
  | takeVerified (now : Time) (key : PendingGateKey) (requestId : Uuid) (respondingChannel : String)
      (persisted : Bool)
  | discard (key : PendingGateKey) (persisted : Bool)
  | discardForThread (threadId : ThreadId) (persisted : PendingGateKey → Bool)
  | expireStale (clock : PendingGateKey → Time) (persisted : PendingGateKey → Bool)
  | restoreFromPersistence (clock : PendingGateKey → Time) (loaded : Bool)

def StoreCall.gates : StoreCall → List PendingGate
  | insert gate _ => [gate]
  | _ => []

namespace PendingGateFile

variable (file : PendingGateFile)

def saveIf (persisted : Bool) (gate : PendingGate) : PendingGateFile :=
  if persisted then file.save gate else file

def removeIf (persisted : Bool) (key : PendingGateKey) : PendingGateFile :=
  if persisted then file.remove key else file

def removeAll (persisted : PendingGateKey → Bool) (keys : List PendingGateKey) : PendingGateFile :=
  keys.foldl (fun file key => file.removeIf (persisted key) key) file

end PendingGateFile

/-- One call. What is written comes after the lock is released; failing undoes nothing. -/
def perform (host : GateHost) : StoreCall → Option GateHost
  | .insert gate persisted =>
    match host.inner.insert gate with
    | .error _ => some host
    | .ok inner => some ⟨inner, host.file.saveIf persisted gate⟩
  | .takeVerified now key requestId respondingChannel persisted =>
    match host.inner.takeVerified now key requestId respondingChannel with
    | (.error _, inner) => some ⟨inner, host.file⟩
    | (.ok _, inner) => some ⟨inner, host.file.removeIf persisted key⟩
  | .discard key persisted =>
    match host.inner.discard key with
    | .error _ => some host
    | .ok (_, inner) => some ⟨inner, host.file.removeIf persisted key⟩
  | .discardForThread threadId persisted =>
    some ⟨(host.inner.discardForThread threadId).2,
      host.file.removeAll persisted (host.inner.keysOfThread threadId)⟩
  | .expireStale clock persisted =>
    some ⟨(host.inner.expireStale clock).2,
      host.file.removeAll persisted (host.inner.expiredKeys clock)⟩
  | .restoreFromPersistence clock loaded =>
    some (if loaded then ⟨host.inner.restore clock host.file.gates, host.file⟩ else host)

/-- No gate that a restore enters finds a pending one with another request id under its key. -/
def Undisturbed (host : GateHost) : StoreCall → Prop
  | .restoreFromPersistence clock loaded =>
    loaded = true → host.inner.FindsOwn clock host.file.gates
  | _ => True

structure Knows (known : List PendingGate) (host : GateHost) : Prop where
  pending : ∀ k g, host.inner.byKey.lookup k = some g →
    ∃ g' ∈ known, g'.requestId = g.requestId ∧ g'.key = k
  persisted : ∀ g ∈ host.file.gates, g ∈ known

section Perform

variable {host host' : GateHost} {call : StoreCall} {calls : List StoreCall}
  {known : List PendingGate} {file : PendingGateFile} {gate g : PendingGate} {key : PendingGateKey}
  {inner inner' : StoreInner}

theorem PendingGateFile.mem_saveIf {persisted : Bool} (h : g ∈ (file.saveIf persisted gate).gates) :
    g ∈ file.gates ∨ g = gate := by
  unfold saveIf at h
  split_ifs at h
  · rcases List.mem_append.mp h with h | h
    · exact .inl (List.mem_of_mem_filter h)
    · exact .inr (List.mem_singleton.mp h)
  · exact .inl h

theorem PendingGateFile.mem_removeIf {persisted : Bool}
    (h : g ∈ (file.removeIf persisted key).gates) : g ∈ file.gates := by
  unfold removeIf at h
  split_ifs at h
  · exact List.mem_of_mem_filter h
  · exact h

theorem PendingGateFile.mem_removeAll {persisted : PendingGateKey → Bool}
    {keys : List PendingGateKey} (h : g ∈ (file.removeAll persisted keys).gates) :
    g ∈ file.gates := by
  induction keys generalizing file with
  | nil => exact h
  | cons key keys ih => exact mem_removeIf (ih h)

theorem lookup_of_removeKeys {k : PendingGateKey} {keys : List PendingGateKey}
    (h : (StoreInner.removeKeys keys inner).2.byKey.lookup k = some g) :
    inner.byKey.lookup k = some g := by
  rw [StoreInner.lookup_removeKeys] at h
  split_ifs at h
  exact h

theorem perform_cases (h : perform host call = some host')
    (hrestore : ∀ clock, call ≠ .restoreFromPersistence clock true) :
    (∃ gate, call.gates = [gate] ∧ host.inner.byKey.lookup gate.key = none ∧
      host'.inner = host.inner.put gate ∧ ∀ g ∈ host'.file.gates, g ∈ host.file.gates ∨ g = gate) ∨
    ((∃ keys, host'.inner = (StoreInner.removeKeys keys host.inner).2) ∧
      ∀ g ∈ host'.file.gates, g ∈ host.file.gates) := by
  have hremove (key : PendingGateKey) :
      host.inner.removeKey key = (StoreInner.removeKeys [key] host.inner).2 := by
    unfold StoreInner.removeKey StoreInner.removeKeys
    cases hkey : host.inner.byKey.lookup key with
    | none => rfl
    | some gate => simp [StoreInner.removeKeys, StoreInner.removeKey, hkey]
  cases call with
  | insert gate persisted =>
    simp only [perform] at h
    split at h
    · cases h
      exact .inr ⟨⟨[], rfl⟩, fun g hg => hg⟩
    · rename_i inner hinsert
      cases h
      obtain ⟨hfree, rfl⟩ := StoreInner.insert_ok hinsert
      exact .inl ⟨gate, rfl, hfree, rfl, fun g hg => PendingGateFile.mem_saveIf hg⟩
  | takeVerified now key requestId channel persisted =>
    simp only [perform] at h
    split at h
    · rename_i e inner htake
      cases h
      rcases StoreInner.takeVerified_error htake with ⟨-, rfl⟩ | ⟨-, rfl, -⟩
      · exact .inr ⟨⟨[], rfl⟩, fun g hg => hg⟩
      · exact .inr ⟨⟨[key], hremove key⟩, fun g hg => hg⟩
    · rename_i gate inner htake
      cases h
      obtain ⟨-, -, -, -, rfl⟩ := StoreInner.takeVerified_ok htake
      exact .inr ⟨⟨[key], hremove key⟩, fun g hg => PendingGateFile.mem_removeIf hg⟩
  | discard key persisted =>
    simp only [perform] at h
    split at h
    · cases h
      exact .inr ⟨⟨[], rfl⟩, fun g hg => hg⟩
    · rename_i gate inner hdiscard
      cases h
      obtain ⟨-, rfl⟩ := StoreInner.discard_ok hdiscard
      exact .inr ⟨⟨[key], hremove key⟩, fun g hg => PendingGateFile.mem_removeIf hg⟩
  | discardForThread threadId persisted =>
    cases h
    exact .inr ⟨⟨_, rfl⟩, fun g hg => PendingGateFile.mem_removeAll hg⟩
  | expireStale clock persisted =>
    cases h
    exact .inr ⟨⟨_, rfl⟩, fun g hg => PendingGateFile.mem_removeAll hg⟩
  | restoreFromPersistence clock loaded =>
    cases loaded with
    | true => exact absurd rfl (hrestore clock)
    | false =>
      cases h
      exact .inr ⟨⟨[], rfl⟩, fun g hg => hg⟩

theorem key_eq_of_known (hnodup : (known.map PendingGate.requestId).Nodup) (h : gate ∈ known)
    (h' : g ∈ known) (hr : gate.requestId = g.requestId) : gate.key = g.key :=
  congrArg _ (List.inj_on_of_nodup_map hnodup h h' hr)

theorem Knows.distinct (h : Knows known host) (hnodup : (known.map PendingGate.requestId).Nodup) :
    host.inner.Distinct host.file.gates := by
  intro g hg k g' hg' hr
  obtain ⟨g₁, hg₁, hr₁, rfl⟩ := h.pending k g' hg'
  exact key_eq_of_known hnodup hg₁ (h.persisted g hg) (hr₁.trans hr)

theorem Knows.nodup_requestId (h : Knows known host)
    (hnodup : (known.map PendingGate.requestId).Nodup) :
    (host.file.gates.map PendingGate.requestId).Nodup := by
  refine (List.Nodup.of_map _ host.file.nodup).map_on fun g hg g' hg' hr => ?_
  exact List.inj_on_of_nodup_map host.file.nodup hg hg'
    (key_eq_of_known hnodup (h.persisted g hg) (h.persisted g' hg') hr)

theorem inverse_of_perform (h : host.inner.Inverse) (hknows : Knows known host)
    (hnodup : ((call.gates ++ known).map PendingGate.requestId).Nodup)
    (hu : Undisturbed host call) (hp : perform host call = some host') :
    host'.inner.Inverse ∧ Knows (call.gates ++ known) host' := by
  have hold : (known.map PendingGate.requestId).Nodup :=
    hnodup.sublist ((List.sublist_append_right _ _).map _)
  by_cases hrestore : ∃ clock, call = .restoreFromPersistence clock true
  · obtain ⟨clock, rfl⟩ := hrestore
    cases hp
    refine ⟨h.restore host.file.nodup (hknows.nodup_requestId hold) (hknows.distinct hold) (hu rfl),
      fun k g hg => ?_, hknows.persisted⟩
    rcases (StoreInner.lookup_restore_from clock host.file.nodup host.inner k g).mp hg with
      ⟨g', hg', hk, -, rfl⟩ | ⟨-, hg⟩
    · exact ⟨g', hknows.persisted g' hg', rfl, hk⟩
    · exact hknows.pending k g hg
  · rcases perform_cases hp fun clock hc => hrestore ⟨clock, hc⟩ with
      ⟨gate, hgates, hfree, hinner, hfile⟩ | ⟨⟨keys, hinner⟩, hfile⟩
    · rw [hgates] at hnodup ⊢
      rw [hinner]
      refine ⟨h.put (fun g hg => ?_) (fun k g hg hr => ?_), fun k g hg => ?_, fun g hg => ?_⟩
      · rw [hfree] at hg
        cases hg
      · obtain ⟨g', hg', hr', rfl⟩ := hknows.pending k g hg
        exact key_eq_of_known hnodup (mem_cons_of_mem gate hg') mem_cons_self
          (hr'.trans hr)
      · rw [hinner, StoreInner.lookup_put] at hg
        split_ifs at hg with hk
        · cases hg
          exact ⟨gate, mem_cons_self, rfl, hk.symm⟩
        · obtain ⟨g', hg', hr, hkey⟩ := hknows.pending k g hg
          exact ⟨g', mem_cons_of_mem gate hg', hr, hkey⟩
      · rcases hfile g hg with hg | rfl
        · exact mem_cons_of_mem gate (hknows.persisted g hg)
        · exact mem_cons_self
    · rw [hinner]
      refine ⟨h.removeKeys keys, fun k g hg => ?_, fun g hg => ?_⟩
      · rw [hinner] at hg
        obtain ⟨g', hg', hrest⟩ := hknows.pending k g (lookup_of_removeKeys hg)
        exact ⟨g', List.mem_append_right _ hg', hrest⟩
      · exact List.mem_append_right _ (hknows.persisted g (hfile g hg))

def DistinctRequests (known : List PendingGate) (calls : List StoreCall) : Prop :=
  ((known ++ calls.flatMap StoreCall.gates).map PendingGate.requestId).Nodup

theorem inverse_of_run (h : host.inner.Inverse) (hknows : Knows known host)
    (hdistinct : DistinctRequests known calls) (hu : Along perform Undisturbed host calls)
    (hr : run perform host calls = some host') : host'.inner.Inverse := by
  induction calls generalizing host known with
  | nil =>
    cases hr
    exact h
  | cons call calls ih =>
    obtain ⟨host₁, hp, hr⟩ := Foundation.run_cons_eq_some.mp hr
    have hperm : (call.gates ++ known ++ calls.flatMap StoreCall.gates).Perm
        (known ++ (call :: calls).flatMap StoreCall.gates) := by
      rw [List.flatMap_cons, ← List.append_assoc]
      exact List.perm_append_comm.append_right _
    have hnodup : ((call.gates ++ known ++ calls.flatMap StoreCall.gates).map
        PendingGate.requestId).Nodup := (hperm.map _).nodup_iff.mpr hdistinct
    obtain ⟨hinverse, hknows'⟩ := inverse_of_perform h hknows
      (hnodup.sublist ((List.sublist_append_left _ _).map _)) hu.1 hp
    exact ih hinverse hknows' hnodup (hu.2 host₁ hp) hr

theorem undisturbed_of_inverse (h : host.inner.Inverse) (hknows : Knows known host)
    (hnodup : (known.map PendingGate.requestId).Nodup) (hp : perform host call = some host')
    (h' : host'.inner.Inverse) : Undisturbed host call := by
  cases call with
  | restoreFromPersistence clock loaded =>
    rintro rfl
    cases hp
    exact (StoreInner.inverse_restore_iff h host.file.nodup (hknows.nodup_requestId hnodup)
      (hknows.distinct hnodup)).mp h'
  | _ => trivial

theorem distinctRequests_cons (h : DistinctRequests known (call :: calls)) :
    ((call.gates ++ known).map PendingGate.requestId).Nodup ∧
      DistinctRequests (call.gates ++ known) calls := by
  have hperm : (known ++ (call :: calls).flatMap StoreCall.gates).Perm
      (call.gates ++ known ++ calls.flatMap StoreCall.gates) := by
    rw [List.flatMap_cons, ← List.append_assoc]
    exact List.perm_append_comm.append_right _
  have hall : DistinctRequests (call.gates ++ known) calls := (hperm.map _).nodup_iff.mp h
  exact ⟨hall.sublist ((List.sublist_append_left _ _).map _), hall⟩

theorem along_of_throughout (h : host.inner.Inverse) (hknows : Knows known host)
    (hdistinct : DistinctRequests known calls) (hr : run perform host calls = some host')
    (hall : Throughout perform (fun host => host.inner.Inverse) host calls) :
    Along perform Undisturbed host calls := by
  induction calls generalizing host known with
  | nil => trivial
  | cons call calls ih =>
    obtain ⟨host₁, hp, hr⟩ := Foundation.run_cons_eq_some.mp hr
    have hrest := ((Foundation.throughout_cons hp).mp hall).2
    have h₁ : host₁.inner.Inverse := hrest [] List.nil_prefix host₁ rfl
    obtain ⟨hnodup, hdistinct⟩ := distinctRequests_cons hdistinct
    have hu : Undisturbed host call := undisturbed_of_inverse h hknows
      (hnodup.sublist ((List.sublist_append_right _ _).map _)) hp h₁
    exact .of_step hp hu
      (ih h₁ (inverse_of_perform h hknows hnodup hu hp).2 hdistinct hr hrest)

/-- **The maps are inverse throughout** exactly the undisturbed runs. -/
theorem throughout_inverse_iff (hdistinct : DistinctRequests file.gates calls)
    (hr : run perform ⟨.new, file⟩ calls = some host) :
    Throughout perform (fun host => host.inner.Inverse) ⟨.new, file⟩ calls ↔
      Along perform Undisturbed ⟨.new, file⟩ calls := by
  have hknows : Knows file.gates ⟨.new, file⟩ :=
    ⟨fun k g hg => by simp [StoreInner.new] at hg, fun g hg => hg⟩
  refine ⟨along_of_throughout StoreInner.inverse_new hknows hdistinct hr, ?_⟩
  rintro hu front ⟨rest, rfl⟩ host₁ hr₁
  refine inverse_of_run StoreInner.inverse_new hknows ?_ (Foundation.Along.append_iff.mp hu).1 hr₁
  rw [DistinctRequests, List.flatMap_append, ← List.append_assoc] at hdistinct
  exact hdistinct.sublist ((List.sublist_append_left _ _).map _)

/-- **The maps stay inverse** in undisturbed runs of calls with distinct request ids. -/
theorem inverse_of_undisturbed (hdistinct : DistinctRequests file.gates calls)
    (hu : Along perform Undisturbed ⟨.new, file⟩ calls)
    (hr : run perform ⟨.new, file⟩ calls = some host) : host.inner.Inverse :=
  inverse_of_run StoreInner.inverse_new
    ⟨fun k g hg => by simp [StoreInner.new] at hg, fun g hg => hg⟩ hdistinct hu hr

end Perform

def Saved : StoreCall → Prop
  | .insert _ persisted => persisted = true
  | _ => True

/-- Of a pending and a persisted gate under one key, both have the same request id. -/
def Agrees (host : GateHost) : Prop :=
  ∀ k g, host.inner.byKey.lookup k = some g →
    ∀ g' ∈ host.file.gates, g'.key = k → g.requestId = g'.requestId

section Saved

variable {host host' : GateHost} {call : StoreCall} {calls : List StoreCall}

theorem Agrees.undisturbed (h : Agrees host) (call : StoreCall) : Undisturbed host call := by
  cases call with
  | restoreFromPersistence clock loaded => exact fun _ g hg _ g' hg' => h g.key g' hg' g hg rfl
  | _ => trivial

theorem agrees_of_perform (h : Agrees host) (hsaved : Saved call)
    (hp : perform host call = some host') : Agrees host' := by
  by_cases hrestore : ∃ clock, call = .restoreFromPersistence clock true
  · obtain ⟨clock, rfl⟩ := hrestore
    cases hp
    intro k g hg g' hg' hk
    rcases (StoreInner.lookup_restore_from clock host.file.nodup host.inner k g).mp hg with
      ⟨g₁, hg₁, hk₁, -, rfl⟩ | ⟨-, hg⟩
    · have heq : g₁ = g' := List.inj_on_of_nodup_map host.file.nodup hg₁ hg' (hk₁.trans hk.symm)
      rw [heq, PendingGate.rehydrated_requestId]
    · exact h k g hg g' hg' hk
  · rcases perform_cases hp fun clock hc => hrestore ⟨clock, hc⟩ with
      ⟨gate, hgates, hfree, hinner, -⟩ | ⟨⟨keys, hinner⟩, hfile⟩
    · cases call with
      | insert g₀ persisted =>
        cases hgates
        obtain rfl : persisted = true := hsaved
        have hfile : host'.file = host.file.save gate := by
          simp only [perform, StoreInner.insert, AList.lookup_eq_none.mp hfree] at hp
          cases hp
          rfl
        intro k g hg g' hg' hk
        rw [hfile, PendingGateFile.save, List.mem_append, List.mem_filter,
          List.mem_singleton] at hg'
        rw [hinner, StoreInner.lookup_put] at hg
        rcases hg' with ⟨hg', hne⟩ | rfl
        · rw [if_neg (by rw [← hk]; simpa using hne)] at hg
          exact h k g hg g' hg' hk
        · rw [if_pos hk.symm] at hg
          cases hg
          rfl
      | _ => cases hgates
    · intro k g hg g' hg' hk
      rw [hinner] at hg
      exact h k g (lookup_of_removeKeys hg) g' (hfile g' hg') hk

theorem undisturbed_of_saved (h : Agrees host) (hsaved : Along perform (fun _ =>
    Saved) host calls) : Along perform Undisturbed host calls := by
  induction calls generalizing host with
  | nil => trivial
  | cons call calls ih =>
    refine ⟨h.undisturbed call, fun host' hp => ?_⟩
    exact ih (agrees_of_perform h hsaved.1 hp) (hsaved.2 host' hp)

end Saved

def gateOf (requestId : Uuid) : PendingGate := ⟨requestId, "ann", 7, "web", "shell", 100, false⟩

theorem throughout_inverse_insert : Throughout perform (fun host => host.inner.Inverse)
    ⟨.new, .new⟩ [.insert (gateOf 1) true] :=
  (throughout_inverse_iff (by simp [DistinctRequests, StoreCall.gates, PendingGateFile.new])
    rfl).mpr ⟨trivial, fun _ _ => trivial⟩

theorem inverse_of_insert_restore :
    ∃ host, run perform ⟨.new, .new⟩
      [.insert (gateOf 1) true, .restoreFromPersistence (fun _ => 5) true] = some host ∧
      host.inner.Inverse := by
  have hrun : ∃ host, run perform ⟨.new, .new⟩
      [.insert (gateOf 1) true, .restoreFromPersistence (fun _ => 5) true] = some host := ⟨_, rfl⟩
  obtain ⟨host, hrun⟩ := hrun
  refine ⟨host, hrun, inverse_of_undisturbed ?_ (undisturbed_of_saved ?_ ?_) hrun⟩
  · simp [DistinctRequests, StoreCall.gates, PendingGateFile.new]
  · intro k g hg
    simp [StoreInner.new] at hg
  · exact .of_forall_mem (by simp [Saved]) _

/-- Neither removal nor insertion is persisted. The restore brings the first gate back. -/
theorem request_id_left_behind :
    ∃ calls host, DistinctRequests PendingGateFile.new.gates calls ∧
      run perform ⟨.new, .new⟩ calls = some host ∧ ¬ host.inner.Inverse := by
  refine ⟨[.insert (gateOf 1) true, .discard (gateOf 1).key false, .insert (gateOf 2) false,
    .restoreFromPersistence (fun _ => 5) true], _, ?_, rfl, fun h => ?_⟩
  · simp [DistinctRequests, StoreCall.gates, PendingGateFile.new, gateOf]
  · obtain ⟨g, hg, hr⟩ := (h 2 (gateOf 1).key).mp rfl
    have hfirst : g = gateOf 1 := by
      have hlookup : some (gateOf 1) = some g := hg
      exact (Option.some.inj hlookup).symm
    rw [hfirst] at hr
    cases hr

end IronClaw.Gate
