import IronClaw.Foundation.HashMap
import IronClaw.Gate.Pending

/-!
# The pending gate store

The store keeps the pending gates by key and by request id. An operation is what happens under one
acquisition of the lock, with a clock for each gate that is checked.
-/

namespace IronClaw.Gate

open Foundation (HashMap)

def trustedGateChannels : List String := ["web", "gateway"]

inductive GateStoreError where
  | notFound
  | requestIdMismatch
  | channelMismatch (expected actual : String)
  | expired
  | alreadyExists
  | persistence (reason : String)
deriving DecidableEq

structure StoreInner where
  byKey : HashMap PendingGateKey PendingGate
  byRequestId : HashMap Uuid PendingGateKey
  keyed : ∀ key gate, byKey.lookup key = some gate → gate.key = key

namespace StoreInner

def new : StoreInner := ⟨∅, ∅, by simp⟩

def put (inner : StoreInner) (gate : PendingGate) : StoreInner where
  byKey := inner.byKey.insert gate.key gate
  byRequestId := inner.byRequestId.insert gate.requestId gate.key
  keyed := by
    intro key g h
    rw [HashMap.lookup_insert] at h
    split_ifs at h with hk
    · cases h
      exact hk.symm
    · exact inner.keyed key g h

def removeKey (inner : StoreInner) (key : PendingGateKey) : StoreInner :=
  match inner.byKey.lookup key with
  | none => inner
  | some gate =>
    { byKey := inner.byKey.erase key
      byRequestId := inner.byRequestId.erase gate.requestId
      keyed := by
        intro k g h
        rw [HashMap.lookup_erase] at h
        split_ifs at h
        exact inner.keyed k g h }

theorem lookup_put (inner : StoreInner) (gate : PendingGate) (k : PendingGateKey) :
    (inner.put gate).byKey.lookup k = if k = gate.key then some gate else inner.byKey.lookup k :=
  HashMap.lookup_insert ..

theorem lookup_removeKey (inner : StoreInner) (key k : PendingGateKey) :
    (inner.removeKey key).byKey.lookup k = if k = key then none else inner.byKey.lookup k := by
  unfold removeKey
  split
  · next hnone =>
    split_ifs with h
    · rw [h, hnone]
    · rfl
  · exact HashMap.lookup_erase ..

def removeKeys : List PendingGateKey → StoreInner → List PendingGate × StoreInner
  | [], inner => ([], inner)
  | key :: keys, inner =>
    match inner.byKey.lookup key with
    | none => removeKeys keys inner
    | some gate =>
      let rest := removeKeys keys (inner.removeKey key)
      (gate :: rest.1, rest.2)

theorem lookup_removeKeys (keys : List PendingGateKey) (inner : StoreInner) (k : PendingGateKey) :
    (removeKeys keys inner).2.byKey.lookup k = if k ∈ keys then none else inner.byKey.lookup k := by
  induction keys generalizing inner with
  | nil => simp [removeKeys]
  | cons key keys ih =>
    unfold removeKeys
    split
    · next hnone =>
      rw [ih]
      by_cases hk : k = key
      · rw [hk, hnone, ite_self, ite_self]
      · simp [hk]
    · rw [ih, lookup_removeKey]
      by_cases hk : k = key
      · simp [hk]
      · simp [hk]

variable {gate : PendingGate}

theorem mem_removeKeys {keys : List PendingGateKey} {inner : StoreInner} :
    gate ∈ (removeKeys keys inner).1 ↔
      gate.key ∈ keys ∧ inner.byKey.lookup gate.key = some gate := by
  induction keys generalizing inner with
  | nil => simp [removeKeys]
  | cons key keys ih =>
    unfold removeKeys
    split
    · next hnone =>
      rw [ih, List.mem_cons]
      grind
    · next g hsome =>
      have hg : g.key = key := inner.keyed key g hsome
      rw [List.mem_cons, ih, lookup_removeKey, List.mem_cons]
      grind

/-- Insert a pending gate. Fails if one already exists for (user, thread). -/
def insert (inner : StoreInner) (gate : PendingGate) : Except GateStoreError StoreInner :=
  if gate.key ∈ inner.byKey then .error .alreadyExists else .ok (inner.put gate)

def channelAuthorized (gate : PendingGate) (respondingChannel : String) : Bool :=
  gate.sourceChannel == respondingChannel || trustedGateChannels.contains respondingChannel

def takeVerified (now : Time) (inner : StoreInner) (key : PendingGateKey) (requestId : Uuid)
    (respondingChannel : String) : Except GateStoreError PendingGate × StoreInner :=
  match inner.byKey.lookup key with
  | none => (.error .notFound, inner)
  | some gate =>
    if gate.requestId ≠ requestId then (.error .requestIdMismatch, inner)
    else if !channelAuthorized gate respondingChannel then
      (.error (.channelMismatch gate.sourceChannel respondingChannel), inner)
    -- an expired gate is cleaned up while the lock is held
    else if gate.isExpired now then (.error .expired, inner.removeKey key)
    else (.ok gate, inner.removeKey key)

def discard (inner : StoreInner) (key : PendingGateKey) :
    Except GateStoreError (PendingGate × StoreInner) :=
  match inner.byKey.lookup key with
  | none => .error .notFound
  | some gate => .ok (gate, inner.removeKey key)

def keysOfThread (inner : StoreInner) (threadId : ThreadId) : List PendingGateKey :=
  HashMap.keysWhere inner.byKey fun key _ => key.threadId == threadId

def discardForThread (inner : StoreInner) (threadId : ThreadId) : List PendingGate × StoreInner :=
  removeKeys (inner.keysOfThread threadId) inner

def expiredKeys (clock : PendingGateKey → Time) (inner : StoreInner) : List PendingGateKey :=
  HashMap.keysWhere inner.byKey fun key gate => gate.isExpired (clock key)

def expireStale (clock : PendingGateKey → Time) (inner : StoreInner) :
    List PendingGate × StoreInner :=
  removeKeys (inner.expiredKeys clock) inner

/-- Enter the persisted gates that have not expired in the maps, approvals cleared. -/
def restore (clock : PendingGateKey → Time) (gates : List PendingGate) (inner : StoreInner) :
    StoreInner :=
  gates.foldl (fun inner gate =>
    if gate.isExpired (clock gate.key) then inner else inner.put gate.rehydrated) inner

variable {inner inner' : StoreInner}

theorem insert_ok (h : inner.insert gate = .ok inner') :
    inner.byKey.lookup gate.key = none ∧ inner' = inner.put gate := by
  unfold insert at h
  split_ifs at h with hmem
  cases h
  exact ⟨AList.lookup_eq_none.mpr hmem, rfl⟩

variable {key : PendingGateKey}

theorem takeVerified_ok {now : Time} {requestId : Uuid} {channel : String}
    (h : inner.takeVerified now key requestId channel = (.ok gate, inner')) :
    inner.byKey.lookup key = some gate ∧ gate.requestId = requestId ∧
      channelAuthorized gate channel = true ∧ gate.isExpired now = false ∧
      inner' = inner.removeKey key := by
  unfold takeVerified at h
  split at h
  · cases h
  · split_ifs at h <;> simp_all

theorem takeVerified_error {now : Time} {requestId : Uuid} {channel : String} {e : GateStoreError}
    (h : inner.takeVerified now key requestId channel = (.error e, inner')) :
    (e ≠ .expired ∧ inner' = inner) ∨ (e = .expired ∧ inner' = inner.removeKey key ∧
        ∃ gate, inner.byKey.lookup key = some gate ∧ gate.requestId = requestId) := by
  unfold takeVerified at h
  split at h
  · cases h
    exact .inl ⟨by simp, rfl⟩
  · next gate hsome =>
    split_ifs at h <;> cases h
    · exact .inl ⟨by simp, rfl⟩
    · exact .inl ⟨by simp, rfl⟩
    · exact .inr ⟨rfl, rfl, gate, hsome, by simp_all⟩

theorem discard_ok (h : inner.discard key = .ok (gate, inner')) :
    inner.byKey.lookup key = some gate ∧ inner' = inner.removeKey key := by
  unfold discard at h
  split at h
  · cases h
  · next hsome =>
    cases h
    exact ⟨hsome, rfl⟩

theorem lookup_restore_from (clock : PendingGateKey → Time) {gates : List PendingGate}
    (hnd : (gates.map PendingGate.key).Nodup) (inner : StoreInner) (k : PendingGateKey)
    (gate : PendingGate) : (restore clock gates inner).byKey.lookup k = some gate ↔
      (∃ g ∈ gates, g.key = k ∧ g.isExpired (clock k) = false ∧ gate = g.rehydrated) ∨
        ((∀ g ∈ gates, g.key = k → g.isExpired (clock k) = true) ∧
          inner.byKey.lookup k = some gate) := by
  induction gates generalizing inner with
  | nil => simp [restore]
  | cons g gates ih =>
    rw [List.map_cons, List.nodup_cons] at hnd
    have hother : ∀ g' ∈ gates, g'.key ≠ g.key :=
      fun g' hg' he => hnd.1 (he ▸ List.mem_map_of_mem hg')
    rw [restore, List.foldl_cons, ← restore, ih hnd.2]
    simp only [List.mem_cons, exists_eq_or_imp, forall_eq_or_imp]
    by_cases he : g.isExpired (clock g.key) = true
    · rw [if_pos he]
      grind
    · rw [if_neg he, lookup_put, PendingGate.rehydrated_key]
      grind

/-- **After a restart** exactly the unexpired persisted gates are pending, unapproved. -/
theorem lookup_restore {clock : PendingGateKey → Time} {file : PendingGateFile}
    {k : PendingGateKey} {gate : PendingGate} :
    (restore clock file.gates new).byKey.lookup k = some gate ↔
      ∃ g, file.lookup k = some g ∧ g.isExpired (clock k) = false ∧ gate = g.rehydrated := by
  rw [lookup_restore_from clock file.nodup]
  simp [PendingGateFile.lookup_eq_some, new, and_assoc]

end StoreInner

end IronClaw.Gate
