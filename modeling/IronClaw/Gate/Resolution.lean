import IronClaw.Gate.Store

/-!
# Inserting and resolving a gate

A gate is taken exactly if everything about the request is right, and else stays pending. An
insertion whose write fails returns the error, but its gate is pending in memory.
-/

namespace IronClaw.Gate

/-- A backend for gates that are kept across restarts, which may fail. -/
structure GatePersistence (P : Type) where
  save : PendingGate → P → Except GateStoreError Unit × P
  remove : PendingGateKey → P → Except GateStoreError Unit × P

structure PendingGateStore (P : Type) where
  inner : StoreInner
  persisted : P

namespace PendingGateStore

variable {P : Type}

def insert (persistence : Option (GatePersistence P)) (store : PendingGateStore P)
    (gate : PendingGate) : Except GateStoreError Unit × PendingGateStore P :=
  match store.inner.insert gate with
  | .error e => (.error e, store)
  | .ok inner =>
    match persistence with
    | none => (.ok (), { store with inner := inner })
    | some persistence =>
      let (result, persisted) := persistence.save gate store.persisted
      (result, ⟨inner, persisted⟩)

def takeVerified (now : Time) (persistence : Option (GatePersistence P))
    (store : PendingGateStore P) (key : PendingGateKey) (requestId : Uuid)
    (respondingChannel : String) : Except GateStoreError PendingGate × PendingGateStore P :=
  match store.inner.takeVerified now key requestId respondingChannel with
  | (.error e, inner) => (.error e, { store with inner := inner })
  | (.ok gate, inner) =>
    match persistence with
    | none => (.ok gate, { store with inner := inner })
    -- the gate is taken from memory, so a removal that fails is only logged
    | some persistence => (.ok gate, ⟨inner, (persistence.remove key store.persisted).2⟩)

variable {persistence : Option (GatePersistence P)} {store : PendingGateStore P}
  {gate : PendingGate}

theorem takeVerified_fst {now : Time} {key : PendingGateKey} {requestId : Uuid} {channel : String} :
    (store.takeVerified now persistence key requestId channel).1 =
      (store.inner.takeVerified now key requestId channel).1 := by
  unfold takeVerified
  rcases store.inner.takeVerified now key requestId channel with ⟨_ | _, _⟩
  · rfl
  · cases persistence <;> rfl

/-- A gate is taken exactly if pending, unexpired, and id and channel are right. -/
theorem takeVerified_exact {now : Time} {key : PendingGateKey} {requestId : Uuid}
    {channel : String} : (store.takeVerified now persistence key requestId channel).1 = .ok gate ↔
      store.inner.byKey.lookup key = some gate ∧ gate.requestId = requestId ∧
        (gate.sourceChannel = channel ∨ channel ∈ trustedGateChannels) ∧ now ≤ gate.expiresAt := by
  have hauthorized : ∀ gate : PendingGate, StoreInner.channelAuthorized gate channel = true ↔
      gate.sourceChannel = channel ∨ channel ∈ trustedGateChannels := fun gate => by
    simp [StoreInner.channelAuthorized]
  have hexpired : ∀ gate : PendingGate, gate.isExpired now = false ↔ now ≤ gate.expiresAt :=
    fun gate => by simp [PendingGate.isExpired]
  rw [takeVerified_fst, ← hauthorized, ← hexpired]
  constructor
  · intro h
    obtain ⟨hlookup, hrequest, hchannel, hfresh, -⟩ := StoreInner.takeVerified_ok (Prod.ext h rfl)
    exact ⟨hlookup, hrequest, hchannel, hfresh⟩
  · rintro ⟨hlookup, hrequest, hchannel, hfresh⟩
    simp [StoreInner.takeVerified, hlookup, hrequest, hchannel, hfresh]

theorem takeVerified_refused {now : Time} {key : PendingGateKey} {requestId : Uuid}
    {channel : String} {e : GateStoreError} (hne : e ≠ .expired)
    (h : (store.takeVerified now persistence key requestId channel).1 = .error e) :
    (store.takeVerified now persistence key requestId channel).2 = store := by
  rw [takeVerified_fst] at h
  rcases htake : store.inner.takeVerified now key requestId channel with ⟨result, inner⟩
  rw [htake] at h
  cases h
  rcases StoreInner.takeVerified_error htake with ⟨-, rfl⟩ | ⟨hexpired, -⟩
  · simp [takeVerified, htake]
  · exact absurd hexpired hne

theorem insert_exact : (∀ e, (store.insert persistence gate).1 = .error e →
      (store.insert persistence gate).2 = store) ↔ gate.key ∈ store.inner.byKey ∨
        ∀ backend ∈ persistence, (backend.save gate store.persisted).1 = .ok () := by
  by_cases hmem : gate.key ∈ store.inner.byKey
  · simp [insert, StoreInner.insert, hmem]
  · have hinsert : store.inner.insert gate = .ok (store.inner.put gate) := if_neg hmem
    cases persistence with
    | none => simp [insert, hinsert]
    | some backend =>
      simp only [insert, hinsert, Option.mem_some_iff, forall_eq', hmem, false_or]
      cases hsave : (backend.save gate store.persisted).1 with
      | ok => simp
      | error e =>
        -- the gate is pending after the error, and was not before
        refine ⟨fun h => ?_, nofun⟩
        have hpending := StoreInner.lookup_put store.inner gate gate.key
        rw [show store.inner.put gate = store.inner from congrArg PendingGateStore.inner (h e rfl),
          if_pos rfl, AList.lookup_eq_none.mpr hmem] at hpending
        cases hpending

/-- **Resolution is exact**, and a refusal changes nothing. So does a failed insertion, exactly if
the key is taken or the gate's own record is written. -/
theorem resolution_exact (persistence : Option (GatePersistence P)) (store : PendingGateStore P) :
    (∀ now key requestId channel gate,
      (store.takeVerified now persistence key requestId channel).1 = .ok gate ↔
        store.inner.byKey.lookup key = some gate ∧ gate.requestId = requestId ∧
          (gate.sourceChannel = channel ∨ channel ∈ trustedGateChannels) ∧ now ≤ gate.expiresAt) ∧
    (∀ now key requestId channel e, e ≠ .expired →
      (store.takeVerified now persistence key requestId channel).1 = .error e →
      (store.takeVerified now persistence key requestId channel).2 = store) ∧ ∀ gate,
      (∀ e, (store.insert persistence gate).1 = .error e →
        (store.insert persistence gate).2 = store) ↔ gate.key ∈ store.inner.byKey ∨
        ∀ backend ∈ persistence, (backend.save gate store.persisted).1 = .ok () :=
  ⟨fun _ _ _ _ _ => takeVerified_exact, fun _ _ _ _ _ => takeVerified_refused,
    fun _ => insert_exact⟩

def unwritable : GatePersistence PendingGateFile where
  save _ file := (.error (.persistence "open"), file)
  remove _ file := (.error (.persistence "open"), file)

/-- The insertion returns the error of its write, and the gate is pending. -/
theorem not_insert_unchanged : ¬ ∀ (persistence : Option (GatePersistence PendingGateFile))
    (store : PendingGateStore PendingGateFile) (gate : PendingGate) (e : GateStoreError),
    (store.insert persistence gate).1 = .error e → (store.insert persistence gate).2 = store := by
  intro h
  have hsame := h (some unwritable) ⟨.new, .new⟩ ⟨1, "ann", 7, "web", "shell", 100, false⟩ _ rfl
  have hpending : (⟨"ann", 7⟩ : PendingGateKey) ∈ (StoreInner.put .new
      ⟨1, "ann", 7, "web", "shell", 100, false⟩).byKey := by decide
  rw [show StoreInner.put .new _ = StoreInner.new from congrArg PendingGateStore.inner hsame]
    at hpending
  revert hpending
  decide

end PendingGateStore

end IronClaw.Gate
