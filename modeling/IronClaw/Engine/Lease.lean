import IronClaw.Engine.Capability

/-!
# The lease manager

The manager keeps the leases of all threads under their ids. Leases are looked up by scanning the
table in its iteration order; the clock is read once for each lease of a scan.
-/

namespace IronClaw.Engine

open Foundation (Text HashMap)

inductive EngineError where
  | effect (reason : String)
  | leaseNotFound (leaseId : String)
  | leaseExpired (capabilityName : Text)
  | store (reason : String)
deriving DecidableEq

def EngineError.toString : EngineError → String
  | effect reason => "effect execution error: " ++ reason
  | leaseNotFound leaseId => "lease not found: " ++ leaseId
  | leaseExpired capabilityName =>
    "lease expired for capability: " ++ String.ofList capabilityName
  | store reason => "store error: " ++ reason

structure LeaseManager where
  active : HashMap LeaseId CapabilityLease
  nextId : LeaseId
  filed : ∀ id lease, active.lookup id = some lease →
    lease.id = id ∧ id < nextId ∧ lease.WithinBudget

namespace LeaseManager

/-- A clock reading for each lease that a scan checks. -/
abbrev Clock := LeaseId → Time

def new : LeaseManager := ⟨∅, 0, by simp⟩

def leases (m : LeaseManager) : List CapabilityLease := HashMap.values m.active

theorem mem_leases {m : LeaseManager} {lease : CapabilityLease} :
    lease ∈ m.leases ↔ m.active.lookup lease.id = some lease := by
  rw [leases, HashMap.mem_values]
  constructor
  · rintro ⟨id, h⟩
    rwa [(m.filed id lease h).1]
  · intro h
    exact ⟨lease.id, h⟩

/-- A change of a lease that leaves its identity alone and keeps it within its budget. -/
def Keeps (f : CapabilityLease → CapabilityLease) : Prop :=
  ∀ lease, (f lease).id = lease.id ∧ (f lease).threadId = lease.threadId ∧
    (lease.WithinBudget → (f lease).WithinBudget)

def modify (m : LeaseManager) (id : LeaseId) (f : CapabilityLease → CapabilityLease)
    (hf : Keeps f) : LeaseManager where
  active := HashMap.adjust m.active id f
  nextId := m.nextId
  filed := by
    intro id' lease h
    rw [HashMap.lookup_adjust] at h
    split_ifs at h
    · obtain ⟨old, hold, rfl⟩ := Option.map_eq_some_iff.mp h
      obtain ⟨hid, hlt, hb⟩ := m.filed id' old hold
      exact ⟨(hf old).1.trans hid, hlt, (hf old).2.2 hb⟩
    · exact m.filed id' lease h

theorem lookup_modify (m : LeaseManager) (id id' : LeaseId)
    (f : CapabilityLease → CapabilityLease) (hf : Keeps f) : (m.modify id f hf).active.lookup id' =
      if id' = id then (m.active.lookup id').map f else m.active.lookup id' :=
  HashMap.lookup_adjust ..

def grant (now : Time) (m : LeaseManager) (threadId : ThreadId) (capabilityName : Text)
    (grantedActions : GrantedActions) (duration : Option Int) (maxUses : Option Nat) :
    Except EngineError CapabilityLease × LeaseManager :=
  match duration.filter (· ≤ 0) with
  | some d =>
    (.error (.effect ("lease duration must be positive, got " ++ toString d ++ "s")), m)
  | none =>
    if maxUses = some 0 then (.error (.effect "lease max_uses must be > 0"), m)
    else
      let lease : CapabilityLease :=
        { id := m.nextId
          threadId := threadId
          capabilityName := capabilityName
          grantedActions := grantedActions
          expiresAt := duration.map fun d => now + d.toNat
          maxUses := maxUses
          usesRemaining := maxUses
          revoked := false }
      (.ok lease,
        { active := m.active.insert m.nextId lease
          nextId := m.nextId + 1
          filed := by
            intro id l h
            rw [HashMap.lookup_insert] at h
            split_ifs at h with hid
            · cases h
              exact ⟨hid.symm, hid ▸ Nat.lt_succ_self _, CapabilityLease.withinBudget_of_eq rfl⟩
            · obtain ⟨hl, hlt, hb⟩ := m.filed id l h
              exact ⟨hl, Nat.lt_succ_of_lt hlt, hb⟩ })

theorem keeps_refundUse : Keeps CapabilityLease.refundUse := fun lease => by
  refine ⟨?_, ?_, fun hb => hb.refundUse⟩ <;> rw [lease.refundUse_eq]

def refundUse (m : LeaseManager) (id : LeaseId) : LeaseManager :=
  m.modify id CapabilityLease.refundUse keeps_refundUse

theorem keeps_grantedActions (granted : GrantedActions) :
    Keeps fun lease => { lease with grantedActions := granted } :=
  fun _ => ⟨rfl, rfl, fun h => h⟩

def updateGrantedActions (m : LeaseManager) (id : LeaseId) (granted : GrantedActions) :
    LeaseManager :=
  m.modify id (fun lease => { lease with grantedActions := granted })
    (keeps_grantedActions granted)

theorem keeps_revoked : Keeps fun lease => { lease with revoked := true } :=
  fun _ => ⟨rfl, rfl, fun h => h⟩

def revoke (m : LeaseManager) (id : LeaseId) : LeaseManager :=
  m.modify id (fun lease => { lease with revoked := true }) keeps_revoked

def expireStale (clock : Clock) (m : LeaseManager) : LeaseManager where
  active := HashMap.retain m.active fun id lease => lease.isValid (clock id)
  nextId := m.nextId
  filed := by
    intro id lease h
    rw [HashMap.lookup_retain] at h
    exact m.filed id lease (Option.filter_eq_some_iff.mp h).1

def consumed (lease : CapabilityLease) : CapabilityLease := lease.consumeUse.getD lease

theorem keeps_consumed : Keeps consumed := fun lease => by
  unfold consumed
  cases h : lease.consumeUse with
  | none => exact ⟨rfl, rfl, fun h => h⟩
  | some lease' =>
    refine ⟨?_, ?_, fun hb => hb.consumeUse h⟩ <;> rw [Option.getD_some,
      (CapabilityLease.consumeUse_eq_some h).1]

def validFor (clock : Clock) (threadId : ThreadId) (lease : CapabilityLease) : Bool :=
  lease.threadId == threadId && lease.isValid (clock lease.id)

def activeForThread (clock : Clock) (m : LeaseManager) (threadId : ThreadId) :
    List CapabilityLease :=
  m.leases.filter (validFor clock threadId)

def findLeaseForAction (clock : Clock) (m : LeaseManager) (threadId : ThreadId)
    (actionName : Text) : Option CapabilityLease :=
  m.leases.find? fun lease =>
    validFor clock threadId lease &&
      (lease.coversAction actionName || lease.coversAction (hyphenated actionName) ||
        lease.coversAction (underscored actionName))

def findAndConsume (clock : Clock) (m : LeaseManager) (threadId : ThreadId) (actionName : Text) :
    Except EngineError CapabilityLease × LeaseManager :=
  match m.leases.find? fun lease =>
      validFor clock threadId lease && lease.coversAction actionName with
  | none =>
    (.error (.leaseNotFound
      ("no valid lease for action '" ++ String.ofList actionName ++ "'")), m)
  | some lease =>
    match lease.consumeUse with
    | none => (.error (.leaseExpired lease.capabilityName), m)
    | some lease' => (.ok lease', m.modify lease.id consumed keeps_consumed)

variable {clock : Clock} {threadId : ThreadId} {actionName : Text}

theorem findLeaseForAction_eq_some {m : LeaseManager} {lease : CapabilityLease}
    (h : m.findLeaseForAction clock threadId actionName = some lease) :
    m.active.lookup lease.id = some lease ∧ lease.threadId = threadId ∧
      lease.isValid (clock lease.id) = true ∧
      (lease.coversAction actionName = true ∨ lease.coversAction (hyphenated actionName) = true ∨
        lease.coversAction (underscored actionName) = true) := by
  have hp := List.find?_some h
  simp only [validFor, Bool.and_eq_true, Bool.or_eq_true, beq_iff_eq, or_assoc] at hp
  exact ⟨mem_leases.mp (List.mem_of_find?_eq_some h), hp.1.1, hp.1.2, hp.2⟩

theorem findAndConsume_ok {m m' : LeaseManager} {lease' : CapabilityLease}
    (h : m.findAndConsume clock threadId actionName = (.ok lease', m')) :
    ∃ lease, m.active.lookup lease.id = some lease ∧ lease.threadId = threadId ∧
      lease.isValid (clock lease.id) = true ∧ lease.coversAction actionName = true ∧
      lease.consumeUse = some lease' ∧ m' = m.modify lease.id consumed keeps_consumed := by
  unfold findAndConsume at h
  split at h
  · cases h
  · next lease hfind =>
    split at h
    · cases h
    · next l hcons =>
      cases h
      have hp := List.find?_some hfind
      simp only [validFor, Bool.and_eq_true, beq_iff_eq] at hp
      exact ⟨lease, mem_leases.mp (List.mem_of_find?_eq_some hfind), hp.1.1, hp.1.2, hp.2, hcons,
        rfl⟩

theorem findAndConsume_error {m m' : LeaseManager} {e : EngineError}
    (h : m.findAndConsume clock threadId actionName = (.error e, m')) : m' = m := by
  unfold findAndConsume at h
  split at h
  · cases h
    rfl
  · split at h
    · cases h
      rfl
    · cases h

theorem replaceChar_again (a b : Char) (s : Text) :
    (s.replaceChar a b).replaceChar a b = s.replaceChar a b := by
  simp only [Text.replaceChar, List.map_map]
  refine List.map_congr_left fun c _ => ?_
  by_cases h : c = a <;> simp [h]

theorem replaceChar_back (a b : Char) (s : Text) :
    (s.replaceChar a b).replaceChar b a = s.replaceChar b a := by
  simp only [Text.replaceChar, List.map_map]
  refine List.map_congr_left fun c _ => ?_
  by_cases h : c = a <;> simp [h]

theorem covers_of_alias {granted : GrantedActions} {name name' : Text}
    (h : ∀ g, Alias g name → Alias g name') (hcovers : granted.covers name = true) :
    granted.covers name' = true := by
  cases granted with
  | all => rfl
  | specific actions =>
    obtain ⟨g, hmem, halias⟩ := GrantedActions.covers_specific_iff.mp hcovers
    exact GrantedActions.covers_specific_iff.mpr ⟨g, hmem, h g halias⟩

theorem coversAction_variants (lease : CapabilityLease) (actionName : Text) :
    (lease.coversAction actionName || lease.coversAction (hyphenated actionName) ||
      lease.coversAction (underscored actionName)) = lease.coversAction actionName := by
  have hhyphen : lease.coversAction (hyphenated actionName) = true →
      lease.coversAction actionName = true := by
    refine covers_of_alias fun g => ?_
    simp only [Alias, hyphenated, underscored, replaceChar_again, replaceChar_back]
    rintro (h | h | h)
    · exact .inr (.inl h)
    · exact .inr (.inl h)
    · exact .inr (.inr h)
  have hunder : lease.coversAction (underscored actionName) = true →
      lease.coversAction actionName = true := by
    refine covers_of_alias fun g => ?_
    simp only [Alias, hyphenated, underscored, replaceChar_again, replaceChar_back]
    rintro (h | h | h)
    · exact .inr (.inr h)
    · exact .inr (.inl h)
    · exact .inr (.inr h)
  cases h : lease.coversAction actionName with
  | true => rfl
  | false => simp [Bool.eq_false_iff.mpr (mt hhyphen (by simp [h])),
      Bool.eq_false_iff.mpr (mt hunder (by simp [h]))]

theorem findAndConsume_of_findLease {m : LeaseManager} {lease : CapabilityLease}
    (h : m.findLeaseForAction clock threadId actionName = some lease) :
    ∃ lease', lease.consumeUse = some lease' ∧ m.findAndConsume clock threadId actionName =
        (.ok lease', m.modify lease.id consumed keeps_consumed) := by
  have huses : lease.usesRemaining ≠ some 0 :=
    (CapabilityLease.isValid_iff.mp (findLeaseForAction_eq_some h).2.2.1).2.2
  obtain ⟨lease', hlease'⟩ : ∃ lease', lease.consumeUse = some lease' := by
    unfold CapabilityLease.consumeUse
    split
    · exact ⟨_, rfl⟩
    · next hzero => exact absurd hzero huses
    · exact ⟨_, rfl⟩
  simp only [findLeaseForAction, coversAction_variants] at h
  refine ⟨lease', hlease', ?_⟩
  simp only [findAndConsume, h, hlease']

theorem findLease_eq_none_iff {m : LeaseManager} :
    m.findLeaseForAction clock threadId actionName = none ↔
      ∀ lease ∈ m.leases, lease.threadId = threadId → lease.isValid (clock lease.id) = true →
        lease.coversAction actionName = false := by
  simp only [findLeaseForAction, coversAction_variants, List.find?_eq_none, validFor,
    Bool.and_eq_true, beq_iff_eq, not_and, Bool.not_eq_true, and_imp]

structure Call where
  threadId : ThreadId
  actionName : Text
  lookedUpAt : Clock
  consumedAt : Clock
  ordered : ∀ id, lookedUpAt id ≤ consumedAt id

/-- The calls of a run, each with the leases before it, its lookup and its consumption. -/
def serve : LeaseManager → List Call →
    List (LeaseManager × Call × Option CapabilityLease × Except EngineError CapabilityLease)
  | _, [] => []
  | m, call :: calls =>
    let found := m.findLeaseForAction call.lookedUpAt call.threadId call.actionName
    let (result, m') := m.findAndConsume call.consumedAt call.threadId call.actionName
    (m, call, found, result) :: m'.serve calls

theorem mem_serve {m m₀ : LeaseManager} {calls : List Call} {call : Call}
    {found : Option CapabilityLease} {result : Except EngineError CapabilityLease}
    (h : (m, call, found, result) ∈ m₀.serve calls) :
    found = m.findLeaseForAction call.lookedUpAt call.threadId call.actionName ∧
      result = (m.findAndConsume call.consumedAt call.threadId call.actionName).1 := by
  induction calls generalizing m₀ with
  | nil => cases h
  | cons c calls ih =>
    rcases List.mem_cons.mp h with heq | h
    · cases heq
      exact ⟨rfl, rfl⟩
    · exact ih h

end LeaseManager

end IronClaw.Engine
