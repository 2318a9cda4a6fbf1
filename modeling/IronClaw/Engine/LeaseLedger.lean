import Mathlib.Data.List.Perm.Basic
import IronClaw.Engine.Lease
import IronClaw.Foundation.Log
import IronClaw.Foundation.Run

/-!
# The accounts of the lease manager

Uses of a lease are consumed and refunded, its grants change, and it is revoked or removed, each
under one lock. A log records what has happened to each lease.
-/

namespace IronClaw.Engine

open Foundation (Text HashMap append_eq_append_cons run)
open List (append_nil flatten_append flatten_singleton mem_append mem_append_left mem_append_right
  mem_cons_self mem_map mem_map_of_mem mem_singleton)

theorem CapabilityLease.refundUse_usesRemaining (lease : CapabilityLease) :
    lease.refundUse.usesRemaining = lease.usesRemaining ∨
      ∃ n, lease.usesRemaining = some n ∧ lease.refundUse.usesRemaining = some (n + 1) := by
  unfold refundUse
  split
  · next maxUses remaining _ hremaining =>
    split_ifs
    · exact .inr ⟨remaining, hremaining, rfl⟩
    · exact .inl rfl
  · exact .inl rfl

namespace LeaseManager

def consumeUse (clock : Clock) (m : LeaseManager) (id : LeaseId) :
    Except EngineError Unit × LeaseManager :=
  match m.active.lookup id with
  | none => (.error (.leaseExpired ("lease " ++ toString id ++ " not found").toList), m)
  | some lease =>
    if !lease.isValid (clock id) then (.error (.leaseExpired lease.capabilityName), m)
    else
      match lease.consumeUse with
      | none => (.error (.leaseExpired lease.capabilityName), m)
      | some _ => (.ok (), m.modify id consumed keeps_consumed)

theorem consumeUse_error {clock : Clock} {m m' : LeaseManager} {id : LeaseId} {e : EngineError}
    (h : m.consumeUse clock id = (.error e, m')) : m' = m := by
  unfold consumeUse at h
  split at h
  · cases h
    rfl
  · split_ifs at h
    · cases h
      rfl
    · split at h
      · cases h
        rfl
      · cases h

theorem consumeUse_ok {clock : Clock} {m m' : LeaseManager} {id : LeaseId}
    (h : m.consumeUse clock id = (.ok (), m')) :
    ∃ lease lease', m.active.lookup id = some lease ∧ lease.isValid (clock id) = true ∧
      lease.consumeUse = some lease' ∧ m' = m.modify id consumed keeps_consumed := by
  unfold consumeUse at h
  split at h
  · cases h
  · next lease hlookup =>
    split_ifs at h with hvalid
    · cases h
    · split at h
      · cases h
      · next lease' hcons =>
        cases h
        exact ⟨lease, lease', hlookup, by simpa using hvalid, hcons, rfl⟩

/-- The actions a child lease grants, or nothing where the request leaves none. -/
def childGrants (requested : Option (List Text)) (granted : GrantedActions) :
    Option GrantedActions :=
  match requested with
  | none => some granted
  | some requested =>
    -- the child of a wildcard gets the requested actions, not a wildcard
    let actions := match granted with
      | .all => requested
      | .specific actions => actions.filter (requested.contains ·)
    if actions.isEmpty then none else some (.specific actions)

/-- The leases a child thread derives, which are checked by `clock` and by `clock'`. -/
def childLeases (clock clock' : Clock) (m : LeaseManager) (parentThreadId childThreadId : ThreadId)
    (requested : Option (List Text)) : List CapabilityLease :=
  let inherited := (m.activeForThread clock parentThreadId).filterMap fun parent =>
    if parent.isValid (clock' parent.id) then
      (childGrants requested parent.grantedActions).map fun granted => (parent, granted)
    else none
  (inherited.zipIdx m.nextId).map fun ((parent, granted), id) =>
    { id := id
      threadId := childThreadId
      capabilityName := parent.capabilityName
      grantedActions := granted
      expiresAt := parent.expiresAt
      maxUses := parent.usesRemaining
      usesRemaining := parent.usesRemaining
      revoked := false }

def reserve (m : LeaseManager) (n : Nat) : LeaseManager where
  active := m.active
  nextId := m.nextId + n
  filed := fun id lease h =>
    ⟨(m.filed id lease h).1, (m.filed id lease h).2.1.trans_le (Nat.le_add_right _ _),
      (m.filed id lease h).2.2⟩

def Enterable (m : LeaseManager) (lease : CapabilityLease) : Prop :=
  lease.id < m.nextId ∧ lease.WithinBudget

theorem lookup_foldl_insert {children : List CapabilityLease}
    {table : HashMap LeaseId CapabilityLease} {id : LeaseId} {lease : CapabilityLease}
    (h : (children.foldl (fun table child => table.insert child.id child) table).lookup id =
      some lease) : (lease ∈ children ∧ lease.id = id) ∨ table.lookup id = some lease := by
  induction children generalizing table with
  | nil => exact .inr h
  | cons child children ih =>
    rcases ih h with ⟨hmem, hid⟩ | htable
    · exact .inl ⟨List.mem_cons_of_mem child hmem, hid⟩
    · rw [HashMap.lookup_insert] at htable
      split_ifs at htable with hid
      · cases htable
        exact .inl ⟨mem_cons_self, hid.symm⟩
      · exact .inr htable

def enter (m : LeaseManager) (children : List CapabilityLease)
    (h : ∀ child ∈ children, m.Enterable child) : LeaseManager where
  active := children.foldl (fun table child => table.insert child.id child) m.active
  nextId := m.nextId
  filed := by
    intro id lease hlookup
    rcases lookup_foldl_insert hlookup with ⟨hmem, rfl⟩ | htable
    · exact ⟨rfl, h lease hmem⟩
    · exact m.filed id lease htable

section ChildLeases

variable (clock clock' : Clock) (m : LeaseManager) (parentThreadId childThreadId : ThreadId)
  (requested : Option (List Text))

theorem map_id_childLeases :
    let children := m.childLeases clock clock' parentThreadId childThreadId requested
    children.map CapabilityLease.id = List.range' m.nextId children.length := by
  simp only [childLeases, List.map_map, List.length_map, List.length_zipIdx]
  exact List.zipIdx_map_snd ..

variable {child : CapabilityLease}

theorem withinBudget_of_mem_childLeases
    (h : child ∈ m.childLeases clock clock' parentThreadId childThreadId requested) :
    child.WithinBudget := by
  obtain ⟨p, -, rfl⟩ := mem_map.mp h
  exact CapabilityLease.withinBudget_of_eq rfl

theorem id_of_mem_childLeases
    (h : child ∈ m.childLeases clock clock' parentThreadId childThreadId requested) :
    m.nextId ≤ child.id ∧ child.id <
      m.nextId + (m.childLeases clock clock' parentThreadId childThreadId requested).length := by
  have hid := mem_map_of_mem (f := CapabilityLease.id) h
  rw [map_id_childLeases, List.mem_range'_1] at hid
  exact hid

theorem enterable_of_mem_childLeases
    (h : child ∈ m.childLeases clock clock' parentThreadId childThreadId requested) :
    (m.reserve (m.childLeases clock clock' parentThreadId childThreadId
      requested).length).Enterable child :=
  ⟨(id_of_mem_childLeases clock clock' m parentThreadId childThreadId requested h).2,
    withinBudget_of_mem_childLeases clock clock' m parentThreadId childThreadId requested h⟩

end ChildLeases

end LeaseManager

inductive LedgerEvent where
  | granted (lease : CapabilityLease)
  /-- A use of the lease was consumed, when the clock read `now`. -/
  | consumed (now : Time) (lease : CapabilityLease)
  /-- A refund changed the counter of the lease. -/
  | refunded (id : LeaseId)
  | revoked (id : LeaseId)
  | removed (id : LeaseId)
deriving DecidableEq

namespace LedgerEvent

def id : LedgerEvent → LeaseId
  | granted lease => lease.id
  | consumed _ lease => lease.id
  | refunded id => id
  | revoked id => id
  | removed id => id

def isConsumption (id : LeaseId) : LedgerEvent → Bool
  | consumed _ lease => lease.id == id
  | _ => false

def isRefund (id : LeaseId) : LedgerEvent → Bool
  | refunded id' => id' == id
  | _ => false

end LedgerEvent

/-- A manager, the child leases that are derived and not yet entered, and the log. -/
structure LeaseHost where
  manager : LeaseManager
  derived : List (List CapabilityLease)
  enterable : ∀ children ∈ derived, ∀ child ∈ children, manager.Enterable child
  log : List LedgerEvent

/-- A call of the manager, or a part of one that holds the lock, with the clock it reads. -/
inductive LeaseCall where
  | grant (now : Time) (threadId : ThreadId) (capabilityName : Text)
      (grantedActions : GrantedActions) (duration : Option Int) (maxUses : Option Nat)
  | consumeUse (clock : LeaseManager.Clock) (id : LeaseId)
  | findAndConsume (clock : LeaseManager.Clock) (threadId : ThreadId) (actionName : Text)
  | refundUse (id : LeaseId)
  | updateGrantedActions (id : LeaseId) (granted : GrantedActions)
  | revoke (id : LeaseId)
  | expireStale (clock : LeaseManager.Clock)
  /-- Derive child leases from what is read. -/
  | deriveChildLeases (clock clock' : LeaseManager.Clock)
      (parentThreadId childThreadId : ThreadId) (requested : Option (List Text))
  /-- Enter the child leases of one derivation. -/
  | enterChildLeases (index : Nat)

namespace LeaseHost

def new : LeaseHost := ⟨.new, [], by simp, []⟩

variable (host : LeaseHost)

/-- A change of the table that keeps the ids in use or set aside. -/
def update (manager : LeaseManager) (h : host.manager.nextId ≤ manager.nextId)
    (events : List LedgerEvent) : LeaseHost where
  manager := manager
  derived := host.derived
  enterable := fun children hc child hmem =>
    ⟨(host.enterable children hc child hmem).1.trans_le h,
      (host.enterable children hc child hmem).2⟩
  log := host.log ++ events

def consumption (now : Time) (id : LeaseId) : List LedgerEvent :=
  ((host.manager.active.lookup id).map (.consumed now)).toList

def refund (id : LeaseId) : List LedgerEvent :=
  match host.manager.active.lookup id with
  | none => []
  | some lease =>
    if lease.refundUse.usesRemaining = lease.usesRemaining then [] else [.refunded id]

def revocation (id : LeaseId) : List LedgerEvent :=
  if id ∈ host.manager.active then [.revoked id] else []

def removals (clock : LeaseManager.Clock) : List LedgerEvent :=
  (HashMap.keysWhere host.manager.active fun id lease => !lease.isValid (clock id)).map .removed

end LeaseHost

theorem LeaseManager.grant_cases (now : Time) (m : LeaseManager) (threadId : ThreadId)
    (capabilityName : Text) (granted : GrantedActions) (duration : Option Int)
      (maxUses : Option Nat) :
    (∃ e, m.grant now threadId capabilityName granted duration maxUses = (.error e, m)) ∨
      ∃ lease m', m.grant now threadId capabilityName granted duration maxUses = (.ok lease, m') ∧
        lease.id = m.nextId ∧ lease.usesRemaining = lease.maxUses ∧ m'.nextId = m.nextId + 1 ∧
        m'.active = m.active.insert m.nextId lease := by
  unfold grant
  split
  · exact .inl ⟨_, rfl⟩
  · split_ifs
    · exact .inl ⟨_, rfl⟩
    · exact .inr ⟨_, _, rfl, rfl, rfl, rfl, rfl⟩

theorem LeaseManager.nextId_le_grant (now : Time) (m : LeaseManager) (threadId : ThreadId)
    (capabilityName : Text) (granted : GrantedActions) (duration : Option Int)
      (maxUses : Option Nat) :
    m.nextId ≤ (m.grant now threadId capabilityName granted duration maxUses).2.nextId := by
  rcases m.grant_cases now threadId capabilityName granted duration maxUses with
    ⟨e, hr⟩ | ⟨lease, m', hr, -, -, hnext, -⟩
  · rw [hr]
  · rw [hr, hnext]
    exact Nat.le_succ _

theorem LeaseManager.nextId_consumeUse (clock : Clock) (m : LeaseManager) (id : LeaseId) :
    (m.consumeUse clock id).2.nextId = m.nextId := by
  unfold LeaseManager.consumeUse
  split
  · rfl
  · split_ifs
    · rfl
    · split <;> rfl

theorem LeaseManager.nextId_findAndConsume (clock : Clock) (m : LeaseManager) (threadId : ThreadId)
    (actionName : Text) : (m.findAndConsume clock threadId actionName).2.nextId = m.nextId := by
  unfold findAndConsume
  split
  · rfl
  · split <;> rfl

def LeaseHost.perform (host : LeaseHost) : LeaseCall → Option LeaseHost
  | .grant now threadId capabilityName granted duration maxUses =>
    let r := host.manager.grant now threadId capabilityName granted duration maxUses
    some <| host.update r.2 (LeaseManager.nextId_le_grant ..) <|
      match r.1 with
      | .ok lease => [.granted lease]
      | .error _ => []
  | .consumeUse clock id =>
    let r := host.manager.consumeUse clock id
    some <| host.update r.2 (LeaseManager.nextId_consumeUse ..).ge <|
      match r.1 with
      | .ok () => host.consumption (clock id) id
      | .error _ => []
  | .findAndConsume clock threadId actionName =>
    let r := host.manager.findAndConsume clock threadId actionName
    some <| host.update r.2 (LeaseManager.nextId_findAndConsume ..).ge <|
      match r.1 with
      | .ok lease => host.consumption (clock lease.id) lease.id
      | .error _ => []
  | .refundUse id => some (host.update (host.manager.refundUse id) le_rfl (host.refund id))
  | .updateGrantedActions id granted =>
    some (host.update (host.manager.updateGrantedActions id granted) le_rfl [])
  | .revoke id => some (host.update (host.manager.revoke id) le_rfl (host.revocation id))
  | .expireStale clock =>
    some (host.update (host.manager.expireStale clock) le_rfl (host.removals clock))
  | .deriveChildLeases clock clock' parentThreadId childThreadId requested =>
    let children := host.manager.childLeases clock clock' parentThreadId childThreadId requested
    some
      { manager := host.manager.reserve children.length
        derived := host.derived ++ [children]
        enterable := by
          intro batch hbatch child hchild
          rcases mem_append.mp hbatch with hbatch | hbatch
          · obtain ⟨hlt, hbudget⟩ := host.enterable batch hbatch child hchild
            exact ⟨Nat.lt_add_right _ hlt, hbudget⟩
          · obtain rfl := mem_singleton.mp hbatch
            exact LeaseManager.enterable_of_mem_childLeases _ _ _ _ _ _ hchild
        log := host.log }
  | .enterChildLeases index =>
    if h : index < host.derived.length then
      let children := host.derived[index]
      some
        { manager := host.manager.enter children (host.enterable children (List.getElem_mem h))
          derived := host.derived.eraseIdx index
          enterable := fun batch hbatch => host.enterable batch (List.mem_of_mem_eraseIdx hbatch)
          log := host.log ++ children.map .granted }
    else none

def consumptions (log : List LedgerEvent) (id : LeaseId) : Nat :=
  log.countP (LedgerEvent.isConsumption id)

def refunds (log : List LedgerEvent) (id : LeaseId) : Nat :=
  log.countP (LedgerEvent.isRefund id)

/-- A lease's counter has its limit, less by what was consumed and not refunded. -/
def Balanced (log : List LedgerEvent) (lease : CapabilityLease) : Prop :=
  lease.usesRemaining.isSome = lease.maxUses.isSome ∧
    ∀ maxUses remaining, lease.maxUses = some maxUses → lease.usesRemaining = some remaining →
      remaining ≤ maxUses ∧
        (consumptions log lease.id : Int) - refunds log lease.id = maxUses - remaining

def CapabilityLease.Expired (lease : CapabilityLease) (now : Time) : Prop :=
  ∃ expiresAt, lease.expiresAt = some expiresAt ∧ expiresAt ≤ now

/-- Nothing stands against a consumption: the lease was entered, not revoked or removed, nor
expired. -/
structure Live (before : List LedgerEvent) (now : Time) (lease : CapabilityLease) : Prop where
  granted : ∃ g, .granted g ∈ before ∧ g.id = lease.id ∧ g.expiresAt = lease.expiresAt ∧
    g.maxUses = lease.maxUses
  revoked : lease.revoked = false ∧ .revoked lease.id ∉ before
  present : .removed lease.id ∉ before
  unexpired : ∀ t ≤ now, ¬ lease.Expired t

/-- What the log says about a lease in the table. -/
structure Entry (log : List LedgerEvent) (lease : CapabilityLease) : Prop where
  ledger : ∀ maxUses remaining, lease.maxUses = some maxUses →
    lease.usesRemaining = some remaining →
      consumptions log lease.id + remaining = refunds log lease.id + maxUses
  granted : ∃ g, .granted g ∈ log ∧ g.id = lease.id ∧ g.expiresAt = lease.expiresAt ∧
    g.maxUses = lease.maxUses
  revoked : .revoked lease.id ∈ log → lease.revoked = true
  present : .removed lease.id ∉ log

structure Accounts (host : LeaseHost) : Prop where
  entry : ∀ id lease, host.manager.active.lookup id = some lease → Entry host.log lease
  logged : ∀ e ∈ host.log, e.id < host.manager.nextId ∧
    ∀ child ∈ host.derived.flatten, child.id ≠ e.id
  apart : ∀ child ∈ host.derived.flatten, host.manager.active.lookup child.id = none
  nodup : (host.derived.flatten.map CapabilityLease.id).Nodup
  unused : ∀ child ∈ host.derived.flatten, child.usesRemaining = child.maxUses
  live : ∀ before now lease after, host.log = before ++ .consumed now lease :: after →
    Live before now lease

section Accounts

variable {host host' : LeaseHost} {log events : List LedgerEvent} {lease : CapabilityLease}
  {id : LeaseId} {now : Time} {children : List CapabilityLease}

theorem countP_eq_zero_of_ne {p : LedgerEvent → Bool} (hp : ∀ e, p e = true → e.id = id)
    (h : ∀ e ∈ events, e.id ≠ id) : events.countP p = 0 := by
  rw [List.countP_eq_zero]
  exact fun e he hpe => h e he (hp e hpe)

theorem LedgerEvent.id_of_isConsumption {e : LedgerEvent} (h : e.isConsumption id = true) :
    e.id = id := by
  cases e with
  | consumed now lease => exact eq_of_beq h
  | _ => cases h

theorem LedgerEvent.id_of_isRefund {e : LedgerEvent} (h : e.isRefund id = true) : e.id = id := by
  cases e with
  | refunded id' => exact eq_of_beq h
  | _ => cases h

theorem consumptions_append : consumptions (log ++ events) id =
    consumptions log id + events.countP (LedgerEvent.isConsumption id) := List.countP_append

theorem refunds_append : refunds (log ++ events) id =
    refunds log id + events.countP (LedgerEvent.isRefund id) := List.countP_append

theorem Entry.append (h : Entry log lease) (hother : ∀ e ∈ events, e.id ≠ lease.id) :
    Entry (log ++ events) lease where
  ledger := by
    intro maxUses remaining hmax hremaining
    rw [consumptions_append, refunds_append,
      countP_eq_zero_of_ne (fun _ => LedgerEvent.id_of_isConsumption) hother,
      countP_eq_zero_of_ne (fun _ => LedgerEvent.id_of_isRefund) hother]
    exact h.ledger maxUses remaining hmax hremaining
  granted := by
    obtain ⟨g, hg, hrest⟩ := h.granted
    exact ⟨g, mem_append_left _ hg, hrest⟩
  revoked := by
    intro hmem
    rcases mem_append.mp hmem with hmem | hmem
    · exact h.revoked hmem
    · exact absurd rfl (hother _ hmem)
  present := by
    intro hmem
    rcases mem_append.mp hmem with hmem | hmem
    · exact h.present hmem
    · exact absurd rfl (hother _ hmem)

theorem Entry.of_granted (hfresh : ∀ e ∈ log, e.id ≠ lease.id)
    (hbudget : lease.usesRemaining = lease.maxUses) (hmem : lease ∈ children) :
    Entry (log ++ children.map .granted) lease where
  ledger := by
    intro maxUses remaining hmax hremaining
    have hnone {p : LedgerEvent → Bool} (hp : ∀ g, p (.granted g) = false) :
        (children.map LedgerEvent.granted).countP p = 0 := by
      rw [List.countP_map, List.countP_eq_zero]
      intro g _
      simp [hp]
    rw [consumptions_append, refunds_append, hnone fun _ => rfl, hnone fun _ => rfl,
      consumptions, refunds, countP_eq_zero_of_ne (fun _ => LedgerEvent.id_of_isConsumption) hfresh,
      countP_eq_zero_of_ne (fun _ => LedgerEvent.id_of_isRefund) hfresh]
    rw [hbudget, hmax] at hremaining
    cases hremaining
    rfl
  granted := ⟨lease, mem_append_right _ (mem_map_of_mem hmem), rfl, rfl, rfl⟩
  revoked := by
    intro hmem
    rcases mem_append.mp hmem with hmem | hmem
    · exact absurd rfl (hfresh _ hmem)
    · simp at hmem
  present := by
    intro hmem
    rcases mem_append.mp hmem with hmem | hmem
    · exact absurd rfl (hfresh _ hmem)
    · simp at hmem

theorem Accounts.live_append (h : Accounts host)
    (hlive : ∀ before now lease after, events = before ++ .consumed now lease :: after →
      Live (host.log ++ before) now lease) {before after : List LedgerEvent}
    (hsplit : host.log ++ events = before ++ .consumed now lease :: after) :
    Live before now lease := by
  rcases append_eq_append_cons hsplit with ⟨after', hlog⟩ | ⟨before', rfl, hevents⟩
  · exact h.live before now lease after' hlog
  · exact hlive before' now lease after hevents

theorem Accounts.update (h : Accounts host) (manager : LeaseManager)
    (hnext : host.manager.nextId ≤ manager.nextId)
    (hentry : ∀ id lease, manager.active.lookup id = some lease →
      (host.manager.active.lookup id = some lease ∧ ∀ e ∈ events, e.id ≠ lease.id) ∨
        Entry (host.log ++ events) lease) (hlogged : ∀ e ∈ events, e.id < manager.nextId ∧
      ∀ child ∈ host.derived.flatten, child.id ≠ e.id)
    (hapart : ∀ child ∈ host.derived.flatten, manager.active.lookup child.id = none)
    (hlive : ∀ before now lease after, events = before ++ .consumed now lease :: after →
      Live (host.log ++ before) now lease) : Accounts (host.update manager hnext events) where
  entry := by
    intro id lease hlookup
    rcases hentry id lease hlookup with ⟨hold, hother⟩ | hentry
    · exact (h.entry id lease hold).append hother
    · exact hentry
  logged := by
    intro e he
    rcases mem_append.mp he with he | he
    · exact ⟨(h.logged e he).1.trans_le hnext, (h.logged e he).2⟩
    · exact hlogged e he
  apart := hapart
  nodup := h.nodup
  unused := h.unused
  live := fun _ _ _ _ hsplit => h.live_append hlive hsplit

theorem Accounts.modify (h : Accounts host) {f : CapabilityLease → CapabilityLease}
    (hf : LeaseManager.Keeps f) (hlookup : host.manager.active.lookup id = some lease)
    (hevents : ∀ e ∈ events, e.id = id) (hentry : Entry (host.log ++ events) (f lease))
    (hlive : ∀ before now lease after, events = before ++ .consumed now lease :: after →
      Live (host.log ++ before) now lease) :
    Accounts (host.update (host.manager.modify id f hf) le_rfl events) := by
  refine h.update (host.manager.modify id f hf) le_rfl (fun id' lease' hlookup' => ?_)
    (fun e he => ?_) (fun child hchild => ?_)
    hlive
  · rw [LeaseManager.lookup_modify] at hlookup'
    split_ifs at hlookup' with hid
    · rw [hid, hlookup] at hlookup'
      cases hlookup'
      exact .inr hentry
    · have hid' : lease'.id = id' := (host.manager.filed id' lease' hlookup').1
      exact .inl ⟨hlookup', fun e he he' => hid (hid'.symm.trans (he'.symm.trans (hevents e he)))⟩
  · rw [hevents e he]
    refine ⟨(host.manager.filed id lease hlookup).2.1, fun child hchild hid => ?_⟩
    have hnone := h.apart child hchild
    rw [hid, hlookup] at hnone
    cases hnone
  · have hnone := h.apart child hchild
    rw [LeaseManager.lookup_modify, hnone]
    split_ifs <;> rfl

theorem Accounts.modify_of_not_found (h : Accounts host) {f : CapabilityLease → CapabilityLease}
    (hf : LeaseManager.Keeps f) (hlookup : host.manager.active.lookup id = none) :
    Accounts (host.update (host.manager.modify id f hf) le_rfl []) := by
  have hsame (k : LeaseId) : (host.manager.modify id f hf).active.lookup k =
      host.manager.active.lookup k := by
    rw [LeaseManager.lookup_modify]
    split_ifs with hk
    · rw [hk, hlookup, Option.map_none]
    · rfl
  refine h.update (host.manager.modify id f hf) le_rfl (fun k lease hl =>
    .inl ⟨hsame k ▸ hl, by simp⟩) (by simp)
    (fun child hchild => (hsame child.id).trans (h.apart child hchild)) (by simp)

theorem Accounts.unchanged (h : Accounts host) : Accounts (host.update host.manager le_rfl []) :=
  h.update _ le_rfl (fun _ _ hl => .inl ⟨hl, by simp⟩) (by simp) h.apart (by simp)

theorem Accounts.consume (h : Accounts host) {lease' : CapabilityLease}
    (hlookup : host.manager.active.lookup id = some lease) (hvalid : lease.isValid now = true)
    (hcons : lease.consumeUse = some lease') :
    Accounts (host.update (host.manager.modify id LeaseManager.consumed LeaseManager.keeps_consumed)
      le_rfl (host.consumption now id)) := by
  have hid : lease.id = id := (host.manager.filed id lease hlookup).1
  have hold := h.entry id lease hlookup
  have hevents : host.consumption now id = [.consumed now lease] := by
    rw [LeaseHost.consumption, hlookup]
    rfl
  obtain ⟨hrevoked, hexpires, hne⟩ := CapabilityLease.isValid_iff.mp hvalid
  rw [hevents]
  refine h.modify _ hlookup (by simp [LedgerEvent.id, hid]) ?_
    fun before now' lease₁ after hsplit => ?_
  · have hconsumed : LeaseManager.consumed lease =
        { lease with usesRemaining := lease.usesRemaining.map (· - 1) } := by
      rw [LeaseManager.consumed, hcons, Option.getD_some]
      exact (CapabilityLease.consumeUse_eq_some hcons).1
    rw [hconsumed]
    refine ⟨fun maxUses remaining hmax hremaining => ?_, ?_, ?_, ?_⟩
    · -- a use is left, and so the counter goes down as the consumptions go up
      obtain ⟨n, hn, rfl⟩ := Option.map_eq_some_iff.mp hremaining
      have hpos : n ≠ 0 := fun hzero => hne (hzero ▸ hn)
      have hledger := hold.ledger maxUses n hmax hn
      change consumptions (host.log ++ _) lease.id + (n - 1) =
        refunds (host.log ++ _) lease.id + maxUses
      rw [consumptions_append, refunds_append]
      simp only [List.countP_singleton, LedgerEvent.isConsumption, LedgerEvent.isRefund,
        beq_self_eq_true, if_true, Bool.false_eq_true, if_false]
      omega
    · obtain ⟨g, hg, hrest⟩ := hold.granted
      exact ⟨g, mem_append_left _ hg, hrest⟩
    · intro hmem
      exact hold.revoked (by simpa using hmem)
    · intro hmem
      exact hold.present (by simpa using hmem)
  · cases before with
    | nil =>
      cases hsplit
      rw [append_nil]
      refine ⟨hold.granted, ⟨hrevoked, fun hmem => ?_⟩, hold.present, fun t ht => ?_⟩
      · rw [hold.revoked hmem] at hrevoked
        cases hrevoked
      · rintro ⟨expiresAt, hexp, hle⟩
        exact absurd (hle.trans ht) (not_le.mpr (hexpires expiresAt hexp))
    | cons e before => simp at hsplit

theorem Accounts.refund (h : Accounts host) (id : LeaseId) :
    Accounts (host.update (host.manager.refundUse id) le_rfl (host.refund id)) := by
  unfold LeaseHost.refund
  split
  · next hlookup => exact h.modify_of_not_found _ hlookup
  · next lease hlookup =>
    have hid : lease.id = id := (host.manager.filed id lease hlookup).1
    have hold := h.entry id lease hlookup
    split_ifs with hsame
    · refine h.modify _ hlookup (by simp) ?_ (by simp)
      rw [append_nil, lease.refundUse_eq, hsame]
      exact hold
    · refine h.modify _ hlookup (by simp [LedgerEvent.id]) ?_ fun before _ _ _ hsplit => ?_
      · rw [lease.refundUse_eq]
        refine ⟨fun maxUses remaining hmax hremaining => ?_, ?_, ?_, ?_⟩
        · rcases lease.refundUse_usesRemaining with heq | ⟨n, hn, heq⟩
          · exact absurd heq hsame
          · have hledger := hold.ledger maxUses n hmax hn
            obtain rfl : n + 1 = remaining := Option.some.inj (heq.symm.trans hremaining)
            change consumptions (host.log ++ _) lease.id + (n + 1) =
              refunds (host.log ++ _) lease.id + maxUses
            rw [consumptions_append, refunds_append]
            simp only [List.countP_singleton, LedgerEvent.isConsumption, LedgerEvent.isRefund,
              Bool.false_eq_true, if_false, hid, beq_self_eq_true, if_true]
            rw [hid] at hledger
            omega
        · obtain ⟨g, hg, hrest⟩ := hold.granted
          exact ⟨g, mem_append_left _ hg, hrest⟩
        · intro hmem
          exact hold.revoked (by simpa using hmem)
        · intro hmem
          exact hold.present (by simpa using hmem)
      · cases before <;> simp at hsplit

theorem Accounts.updateGrantedActions (h : Accounts host) (id : LeaseId)
    (granted : GrantedActions) :
    Accounts (host.update (host.manager.updateGrantedActions id granted) le_rfl []) := by
  cases hlookup : host.manager.active.lookup id with
  | none => exact h.modify_of_not_found _ hlookup
  | some lease =>
    have hold := h.entry id lease hlookup
    refine h.modify _ hlookup (by simp) ?_ (by simp)
    rw [append_nil]
    exact ⟨hold.ledger, hold.granted, hold.revoked, hold.present⟩

theorem Accounts.revoke (h : Accounts host) (id : LeaseId) :
    Accounts (host.update (host.manager.revoke id) le_rfl (host.revocation id)) := by
  cases hlookup : host.manager.active.lookup id with
  | none =>
    rw [LeaseHost.revocation, if_neg (AList.lookup_eq_none.mp hlookup)]
    exact h.modify_of_not_found _ hlookup
  | some lease =>
    have hid : lease.id = id := (host.manager.filed id lease hlookup).1
    have hold := h.entry id lease hlookup
    have hmem : id ∈ host.manager.active := HashMap.mem_iff_exists_lookup.mpr ⟨lease, hlookup⟩
    rw [LeaseHost.revocation, if_pos hmem]
    refine h.modify _ hlookup (by simp [LedgerEvent.id]) ⟨?_, ?_, ?_, ?_⟩ fun before _ _ _ hsplit =>
      ?_
    · intro maxUses remaining hmax hremaining
      rw [consumptions_append, refunds_append]
      exact hold.ledger maxUses remaining hmax hremaining
    · obtain ⟨g, hg, hrest⟩ := hold.granted
      exact ⟨g, mem_append_left _ hg, hrest⟩
    · exact fun _ => rfl
    · intro hmem
      exact hold.present (by simpa using hmem)
    · cases before <;> simp at hsplit

theorem Accounts.expireStale (h : Accounts host) (clock : LeaseManager.Clock) :
    Accounts (host.update (host.manager.expireStale clock) le_rfl (host.removals clock)) := by
  have hlookup (id : LeaseId) : (host.manager.expireStale clock).active.lookup id =
      (host.manager.active.lookup id).filter fun lease => lease.isValid (clock id) :=
    HashMap.lookup_retain ..
  refine h.update (host.manager.expireStale clock) le_rfl (fun id lease hl => ?_) (fun e he => ?_)
    (fun child hchild => ?_)
    fun before _ _ _ hsplit => ?_
  · rw [hlookup, Option.filter_eq_some_iff] at hl
    have hid : lease.id = id := (host.manager.filed id lease hl.1).1
    -- what stays is valid, and what is removed is not
    refine .inl ⟨hl.1, fun e he heq => ?_⟩
    obtain ⟨id', hmem, rfl⟩ := mem_map.mp he
    obtain ⟨lease', hlookup', hinvalid⟩ := HashMap.mem_keysWhere.mp hmem
    obtain rfl : id' = id := heq.trans hid
    rw [hl.1] at hlookup'
    cases hlookup'
    rw [hl.2] at hinvalid
    cases hinvalid
  · obtain ⟨id', hmem, rfl⟩ := mem_map.mp he
    obtain ⟨lease', hlookup', -⟩ := HashMap.mem_keysWhere.mp hmem
    refine ⟨(host.manager.filed id' lease' hlookup').2.1, fun child hchild hid => ?_⟩
    have hnone := h.apart child hchild
    rw [hid] at hnone
    exact absurd (hlookup'.symm.trans hnone) (by simp)
  · rw [hlookup, h.apart child hchild]
    rfl
  · have hmem : LedgerEvent.consumed _ _ ∈ host.removals clock :=
      hsplit ▸ mem_append_right before mem_cons_self
    obtain ⟨id', -, hcases⟩ := mem_map.mp hmem
    cases hcases

theorem Accounts.fresh (h : Accounts host) (hid : host.manager.nextId ≤ id) :
    ∀ e ∈ host.log, e.id ≠ id :=
  fun e he heq => absurd (h.logged e he).1 (by rw [heq]; exact not_lt.mpr hid)

theorem Accounts.grant (h : Accounts host) {manager : LeaseManager}
    (hnext : host.manager.nextId ≤ manager.nextId) (hid : lease.id = host.manager.nextId)
    (hbudget : lease.usesRemaining = lease.maxUses)
    (hsucc : manager.nextId = host.manager.nextId + 1)
    (hactive : manager.active = host.manager.active.insert host.manager.nextId lease) :
    Accounts (host.update manager hnext [.granted lease]) := by
  have hlt {child : CapabilityLease} (hchild : child ∈ host.derived.flatten) :
      child.id < host.manager.nextId := by
    obtain ⟨batch, hbatch, hmem⟩ := List.mem_flatten.mp hchild
    exact (host.enterable batch hbatch child hmem).1
  refine h.update manager hnext (fun id lease' hl => ?_) (fun e he => ?_) (fun child hchild => ?_)
    fun before _ _ _ hsplit => ?_
  · rw [hactive, HashMap.lookup_insert] at hl
    split_ifs at hl with hnew
    · cases hl
      exact .inr (Entry.of_granted (h.fresh hid.ge) hbudget (List.mem_singleton_self lease))
    · have hid' : lease'.id = id := (host.manager.filed id lease' hl).1
      refine .inl ⟨hl, fun e he heq => ?_⟩
      obtain rfl := mem_singleton.mp he
      exact hnew (hid'.symm.trans (heq.symm.trans hid))
  · obtain rfl := mem_singleton.mp he
    change lease.id < _ ∧ ∀ child ∈ host.derived.flatten, child.id ≠ lease.id
    rw [hid, hsucc]
    exact ⟨Nat.lt_succ_self _, fun child hchild => (hlt hchild).ne⟩
  · rw [hactive, HashMap.lookup_insert, if_neg (hlt hchild).ne]
    exact h.apart child hchild
  · cases before <;> simp at hsplit

theorem Accounts.deriveChildLeases (h : Accounts host) (clock clock' : LeaseManager.Clock)
    (parentThreadId childThreadId : ThreadId) (requested : Option (List Text))
    (hp : host.perform (.deriveChildLeases clock clock' parentThreadId childThreadId requested) =
      some host') : Accounts host' := by
  cases hp
  -- the new children have ids that were not given before
  have hnew {child : CapabilityLease} (hchild : child ∈
      host.manager.childLeases clock clock' parentThreadId childThreadId requested) :
      host.manager.nextId ≤ child.id :=
    (LeaseManager.id_of_mem_childLeases _ _ _ _ _ _ hchild).1
  have hlt {child : CapabilityLease} (hchild : child ∈ host.derived.flatten) :
      child.id < host.manager.nextId := by
    obtain ⟨batch, hbatch, hmem⟩ := List.mem_flatten.mp hchild
    exact (host.enterable batch hbatch child hmem).1
  refine ⟨h.entry, fun e he => ?_, fun child hchild => ?_, ?_, fun child hchild => ?_, h.live⟩
  · refine ⟨(h.logged e he).1.trans_le (Nat.le_add_right _ _), fun child hchild => ?_⟩
    rw [flatten_append, mem_append, flatten_singleton] at hchild
    rcases hchild with hchild | hchild
    · exact (h.logged e he).2 child hchild
    · exact ((h.logged e he).1.trans_le (hnew hchild)).ne'
  · rw [flatten_append, mem_append, flatten_singleton] at hchild
    rcases hchild with hchild | hchild
    · exact h.apart child hchild
    · change host.manager.active.lookup child.id = none
      cases hlookup : host.manager.active.lookup child.id with
      | none => rfl
      | some lease =>
        exact absurd (host.manager.filed _ _ hlookup).2.1 (not_lt.mpr (hnew hchild))
  · rw [flatten_append, flatten_singleton, List.map_append, List.nodup_append']
    refine ⟨h.nodup, ?_, fun id hid hid' => ?_⟩
    · rw [LeaseManager.map_id_childLeases]
      exact List.nodup_range'
    · obtain ⟨child, hchild, rfl⟩ := mem_map.mp hid
      obtain ⟨child', hchild', heq⟩ := mem_map.mp hid'
      exact absurd (heq ▸ hnew hchild') (not_le.mpr (hlt hchild))
  · rw [flatten_append, mem_append, flatten_singleton] at hchild
    rcases hchild with hchild | hchild
    · exact h.unused child hchild
    · obtain ⟨p, -, rfl⟩ := mem_map.mp hchild
      rfl

theorem Accounts.enterChildLeases (h : Accounts host) (index : Nat)
    (hp : host.perform (.enterChildLeases index) = some host') : Accounts host' := by
  simp only [LeaseHost.perform] at hp
  split_ifs at hp with hindex
  cases hp
  -- the batch and the ones that remain
  have hperm : (host.derived[index] ++ (host.derived.eraseIdx index).flatten).Perm
      host.derived.flatten := (List.getElem_cons_eraseIdx_perm hindex).flatten
  have hbatch {child : CapabilityLease} (hchild : child ∈ host.derived[index]) :
      child ∈ host.derived.flatten := hperm.subset (mem_append_left _ hchild)
  have hrest {child : CapabilityLease} (hchild : child ∈ (host.derived.eraseIdx index).flatten) :
      child ∈ host.derived.flatten := hperm.subset (mem_append_right _ hchild)
  have hnodup := (hperm.map CapabilityLease.id).nodup_iff.mpr h.nodup
  rw [List.map_append, List.nodup_append'] at hnodup
  have hapart {child child' : CapabilityLease} (hchild : child ∈ host.derived[index])
      (hchild' : child' ∈ (host.derived.eraseIdx index).flatten) : child'.id ≠ child.id :=
    fun heq => hnodup.2.2 (mem_map_of_mem hchild) (heq ▸ mem_map_of_mem hchild')
  refine ⟨fun id lease hl => ?_, fun e he => ?_, fun child hchild => ?_, hnodup.2.1,
    fun child hchild => h.unused child (hrest hchild), fun _ _ _ _ hsplit => ?_⟩
  · rcases LeaseManager.lookup_foldl_insert hl with ⟨hmem, -⟩ | hold
    · refine Entry.of_granted (fun e he heq => ?_) (h.unused lease (hbatch hmem)) hmem
      exact (h.logged e he).2 lease (hbatch hmem) heq.symm
    · refine (h.entry id lease hold).append fun e he heq => ?_
      obtain ⟨child, hchild, rfl⟩ := mem_map.mp he
      have hnone := h.apart child (hbatch hchild)
      rw [show child.id = id from heq.trans (host.manager.filed id lease hold).1, hold] at hnone
      cases hnone
  · rcases mem_append.mp he with he | he
    · exact ⟨(h.logged e he).1, fun child hchild => (h.logged e he).2 child (hrest hchild)⟩
    · obtain ⟨child, hchild, rfl⟩ := mem_map.mp he
      refine ⟨(host.enterable _ (List.getElem_mem hindex) child hchild).1, fun child' hchild' => ?_⟩
      exact hapart hchild hchild'
  · change AList.lookup _ (List.foldl _ _ _) = none
    cases hlookup : (host.derived[index].foldl
        (fun table child => table.insert child.id child) host.manager.active).lookup child.id with
    | none => rfl
    | some lease =>
      rcases LeaseManager.lookup_foldl_insert hlookup with ⟨hmem, hid⟩ | hold
      · exact absurd hid.symm (hapart hmem hchild)
      · exact absurd (hold.symm.trans (h.apart child (hrest hchild))) (by simp)
  · refine h.live_append (fun before _ _ _ hsplit => ?_) hsplit
    have hmem := hsplit ▸ mem_append_right before mem_cons_self
    obtain ⟨child, -, hcases⟩ := mem_map.mp hmem
    cases hcases

theorem accounts_of_perform (h : Accounts host) {call : LeaseCall}
    (hp : host.perform call = some host') : Accounts host' := by
  cases call with
  | grant now threadId capabilityName granted duration maxUses =>
    cases hp
    generalize_proofs hnext
    revert hnext
    rcases host.manager.grant_cases now threadId capabilityName granted duration maxUses with
      ⟨e, hr⟩ | ⟨lease, manager, hr, hid, hbudget, hsucc, hactive⟩
    · rw [hr]
      exact fun _ => h.unchanged
    · rw [hr]
      exact fun hnext => h.grant hnext hid hbudget hsucc hactive
  | consumeUse clock id =>
    cases hp
    generalize_proofs hnext
    revert hnext
    rcases hr : host.manager.consumeUse clock id with ⟨result, manager⟩
    cases result with
    | error e =>
      obtain rfl := LeaseManager.consumeUse_error hr
      exact fun _ => h.unchanged
    | ok _ =>
      obtain ⟨lease, lease', hlookup, hvalid, hcons, rfl⟩ := LeaseManager.consumeUse_ok hr
      exact fun _ => h.consume hlookup hvalid hcons
  | findAndConsume clock threadId actionName =>
    cases hp
    generalize_proofs hnext
    revert hnext
    rcases hr : host.manager.findAndConsume clock threadId actionName with ⟨result, manager⟩
    cases result with
    | error e =>
      obtain rfl := LeaseManager.findAndConsume_error hr
      exact fun _ => h.unchanged
    | ok lease' =>
      -- the lease that is found is consumed under its own id
      obtain ⟨lease, hlookup, -, hvalid, -, hcons, rfl⟩ := LeaseManager.findAndConsume_ok hr
      have hid : lease'.id = lease.id := by rw [(CapabilityLease.consumeUse_eq_some hcons).1]
      intro hnext
      change Accounts (host.update _ hnext (host.consumption (clock lease'.id) lease'.id))
      rw [hid]
      exact h.consume hlookup hvalid hcons
  | refundUse id =>
    cases hp
    exact h.refund id
  | updateGrantedActions id granted =>
    cases hp
    exact h.updateGrantedActions id granted
  | revoke id =>
    cases hp
    exact h.revoke id
  | expireStale clock =>
    cases hp
    exact h.expireStale clock
  | deriveChildLeases clock clock' parentThreadId childThreadId requested =>
    exact h.deriveChildLeases clock clock' parentThreadId childThreadId requested hp
  | enterChildLeases index => exact h.enterChildLeases index hp

theorem accounts_new : Accounts .new where
  entry := fun _ _ hl => by simp [LeaseHost.new, LeaseManager.new] at hl
  logged := by simp [LeaseHost.new]
  apart := by simp [LeaseHost.new]
  nodup := by simp [LeaseHost.new]
  unused := by simp [LeaseHost.new]
  live := by simp [LeaseHost.new]

theorem Accounts.balanced (h : Accounts host)
    (hlookup : host.manager.active.lookup id = some lease) : Balanced host.log lease := by
  have hbudget := (host.manager.filed id lease hlookup).2.2
  have hledger := (h.entry id lease hlookup).ledger
  unfold CapabilityLease.WithinBudget at hbudget
  unfold Balanced
  cases hmax : lease.maxUses with
  | none =>
    cases hremaining : lease.usesRemaining with
    | none => simp
    | some remaining => simp [hmax, hremaining] at hbudget
  | some maxUses =>
    cases hremaining : lease.usesRemaining with
    | none => simp [hmax, hremaining] at hbudget
    | some remaining =>
      rw [hmax, hremaining] at hbudget
      refine ⟨rfl, fun _ _ hm hr => ?_⟩
      cases hm
      cases hr
      have hsum := hledger maxUses remaining hmax hremaining
      exact ⟨hbudget, by omega⟩

/-- **The accounts of the leases.** Each lease is balanced, and nothing stood against a consumption
that succeeded. -/
theorem accounts_of_run {calls : List LeaseCall}
    (hr : run LeaseHost.perform .new calls = some host) :
    (∀ id lease, host.manager.active.lookup id = some lease →
      lease.id = id ∧ Balanced host.log lease) ∧
    ∀ before now lease after, host.log = before ++ .consumed now lease :: after →
      Live before now lease := by
  have haccounts : Accounts host := Foundation.run_invariant (C := fun _ _ => True)
    (fun _ _ _ h _ hp => accounts_of_perform h hp) accounts_new (.of_forall_mem (by simp) _) hr
  exact ⟨fun id lease hl => ⟨(host.manager.filed id lease hl).1, haccounts.balanced hl⟩,
    haccounts.live⟩

end Accounts

/-- A lease for two uses, one consumed by its action, one by its id and refunded. -/
theorem accounts_of_refund : ∃ host, run LeaseHost.perform .new
      [.grant 0 1 "tools".toList .all none (some 2), .findAndConsume (fun _ => 1) 1 "echo".toList,
        .consumeUse (fun _ => 2) 0, .refundUse 0, .revoke 0,
          .consumeUse (fun _ => 3) 0] = some host ∧
      ∃ lease, host.manager.active.lookup 0 = some lease ∧ Balanced host.log lease := by
  obtain ⟨host, hrun⟩ : ∃ host, run LeaseHost.perform .new
      [.grant 0 1 "tools".toList .all none (some 2), .findAndConsume (fun _ => 1) 1 "echo".toList,
        .consumeUse (fun _ => 2) 0, .refundUse 0, .revoke 0, .consumeUse (fun _ => 3) 0] =
      some host := ⟨_, rfl⟩
  obtain ⟨lease, hlease⟩ : ∃ lease, host.manager.active.lookup 0 = some lease := by
    cases hrun
    exact ⟨_, rfl⟩
  exact ⟨host, hrun, lease, hlease, ((accounts_of_run hrun).1 0 lease hlease).2⟩

end IronClaw.Engine
