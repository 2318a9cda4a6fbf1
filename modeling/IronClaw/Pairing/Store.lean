import IronClaw.Foundation.HashMap
import IronClaw.Foundation.Interleaving

/-!
# The pairing store

The owner of a sender is in the database. A lookup that misses the cache reads it there, and fills
the cache in another step; a removal evicts in another step.
-/

namespace IronClaw.Pairing

open Foundation (HashMap Pool)

abbrev Uuid := Nat

inductive UserRole where
  | owner
  | admin
  | regular
deriving DecidableEq

structure UserId where
  id : String
  role : UserRole
deriving DecidableEq

/-- The key of a channel. -/
def normalizeChannelName (channel : String) : String := channel.map Char.toLower

abbrev Sender := String × String

def sender (channel externalId : String) : Sender := (normalizeChannelName channel, externalId)

structure PairingApprovalRecord where
  requestId : Uuid
  sender : Sender
  ownerId : String
  previousOwnerId : Option String
deriving DecidableEq

structure PairingStore where
  db : Option (HashMap Sender String)
  cache : HashMap Sender UserId

abbrev Users := String → Option UserRole

def resolveChannelIdentity (users : Users) (identities : HashMap Sender String) (s : Sender) :
    Option UserId :=
  (identities.lookup s).bind fun owner => (users owner).map fun role => ⟨owner, role⟩

def approvePairing (requestId : Uuid) (s : Sender) (ownerId : String)
    (identities : HashMap Sender String) : PairingApprovalRecord × HashMap Sender String :=
  (⟨requestId, s, ownerId, identities.lookup s⟩, identities.insert s ownerId)

/-- The previous owner is put back; without one, the sender is released from the approved owner
only. -/
def revertPairingApproval (approval : PairingApprovalRecord) (identities : HashMap Sender String) :
    HashMap Sender String :=
  match approval.previousOwnerId with
  | some previous => identities.insert approval.sender previous
  | none =>
    if identities.lookup approval.sender = some approval.ownerId then
      identities.erase approval.sender
    else identities

/-- What the database finds: whether it is reached, who is active, and a code's request. -/
structure Moment where
  available : Bool
  users : Users
  request : Option (Uuid × String)

/-- An owner that a removal took from a sender, when so many mappings had been approved. -/
structure Unpaired where
  sender : Sender
  owner : String
  approvals : Nat
deriving DecidableEq

/-- A lookup's result, with the removals before the call and the approvals until its return. -/
structure Answer where
  sender : Sender
  result : Option UserId
  unpaired : List Unpaired
  approved : List (Sender × String)
deriving DecidableEq

/-- The store, and what was approved, mapped, removed, returned and answered. -/
structure PairingHost where
  store : PairingStore
  approvals : List PairingApprovalRecord
  approved : List (Sender × String)
  removed : List Unpaired
  returned : List Unpaired
  answers : List Answer

/-- An approval is reverted by the record that its approval returned. -/
inductive PairingCall where
  | resolveIdentity (channel externalId : String)
  | approve (channel : String) (ownerId : String)
  | revertApproval (n : Nat)
  | remove (channel externalId : String)

/-- A call before its next step. A lookup knows the removals that had returned before it. -/
inductive PairingTask where
  | resolving (s : Sender) (unpaired : List Unpaired)
  | reading (s : Sender) (unpaired : List Unpaired)
  | caching (s : Sender) (unpaired : List Unpaired) (identity : UserId)
  | approving (channel : String) (ownerId : String)
  | reverting (approval : PairingApprovalRecord)
  | removing (s : Sender)
  | evicting (s : Sender) (unpaired : List Unpaired)

def PairingCall.task (host : PairingHost) : PairingCall → Option PairingTask
  | resolveIdentity channel externalId =>
    some (.resolving (sender channel externalId) host.returned)
  | approve channel ownerId => some (.approving (normalizeChannelName channel) ownerId)
  | revertApproval n => host.approvals[n]?.map .reverting
  | remove channel externalId => some (.removing (sender channel externalId))

namespace PairingHost

def answer (host : PairingHost) (s : Sender) (unpaired : List Unpaired)
    (result : Option UserId) : PairingHost :=
  { host with answers := host.answers ++ [⟨s, result, unpaired, host.approved⟩] }

/-- The owners that `s` has lost: the one it had, and one whose approval was reverted. -/
def lost (host : PairingHost) (s : Sender) (before after named : Option String) : List Unpaired :=
  ((before.toList ++ named.toList).filter fun owner => after ≠ some owner).map fun owner =>
    ⟨s, owner, host.approved.length⟩

def unpair (host : PairingHost) (s : Sender) (named : Option String)
    (identities identities' : HashMap Sender String) : PairingHost × List PairingTask :=
  let unpaired := host.lost s (identities.lookup s) (identities'.lookup s) named
  ({ host with
    store := { host.store with db := some identities' }
    removed := host.removed ++ unpaired }, [.evicting s unpaired])

end PairingHost

/-- The next step of a call. Without a database nothing is known or to revert. -/
def PairingTask.next (m : Moment) (host : PairingHost) :
    PairingTask → Option (PairingHost × List PairingTask)
  | resolving s unpaired =>
    match host.store.cache.lookup s with
    | some identity => some (host.answer s unpaired (some identity), [])
    | none => some (host, [.reading s unpaired])
  | reading s unpaired =>
    match host.store.db with
    | none => some (host.answer s unpaired none, [])
    | some identities =>
      if m.available then
        match resolveChannelIdentity m.users identities s with
        | none => some (host.answer s unpaired none, [])
        | some identity => some (host, [.caching s unpaired identity])
      else some (host, [])
  | caching s unpaired identity =>
    some ({ host with store := { host.store with
      cache := host.store.cache.insert s identity } }.answer s unpaired (some identity), [])
  | approving channel ownerId =>
    match host.store.db, m.available, m.request with
    | some identities, true, some (requestId, externalId) =>
      let r := approvePairing requestId (channel, externalId) ownerId identities
      some ({ host with
        store := { host.store with db := some r.2 }
        approvals := host.approvals ++ [r.1]
        approved := host.approved ++ [((channel, externalId), ownerId)] }, [])
    | _, _, _ => some (host, [])
  | reverting approval =>
    match host.store.db with
    | none => some (host, [])
    | some identities =>
      if m.available then
        some (host.unpair approval.sender (some approval.ownerId) identities
          (revertPairingApproval approval identities))
      else some (host, [])
  | removing s =>
    match host.store.db with
    | none =>
      some ({ host with store := { host.store with cache := host.store.cache.erase s } }, [])
    | some identities =>
      if m.available then some (host.unpair s none identities (identities.erase s))
      else some (host, [])
  | evicting s unpaired =>
    some ({ host with
      store := { host.store with cache := host.store.cache.erase s }
      returned := host.returned ++ unpaired }, [])

inductive PairingAction where
  | call (c : PairingCall)
  | step (i : Nat) (m : Moment)

def pairingStep (p : Pool PairingHost PairingTask) : PairingAction →
    Option (Pool PairingHost PairingTask)
  | .call c => (c.task p.shared).map p.start
  | .step i m => p.advance PairingTask.next i m

def PairingHost.start (db : Option (HashMap Sender String)) : Pool PairingHost PairingTask where
  shared := ⟨⟨db, ∅⟩, [], [], [], [], []⟩
  tasks := []

end IronClaw.Pairing
