import IronClaw.Foundation.HashMap
import IronClaw.Foundation.Text

/-!
# Actions, grants and leases

A thread may use an action when it holds a valid lease that covers the name. A grant covers the
names it lists, with hyphens or underscores changed for each other.
-/

namespace IronClaw.Engine

open Foundation (Text)

abbrev Time := Nat

abbrev ThreadId := Nat

abbrev LeaseId := Nat

inductive EffectType where
  | readLocal
  | readExternal
  | writeLocal
  | writeExternal
  | credentialedNetwork
  | compute
  | financial
deriving DecidableEq

structure ActionDef where
  name : Text
  effects : List EffectType
  requiresApproval : Bool
  /-- The name in the discovery metadata, where there is any. -/
  discovery : Option Text
deriving DecidableEq

def hyphenated (name : Text) : Text := name.replaceChar '_' '-'

def underscored (name : Text) : Text := name.replaceChar '-' '_'

namespace ActionDef

def discoveryName (action : ActionDef) : Text := action.discovery.getD action.name

def matchesName (action : ActionDef) (name : Text) : Bool :=
  let trimmed := name.trim
  if trimmed.isEmpty then false
  else if action.name = trimmed ∨ action.discoveryName = trimmed then true
  else if '-' ∈ trimmed ∨ '-' ∈ action.name ∨ '-' ∈ action.discoveryName then
    underscored trimmed == underscored action.name ||
      underscored trimmed == underscored action.discoveryName
  else false

end ActionDef

inductive GrantedActions where
  /-- Wildcard: covers all actions in the capability. -/
  | all
  /-- Restricted to specific action names. -/
  | specific (actions : List Text)
deriving DecidableEq

namespace GrantedActions

def covers (granted : GrantedActions) (actionName : Text) : Bool :=
  match granted with
  | all => true
  | specific actions => actions.any fun action =>
      action == actionName || action == hyphenated actionName || action == underscored actionName

def isAll : GrantedActions → Bool
  | all => true
  | specific _ => false

def actions : GrantedActions → List Text
  | all => []
  | specific actions => actions

end GrantedActions

/-- A granted name stands for an action's: it is the name or one of its variants. -/
def Alias (granted actionName : Text) : Prop :=
  granted = actionName ∨ granted = hyphenated actionName ∨ granted = underscored actionName

instance (granted actionName : Text) : Decidable (Alias granted actionName) :=
  inferInstanceAs (Decidable (_ ∨ _ ∨ _))

theorem GrantedActions.covers_specific_iff {actions : List Text} {actionName : Text} :
    (specific actions).covers actionName = true ↔ ∃ g ∈ actions, Alias g actionName := by
  simp [covers, Alias, or_assoc]

structure CapabilityLease where
  id : LeaseId
  threadId : ThreadId
  capabilityName : Text
  grantedActions : GrantedActions
  expiresAt : Option Time
  maxUses : Option Nat
  usesRemaining : Option Nat
  revoked : Bool
deriving DecidableEq

namespace CapabilityLease

def isValid (now : Time) (lease : CapabilityLease) : Bool :=
  !lease.revoked && lease.expiresAt.all (fun expiresAt => decide (now < expiresAt)) &&
    lease.usesRemaining.all fun remaining => decide (remaining ≠ 0)

def coversAction (lease : CapabilityLease) (actionName : Text) : Bool :=
  lease.grantedActions.covers actionName

def consumeUse (lease : CapabilityLease) : Option CapabilityLease :=
  match lease.usesRemaining with
  | none => some lease
  | some 0 => none
  | some (n + 1) => some { lease with usesRemaining := some n }

def refundUse (lease : CapabilityLease) : CapabilityLease :=
  match lease.maxUses, lease.usesRemaining with
  | some maxUses, some remaining =>
    if remaining < maxUses then { lease with usesRemaining := some (remaining + 1) } else lease
  | _, _ => lease

variable {lease : CapabilityLease}

theorem isValid_iff {now : Time} : lease.isValid now = true ↔ lease.revoked = false ∧
      (∀ t, lease.expiresAt = some t → now < t) ∧ lease.usesRemaining ≠ some 0 := by
  unfold isValid
  cases lease.expiresAt <;> cases lease.usesRemaining <;> simp [and_assoc]

/-- The uses that remain are among the uses granted, and counted only if these are. -/
def WithinBudget (lease : CapabilityLease) : Prop :=
  match lease.maxUses, lease.usesRemaining with
  | none, none => True
  | some maxUses, some remaining => remaining ≤ maxUses
  | _, _ => False

theorem withinBudget_of_eq (h : lease.usesRemaining = lease.maxUses) :
    lease.WithinBudget := by
  unfold WithinBudget
  rw [h]
  cases lease.maxUses <;> simp

theorem consumeUse_eq_some {lease lease' : CapabilityLease} (h : lease.consumeUse = some lease') :
    lease' = { lease with usesRemaining := lease.usesRemaining.map (· - 1) } ∧
      lease.usesRemaining ≠ some 0 := by
  unfold consumeUse at h
  split at h
  · next hnone =>
    cases h
    exact ⟨by rw [hnone, Option.map_none, ← hnone], by simp [hnone]⟩
  · cases h
  · next n hsome =>
    cases h
    exact ⟨by rw [hsome]; rfl, by simp [hsome]⟩

theorem WithinBudget.consumeUse {lease lease' : CapabilityLease} (hb : lease.WithinBudget)
    (h : lease.consumeUse = some lease') : lease'.WithinBudget := by
  obtain ⟨rfl, -⟩ := consumeUse_eq_some h
  unfold WithinBudget at hb ⊢
  cases hmax : lease.maxUses <;> cases hrem : lease.usesRemaining <;> simp_all
  omega

theorem refundUse_eq (lease : CapabilityLease) :
    lease.refundUse = { lease with usesRemaining := lease.refundUse.usesRemaining } := by
  unfold refundUse
  split
  · split_ifs <;> rfl
  · rfl

theorem WithinBudget.refundUse (hb : lease.WithinBudget) : lease.refundUse.WithinBudget := by
  unfold CapabilityLease.refundUse
  split
  · next maxUses remaining hmax hrem =>
    split_ifs with hlt
    · simp only [WithinBudget, hmax]
      omega
    · exact hb
  · exact hb

end CapabilityLease

end IronClaw.Engine
