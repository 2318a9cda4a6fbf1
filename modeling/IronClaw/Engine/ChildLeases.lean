import IronClaw.Engine.LeaseLedger

/-!
# What a child gets of its parent's leases

From each valid lease of its parent a child gets what it asks for: any action from a wildcard, and
from a list those spelled in the same way, although it covers both spellings.
-/

namespace IronClaw.Engine

open Foundation (Text)
open LeaseManager (childGrants)

def asGrant : Option (List Text) → GrantedActions
  | none => .all
  | some actions => .specific actions

def AskedFor (requested : Option (List Text)) (name : Text) : Prop :=
  ∀ actions, requested = some actions → name ∈ actions

structure CapabilityLease.InheritsFrom (child parent : CapabilityLease) : Prop where
  capabilityName : child.capabilityName = parent.capabilityName
  expiresAt : child.expiresAt = parent.expiresAt
  maxUses : child.maxUses = parent.usesRemaining
  usesRemaining : child.usesRemaining = parent.usesRemaining

section Grants

variable {requested : Option (List Text)} {granted g : GrantedActions} {name : Text}

theorem covers_of_childGrants (h : childGrants requested granted = some g)
    (hcov : g.covers name = true) :
    granted.covers name = true ∧ (asGrant requested).covers name = true := by
  cases requested with
  | none =>
    cases h
    exact ⟨hcov, rfl⟩
  | some actions =>
    simp only [childGrants] at h
    split_ifs at h
    cases h
    obtain ⟨a, ha, halias⟩ := GrantedActions.covers_specific_iff.mp hcov
    cases granted with
    | all => exact ⟨rfl, GrantedActions.covers_specific_iff.mpr ⟨a, ha, halias⟩⟩
    | specific names =>
      obtain ⟨hnames, hactions⟩ := List.mem_filter.mp ha
      exact ⟨GrantedActions.covers_specific_iff.mpr ⟨a, hnames, halias⟩,
        GrantedActions.covers_specific_iff.mpr ⟨a, by simpa using hactions, halias⟩⟩

theorem exists_childGrants_covers_iff {actions : List Text} :
    (∃ g, childGrants (some actions) granted = some g ∧ g.covers name = true) ↔
      ∃ a ∈ actions, Alias a name ∧ (granted = .all ∨ a ∈ granted.actions) := by
  have hlisted : ∀ l : List Text,
      (∃ g, (if l.isEmpty then none else some (GrantedActions.specific l)) = some g ∧
        g.covers name = true) ↔ ∃ a ∈ l, Alias a name := by
    intro l
    cases l with
    | nil => simp
    | cons a l => simp [GrantedActions.covers_specific_iff]
  cases granted with
  | all =>
    refine (hlisted actions).trans ?_
    simp
  | specific names =>
    refine (hlisted (names.filter (actions.contains ·))).trans ?_
    simp only [List.mem_filter, List.contains_iff_mem, reduceCtorEq, false_or,
      GrantedActions.actions]
    constructor
    · rintro ⟨a, ⟨hn, ha⟩, halias⟩
      exact ⟨a, ha, halias, hn⟩
    · rintro ⟨a, ha, halias, hn⟩
      exact ⟨a, ⟨hn, ha⟩, halias⟩

end Grants

namespace LeaseManager

variable (clock clock' : Clock) (m : LeaseManager) (parentThreadId childThreadId : ThreadId)
  (requested : Option (List Text))

/-- The leases of a parent that are valid at both checks of a derivation. -/
def inheritable : List CapabilityLease :=
  (m.activeForThread clock parentThreadId).filter fun parent => parent.isValid (clock' parent.id)

variable {clock clock' m parentThreadId childThreadId requested}

theorem exists_parent_of_child {child : CapabilityLease}
    (h : child ∈ m.childLeases clock clock' parentThreadId childThreadId requested) :
    ∃ parent ∈ m.inheritable clock clock' parentThreadId, child.InheritsFrom parent ∧
      childGrants requested parent.grantedActions = some child.grantedActions := by
  obtain ⟨⟨⟨parent, granted⟩, id⟩, hmem, rfl⟩ := List.mem_map.mp h
  obtain ⟨p, hp, hsome⟩ := List.mem_filterMap.mp (List.fst_mem_of_mem_zipIdx hmem)
  split_ifs at hsome with hvalid
  obtain ⟨g, hg, heq⟩ := Option.map_eq_some_iff.mp hsome
  cases heq
  exact ⟨parent, List.mem_filter.mpr ⟨hp, hvalid⟩, ⟨rfl, rfl, rfl, rfl⟩, hg⟩

theorem exists_child_of_parent {parent : CapabilityLease} {granted : GrantedActions}
    (hp : parent ∈ m.inheritable clock clock' parentThreadId)
    (hg : childGrants requested parent.grantedActions = some granted) :
    ∃ child ∈ m.childLeases clock clock' parentThreadId childThreadId requested,
      child.InheritsFrom parent ∧ child.grantedActions = granted := by
  obtain ⟨hactive, hvalid⟩ := List.mem_filter.mp hp
  have hmem : (parent, granted) ∈ (m.activeForThread clock parentThreadId).filterMap fun parent =>
      if parent.isValid (clock' parent.id) then
        (childGrants requested parent.grantedActions).map fun granted => (parent, granted)
      else none := by
    refine List.mem_filterMap.mpr ⟨parent, hactive, ?_⟩
    rw [if_pos hvalid, hg, Option.map_some]
  obtain ⟨i, hi⟩ := List.getElem?_of_mem hmem
  exact ⟨_, List.mem_map_of_mem (List.mk_add_mem_zipIdx_iff_getElem?.mpr hi), ⟨rfl, rfl, rfl, rfl⟩,
    rfl⟩

variable (clock clock' m parentThreadId childThreadId requested)

/-- Child leases grant what is asked for and covered, with the parent's expiry and budget. -/
structure DerivesExactly : Prop where
  only : ∀ child ∈ m.childLeases clock clock' parentThreadId childThreadId requested,
    ∃ parent ∈ m.inheritable clock clock' parentThreadId, child.InheritsFrom parent ∧
      (∀ name ∈ child.grantedActions.actions, AskedFor requested name) ∧
      ∀ name, child.coversAction name = true →
        parent.coversAction name = true ∧ (asGrant requested).covers name = true
  all : ∀ parent ∈ m.inheritable clock clock' parentThreadId, ∀ name, AskedFor requested name →
    parent.coversAction name = true →
    ∃ child ∈ m.childLeases clock clock' parentThreadId childThreadId requested,
      child.coversAction name = true

/-- What is asked for and covered is asked for as a valid lease spells it, unless by a wildcard. -/
def SpelledAlike : Prop :=
  ∀ actions, requested = some actions → ∀ name ∈ actions,
    (∃ parent ∈ m.inheritable clock clock' parentThreadId, parent.coversAction name = true) →
    ∃ a ∈ actions, Alias a name ∧ ∃ parent ∈ m.inheritable clock clock' parentThreadId,
      parent.grantedActions = .all ∨ a ∈ parent.grantedActions.actions

variable {clock clock' m parentThreadId childThreadId requested}

theorem askedFor_of_childGrants {granted g : GrantedActions} {name : Text}
    (h : childGrants requested granted = some g) (hname : name ∈ g.actions) :
    AskedFor requested name := by
  rintro actions rfl
  cases granted <;> simp only [childGrants] at h <;> split_ifs at h <;> cases h
  · exact hname
  · simpa using (List.mem_filter.mp hname).2

/-- **A derivation is exact exactly if the spellings agree.** It never grants too much. -/
theorem derivesExactly_iff : DerivesExactly clock clock' m parentThreadId childThreadId requested ↔
    SpelledAlike clock clock' m parentThreadId requested := by
  constructor
  · rintro ⟨-, hall⟩ actions rfl name hname ⟨parent, hparent, hcov⟩
    obtain ⟨child, hchild, hchildcov⟩ := hall parent hparent name
      (fun _ h => Option.some.inj h ▸ hname) hcov
    obtain ⟨parent', hparent', -, hg⟩ := exists_parent_of_child hchild
    obtain ⟨a, ha, halias, hlists⟩ := exists_childGrants_covers_iff.mp ⟨_, hg, hchildcov⟩
    exact ⟨a, ha, halias, parent', hparent', hlists⟩
  · intro hspelled
    refine ⟨fun child hchild => ?_, fun parent hparent name hasked hcov => ?_⟩
    · obtain ⟨parent, hparent, hinherits, hg⟩ := exists_parent_of_child hchild
      exact ⟨parent, hparent, hinherits, fun name => askedFor_of_childGrants hg,
        fun name => covers_of_childGrants hg⟩
    · cases requested with
      | none =>
        obtain ⟨child, hchild, -, hgranted⟩ := exists_child_of_parent hparent
          (show childGrants none parent.grantedActions = some parent.grantedActions from rfl)
        refine ⟨child, hchild, ?_⟩
        rw [CapabilityLease.coversAction, hgranted]
        exact hcov
      | some actions =>
        obtain ⟨a, ha, halias, parent', hparent', hlists⟩ :=
          hspelled actions rfl name (hasked actions rfl) ⟨parent, hparent, hcov⟩
        obtain ⟨g, hg, hgcov⟩ := exists_childGrants_covers_iff.mpr ⟨a, ha, halias, hlists⟩
        obtain ⟨child, hchild, -, rfl⟩ := exists_child_of_parent hparent' hg
        exact ⟨child, hchild, hgcov⟩

def hyphenLease : LeaseManager :=
  (new.grant 0 0 "web".toList (.specific ["web-fetch".toList]) none none).2

/-- A child that asks with an underscore gets nothing, although the lease covers it. -/
theorem not_derivesExactly_underscore : ¬ DerivesExactly (fun _ => 0) (fun _ => 0) hyphenLease 0 1
    (some ["web_fetch".toList]) := by
  rintro ⟨-, hall⟩
  obtain ⟨child, hchild, -⟩ := hall
    ⟨0, 0, "web".toList, .specific ["web-fetch".toList], none, none, none, false⟩ (by decide)
    "web_fetch".toList (fun _ h => Option.some.inj h ▸ List.mem_singleton_self _) (by decide)
  have hnone : hyphenLease.childLeases (fun _ => 0) (fun _ => 0) 0 1
      (some ["web_fetch".toList]) = [] := by decide
  rw [hnone] at hchild
  cases hchild

end LeaseManager

end IronClaw.Engine
