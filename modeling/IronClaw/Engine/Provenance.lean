import Mathlib.Order.Bounds.Basic
import IronClaw.Engine.Policy

/-!
# Policy decisions as a maximum

The policy engine returns early or merges what the rules and the origin of the data ask for. The
decision is of the greatest kind that anything contributes.
-/

namespace IronClaw.Engine

open Foundation (Text)

/-- The origin of a piece of data. -/
inductive Provenance where
  | user
  | system
  | toolOutput (actionName : Text)
  | llmGenerated
  | memoryRetrieval (docId : Nat)

/-- Evaluate with provenance-aware taint checking. -/
def PolicyEngine.evaluateWithProvenance (now : Time) (policy : PolicyEngine) (action : ActionDef)
    (lease : CapabilityLease) (capabilityPolicies : List PolicyRule) (provenance : Provenance) :
    PolicyDecision :=
  let decision := policy.evaluate now action lease capabilityPolicies
  match provenance with
  | .llmGenerated =>
    let decision :=
      if action.effects.contains .financial then
        mergeDecision decision .requireApproval
          "LLM-generated data cannot trigger financial effects without approval"
      else decision
    if action.effects.contains .writeExternal then
      mergeDecision decision .requireApproval
        "LLM-generated data requires approval for external writes"
    else decision
  | .toolOutput _ =>
    if action.effects.contains .financial then
      mergeDecision decision .requireApproval
        "tool output data requires approval for financial effects"
    else decision
  | .user | .system => decision
  | .memoryRetrieval _ => decision

/-- A decision without its reason. -/
inductive DecisionKind where
  | allow
  | requireApproval
  | deny
deriving DecidableEq

def DecisionKind.rank : DecisionKind → Nat
  | allow => 0
  | requireApproval => 1
  | deny => 2

theorem DecisionKind.rank_injective : Function.Injective rank := by
  intro a b h
  cases a <;> cases b <;> first | rfl | cases h

instance : LinearOrder DecisionKind := LinearOrder.lift' _ DecisionKind.rank_injective

def PolicyDecision.kind : PolicyDecision → DecisionKind
  | allow => .allow
  | deny _ => .deny
  | requireApproval _ => .requireApproval

def PolicyEffect.kind : PolicyEffect → DecisionKind
  | allow => .allow
  | deny => .deny
  | requireApproval => .requireApproval

theorem DecisionKind.le_deny (k : DecisionKind) : k ≤ .deny := by cases k <;> decide

theorem kind_mergeDecision (current : PolicyDecision) (effect : PolicyEffect) (source : String) :
    (mergeDecision current effect source).kind = max effect.kind current.kind := by
  cases effect <;> cases current <;> rfl

/-- What asks for approval because of the origin of the data. -/
def Provenance.taints (action : ActionDef) : Provenance → Prop
  | llmGenerated => .financial ∈ action.effects ∨ .writeExternal ∈ action.effects
  | toolOutput _ => .financial ∈ action.effects
  | _ => False

variable {now : Time} {policy : PolicyEngine} {action : ActionDef} {lease : CapabilityLease}
  {capabilityPolicies : List PolicyRule}

/-- What contributes to the decision on an action, given the data that taints it. -/
inductive Contributes (now : Time) (policy : PolicyEngine) (action : ActionDef)
    (lease : CapabilityLease) (capabilityPolicies : List PolicyRule) (tainted : Prop) :
    DecisionKind → Prop where
  | permission : Contributes now policy action lease capabilityPolicies tainted .allow
  | invalid (h : lease.isValid now = false) :
      Contributes now policy action lease capabilityPolicies tainted .deny
  | uncovered (h : lease.coversAction action.name = false) :
      Contributes now policy action lease capabilityPolicies tainted .deny
  | deniedEffect {effect : EffectType} (h : effect ∈ action.effects)
      (hdenied : effect ∈ policy.deniedEffects) :
      Contributes now policy action lease capabilityPolicies tainted .deny
  | rule {rule : PolicyRule} (h : rule ∈ policy.globalPolicies ++ capabilityPolicies)
      (hmatch : ruleMatches rule action = true) :
      Contributes now policy action lease capabilityPolicies tainted rule.effect.kind
  | requiresApproval (h : action.requiresApproval = true) :
      Contributes now policy action lease capabilityPolicies tainted .requireApproval
  | taint (h : tainted) :
      Contributes now policy action lease capabilityPolicies tainted .requireApproval

/-- More rules, denied effects and taints contribute more. -/
theorem Contributes.mono {policy' : PolicyEngine} {capabilityPolicies' : List PolicyRule}
    {tainted tainted' : Prop} {k : DecisionKind}
    (hrules : policy.globalPolicies ++ capabilityPolicies ⊆
      policy'.globalPolicies ++ capabilityPolicies')
    (hdenied : policy.deniedEffects ⊆ policy'.deniedEffects) (htaint : tainted → tainted')
    (h : Contributes now policy action lease capabilityPolicies tainted k) :
    Contributes now policy' action lease capabilityPolicies' tainted' k := by
  cases h with
  | permission => exact .permission
  | invalid h => exact .invalid h
  | uncovered h => exact .uncovered h
  | deniedEffect h h' => exact .deniedEffect h (hdenied h')
  | rule h hmatch => exact .rule (hrules h) hmatch
  | requiresApproval h => exact .requiresApproval h
  | taint h => exact .taint (htaint h)

theorem contributes_iff {tainted : Prop} {k : DecisionKind} :
    Contributes now policy action lease capabilityPolicies tainted k ↔
      Contributes now policy action lease capabilityPolicies False k ∨
        tainted ∧ k = .requireApproval := by
  constructor
  · intro h
    cases h with
    | taint h => exact .inr ⟨h, rfl⟩
    | permission => exact .inl .permission
    | invalid h => exact .inl (.invalid h)
    | uncovered h => exact .inl (.uncovered h)
    | deniedEffect h hdenied => exact .inl (.deniedEffect h hdenied)
    | rule h hmatch => exact .inl (.rule h hmatch)
    | requiresApproval h => exact .inl (.requiresApproval h)
  · rintro (h | ⟨h, rfl⟩)
    · exact h.mono (List.Subset.refl _) (List.Subset.refl _) False.elim
    · exact .taint h

theorem isGreatest_of_iff {s t : Set DecisionKind} {k : DecisionKind} (h : IsGreatest s k)
    (hiff : ∀ k, k ∈ t ↔ k ∈ s) : IsGreatest t k := by
  rwa [Set.ext hiff]

theorem isGreatest_deny {s : Set DecisionKind} (h : .deny ∈ s) : IsGreatest s .deny :=
  ⟨h, fun k _ => k.le_deny⟩

/-- A merge of an effect, if a condition holds, adds its kind to what is merged already. -/
theorem isGreatest_merge {s : Set DecisionKind} {decision : PolicyDecision}
    (h : IsGreatest s decision.kind) (p : Prop) [Decidable p] (effect : PolicyEffect)
    (source : String) : IsGreatest {k | k ∈ s ∨ p ∧ k = effect.kind}
      (if p then mergeDecision decision effect source else decision).kind := by
  split_ifs with hp
  · rw [kind_mergeDecision]
    exact isGreatest_of_iff (h.insert effect.kind) fun k => by simp [hp, or_comm]
  · simpa [hp] using h

theorem isGreatest_applyRules {s : Set DecisionKind} (rules : List PolicyRule)
    {decision : PolicyDecision} (h : IsGreatest s decision.kind) :
    IsGreatest {k | k ∈ s ∨ ∃ rule ∈ rules, ruleMatches rule action = true ∧ k = rule.effect.kind}
      (PolicyEngine.applyRules rules action decision).kind := by
  induction rules generalizing s decision with
  | nil => simpa [PolicyEngine.applyRules] using h
  | cons rule rules ih =>
    refine isGreatest_of_iff
      (ih (isGreatest_merge h (ruleMatches rule action = true) rule.effect rule.name)) fun k => ?_
    simp [or_assoc]

theorem isGreatest_evaluate :
    IsGreatest {k | Contributes now policy action lease capabilityPolicies False k}
      (policy.evaluate now action lease capabilityPolicies).kind := by
  unfold PolicyEngine.evaluate
  by_cases hvalid : lease.isValid now = true
  · by_cases hcovers : lease.coversAction action.name = true
    · simp only [hvalid, hcovers, Bool.not_true, Bool.false_eq_true, if_false]
      cases hdenied : action.effects.find? policy.deniedEffects.contains with
      | some effect =>
        exact isGreatest_deny (.deniedEffect (List.mem_of_find?_eq_some hdenied)
          (by simpa using List.find?_some hdenied))
      | none =>
        have hnone : ∀ effect ∈ action.effects, effect ∉ policy.deniedEffects := by
          simpa using hdenied
        have hallow : IsGreatest {DecisionKind.allow} PolicyDecision.allow.kind :=
          isGreatest_singleton
        refine isGreatest_of_iff (isGreatest_merge (isGreatest_applyRules capabilityPolicies
          (isGreatest_applyRules policy.globalPolicies hallow))
          (action.requiresApproval = true) .requireApproval "action requires approval") fun k => ?_
        constructor
        · rintro (_ | h | h | ⟨h, h'⟩ | ⟨h, h'⟩ | h | h)
          · exact .inl (.inl (.inl rfl))
          · rw [hvalid] at h
            cases h
          · rw [hcovers] at h
            cases h
          · exact absurd h' (hnone _ h)
          · rcases List.mem_append.mp h with h | h
            · exact .inl (.inl (.inr ⟨_, h, h', rfl⟩))
            · exact .inl (.inr ⟨_, h, h', rfl⟩)
          · exact .inr ⟨h, rfl⟩
          · cases h
        · rintro (((rfl | ⟨rule, h, h', rfl⟩) | ⟨rule, h, h', rfl⟩) | ⟨h, rfl⟩)
          · exact .permission
          · exact .rule (List.mem_append_left _ h) h'
          · exact .rule (List.mem_append_right _ h) h'
          · exact .requiresApproval h
    · simp only [hvalid, hcovers, Bool.not_true, Bool.false_eq_true, if_false, Bool.not_false,
        if_true]
      exact isGreatest_deny (.uncovered (Bool.eq_false_iff.mpr hcovers))
  · simp only [hvalid, Bool.not_false, if_true]
    exact isGreatest_deny (.invalid (Bool.eq_false_iff.mpr hvalid))

theorem isGreatest_evaluateWithProvenance (provenance : Provenance) : IsGreatest
      {k | Contributes now policy action lease capabilityPolicies (provenance.taints action) k}
      (policy.evaluateWithProvenance now action lease capabilityPolicies provenance).kind := by
  have hbase : IsGreatest {k | Contributes now policy action lease capabilityPolicies False k} _ :=
    isGreatest_evaluate
  rw [Set.ext fun k => contributes_iff]
  cases provenance with
  | user | system | memoryRetrieval =>
    simpa [Provenance.taints, PolicyEngine.evaluateWithProvenance] using hbase
  | toolOutput name =>
    refine isGreatest_of_iff (isGreatest_merge hbase (action.effects.contains .financial = true)
      .requireApproval "tool output data requires approval for financial effects") fun k => ?_
    simp [Provenance.taints, PolicyEffect.kind]
  | llmGenerated =>
    refine isGreatest_of_iff (isGreatest_merge (isGreatest_merge hbase
      (action.effects.contains .financial = true) .requireApproval
      "LLM-generated data cannot trigger financial effects without approval")
      (action.effects.contains .writeExternal = true) .requireApproval
      "LLM-generated data requires approval for external writes") fun k => ?_
    simp [Provenance.taints, PolicyEffect.kind, or_and_right, or_assoc]

/-- **A policy decision is a join** of the contributions. Order does not matter, and more of them
weaken nothing. -/
theorem evaluateWithProvenance_join (now : Time) (policy : PolicyEngine) (action : ActionDef)
    (lease : CapabilityLease) (capabilityPolicies : List PolicyRule) (provenance : Provenance) :
    IsGreatest
      {k | Contributes now policy action lease capabilityPolicies (provenance.taints action) k}
      (policy.evaluateWithProvenance now action lease capabilityPolicies provenance).kind ∧
    (∀ (globalPolicies' capabilityPolicies' : List PolicyRule),
      (policy.globalPolicies ++ capabilityPolicies).Perm (globalPolicies' ++ capabilityPolicies') →
      (policy.evaluateWithProvenance now action lease capabilityPolicies provenance).kind =
        (PolicyEngine.evaluateWithProvenance now ⟨globalPolicies', policy.deniedEffects⟩ action
          lease capabilityPolicies' provenance).kind) ∧
    (∀ (policy' : PolicyEngine) (capabilityPolicies' : List PolicyRule),
      policy.globalPolicies ++ capabilityPolicies ⊆
        policy'.globalPolicies ++ capabilityPolicies' →
      policy.deniedEffects ⊆ policy'.deniedEffects →
      (policy.evaluateWithProvenance now action lease capabilityPolicies provenance).kind ≤
        (policy'.evaluateWithProvenance now action lease capabilityPolicies' provenance).kind) ∧
    (policy.evaluate now action lease capabilityPolicies).kind ≤
      (policy.evaluateWithProvenance now action lease capabilityPolicies provenance).kind := by
  have hmax : ∀ policy capabilityPolicies, IsGreatest
      {k | Contributes now policy action lease capabilityPolicies (provenance.taints action) k} _ :=
    fun _ _ => isGreatest_evaluateWithProvenance provenance
  refine ⟨hmax _ _, fun globalPolicies' capabilityPolicies' hperm => ?_,
    fun policy' capabilityPolicies' hrules hdenied => ?_, ?_⟩
  · exact le_antisymm
      ((hmax _ _).mono (hmax _ _) fun k => .mono hperm.subset (List.Subset.refl _) id)
      ((hmax _ _).mono (hmax _ _) fun k => .mono hperm.symm.subset (List.Subset.refl _) id)
  · exact (hmax _ _).mono (hmax _ _) fun k => .mono hrules hdenied id
  · exact isGreatest_evaluate.mono (hmax _ _)
      fun k => .mono (List.Subset.refl _) (List.Subset.refl _) False.elim

end IronClaw.Engine
