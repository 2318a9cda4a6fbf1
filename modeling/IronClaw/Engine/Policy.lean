import IronClaw.Engine.Capability

/-!
# The policy engine

An action is allowed, denied, or requires approval. A denial outweighs a required approval, and both
outweigh permission.
-/

namespace IronClaw.Engine

open Foundation (Text)

inductive PolicyEffect where
  | allow
  | deny
  | requireApproval
deriving DecidableEq

inductive PolicyCondition where
  | always
  | actionMatches (pattern : Text)
  | effectTypeIs (effect : EffectType)
deriving DecidableEq

structure PolicyRule where
  name : String
  condition : PolicyCondition
  effect : PolicyEffect
deriving DecidableEq

inductive PolicyDecision where
  | allow
  | deny (reason : String)
  | requireApproval (reason : String)
deriving DecidableEq

def ruleMatches (rule : PolicyRule) (action : ActionDef) : Bool :=
  match rule.condition with
  | .always => true
  | .actionMatches pattern => action.name == pattern
  | .effectTypeIs effect => action.effects.contains effect

def mergeDecision (current : PolicyDecision) (effect : PolicyEffect) (source : String) :
    PolicyDecision :=
  match effect with
  | .deny => .deny source
  | .requireApproval =>
    match current with
    | .deny reason => .deny reason
    | _ => .requireApproval source
  | .allow => current

def EffectType.debug : EffectType → String
  | readLocal => "ReadLocal"
  | readExternal => "ReadExternal"
  | writeLocal => "WriteLocal"
  | writeExternal => "WriteExternal"
  | credentialedNetwork => "CredentialedNetwork"
  | compute => "Compute"
  | financial => "Financial"

structure PolicyEngine where
  globalPolicies : List PolicyRule
  deniedEffects : List EffectType

namespace PolicyEngine

/-- The rules that match are merged one after the other. -/
def applyRules (rules : List PolicyRule) (action : ActionDef) (decision : PolicyDecision) :
    PolicyDecision :=
  rules.foldl (fun decision rule =>
    if ruleMatches rule action then mergeDecision decision rule.effect rule.name else decision)
    decision

def evaluate (now : Time) (policy : PolicyEngine) (action : ActionDef) (lease : CapabilityLease)
    (capabilityPolicies : List PolicyRule) : PolicyDecision :=
  if !lease.isValid now then
    .deny ("lease for " ++ String.ofList lease.capabilityName ++ " is expired/revoked")
  else if !lease.coversAction action.name then
    .deny ("lease for " ++ String.ofList lease.capabilityName ++ " does not cover action " ++
      String.ofList action.name)
  else
    match action.effects.find? policy.deniedEffects.contains with
    | some effect => .deny ("effect type " ++ effect.debug ++ " is denied by global policy")
    | none =>
      let decision := applyRules policy.globalPolicies action .allow
      let decision := applyRules capabilityPolicies action decision
      if action.requiresApproval then
        mergeDecision decision .requireApproval "action requires approval"
      else decision

variable {now : Time} {policy : PolicyEngine} {action : ActionDef}
  {capabilityPolicies : List PolicyRule}

theorem evaluate_eq_allow {lease : CapabilityLease}
    (h : policy.evaluate now action lease capabilityPolicies = .allow) :
    lease.isValid now = true ∧ lease.coversAction action.name = true := by
  by_cases hvalid : lease.isValid now = true
  · by_cases hcovers : lease.coversAction action.name = true
    · exact ⟨hvalid, hcovers⟩
    · simp [evaluate, hvalid, hcovers] at h
  · simp [evaluate, hvalid] at h

theorem evaluate_congr {lease lease' : CapabilityLease}
    (hvalid : lease.isValid now = true) (hvalid' : lease'.isValid now = true)
    (hgrant : lease.grantedActions = lease'.grantedActions)
    (hname : lease.capabilityName = lease'.capabilityName) :
    policy.evaluate now action lease capabilityPolicies =
      policy.evaluate now action lease' capabilityPolicies := by
  have hcovers : lease.coversAction action.name = lease'.coversAction action.name := by
    rw [CapabilityLease.coversAction, CapabilityLease.coversAction, hgrant]
  rw [evaluate, evaluate, hvalid, hvalid', hcovers, hname]

end PolicyEngine

end IronClaw.Engine
