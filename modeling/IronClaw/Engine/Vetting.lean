import IronClaw.Engine.LeaseAccounting

/-!
# No action runs unvetted

An action may run only when its definition is known, a valid lease covers it, and the policy allows
it. The orchestrator's handlers go on without definitions when the inventory cannot be looked up.
-/

namespace IronClaw.Engine

open Foundation (Text)

variable {J : Type}

/-- A call has a definition and a valid lease, the policy allows it, and it is passed on under one
of the two names. -/
def Vetted (inventory : Except EngineError (List ActionDef)) (policy : PolicyEngine)
    (capabilityPolicies : List PolicyRule) (threadId : ThreadId) (m : LeaseManager)
    (call : TimedCall J) (actionName : Text) : Prop :=
  ∃ inline, inventory = .ok inline ∧ ∃ actionDef ∈ inline,
    actionDef.matchesName call.actionName = true ∧
      (actionName = actionDef.name ∨ actionName = call.actionName) ∧
      ∃ lease, m.active.lookup lease.id = some lease ∧ lease.threadId = threadId ∧
        lease.isValid call.evaluateTime = true ∧ lease.coversAction actionDef.name = true ∧
        policy.evaluate call.evaluateTime actionDef lease capabilityPolicies = .allow

def AllVetted (inventory : Except EngineError (List ActionDef)) (policy : PolicyEngine)
    (capabilityPolicies : List PolicyRule) (threadId : ThreadId) (m : LeaseManager)
    (calls : List (TimedCall J)) (handedOver : List (HandedOver J)) : Prop :=
  ∀ h ∈ handedOver, ∃ call, calls[h.index]? = some call ∧ call.toActionCall = h.call ∧
    Vetted inventory policy capabilityPolicies threadId m call h.actionName

section Inventory

variable {policy : PolicyEngine} {capabilityPolicies : List PolicyRule} {threadId : ThreadId}

theorem allowed_of_vetCall {inline : List ActionDef} {m : LeaseManager} {call : TimedCall J}
    (h : vetCall (some inline) policy capabilityPolicies threadId m call = .allowed) :
    ∃ actionDef lease, findAction inline call.actionName = some actionDef ∧
      m.findLeaseForAction call.findClock threadId call.actionName = some lease ∧
      policy.evaluate call.evaluateTime actionDef lease capabilityPolicies = .allow := by
  unfold vetCall at h
  simp only [Option.getD_some, Option.isSome_some, Bool.true_and] at h
  cases hdef : findAction inline call.actionName with
  | none => simp [hdef] at h
  | some actionDef =>
    cases hlease : m.findLeaseForAction call.findClock threadId call.actionName with
    | none => simp [hdef, hlease] at h
    | some lease =>
      refine ⟨actionDef, lease, rfl, rfl, ?_⟩
      cases heval : policy.evaluate call.evaluateTime actionDef lease capabilityPolicies with
      | allow => rfl
      | deny reason => simp [hdef, hlease, heval] at h
      | requireApproval reason => simp [hdef, hlease, heval] at h

theorem findAction_eq_some {inline : List ActionDef} {name : Text} {actionDef : ActionDef}
    (h : findAction inline name = some actionDef) :
    actionDef ∈ inline ∧ actionDef.matchesName name = true := by
  rw [findAction] at h
  exact ⟨List.mem_of_find?_eq_some h, by simpa using List.find?_some h⟩

theorem vetted_of_vetCall {inline : List ActionDef} {m m' : LeaseManager} {call : TimedCall J}
    {actionName : Text} (hspent : m.SpentFrom m')
    (h : vetCall (some inline) policy capabilityPolicies threadId m' call = .allowed)
    (hname : ∀ actionDef, findAction inline call.actionName = some actionDef →
      actionName = actionDef.name ∨ actionName = call.actionName) :
    Vetted (.ok inline) policy capabilityPolicies threadId m call actionName := by
  obtain ⟨actionDef, lease', hdef, hfind, hallow⟩ := allowed_of_vetCall h
  obtain ⟨hlookup', hthread, -, -⟩ := LeaseManager.findLeaseForAction_eq_some hfind
  obtain ⟨hvalid', hcovers'⟩ := PolicyEngine.evaluate_eq_allow hallow
  obtain ⟨lease, hlookup, hs⟩ := hspent _ lease' hlookup'
  have hvalid := hs.2 _ hvalid'
  have hgrant : lease'.grantedActions = lease.grantedActions := by rw [hs.1]
  have hcap : lease'.capabilityName = lease.capabilityName := by rw [hs.1]
  obtain ⟨hmem, hmatch⟩ := findAction_eq_some hdef
  refine ⟨inline, rfl, actionDef, hmem, hmatch, hname actionDef hdef, lease, ?_, ?_, hvalid, ?_, ?_⟩
  · rwa [hs.id_eq] at hlookup
  · rw [← hthread, hs.1]
  · rw [CapabilityLease.coversAction, ← hgrant]
    exact hcovers'
  · rw [← PolicyEngine.evaluate_congr hvalid' hvalid hgrant hcap]
    exact hallow

theorem Preflights.vetCall_eq {abort : Bool} {inventory : Option (List ActionDef)}
    {calls : List (TimedCall J)} {m m' : LeaseManager} {outcomes : List PreflightOutcome}
    {ending : PreflightEnd J} (h : Preflights abort inventory policy capabilityPolicies threadId
      calls m outcomes ending m') {i : Nat} {lease : CapabilityLease}
    (hi : outcomes[i]? = some (.runnable lease)) :
    ∃ call m', calls[i]? = some call ∧ m.SpentFrom m' ∧
      vetCall inventory policy capabilityPolicies threadId m' call = .allowed := by
  induction h generalizing i with
  | nil | needsApproval | failed => cases hi
  | refused _ _ ih =>
    cases i with
    | zero => cases hi
    | succ i => exact ih hi
  | admitted hv hc _ ih =>
    cases i with
    | zero => exact ⟨_, _, rfl, .refl _, hv⟩
    | succ i =>
      obtain ⟨call, m', hcall, hspent, hallowed⟩ := ih hi
      exact ⟨call, m', hcall, (LeaseManager.spentFrom_of_findAndConsume hc).trans hspent, hallowed⟩

theorem vetted_of_mem_admitted (abort : Bool) (inline : List ActionDef) (policy : PolicyEngine)
    (capabilityPolicies : List PolicyRule) (threadId : ThreadId) (nameFor : ActionCall J → Text)
    (hname : ∀ call actionDef, findAction inline call.actionName = some actionDef →
      nameFor call = actionDef.name ∨ nameFor call = call.actionName)
    (calls : List (TimedCall J)) (m : LeaseManager) :
    AllVetted (.ok inline) policy capabilityPolicies threadId m calls (admitted nameFor calls
      (preflight abort (some inline) policy capabilityPolicies threadId calls m).1) := by
  intro h hmem
  obtain ⟨call, hcall, hout, hc, hpassed⟩ := mem_admitted.mp hmem
  obtain ⟨call', m', hcall', hspent, hallowed⟩ := (preflights ..).vetCall_eq hout
  have hsame : call' = call := Option.some.inj (hcall'.symm.trans hcall)
  subst hsame
  refine ⟨call', hcall, hc, vetted_of_vetCall hspent hallowed fun actionDef hdef => ?_⟩
  rw [← hpassed, ← hc]
  exact hname call'.toActionCall actionDef hdef

end Inventory

theorem canonicalName_eq (inline : List ActionDef) (call : ActionCall J) (actionDef : ActionDef)
    (h : findAction inline call.actionName = some actionDef) :
    canonicalName (some inline) call = actionDef.name ∨
      canonicalName (some inline) call = call.actionName := by
  refine .inl ?_
  rw [canonicalName, Option.getD_some, h]

section NoInventory

variable (policy : PolicyEngine) (capabilityPolicies : List PolicyRule) (threadId : ThreadId)

def Admissible (threadId : ThreadId) (m : LeaseManager) (call : TimedCall J) : Prop :=
  (m.findLeaseForAction call.findClock threadId call.actionName).isSome = true ∧
    ∃ lease m', m.findAndConsume call.consumeClock threadId call.actionName = (.ok lease, m')

theorem vetCall_none (m : LeaseManager) (call : TimedCall J) :
    vetCall none policy capabilityPolicies threadId m call =
      if (m.findLeaseForAction call.findClock threadId call.actionName).isSome then .allowed
      else .refused .noLease := by
  unfold vetCall
  have hdef : findAction ((none : Option (List ActionDef)).getD []) call.actionName = none := rfl
  rw [hdef]
  cases m.findLeaseForAction call.findClock threadId call.actionName <;> rfl

theorem admittedLeases_none_eq_nil_iff (calls : List (TimedCall J)) (m : LeaseManager) :
    admittedLeases (preflight false none policy capabilityPolicies threadId calls m).1 = [] ↔
      ∀ call ∈ calls, ¬ Admissible threadId m call := by
  induction calls with
  | nil => simp [preflight]
  | cons call calls ih =>
    rw [List.forall_mem_cons]
    have hvet := vetCall_none policy capabilityPolicies threadId m call
    by_cases hsome : (m.findLeaseForAction call.findClock threadId call.actionName).isSome = true
    · rw [if_pos hsome] at hvet
      rcases hc : m.findAndConsume call.consumeClock threadId call.actionName with ⟨r, m'⟩
      cases r with
      | ok lease =>
        have hadm : Admissible threadId m call := ⟨hsome, lease, m', hc⟩
        simp [preflight, hvet, hc, hadm]
      | error e =>
        -- a failed consumption leaves the table alone
        have hm' := LeaseManager.findAndConsume_error hc
        subst hm'
        have hnot : ¬ Admissible threadId m' call := by
          rintro ⟨-, lease, m'', hok⟩
          rw [hc] at hok
          cases hok
        simp [preflight, hvet, hc, hnot, ih]
    · rw [if_neg hsome] at hvet
      have hnot : ¬ Admissible threadId m call := fun h => hsome h.1
      simp [preflight, hvet, hnot, ih]

theorem preflight_none_complete (calls : List (TimedCall J)) (m : LeaseManager) :
    (preflight false none policy capabilityPolicies threadId calls m).2.1 = .complete := by
  induction calls generalizing m with
  | nil => rfl
  | cons call calls ih =>
    have hvet := vetCall_none policy capabilityPolicies threadId m call
    split at hvet
    · rcases hc : m.findAndConsume call.consumeClock threadId call.actionName with ⟨r, m'⟩
      cases r <;> simp [preflight, hvet, hc, ih]
    · simp [preflight, hvet, ih]

theorem allVetted_error_iff {policy : PolicyEngine} {capabilityPolicies : List PolicyRule}
    {threadId : ThreadId} {e : EngineError} {m : LeaseManager} {calls : List (TimedCall J)}
    {handedOver : List (HandedOver J)} :
    AllVetted (.error e) policy capabilityPolicies threadId m calls handedOver ↔
      handedOver = [] := by
  constructor
  · intro h
    refine List.eq_nil_iff_forall_not_mem.mpr fun x hx => ?_
    obtain ⟨call, -, -, inline, hinline, -⟩ := h x hx
    cases hinline
  · rintro rfl x hx
    cases hx

end NoInventory

section Executors

variable (inventory : Except EngineError (List ActionDef)) (policy : PolicyEngine)
  (capabilityPolicies : List PolicyRule) (threadId : ThreadId) (outcome : Nat → ExecOutcome J)
  (schedule : Schedule J) (m : LeaseManager)

theorem executeActionCalls_vetted (calls : List (TimedCall J)) :
    AllVetted inventory policy capabilityPolicies threadId m calls
      (executeActionCalls inventory policy capabilityPolicies threadId outcome schedule calls
        m).handedOver := by
  cases inventory with
  | error e => exact allVetted_error_iff.mpr rfl
  | ok inline =>
    have hvet := vetted_of_mem_admitted true inline policy capabilityPolicies threadId
      ActionCall.actionName (fun call _ _ => .inr rfl) calls m
    simp only [executeActionCalls]
    rcases hp : preflight true (some inline) policy capabilityPolicies threadId calls m with
      ⟨outcomes, ending, m'⟩
    rw [hp] at hvet
    cases ending with
    | complete => exact hvet
    | needApproval call => exact List.forall_mem_nil _
    | failed e => exact List.forall_mem_nil _

theorem handleExecuteActionsParallel_vetted_iff (calls : List (TimedCall J)) :
    AllVetted inventory policy [] threadId m calls
        (handleExecuteActionsParallel inventory policy threadId outcome schedule calls
          m).handedOver ↔
      (∃ inline, inventory = .ok inline) ∨ ∀ call ∈ calls, ¬ Admissible threadId m call := by
  cases inventory with
  | error e =>
    have hnil := admittedLeases_none_eq_nil_iff policy [] threadId calls m
    have hlength := (preflights false none policy [] threadId calls m).length_le
    have hend := preflight_none_complete policy [] threadId calls m
    rw [allVetted_error_iff]
    simp only [reduceCtorEq, exists_false, false_or]
    rw [← hnil]
    simp only [handleExecuteActionsParallel, Except.toOption]
    rcases hp : preflight false none policy [] threadId calls m with ⟨outcomes, ending, m'⟩
    simp only [hp] at hend hlength
    subst hend
    have hleases := map_lease_admitted (canonicalName none) hlength
    rw [← hleases, List.map_eq_nil_iff]
  | ok inline =>
    have hvet := vetted_of_mem_admitted false inline policy [] threadId
      (canonicalName (some inline)) (canonicalName_eq inline) calls m
    refine iff_of_true ?_ (.inl ⟨inline, rfl⟩)
    simp only [handleExecuteActionsParallel, Except.toOption]
    rcases hp : preflight false (some inline) policy [] threadId calls m with ⟨outcomes, ending, m'⟩
    rw [hp] at hvet
    cases ending with
    | complete => exact hvet
    | needApproval call => exact List.forall_mem_nil _
    | failed e => exact List.forall_mem_nil _

theorem handleExecuteAction_vetted_iff (result : ExecOutcome J) (call : TimedCall J) :
    AllVetted inventory policy [] threadId m [call]
        (handleExecuteAction inventory policy threadId result call m).handedOver ↔
      (∃ inline, inventory = .ok inline) ∨ ¬ Admissible threadId m call := by
  cases inventory with
  | error e =>
    have hvet := vetCall_none policy [] threadId m call
    rw [allVetted_error_iff]
    simp only [reduceCtorEq, exists_false, false_or]
    simp only [handleExecuteAction, Except.toOption]
    by_cases hsome : (m.findLeaseForAction call.findClock threadId call.actionName).isSome = true
    · rw [if_pos hsome] at hvet
      rw [hvet]
      rcases hc : m.findAndConsume call.consumeClock threadId call.actionName with ⟨r, m'⟩
      cases r with
      | ok lease =>
        have hadm : Admissible threadId m call := ⟨hsome, lease, m', hc⟩
        cases result <;> simp [hadm]
      | error e =>
        have hnot : ¬ Admissible threadId m call := by
          rintro ⟨-, lease, m'', hok⟩
          rw [hc] at hok
          cases hok
        simp [hnot]
    · rw [if_neg hsome] at hvet
      have hnot : ¬ Admissible threadId m call := fun h => hsome h.1
      simp [hvet, hnot]
  | ok inline =>
    refine iff_of_true ?_ (.inl ⟨inline, rfl⟩)
    simp only [handleExecuteAction, Except.toOption]
    cases hvet : vetCall (some inline) policy [] threadId m call with
    | refused reason => exact nofun
    | needsApproval => exact nofun
    | allowed =>
      have hvetted := vetted_of_vetCall (.refl m) hvet
        (canonicalName_eq inline call.toActionCall)
      rcases hc : m.findAndConsume call.consumeClock threadId call.actionName with ⟨r, m'⟩
      cases r with
      | error e => exact nofun
      | ok lease =>
        -- however the action ends, this call is what was handed over
        have hone : ∀ h ∈ [(⟨0, call.toActionCall, canonicalName (some inline)
            call.toActionCall, lease⟩ : HandedOver J)],
            ∃ c, [call][h.index]? = some c ∧ c.toActionCall = h.call ∧
              Vetted (.ok inline) policy [] threadId m c h.actionName := by
          intro h hmem
          rw [List.mem_singleton.mp hmem]
          exact ⟨call, rfl, rfl, hvetted⟩
        cases result <;> exact hone

/-- **What is handed over is vetted**: always by the structured executor; by the handlers with the
inventory, or if no call could run on a lease alone. -/
theorem handed_over_vetted_iff (result : ExecOutcome J) (call : TimedCall J)
    (calls : List (TimedCall J)) : AllVetted inventory policy capabilityPolicies threadId m calls
        (executeActionCalls inventory policy capabilityPolicies threadId outcome schedule calls
          m).handedOver ∧ (AllVetted inventory policy [] threadId m calls
          (handleExecuteActionsParallel inventory policy threadId outcome schedule calls
            m).handedOver ↔
        (∃ inline, inventory = .ok inline) ∨ ∀ call ∈ calls, ¬ Admissible threadId m call) ∧
      (AllVetted inventory policy [] threadId m [call]
          (handleExecuteAction inventory policy threadId result call m).handedOver ↔
        (∃ inline, inventory = .ok inline) ∨ ¬ Admissible threadId m call) :=
  ⟨executeActionCalls_vetted inventory policy capabilityPolicies threadId outcome schedule m calls,
    handleExecuteActionsParallel_vetted_iff inventory policy threadId outcome schedule m calls,
    handleExecuteAction_vetted_iff inventory policy threadId m result call⟩

end Executors

def denyShell : PolicyEngine where
  globalPolicies := [⟨"no shell", .actionMatches "shell".toList, .deny⟩]
  deniedEffects := []

/-- With the inventory both handlers refuse the denied action, without it they hand it over. -/
theorem denied_action_handed_over :
    (handleExecuteAction (.ok sampleInventory) denyShell 1 (.error "")
        (sampleCall "shell".toList) fiveUses).handedOver.length = 0 ∧
      ¬ AllVetted (.error (.effect "db")) denyShell [] 1 fiveUses [sampleCall "shell".toList]
        (handleExecuteAction (.error (.effect "db")) denyShell 1 (.error "")
          (sampleCall "shell".toList) fiveUses).handedOver ∧
      ¬ AllVetted (.error (.effect "db")) denyShell [] 1 fiveUses [sampleCall "shell".toList]
        (handleExecuteActionsParallel (.error (.effect "db")) denyShell 1 (fun _ => .error "")
          sampleSchedule [sampleCall "shell".toList] fiveUses).handedOver := by
  refine ⟨by decide, fun h => ?_, fun h => ?_⟩
  · have hnil := allVetted_error_iff.mp h
    exact absurd (congrArg List.length hnil) (by decide)
  · have hnil := allVetted_error_iff.mp h
    exact absurd (congrArg List.length hnil) (by decide)

end IronClaw.Engine
