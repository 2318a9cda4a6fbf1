import IronClaw.Engine.Capability

/-!
# Tool tiers and lease planning

Every action has a privilege tier. A new thread is granted, for each capability, the names of the
actions its type allows.
-/

namespace IronClaw.Engine

open Foundation (Text HashMap)

def autonomousToolDenylist : List Text :=
  ["routine_create".toList, "routine_update".toList, "routine_delete".toList,
    "routine_fire".toList, "event_emit".toList, "create_job".toList, "job_prompt".toList,
    "restart".toList, "tool_install".toList, "tool_auth".toList, "tool_activate".toList,
    "tool_remove".toList, "tool_upgrade".toList, "skill_install".toList, "skill_remove".toList,
    "secret_list".toList, "secret_delete".toList]

def isAutonomousDenylisted (actionName : Text) : Bool := autonomousToolDenylist.contains actionName

inductive ToolTier where
  | readOnly
  | stateful
  | privileged
  | administrative
deriving DecidableEq

def ToolTier.rank : ToolTier → Nat
  | readOnly => 0
  | stateful => 1
  | privileged => 2
  | administrative => 3

instance : LE ToolTier := ⟨fun a b => a.rank ≤ b.rank⟩

instance (a b : ToolTier) : Decidable (a ≤ b) := inferInstanceAs (Decidable (a.rank ≤ b.rank))

def EffectType.isReadCompute : EffectType → Bool
  | .readLocal | .compute => true
  | _ => false

def classifyToolTier (action : ActionDef) : ToolTier :=
  if isAutonomousDenylisted action.name then .administrative
  else if action.requiresApproval then .privileged
  else if !action.effects.isEmpty && action.effects.all EffectType.isReadCompute then .readOnly
  else .stateful

variable {action : ActionDef}

theorem classifyToolTier_eq_administrative :
    classifyToolTier action = .administrative ↔ isAutonomousDenylisted action.name = true := by
  unfold classifyToolTier
  split_ifs <;> simp_all

theorem isAutonomousDenylisted_of_privileged (h : classifyToolTier action = .privileged) :
    isAutonomousDenylisted action.name = false := by
  by_contra hne
  have hadmin := classifyToolTier_eq_administrative.mpr (by simpa using hne)
  rw [h] at hadmin
  cases hadmin

inductive ThreadType where
  | foreground
  | research
  | mission
deriving DecidableEq

structure Capability where
  name : Text
  actions : List ActionDef
deriving DecidableEq

structure CapabilityRegistry where
  capabilities : HashMap Text Capability
  named : ∀ name cap, capabilities.lookup name = some cap → cap.name = name

namespace CapabilityRegistry

def new : CapabilityRegistry := ⟨∅, by simp⟩

def register (registry : CapabilityRegistry) (cap : Capability) : CapabilityRegistry where
  capabilities := registry.capabilities.insert cap.name cap
  named := by
    intro name c h
    rw [HashMap.lookup_insert] at h
    split_ifs at h with hn
    · cases h
      exact hn.symm
    · exact registry.named name c h

def list (registry : CapabilityRegistry) : List Capability :=
  registry.capabilities.entries.map Sigma.snd

def allActions (registry : CapabilityRegistry) : List ActionDef :=
  registry.list.flatMap Capability.actions

end CapabilityRegistry

structure CapabilityGrantPlan where
  capabilityName : Text
  grantedActions : GrantedActions
deriving DecidableEq

def tierAllowed (threadType : ThreadType) (actionName : Text) (tier : ToolTier) : Bool :=
  match threadType with
  -- interactive approval gates protect the upper tiers
  | .foreground => true
  | .research => decide (tier ≤ .stateful)
  | .mission =>
    match tier with
    | .readOnly | .stateful => true
    | .privileged => !isAutonomousDenylisted actionName
    | .administrative => false

def allowedNames (threadType : ThreadType) (actions : List ActionDef) : List Text :=
  (actions.filter fun action => tierAllowed threadType action.name (classifyToolTier action)).map
    ActionDef.name

def planForThread (threadType : ThreadType) (registry : CapabilityRegistry) :
    List CapabilityGrantPlan :=
  registry.list.filterMap fun cap =>
    let granted := allowedNames threadType cap.actions
    if granted.isEmpty then none else some ⟨cap.name, .specific granted⟩

/-- A mission must not get administrative actions, and a research thread neither these nor
privileged ones. -/
def ThreadType.Forbids (threadType : ThreadType) (action : ActionDef) : Prop :=
  match threadType with
  | .foreground => False
  | .research => .privileged ≤ classifyToolTier action
  | .mission => classifyToolTier action = .administrative

instance (threadType : ThreadType) (action : ActionDef) :
    Decidable (threadType.Forbids action) := by
  cases threadType <;> unfold ThreadType.Forbids <;> infer_instance

variable {threadType : ThreadType}

theorem tierAllowed_iff : tierAllowed threadType action.name (classifyToolTier action) = true ↔
      ¬ threadType.Forbids action := by
  cases threadType with
  | foreground => simp [tierAllowed, ThreadType.Forbids]
  | research =>
    simp only [tierAllowed, ThreadType.Forbids]
    cases classifyToolTier action <;> decide
  | mission =>
    simp only [tierAllowed, ThreadType.Forbids]
    cases htier : classifyToolTier action with
    | privileged => simp [isAutonomousDenylisted_of_privileged htier]
    | _ => simp

theorem mem_allowedNames {actions : List ActionDef} {name : Text} :
    name ∈ allowedNames threadType actions ↔
      ∃ action ∈ actions, ¬ threadType.Forbids action ∧ action.name = name := by
  simp only [allowedNames, List.mem_map, List.mem_filter, tierAllowed_iff, and_assoc]

def Confined (threadType : ThreadType) (known : ActionDef → Prop) (granted : GrantedActions) :
    Prop :=
  ∀ action, known action → threadType.Forbids action → granted.covers action.name = false

/-- No action that a thread type gets has a name standing for that of a known action it
must not get. -/
def Unambiguous (threadType : ThreadType) (known : ActionDef → Prop) (actions : List ActionDef) :
    Prop :=
  ∀ action ∈ actions, ¬ threadType.Forbids action →
    ∀ other, known other → threadType.Forbids other → ¬ Alias action.name other.name

variable {known : ActionDef → Prop}

theorem confined_specific_iff {names : List Text} : Confined threadType known (.specific names) ↔
      ∀ name ∈ names, ∀ other, known other → threadType.Forbids other →
        ¬ Alias name other.name := by
  simp only [Confined, ← Bool.not_eq_true, GrantedActions.covers_specific_iff, not_exists, not_and]
  exact ⟨fun h name hn other hk hf => h other hk hf name hn,
    fun h other hk hf name hn => h name hn other hk hf⟩

theorem confined_allowedNames_iff {actions : List ActionDef} :
    Confined threadType known (.specific (allowedNames threadType actions)) ↔
      Unambiguous threadType known actions := by
  rw [confined_specific_iff]
  constructor
  · intro h action ha hallowed
    exact h action.name (mem_allowedNames.mpr ⟨action, ha, hallowed, rfl⟩)
  · intro h name hn
    obtain ⟨action, ha, hallowed, rfl⟩ := mem_allowedNames.mp hn
    exact h action ha hallowed

theorem mem_planForThread {registry : CapabilityRegistry} {plan : CapabilityGrantPlan} :
    plan ∈ planForThread threadType registry ↔
      ∃ cap ∈ registry.list, allowedNames threadType cap.actions ≠ [] ∧
        plan = ⟨cap.name, .specific (allowedNames threadType cap.actions)⟩ := by
  simp only [planForThread, List.mem_filterMap]
  refine exists_congr fun cap => and_congr_right fun _ => ?_
  by_cases h : allowedNames threadType cap.actions = []
  · simp [h]
  · simp only [List.isEmpty_iff, h, if_false, Option.some.injEq, ne_eq, not_false_eq_true, true_and]
    exact ⟨Eq.symm, Eq.symm⟩

/-- **A plan's grants** avoid forbidden actions exactly when no granted name stands for one. -/
theorem plan_confined_iff {registry : CapabilityRegistry} :
    (∀ plan ∈ planForThread threadType registry, Confined threadType known plan.grantedActions) ↔
      Unambiguous threadType known registry.allActions := by
  constructor
  · intro h action ha
    obtain ⟨cap, hcap, haction⟩ := List.mem_flatMap.mp ha
    intro hallowed
    have hmem := mem_allowedNames.mpr ⟨action, haction, hallowed, rfl⟩
    have hplan := h _ (mem_planForThread.mpr ⟨cap, hcap, List.ne_nil_of_mem hmem, rfl⟩)
    exact confined_allowedNames_iff.mp hplan action haction hallowed
  · intro h plan hplan
    obtain ⟨cap, hcap, -, rfl⟩ := mem_planForThread.mp hplan
    refine confined_allowedNames_iff.mpr fun action ha => ?_
    exact h action (List.mem_flatMap.mpr ⟨cap, hcap, ha⟩)

end IronClaw.Engine
