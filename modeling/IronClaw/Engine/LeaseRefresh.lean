import Mathlib.Data.Finset.Dedup
import Mathlib.Data.Finset.Card
import Mathlib.Data.List.Sort
import IronClaw.Engine.Lease
import IronClaw.Engine.Planner
import Mathlib.Data.Char
import Mathlib.Data.List.Lex

/-!
# Leases of a thread over its life

A thread starts with the leases of its plan. Before each start and step the available tools are
merged into its lease for `tools`, which only adds names.
-/

namespace IronClaw.Engine

open Foundation (Text HashMap)

def toolsCapability : Text := "tools".toList

def sortedNames (names : List Text) : List Text := names.dedup.insertionSort (· ≤ ·)

@[simp] theorem mem_sortedNames {name : Text} {names : List Text} :
    name ∈ sortedNames names ↔ name ∈ names := by
  rw [sortedNames, List.mem_insertionSort, List.mem_dedup]

/-- The lease to save, if any. -/
def reconcileDynamicToolLease (clock : LeaseManager.Clock) (now : Time) (m : LeaseManager)
    (threadId : ThreadId) (threadType : ThreadType)
    (availableActions : Except EngineError (List ActionDef)) :
    Except EngineError (Option CapabilityLease) × LeaseManager :=
  match availableActions with
  | .error e => (.error e, m)
  | .ok actions =>
    if actions.isEmpty then (.ok none, m)
    else
      let capabilities := CapabilityRegistry.new.register ⟨toolsCapability, actions⟩
      match (planForThread threadType capabilities).find? fun grant =>
          grant.capabilityName == toolsCapability with
      | none => (.ok none, m)
      | some grant =>
        match grant.grantedActions with
        | .all => (.ok none, m)
        | .specific desired =>
          if desired.isEmpty then (.ok none, m)
          else
            match (m.activeForThread clock threadId).find? fun lease =>
                lease.capabilityName == toolsCapability with
            | some existing =>
              if existing.grantedActions.isAll then (.ok none, m)
              else
                -- the sets are compared by their sizes
                let merged := (existing.grantedActions.actions ++ desired).dedup
                if merged.length = existing.grantedActions.actions.dedup.length then (.ok none, m)
                else
                  let granted := GrantedActions.specific (sortedNames merged)
                  (.ok (some { existing with grantedActions := granted }),
                    m.updateGrantedActions existing.id granted)
            | none =>
              let r := m.grant now threadId toolsCapability
                (.specific (sortedNames desired)) none none
              (r.1.map some, r.2)

theorem planForThread_tools (threadType : ThreadType) (actions : List ActionDef) :
    planForThread threadType (CapabilityRegistry.new.register ⟨toolsCapability, actions⟩) =
      if (allowedNames threadType actions).isEmpty then []
      else [⟨toolsCapability, .specific (allowedNames threadType actions)⟩] := by
  have hlist : (CapabilityRegistry.new.register ⟨toolsCapability, actions⟩).list =
      [⟨toolsCapability, actions⟩] := rfl
  rw [planForThread, hlist, List.filterMap_cons, List.filterMap_nil]
  by_cases h : (allowedNames threadType actions).isEmpty = true
  · simp only [h, if_true]
  · simp only [h, Bool.false_eq_true, if_false]

theorem subset_of_length_dedup {l l' : List Text}
    (h : (l ++ l').dedup.length = l.dedup.length) : l' ⊆ l := by
  have hsub : l.toFinset ⊆ (l ++ l').toFinset := by
    rw [List.toFinset_append]
    exact Finset.subset_union_left
  have hcard : (l ++ l').toFinset.card ≤ l.toFinset.card := by
    rw [List.card_toFinset, List.card_toFinset]
    exact h.le
  have heq := Finset.eq_of_subset_of_card_le hsub hcard
  intro x hx
  have hmem : x ∈ (l ++ l').toFinset := List.mem_toFinset.mpr (List.mem_append_right l hx)
  exact List.mem_toFinset.mp (heq ▸ hmem)

def grantTools (now : Time) (m : LeaseManager) (threadId : ThreadId) (names : List Text) :
    LeaseManager :=
  (m.grant now threadId toolsCapability (.specific names) none none).2

/-- **What a refresh does**: nothing, or it extends the thread's lease for the tools or grants one.
-/
theorem reconcile_cases (clock : LeaseManager.Clock) (now : Time) {m : LeaseManager}
    {threadId : ThreadId} (threadType : ThreadType) (actions : List ActionDef)
    (hspec : ∀ id lease, m.active.lookup id = some lease → lease.threadId = threadId →
      lease.grantedActions.isAll = false) :
    let m' := (reconcileDynamicToolLease clock now m threadId threadType (.ok actions)).2
    (allowedNames threadType actions = [] ∧ m' = m) ∨
      (∃ lease names, m.active.lookup lease.id = some lease ∧ lease.threadId = threadId ∧
        lease.grantedActions = .specific names ∧ allowedNames threadType actions ⊆ names ∧
        m' = m) ∨
      (∃ lease names merged, m.active.lookup lease.id = some lease ∧ lease.threadId = threadId ∧
        lease.grantedActions = .specific names ∧
        (∀ n, n ∈ merged ↔ n ∈ names ∨ n ∈ allowedNames threadType actions) ∧
        m' = m.updateGrantedActions lease.id (.specific merged)) ∨
      ∃ names, (∀ n, n ∈ names ↔ n ∈ allowedNames threadType actions) ∧
        m' = grantTools now m threadId names := by
  intro m'
  by_cases hnone : allowedNames threadType actions = []
  · refine .inl ⟨hnone, ?_⟩
    have hplan := planForThread_tools threadType actions
    simp only [m', reconcileDynamicToolLease, hplan, hnone, List.isEmpty_nil, if_true]
    split_ifs <;> rfl
  · have hplan := planForThread_tools threadType actions
    have hne : (allowedNames threadType actions).isEmpty = false := by simpa using hnone
    have hactions : actions.isEmpty = false := by
      cases actions with
      | nil => exact absurd rfl hnone
      | cons a as => rfl
    simp only [hne, Bool.false_eq_true, if_false] at hplan
    cases hfind : (m.activeForThread clock threadId).find? fun lease =>
        lease.capabilityName == toolsCapability with
    | none =>
      refine .inr (.inr (.inr ⟨sortedNames (allowedNames threadType actions), by simp, ?_⟩))
      simp [m', reconcileDynamicToolLease, hplan, hne, hactions, hfind, grantTools]
    | some existing =>
      have hmem := List.mem_filter.mp (List.mem_of_find?_eq_some hfind)
      have hlookup := LeaseManager.mem_leases.mp hmem.1
      have hthread : existing.threadId = threadId := by
        have hvalid := hmem.2
        simp only [LeaseManager.validFor, Bool.and_eq_true, beq_iff_eq] at hvalid
        exact hvalid.1
      have hall := hspec _ existing hlookup hthread
      obtain ⟨names, hnames⟩ : ∃ names, existing.grantedActions = .specific names := by
        cases hg : existing.grantedActions with
        | all => rw [hg] at hall; cases hall
        | specific names => exact ⟨names, rfl⟩
      by_cases hlen : (names ++ allowedNames threadType actions).dedup.length = names.dedup.length
      · refine .inr (.inl ⟨existing, names, hlookup, hthread, hnames,
          subset_of_length_dedup hlen, ?_⟩)
        simp [m', reconcileDynamicToolLease, hplan, hne, hactions, hfind, hnames,
          GrantedActions.actions, GrantedActions.isAll, hlen]
      · refine .inr (.inr (.inl ⟨existing, names,
          sortedNames (names ++ allowedNames threadType actions).dedup, hlookup, hthread, hnames,
          by simp, ?_⟩))
        simp [m', reconcileDynamicToolLease, hplan, hne, hactions, hfind, hnames,
          GrantedActions.actions, GrantedActions.isAll, hlen]

def spawnLeases (now : Time) (threadId : ThreadId) (m : LeaseManager)
    (plans : List CapabilityGrantPlan) : LeaseManager :=
  plans.foldl (fun m plan =>
    (m.grant now threadId plan.capabilityName plan.grantedActions none none).2) m

/-- What happens to leases once a thread of the given type runs. -/
inductive LeaseEvent where
  | refresh (clock : LeaseManager.Clock) (now : Time)
      (availableActions : Except EngineError (List ActionDef))
  | findAndConsume (clock : LeaseManager.Clock) (threadId : ThreadId) (actionName : Text)
  | refundUse (id : LeaseId)
  | revoke (id : LeaseId)
  | expireStale (clock : LeaseManager.Clock)

def LeaseEvent.inventory : LeaseEvent → Option (List ActionDef)
  | refresh _ _ (.ok actions) => some actions
  | _ => none

def LeaseManager.apply (threadId : ThreadId) (threadType : ThreadType) (m : LeaseManager) :
    LeaseEvent → LeaseManager
  | .refresh clock now availableActions =>
    (reconcileDynamicToolLease clock now m threadId threadType availableActions).2
  | .findAndConsume clock tid actionName => (m.findAndConsume clock tid actionName).2
  | .refundUse id => m.refundUse id
  | .revoke id => m.revoke id
  | .expireStale clock => m.expireStale clock

def LeaseManager.Grants (m : LeaseManager) (threadId : ThreadId) (P : GrantedActions → Prop) :
    Prop :=
  ∀ id lease, m.active.lookup id = some lease → lease.threadId = threadId →
    P lease.grantedActions

section Grants

variable {m : LeaseManager} {threadId : ThreadId} {P : GrantedActions → Prop}

theorem LeaseManager.Grants.modify (h : m.Grants threadId P) {id : LeaseId}
    {f : CapabilityLease → CapabilityLease} (hf : LeaseManager.Keeps f)
    (hgrant : ∀ lease, P lease.grantedActions → P (f lease).grantedActions) :
    (m.modify id f hf).Grants threadId P := by
  intro id' lease hlookup hthread
  rw [LeaseManager.lookup_modify] at hlookup
  split_ifs at hlookup
  · obtain ⟨old, hold, rfl⟩ := Option.map_eq_some_iff.mp hlookup
    exact hgrant old (h id' old hold ((hf old).2.1.symm.trans hthread))
  · exact h id' lease hlookup hthread

theorem LeaseManager.Grants.grant (h : m.Grants threadId P) (now : Time) {tid : ThreadId}
    (name : Text) {granted : GrantedActions} (hgranted : P granted) {duration : Option Int}
    {maxUses : Option Nat} :
    (m.grant now tid name granted duration maxUses).2.Grants threadId P := by
  unfold LeaseManager.grant
  split
  · exact h
  · split_ifs
    · exact h
    · intro id lease hlookup hthread
      rw [HashMap.lookup_insert] at hlookup
      split_ifs at hlookup
      · cases hlookup
        exact hgranted
      · exact h id lease hlookup hthread

theorem LeaseManager.Grants.consumed (h : m.Grants threadId P) (id : LeaseId) :
    (m.modify id LeaseManager.consumed LeaseManager.keeps_consumed).Grants threadId P := by
  refine h.modify _ fun l hl => ?_
  unfold LeaseManager.consumed
  cases hc : l.consumeUse with
  | none => exact hl
  | some l' =>
    rw [Option.getD_some, (CapabilityLease.consumeUse_eq_some hc).1]
    exact hl

theorem LeaseManager.Grants.apply_of_inventory_eq_none (h : m.Grants threadId P)
    {threadType : ThreadType} {e : LeaseEvent} (he : e.inventory = none) :
    (m.apply threadId threadType e).Grants threadId P := by
  cases e with
  | refresh clock now availableActions =>
    cases availableActions with
    | error e => exact h
    | ok actions => cases he
  | findAndConsume clock tid actionName =>
    rcases hcons : m.findAndConsume clock tid actionName with ⟨r, m'⟩
    have hm' : m.apply threadId threadType (.findAndConsume clock tid actionName) = m' :=
      congrArg Prod.snd hcons
    rw [hm']
    cases r with
    | error e => exact LeaseManager.findAndConsume_error hcons ▸ h
    | ok lease =>
      obtain ⟨old, -, -, -, -, -, rfl⟩ := LeaseManager.findAndConsume_ok hcons
      exact h.consumed _
  | refundUse id =>
    refine h.modify LeaseManager.keeps_refundUse fun l hl => ?_
    rw [l.refundUse_eq]
    exact hl
  | revoke id => exact h.modify LeaseManager.keeps_revoked fun _ hl => hl
  | expireStale clock =>
    intro id lease hlookup
    replace hlookup : (HashMap.retain m.active _).lookup id = some lease := hlookup
    rw [HashMap.lookup_retain] at hlookup
    exact h id lease (Option.filter_eq_some_iff.mp hlookup).1

end Grants

section Confinement

variable {threadId : ThreadId} {threadType : ThreadType} {known : ActionDef → Prop}

/-- The thread's leases list their actions, and cover no forbidden one. -/
def LeaseManager.Good (m : LeaseManager) (threadId : ThreadId) (threadType : ThreadType)
    (known : ActionDef → Prop) : Prop :=
  m.Grants threadId fun granted => granted.isAll = false ∧ Confined threadType known granted

theorem LeaseManager.Good.confined {m : LeaseManager} (h : m.Good threadId threadType known) :
    m.Grants threadId (Confined threadType known) :=
  fun id lease hlookup hthread => (h id lease hlookup hthread).2

theorem LeaseManager.Good.specific {m : LeaseManager} (h : m.Good threadId threadType known) :
    m.Grants threadId fun granted => granted.isAll = false :=
  fun id lease hlookup hthread => (h id lease hlookup hthread).1

variable {actions : List ActionDef}

theorem unambiguous_of_covering {names : List Text}
    (hconf : Confined threadType known (.specific names))
    (hsub : allowedNames threadType actions ⊆ names) : Unambiguous threadType known actions := by
  intro action ha hallowed
  exact confined_specific_iff.mp hconf action.name
    (hsub (mem_allowedNames.mpr ⟨action, ha, hallowed, rfl⟩))

theorem unambiguous_of_allowedNames_eq_nil (h : allowedNames threadType actions = []) :
    Unambiguous threadType known actions := by
  intro action ha hallowed
  have hmem := mem_allowedNames.mpr ⟨action, ha, hallowed, rfl⟩
  rw [h] at hmem
  cases hmem

variable {now : Time}

theorem unambiguous_of_refresh {m : LeaseManager} (h : m.Good threadId threadType known)
    {clock : LeaseManager.Clock}
    (hconf : (m.apply threadId threadType (.refresh clock now (.ok actions))).Grants threadId
      (Confined threadType known)) : Unambiguous threadType known actions := by
  have hcases := reconcile_cases clock now threadType actions h.specific
  rcases hcases with ⟨hnil, -⟩ | ⟨lease, names, hlookup, hthread, hnames, hsub, -⟩ |
    ⟨lease, names, merged, hlookup, hthread, -, hmerged, hm⟩ | ⟨names, hmem, hm⟩
  · exact unambiguous_of_allowedNames_eq_nil hnil
  · have hold := h.confined _ lease hlookup hthread
    rw [hnames] at hold
    exact unambiguous_of_covering hold hsub
  · rw [LeaseManager.apply, hm] at hconf
    have hnew : (m.updateGrantedActions lease.id (.specific merged)).active.lookup lease.id =
        some { lease with grantedActions := .specific merged } := by
      rw [LeaseManager.updateGrantedActions, LeaseManager.lookup_modify, if_pos rfl, hlookup]
      rfl
    exact unambiguous_of_covering (hconf _ _ hnew hthread) fun n hn => (hmerged n).mpr (.inr hn)
  · rw [LeaseManager.apply, hm] at hconf
    have hnew : (grantTools now m threadId names).active.lookup m.nextId = some
        { id := m.nextId, threadId := threadId, capabilityName := toolsCapability
          grantedActions := .specific names, expiresAt := none, maxUses := none
          usesRemaining := none, revoked := false } := AList.lookup_insert _
    exact unambiguous_of_covering (hconf _ _ hnew rfl) fun n hn => (hmem n).mpr hn

theorem good_refresh {m : LeaseManager} (h : m.Good threadId threadType known)
    {clock : LeaseManager.Clock} (hun : Unambiguous threadType known actions) :
    (m.apply threadId threadType (.refresh clock now (.ok actions))).Good threadId threadType
      known := by
  have hallowed := confined_specific_iff.mp (confined_allowedNames_iff.mpr hun)
  have hcases := reconcile_cases clock now threadType actions h.specific
  rcases hcases with ⟨-, hm⟩ | ⟨-, -, -, -, -, -, hm⟩ |
    ⟨lease, names, merged, hlookup, hthread, hnames, hmerged, hm⟩ | ⟨names, hmem, hm⟩
  · rwa [LeaseManager.apply, hm]
  · rwa [LeaseManager.apply, hm]
  · rw [LeaseManager.apply, hm]
    intro id l hl hlthread
    have hold := h.confined _ lease hlookup hthread
    rw [hnames, confined_specific_iff] at hold
    rw [LeaseManager.updateGrantedActions, LeaseManager.lookup_modify] at hl
    split_ifs at hl with hid
    · obtain ⟨old, -, rfl⟩ := Option.map_eq_some_iff.mp hl
      refine ⟨rfl, confined_specific_iff.mpr fun n hn => ?_⟩
      -- a merged name was granted before or is allowed now
      rcases (hmerged n).mp hn with hn | hn
      · exact hold n hn
      · exact hallowed n hn
    · exact h id l hl hlthread
  · rw [LeaseManager.apply, hm]
    refine LeaseManager.Grants.grant h now _ ⟨rfl, confined_specific_iff.mpr fun n hn => ?_⟩
    exact hallowed n ((hmem n).mp hn)

theorem LeaseEvent.eq_refresh_of_inventory {e : LeaseEvent} (h : e.inventory = some actions) :
    ∃ clock now, e = .refresh clock now (.ok actions) := by
  cases e with
  | refresh clock now availableActions =>
    cases availableActions with
    | error _ => cases h
    | ok _ =>
      cases h
      exact ⟨clock, now, rfl⟩
  | _ => cases h

theorem good_spawnLeases {m : LeaseManager} {plans : List CapabilityGrantPlan}
    (h : m.Good threadId threadType known)
    (hplans : ∀ plan ∈ plans, plan.grantedActions.isAll = false ∧
      Confined threadType known plan.grantedActions) :
    (spawnLeases now threadId m plans).Good threadId threadType known := by
  induction plans generalizing m with
  | nil => exact h
  | cons plan plans ih =>
    refine ih ?_ fun p hp => hplans p (List.mem_cons_of_mem plan hp)
    exact LeaseManager.Grants.grant h now _ (hplans plan List.mem_cons_self)

theorem good_foldl_iff {m : LeaseManager} (h : m.Good threadId threadType known)
    (es : List LeaseEvent) :
    (∀ k, ((es.take k).foldl (LeaseManager.apply threadId threadType) m).Grants threadId
        (Confined threadType known)) ↔ ∀ e ∈ es, ∀ actions, e.inventory = some actions →
        Unambiguous threadType known actions := by
  induction es generalizing m with
  | nil => simpa using h.confined
  | cons e es ih =>
    have hkeep : (∀ actions, e.inventory = some actions → Unambiguous threadType known actions) →
        (m.apply threadId threadType e).Good threadId threadType known := by
      intro hun
      cases hinv : e.inventory with
      | none => exact LeaseManager.Grants.apply_of_inventory_eq_none h hinv
      | some actions =>
        obtain ⟨clock, now, rfl⟩ := LeaseEvent.eq_refresh_of_inventory hinv
        exact good_refresh h (hun actions hinv)
    have hfirst : (m.apply threadId threadType e).Grants threadId (Confined threadType known) →
        ∀ actions, e.inventory = some actions → Unambiguous threadType known actions := by
      intro hconf actions hinv
      obtain ⟨clock, now, rfl⟩ := LeaseEvent.eq_refresh_of_inventory hinv
      exact unambiguous_of_refresh h hconf
    constructor
    · intro hall
      have hun := hfirst (hall 1)
      rw [List.forall_mem_cons]
      exact ⟨hun, (ih (hkeep hun)).mp fun k => hall (k + 1)⟩
    · intro hun k
      rw [List.forall_mem_cons] at hun
      cases k with
      | zero => exact h.confined
      | succ k => exact (ih (hkeep hun.1)).mpr hun.2 k

/-- **What a thread's leases cover**: no known action that its type forbids, exactly when no allowed
action that it is offered has a name standing for one. -/
theorem grants_confined_iff {m : LeaseManager} (now : Time) (registry : CapabilityRegistry)
    (es : List LeaseEvent)
    (hnew : ∀ id lease, m.active.lookup id = some lease → lease.threadId ≠ threadId) :
    ((∀ plan ∈ planForThread threadType registry, Confined threadType known plan.grantedActions) ∧
      ∀ k, ((es.take k).foldl (LeaseManager.apply threadId threadType)
        (spawnLeases now threadId m (planForThread threadType registry))).Grants threadId
          (Confined threadType known)) ↔ Unambiguous threadType known registry.allActions ∧
      ∀ e ∈ es, ∀ actions, e.inventory = some actions → Unambiguous threadType known actions := by
  have hgood : m.Good threadId threadType known := fun id lease hlookup hthread =>
    absurd hthread (hnew id lease hlookup)
  rw [plan_confined_iff]
  refine and_congr_right fun hun => good_foldl_iff (good_spawnLeases hgood fun plan hplan => ?_) es
  have hconf := plan_confined_iff.mpr hun plan hplan
  obtain ⟨cap, -, -, rfl⟩ := mem_planForThread.mp hplan
  exact ⟨rfl, hconf⟩

end Confinement

def hyphenRegistry : CapabilityRegistry :=
  CapabilityRegistry.new.register ⟨toolsCapability,
    [⟨"routine-create".toList, [.writeLocal], false, none⟩,
      ⟨"routine_create".toList, [.writeLocal], true, none⟩]⟩

/-- A mission is granted the hyphenated name, which covers the administrative action. -/
theorem mission_plan_covers_administrative :
    ∃ plan ∈ planForThread .mission hyphenRegistry, ∃ action ∈ hyphenRegistry.allActions,
      classifyToolTier action = .administrative ∧
        plan.grantedActions.covers action.name = true := by
  decide

def plainRegistry : CapabilityRegistry :=
  CapabilityRegistry.new.register ⟨toolsCapability,
    [⟨"echo".toList, [.compute], false, none⟩, ⟨"restart".toList, [.compute], false, none⟩]⟩

theorem grants_confined_plain :
    ((spawnLeases 0 1 .new (planForThread .mission plainRegistry)).apply 1 .mission
      (.refresh (fun _ => 0) 0 (.ok plainRegistry.allActions))).Grants 1
        (Confined .mission fun action => action ∈ plainRegistry.allActions) := by
  have hactions : plainRegistry.allActions = [⟨"echo".toList, [.compute], false, none⟩,
      ⟨"restart".toList, [.compute], false, none⟩] := rfl
  have hun : Unambiguous .mission (fun action => action ∈ plainRegistry.allActions)
      plainRegistry.allActions := by
    rw [hactions]
    intro action ha hallowed other hknown hforbidden
    simp only [List.mem_cons, List.not_mem_nil, or_false] at ha hknown
    rcases ha with rfl | rfl <;> rcases hknown with rfl | rfl
    · exact absurd hforbidden hallowed
    · decide
    · decide
    · exact absurd hforbidden hallowed
  have hnew : ∀ (id : LeaseId) lease, LeaseManager.new.active.lookup id = some lease →
      lease.threadId ≠ 1 := nofun
  refine ((grants_confined_iff 0 plainRegistry
    [.refresh (fun _ => 0) 0 (.ok plainRegistry.allActions)] hnew).mpr ⟨hun, ?_⟩).2 1
  intro e he actions hinv
  cases List.mem_singleton.mp he
  cases hinv
  exact hun

end IronClaw.Engine
