import IronClaw.Engine.ChildLeases
import IronClaw.Engine.LeaseRefresh
import IronClaw.Foundation.Json

/-!
# Grants as they are written

A grant is written as the list of its actions, and a wildcard as the empty list. So a grant of no
action is read back as a wildcard.
-/

namespace IronClaw.Engine

open Foundation (Text Json)
open LeaseManager (childGrants)

namespace GrantedActions

def serialize : GrantedActions → Json
  | all => .arr []
  | specific actions => .arr (actions.map .str)

def deserialize : Json → Option GrantedActions
  | .arr values =>
    (values.mapM Json.asStr).map fun actions => if actions.isEmpty then all else specific actions
  | _ => none

def Survives (granted : GrantedActions) : Prop :=
  ∃ granted', deserialize granted.serialize = some granted' ∧
    ∀ name, granted'.covers name = granted.covers name

theorem mapM_asStr (actions : List Text) : (actions.map Json.str).mapM Json.asStr = some actions := by
  induction actions with
  | nil => rfl
  | cons a actions ih => simp [List.mapM_cons, ih, Json.asStr]

theorem survives_iff {granted : GrantedActions} : granted.Survives ↔ granted ≠ .specific [] := by
  constructor
  · rintro ⟨granted', hread, hcov⟩ rfl
    cases hread
    exact absurd (hcov []) (by decide)
  · intro hne
    cases granted with
    | all => exact ⟨all, rfl, fun _ => rfl⟩
    | specific actions =>
      have hactions : actions.isEmpty = false := by
        cases actions with
        | nil => exact absurd rfl hne
        | cons a actions => rfl
      refine ⟨specific actions, ?_, fun _ => rfl⟩
      simp only [deserialize, serialize, mapM_asStr, Option.map_some, hactions,
        Bool.false_eq_true, if_false]

end GrantedActions

section Grants

variable {P : GrantedActions → Prop} {m : LeaseManager} {threadId : ThreadId}

theorem LeaseManager.Grants.consumeUse (h : m.Grants threadId P) (clock : LeaseManager.Clock)
    (id : LeaseId) : (m.consumeUse clock id).2.Grants threadId P := by
  unfold LeaseManager.consumeUse
  split
  · exact h
  · split_ifs
    · exact h
    · split
      · exact h
      · exact h.consumed id

theorem reconcile_manager (clock : LeaseManager.Clock) (now : Time) (m : LeaseManager)
    (threadId : ThreadId) (threadType : ThreadType)
    (available : Except EngineError (List ActionDef)) :
    (reconcileDynamicToolLease clock now m threadId threadType available).2 = m ∨
      ∃ granted ≠ .specific [],
        (∃ id, (reconcileDynamicToolLease clock now m threadId threadType available).2 =
          m.updateGrantedActions id granted) ∨
        (reconcileDynamicToolLease clock now m threadId threadType available).2 =
          (m.grant now threadId toolsCapability granted none none).2 := by
  have hsorted : ∀ {names desired : List Text}, desired.isEmpty ≠ true →
      (∀ n ∈ desired, n ∈ names) →
      GrantedActions.specific (sortedNames names) ≠ .specific [] := by
    intro names desired hne hsub hnil
    obtain ⟨n, hn⟩ := List.exists_mem_of_ne_nil desired (by simpa using hne)
    have hmem := mem_sortedNames.mpr (hsub n hn)
    rw [GrantedActions.specific.inj hnil] at hmem
    cases hmem
  unfold reconcileDynamicToolLease
  dsimp only
  split
  · exact .inl rfl
  · split_ifs
    · exact .inl rfl
    · split
      · exact .inl rfl
      · split
        · exact .inl rfl
        · split_ifs with hdesired
          · exact .inl rfl
          · split
            · split_ifs
              · exact .inl rfl
              · exact .inl rfl
              · exact .inr ⟨_, hsorted hdesired fun _ h =>
                  List.mem_dedup.mpr (List.mem_append_right _ h), .inl ⟨_, rfl⟩⟩
            · exact .inr ⟨_, hsorted hdesired (fun _ h => h), .inr rfl⟩

end Grants

/-- A call of the manager, or a refresh of the lease for a thread's dynamic tools. -/
inductive GrantOperation where
  | call (c : LeaseCall)
  | reconcile (clock : LeaseManager.Clock) (now : Time) (threadId : ThreadId)
      (threadType : ThreadType) (available : Except EngineError (List ActionDef))

def GrantOperation.Leads (host host' : LeaseHost) : GrantOperation → Prop
  | call c => host.perform c = some host'
  | reconcile clock now threadId threadType available =>
    host'.manager =
        (reconcileDynamicToolLease clock now host.manager threadId threadType available).2 ∧
      host'.derived = host.derived

def GrantOperation.GivesActions : GrantOperation → Prop
  | call (.grant _ _ _ granted _ _) => granted ≠ .specific []
  | call (.updateGrantedActions _ granted) => granted ≠ .specific []
  | _ => True

namespace LeaseHost

inductive Reached (P : GrantOperation → Prop) : LeaseHost → Prop
  | new : Reached P .new
  | next {host host' : LeaseHost} {op : GrantOperation} :
      Reached P host → P op → op.Leads host host' → Reached P host'

/-- The host keeps a lease with the grant, in its table or among those under way. -/
def Keeps (host : LeaseHost) (granted : GrantedActions) : Prop :=
  (∃ id lease, host.manager.active.lookup id = some lease ∧ lease.grantedActions = granted) ∨
    ∃ children ∈ host.derived, ∃ lease ∈ children, lease.grantedActions = granted

/-- Every grant lists some action or is a wildcard. -/
structure Granting (host : LeaseHost) : Prop where
  table : ∀ threadId, host.manager.Grants threadId (· ≠ .specific [])
  derived : ∀ children ∈ host.derived, ∀ lease ∈ children, lease.grantedActions ≠ .specific []

variable {host host' : LeaseHost}

theorem ne_of_childGrants {requested : Option (List Text)} {granted g : GrantedActions}
    (h : childGrants requested granted = some g) (hne : granted ≠ .specific []) :
    g ≠ .specific [] := by
  rintro rfl
  cases requested with
  | none => exact hne (Option.some.inj h)
  | some actions =>
    simp only [childGrants] at h
    split_ifs at h with hempty
    rw [GrantedActions.specific.inj (Option.some.inj h)] at hempty
    exact hempty rfl

theorem Granting.apply (h : Granting host) {e : LeaseEvent} (he : e.inventory = none)
    (threadId : ThreadId) :
    (host.manager.apply threadId .foreground e).Grants threadId (· ≠ .specific []) :=
  (h.table threadId).apply_of_inventory_eq_none he

theorem Granting.perform (h : Granting host) {c : LeaseCall}
    (hc : GrantOperation.GivesActions (.call c)) (hp : host.perform c = some host') :
    Granting host' := by
  cases c with
  | grant now threadId capabilityName granted duration maxUses =>
    cases hp
    exact ⟨fun tid => (h.table tid).grant _ _ hc, h.derived⟩
  | updateGrantedActions id granted =>
    cases hp
    exact ⟨fun tid => (h.table tid).modify (LeaseManager.keeps_grantedActions _) fun _ _ => hc, h.derived⟩
  | consumeUse clock id =>
    cases hp
    exact ⟨fun tid => (h.table tid).consumeUse clock id, h.derived⟩
  | findAndConsume clock threadId actionName =>
    cases hp
    exact ⟨h.apply (e := .findAndConsume clock threadId actionName) rfl, h.derived⟩
  | refundUse id =>
    cases hp
    exact ⟨h.apply (e := .refundUse id) rfl, h.derived⟩
  | revoke id =>
    cases hp
    exact ⟨h.apply (e := .revoke id) rfl, h.derived⟩
  | expireStale clock =>
    cases hp
    exact ⟨h.apply (e := .expireStale clock) rfl, h.derived⟩
  | deriveChildLeases clock clock' parentThreadId childThreadId requested =>
    cases hp
    refine ⟨h.table, fun children hchildren lease hlease => ?_⟩
    rcases List.mem_append.mp hchildren with hold | hnew
    · exact h.derived children hold lease hlease
    · rw [List.mem_singleton.mp hnew] at hlease
      obtain ⟨parent, hparent, -, hg⟩ := LeaseManager.exists_parent_of_child hlease
      have hmem := (List.mem_filter.mp (List.mem_filter.mp hparent).1).1
      exact ne_of_childGrants hg (h.table _ _ _ (LeaseManager.mem_leases.mp hmem) rfl)
  | enterChildLeases index =>
    simp only [LeaseHost.perform] at hp
    split_ifs at hp with hindex
    cases hp
    refine ⟨fun tid id lease hlookup hthread => ?_, fun children hchildren =>
      h.derived children (List.mem_of_mem_eraseIdx hchildren)⟩
    rcases LeaseManager.lookup_foldl_insert hlookup with ⟨hmem, -⟩ | htable
    · exact h.derived _ (List.getElem_mem hindex) lease hmem
    · exact h.table tid id lease htable hthread

theorem granting_of_reached (h : Reached GrantOperation.GivesActions host) : Granting host := by
  induction h with
  | new => exact ⟨by rintro _ _ _ ⟨⟩, by rintro _ ⟨⟩⟩
  | @next host host' op _ hop hleads ih =>
    cases op with
    | call c => exact ih.perform hop hleads
    | reconcile clock now threadId threadType available =>
      obtain ⟨hmanager, hderived⟩ := hleads
      refine ⟨fun tid => ?_, hderived ▸ ih.derived⟩
      rw [hmanager]
      rcases reconcile_manager clock now host.manager threadId threadType available with
        hm | ⟨granted, hne, ⟨id, hm⟩ | hm⟩ <;> rw [hm]
      · exact ih.table tid
      · exact (ih.table tid).modify (LeaseManager.keeps_grantedActions _) fun _ _ => hne
      · exact (ih.table tid).grant _ _ hne

/-- **Grants survive being written and read back**, if the manager is given no empty grant. -/
theorem survives_of_reached (h : Reached GrantOperation.GivesActions host)
    {granted : GrantedActions} (hkeeps : host.Keeps granted) : granted.Survives := by
  have hgranting := granting_of_reached h
  refine GrantedActions.survives_iff.mpr ?_
  rcases hkeeps with ⟨id, lease, hlookup, rfl⟩ | ⟨children, hchildren, lease, hlease, rfl⟩
  · exact hgranting.table _ id lease hlookup rfl
  · exact hgranting.derived children hchildren lease hlease

theorem survives_of_reached_one : (GrantedActions.specific [['a']]).Survives :=
  survives_of_reached (@Reached.next _ _ _ (.call (.grant 0 0 [] (.specific [['a']]) none none))
    .new nofun rfl) (.inl ⟨0, _, rfl, rfl⟩)

/-- A lease that was granted for no action covers every action once it is read back. -/
theorem emptyGrant_widens : ∃ host, Reached (fun _ => True) host ∧ host.Keeps (.specific []) ∧
    ¬ (GrantedActions.specific []).Survives ∧
    GrantedActions.deserialize (GrantedActions.specific []).serialize = some .all := by
  refine ⟨_, @Reached.next _ _ _ (.call (.grant 0 0 [] (.specific []) none none)) .new trivial rfl,
    .inl ⟨0, _, rfl, rfl⟩, ?_, rfl⟩
  exact fun h => GrantedActions.survives_iff.mp h rfl

end LeaseHost

end IronClaw.Engine
