import IronClaw.Engine.ActionBatch

/-!
# What a batch costs

Each call handed to the effect executor costs one use of its lease, unless a gate pauses it. But
when the preflight stops after a use was taken, admitted calls are paid for and not run.
-/

namespace IronClaw.Engine

open Foundation (Text)
open Option (bind_eq_some_iff bind_some map_some)

variable {J : Type}

namespace CapabilityLease

/-- A lease after some of its uses have been taken. -/
def Spent (lease lease' : CapabilityLease) : Prop :=
  lease' = { lease with usesRemaining := lease'.usesRemaining } ∧
    ∀ now, lease'.isValid now = true → lease.isValid now = true

theorem Spent.refl (lease : CapabilityLease) : lease.Spent lease := ⟨rfl, fun _ h => h⟩

theorem Spent.trans {a b c : CapabilityLease} (hab : a.Spent b) (hbc : b.Spent c) : a.Spent c := by
  refine ⟨?_, fun now h => hab.2 now (hbc.2 now h)⟩
  have hb := hab.1
  have hc := hbc.1
  rw [hb] at hc
  exact hc

theorem Spent.id_eq {a b : CapabilityLease} (h : a.Spent b) : b.id = a.id := by rw [h.1]

theorem Spent.maxUses_eq {a b : CapabilityLease} (h : a.Spent b) : b.maxUses = a.maxUses := by
  rw [h.1]

theorem spent_of_consumeUse {lease lease' : CapabilityLease} (h : lease.consumeUse = some lease') :
    lease.Spent lease' := by
  obtain ⟨heq, hne⟩ := consumeUse_eq_some h
  refine ⟨by rw [heq], fun now hvalid => ?_⟩
  rw [heq] at hvalid
  obtain ⟨hrevoked, hexpires, -⟩ := isValid_iff.mp hvalid
  exact isValid_iff.mpr ⟨hrevoked, hexpires, hne⟩

end CapabilityLease

namespace LeaseManager

def uses (m : LeaseManager) (id : LeaseId) : Option Nat :=
  (m.active.lookup id).bind CapabilityLease.usesRemaining

def limit (m : LeaseManager) (id : LeaseId) : Option Nat :=
  (m.active.lookup id).bind CapabilityLease.maxUses

/-- The leases of one table are those of another after uses have been taken. -/
def SpentFrom (m m' : LeaseManager) : Prop :=
  ∀ id lease', m'.active.lookup id = some lease' →
    ∃ lease, m.active.lookup id = some lease ∧ lease.Spent lease'

theorem SpentFrom.refl (m : LeaseManager) : m.SpentFrom m :=
  fun _ lease h => ⟨lease, h, .refl lease⟩

theorem SpentFrom.trans {a b c : LeaseManager} (hab : a.SpentFrom b) (hbc : b.SpentFrom c) :
    a.SpentFrom c := by
  intro id lease' h
  obtain ⟨l, hl, hs⟩ := hbc id lease' h
  obtain ⟨l', hl', hs'⟩ := hab id l hl
  exact ⟨l', hl', hs'.trans hs⟩

theorem uses_le_limit {m : LeaseManager} {id : LeaseId} {n : Nat} (h : m.uses id = some n) :
    ∃ limit, m.limit id = some limit ∧ n ≤ limit := by
  obtain ⟨lease, hl, hn⟩ := bind_eq_some_iff.mp h
  have hb := (m.filed id lease hl).2.2
  unfold CapabilityLease.WithinBudget at hb
  rw [hn] at hb
  cases hmax : lease.maxUses with
  | none => rw [hmax] at hb; exact hb.elim
  | some maxUses =>
    rw [hmax] at hb
    exact ⟨maxUses, by rw [limit, hl]; exact hmax, hb⟩

theorem uses_isSome_of_limit {m : LeaseManager} {id : LeaseId} {limit : Nat}
    (h : m.limit id = some limit) : ∃ n, m.uses id = some n := by
  obtain ⟨lease, hl, hmax⟩ := bind_eq_some_iff.mp h
  have hb := (m.filed id lease hl).2.2
  unfold CapabilityLease.WithinBudget at hb
  rw [hmax] at hb
  cases hn : lease.usesRemaining with
  | none => rw [hn] at hb; exact hb.elim
  | some n => exact ⟨n, by rw [uses, hl]; exact hn⟩

section Consume

variable {clock : Clock} {m m' : LeaseManager} {threadId : ThreadId} {actionName : Text}
  {lease' : CapabilityLease}

theorem spentFrom_of_findAndConsume
    (h : m.findAndConsume clock threadId actionName = (.ok lease', m')) : m.SpentFrom m' := by
  obtain ⟨lease, hlookup, -, -, -, hcons, rfl⟩ := findAndConsume_ok h
  intro id l hl
  rw [lookup_modify] at hl
  split_ifs at hl with hid
  · obtain ⟨old, hold, rfl⟩ := Option.map_eq_some_iff.mp hl
    rw [hid, hlookup] at hold
    cases hold
    refine ⟨lease, hid ▸ hlookup, ?_⟩
    rw [consumed, hcons]
    exact CapabilityLease.spent_of_consumeUse hcons
  · exact ⟨l, hl, .refl l⟩

theorem lookup_of_findAndConsume
    (h : m.findAndConsume clock threadId actionName = (.ok lease', m')) :
    m'.active.lookup lease'.id = some lease' := by
  obtain ⟨lease, hlookup, -, -, -, hcons, rfl⟩ := findAndConsume_ok h
  have hid := (CapabilityLease.spent_of_consumeUse hcons).id_eq
  rw [lookup_modify, if_pos hid, hid, hlookup, map_some, consumed, hcons]
  rfl

theorem uses_of_findAndConsume
    (h : m.findAndConsume clock threadId actionName = (.ok lease', m')) {k : LeaseId} {n : Nat}
    (hn : m.uses k = some n) :
    ∃ n', m'.uses k = some n' ∧ n = n' + if lease'.id = k then 1 else 0 := by
  obtain ⟨lease, hlookup, -, -, -, hcons, rfl⟩ := findAndConsume_ok h
  have hid := (CapabilityLease.spent_of_consumeUse hcons).id_eq
  obtain ⟨heq, hne⟩ := CapabilityLease.consumeUse_eq_some hcons
  obtain ⟨l, hl, hln⟩ := bind_eq_some_iff.mp hn
  rw [uses, lookup_modify]
  by_cases hk : k = lease.id
  · subst hk
    rw [hlookup] at hl
    cases hl
    rw [if_pos rfl, if_pos hid, hlookup, map_some, consumed, hcons, Option.getD_some,
      bind_some, heq, hln]
    have hpos : n ≠ 0 := fun h0 => hne (h0 ▸ hln)
    exact ⟨n - 1, rfl, by omega⟩
  · rw [if_neg hk, if_neg (by rw [hid]; exact fun he => hk he.symm)]
    exact ⟨n, by rw [hl]; exact hln, rfl⟩

end Consume

theorem uses_refundUse {m : LeaseManager} (id : LeaseId) {k : LeaseId} {n limit : Nat}
    (hn : m.uses k = some n) (hlimit : m.limit k = some limit) (hlt : n < limit) :
    (m.refundUse id).uses k = some (n + if id = k then 1 else 0) := by
  obtain ⟨lease, hl, hln⟩ := bind_eq_some_iff.mp hn
  have hmax : lease.maxUses = some limit := by
    rw [LeaseManager.limit, hl] at hlimit
    exact hlimit
  rw [uses, refundUse, lookup_modify]
  by_cases hk : k = id
  · subst hk
    rw [if_pos rfl, if_pos rfl, hl, map_some, bind_some,
      CapabilityLease.refundUse, hmax, hln]
    simp [hlt]
  · rw [if_neg hk, if_neg (Ne.symm hk), hl]
    exact hln

theorem limit_refundUse (m : LeaseManager) (id k : LeaseId) :
    (m.refundUse id).limit k = m.limit k := by
  rw [limit, limit, refundUse, lookup_modify]
  split_ifs
  · cases m.active.lookup k with
    | none => rfl
    | some lease =>
      rw [map_some, bind_some, bind_some, lease.refundUse_eq]
  · rfl

theorem SpentFrom.limit {m m' : LeaseManager} (h : m.SpentFrom m') {k : LeaseId} {n : Nat}
    (hn : m'.limit k = some n) : m.limit k = some n := by
  obtain ⟨lease', hl', hmax⟩ := bind_eq_some_iff.mp hn
  obtain ⟨lease, hl, hs⟩ := h k lease' hl'
  rw [LeaseManager.limit, hl, bind_some, ← hs.maxUses_eq, hmax]

end LeaseManager

def PreflightOutcome.lease? : PreflightOutcome → Option CapabilityLease
  | runnable lease => some lease
  | error _ => none

def admittedLeases (outcomes : List PreflightOutcome) : List CapabilityLease :=
  outcomes.filterMap PreflightOutcome.lease?

@[simp] theorem admittedLeases_nil : admittedLeases [] = [] := rfl

@[simp] theorem admittedLeases_error (reason : Refusal) (outcomes : List PreflightOutcome) :
    admittedLeases (.error reason :: outcomes) = admittedLeases outcomes := rfl

@[simp] theorem admittedLeases_runnable (lease : CapabilityLease)
    (outcomes : List PreflightOutcome) :
    admittedLeases (.runnable lease :: outcomes) = lease :: admittedLeases outcomes := rfl

section Preflight

variable {abort : Bool} {inventory : Option (List ActionDef)} {policy : PolicyEngine}
  {capabilityPolicies : List PolicyRule} {threadId : ThreadId}

/-- How the preflight of a batch goes, call by call. -/
inductive Preflights (abort : Bool) (inventory : Option (List ActionDef)) (policy : PolicyEngine)
    (capabilityPolicies : List PolicyRule) (threadId : ThreadId) : List (TimedCall J) →
    LeaseManager → List PreflightOutcome → PreflightEnd J → LeaseManager → Prop
  | nil (m : LeaseManager) :
      Preflights abort inventory policy capabilityPolicies threadId [] m [] .complete m
  | refused {call calls m outcomes ending m'} (reason : Refusal)
      (h : Preflights abort inventory policy capabilityPolicies threadId calls m outcomes ending
        m') :
      Preflights abort inventory policy capabilityPolicies threadId (call :: calls) m
        (.error reason :: outcomes) ending m'
  | needsApproval (call : TimedCall J) (calls m) :
      Preflights abort inventory policy capabilityPolicies threadId (call :: calls) m []
        (.needApproval call.toActionCall) m
  | failed (e : EngineError) (call calls m) (habort : abort = true) :
      Preflights abort inventory policy capabilityPolicies threadId (call :: calls) m []
        (.failed e) m
  | admitted {call calls m lease m₁ outcomes ending m'}
      (hv : vetCall inventory policy capabilityPolicies threadId m call = .allowed)
      (hc : m.findAndConsume call.consumeClock threadId call.actionName = (.ok lease, m₁))
      (h : Preflights abort inventory policy capabilityPolicies threadId calls m₁ outcomes ending
        m') :
      Preflights abort inventory policy capabilityPolicies threadId (call :: calls) m
        (.runnable lease :: outcomes) ending m'

theorem preflights (abort : Bool) (inventory : Option (List ActionDef)) (policy : PolicyEngine)
    (capabilityPolicies : List PolicyRule) (threadId : ThreadId) (calls : List (TimedCall J))
    (m : LeaseManager) :
    let r := preflight abort inventory policy capabilityPolicies threadId calls m
    Preflights abort inventory policy capabilityPolicies threadId calls m r.1 r.2.1 r.2.2 := by
  induction calls generalizing m with
  | nil => exact .nil m
  | cons call calls ih =>
    cases hv : vetCall inventory policy capabilityPolicies threadId m call with
    | refused reason => simpa only [preflight, hv] using .refused reason (ih m)
    | needsApproval => simpa only [preflight, hv] using .needsApproval call calls m
    | allowed =>
      rcases hc : m.findAndConsume call.consumeClock threadId call.actionName with ⟨e | lease, m₁⟩
      · -- a failed consumption leaves the table alone
        obtain rfl := LeaseManager.findAndConsume_error hc
        cases abort with
        | true => simpa only [preflight, hv, hc] using .failed e call calls _ rfl
        | false =>
          simpa only [preflight, hv, hc, Bool.false_eq_true, if_false] using .refused _ (ih _)
      · simpa only [preflight, hv, hc] using .admitted hv hc (ih m₁)

namespace Preflights

variable {calls : List (TimedCall J)} {m m' : LeaseManager} {outcomes : List PreflightOutcome}
  {ending : PreflightEnd J} {lease : CapabilityLease}

theorem ne_failed (h : Preflights false inventory policy capabilityPolicies threadId calls m
    outcomes ending m') (e : EngineError) : ending ≠ .failed e := by
  induction h with
  | nil | needsApproval => exact nofun
  | refused _ _ ih | admitted _ _ _ ih => exact ih
  | failed _ _ _ _ habort => cases habort

variable (h : Preflights abort inventory policy capabilityPolicies threadId calls m outcomes ending
  m')

include h

theorem length_le : outcomes.length ≤ calls.length := by
  induction h with
  | nil | needsApproval | failed => exact Nat.zero_le _
  | refused _ _ ih | admitted _ _ _ ih => exact Nat.succ_le_succ ih

theorem spentFrom : m.SpentFrom m' := by
  induction h with
  | nil | needsApproval | failed => exact .refl _
  | refused _ _ ih => exact ih
  | admitted _ hc _ ih => exact (LeaseManager.spentFrom_of_findAndConsume hc).trans ih

/-- **Preflight** takes one use of a bounded lease for each call admitted on it. -/
theorem uses {k : LeaseId} {n : Nat} (hn : m.uses k = some n) : ∃ n', m'.uses k = some n' ∧
      n = n' + (admittedLeases outcomes).countP fun lease => lease.id = k := by
  induction h generalizing n with
  | nil | needsApproval | failed => exact ⟨n, hn, rfl⟩
  | refused _ _ ih => exact ih hn
  | admitted _ hc _ ih =>
    -- one use now, and one for each call admitted later
    obtain ⟨n₁, hn₁, hsum⟩ := LeaseManager.uses_of_findAndConsume hc hn
    obtain ⟨n₂, hn₂, hsum₂⟩ := ih hn₁
    refine ⟨n₂, hn₂, ?_⟩
    simp only [admittedLeases_runnable, List.countP_cons, decide_eq_true_eq]
    omega

theorem exists_spent (hlease : lease ∈ admittedLeases outcomes) :
    ∃ l, m.active.lookup lease.id = some l ∧ l.Spent lease := by
  induction h with
  | nil | needsApproval | failed => cases hlease
  | refused _ _ ih => exact ih hlease
  | admitted _ hc _ ih =>
    have hspent := LeaseManager.spentFrom_of_findAndConsume hc
    rcases List.mem_cons.mp hlease with rfl | hlease
    · exact hspent _ lease (LeaseManager.lookup_of_findAndConsume hc)
    · -- the table that the call found is a spent one
      obtain ⟨l, hl, hs⟩ := ih hlease
      obtain ⟨l₀, hl₀, hs₀⟩ := hspent _ l hl
      exact ⟨l₀, hl₀, hs₀.trans hs⟩

theorem limit_eq (hlease : lease ∈ admittedLeases outcomes) : m.limit lease.id = lease.maxUses := by
  obtain ⟨l, hl, hs⟩ := h.exists_spent hlease
  rw [LeaseManager.limit, hl, bind_some, hs.maxUses_eq]

end Preflights

end Preflight

theorem uses_settle {needsRefund : HandedOver J → Bool} (order : List (HandedOver J))
    {m : LeaseManager} {k : LeaseId} {n limit : Nat} (hn : m.uses k = some n)
    (hlimit : m.limit k = some limit)
    (hroom : n + order.countP (fun h => decide (h.lease.id = k) && needsRefund h) ≤ limit) :
    (settle needsRefund order m).uses k =
      some (n + order.countP fun h => decide (h.lease.id = k) && needsRefund h) := by
  induction order generalizing m n with
  | nil => simpa [settle] using hn
  | cons h order ih =>
    rw [settle, List.foldl_cons, ← settle]
    by_cases hr : needsRefund h = true
    · rw [if_pos hr]
      rw [List.countP_cons, hr, Bool.and_true] at hroom ⊢
      by_cases hk : h.lease.id = k
      · rw [if_pos (by simpa using hk)] at hroom ⊢
        have huses := LeaseManager.uses_refundUse h.lease.id hn hlimit (by omega)
        rw [if_pos hk] at huses
        rw [ih huses (by rw [LeaseManager.limit_refundUse]; exact hlimit) (by omega)]
        congr 1
        omega
      · rw [if_neg (by simpa using hk)] at hroom ⊢
        refine ih ?_ (by rw [LeaseManager.limit_refundUse]; exact hlimit) hroom
        rw [LeaseManager.uses, LeaseManager.refundUse, LeaseManager.lookup_modify,
          if_neg (Ne.symm hk)]
        exact hn
    · have hfalse : needsRefund h = false := by simpa using hr
      rw [if_neg hr]
      rw [List.countP_cons, hfalse, Bool.and_false] at hroom ⊢
      exact ih hn hlimit hroom

theorem map_lease_admitted (nameFor : ActionCall J → Text) {calls : List (TimedCall J)}
    {outcomes : List PreflightOutcome} (h : outcomes.length ≤ calls.length) :
    (admitted nameFor calls outcomes).map HandedOver.lease = admittedLeases outcomes := by
  have hgen : ∀ (calls : List (TimedCall J)) (outcomes : List PreflightOutcome) (i : Nat),
      outcomes.length ≤ calls.length →
      (((calls.zip outcomes).zipIdx i).filterMap fun x =>
        match x.1.2 with
        | .runnable lease =>
          some (⟨x.2, x.1.1.toActionCall, nameFor x.1.1.toActionCall, lease⟩ : HandedOver J)
        | .error _ => none).map HandedOver.lease = admittedLeases outcomes := by
    intro calls
    induction calls with
    | nil =>
      intro outcomes i hlen
      cases outcomes with
      | nil => rfl
      | cons o outcomes => simp at hlen
    | cons call calls ih =>
      intro outcomes i hlen
      cases outcomes with
      | nil => rfl
      | cons o outcomes =>
        simp only [List.length_cons, Nat.add_le_add_iff_right] at hlen
        have hrest := ih outcomes (i + 1) hlen
        cases o with
        | error reason =>
          simpa using hrest
        | runnable lease =>
          simpa using hrest
  exact hgen calls outcomes 0 h

/-- Each bounded lease has lost one use for each call handed over on it and not paused. -/
def Charges (paused : HandedOver J → Bool) (m m' : LeaseManager)
    (handedOver : List (HandedOver J)) :
    Prop :=
  ∀ k n, m.uses k = some n → ∃ n', m'.uses k = some n' ∧
    n = n' + handedOver.countP fun h => decide (h.lease.id = k) && !paused h

theorem countP_split (p q : HandedOver J → Bool) (l : List (HandedOver J)) :
    l.countP p = l.countP (fun h => p h && q h) + l.countP fun h => p h && !q h := by
  induction l with
  | nil => rfl
  | cons h l ih =>
    simp only [List.countP_cons, ih]
    cases p h <;> cases q h <;> simp <;> omega

theorem charges_settle (abort : Bool) (inventory : Option (List ActionDef))
    (policy : PolicyEngine) (capabilityPolicies : List PolicyRule) (threadId : ThreadId)
    (nameFor : ActionCall J → Text) (paused : HandedOver J → Bool) (schedule : Schedule J)
    (calls : List (TimedCall J)) (m : LeaseManager) :
    let r := preflight abort inventory policy capabilityPolicies threadId calls m
    Charges paused m (settle paused (schedule.order (admitted nameFor calls r.1)) r.2.2)
      (admitted nameFor calls r.1) := by
  intro r k n hn
  have hp := preflights abort inventory policy capabilityPolicies threadId calls m
  obtain ⟨n₁, hn₁, hsum⟩ := hp.uses hn
  obtain ⟨limit, hlimit, hle⟩ := LeaseManager.uses_le_limit hn
  obtain ⟨limit₁, hlimit₁, -⟩ := LeaseManager.uses_le_limit hn₁
  have hsame : limit₁ = limit := by
    have hback := hp.spentFrom.limit hlimit₁
    rw [hlimit] at hback
    exact (Option.some.inj hback).symm
  subst hsame
  have hcount : (admittedLeases r.1).countP (fun lease => decide (lease.id = k)) =
      (admitted nameFor calls r.1).countP fun h => decide (h.lease.id = k) := by
    rw [← map_lease_admitted nameFor hp.length_le, List.countP_map]
    rfl
  have hsplit := countP_split (fun h => decide (h.lease.id = k)) paused
    (admitted nameFor calls r.1)
  have hperm := (schedule.perm (admitted nameFor calls r.1)).countP_eq
    fun h => decide (h.lease.id = k) && paused h
  rw [hcount, hsplit] at hsum
  refine ⟨_, uses_settle _ hn₁ hlimit₁ (by omega), ?_⟩
  omega

theorem charges_stopped_iff (abort : Bool) (inventory : Option (List ActionDef))
    (policy : PolicyEngine) (capabilityPolicies : List PolicyRule) (threadId : ThreadId)
    (paused : HandedOver J → Bool) (calls : List (TimedCall J)) (m : LeaseManager) :
    let r := preflight abort inventory policy capabilityPolicies threadId calls m
    Charges paused m r.2.2 [] ↔ ∀ lease ∈ admittedLeases r.1, lease.maxUses = none := by
  intro r
  have hp := preflights abort inventory policy capabilityPolicies threadId calls m
  constructor
  · intro h lease hlease
    by_contra hne
    obtain ⟨bound, hbound⟩ := Option.ne_none_iff_exists'.mp hne
    obtain ⟨n, hn⟩ := LeaseManager.uses_isSome_of_limit
      ((hp.limit_eq hlease).trans hbound)
    obtain ⟨n₁, hn₁, hsum⟩ := hp.uses hn
    obtain ⟨n₂, hn₂, hsame⟩ := h lease.id n hn
    have hpos : 0 < (admittedLeases r.1).countP fun l => decide (l.id = lease.id) :=
      List.countP_pos_iff.mpr ⟨lease, hlease, by simp⟩
    have heq : n₁ = n₂ := Option.some.inj (hn₁.symm.trans hn₂)
    simp only [List.countP_nil, Nat.add_zero] at hsame
    change n = n₁ + (admittedLeases r.1).countP _ at hsum
    omega
  · intro h k n hn
    obtain ⟨n₁, hn₁, hsum⟩ := hp.uses hn
    refine ⟨n₁, hn₁, ?_⟩
    have hzero : (admittedLeases r.1).countP (fun l => decide (l.id = k)) = 0 := by
      rw [List.countP_eq_zero]
      intro lease hlease hid
      have hk : lease.id = k := by simpa using hid
      -- a bounded counter belongs to a bounded lease
      obtain ⟨limit, hlimit, -⟩ := LeaseManager.uses_le_limit hn
      rw [← hk, hp.limit_eq hlease, h lease hlease] at hlimit
      cases hlimit
    change n = n₁ + (admittedLeases r.1).countP _ at hsum
    simp only [List.countP_nil]
    omega

/-- No call needs approval or, when `abort` is set, fails to consume, after a use of a bounded lease
was taken (`paid`). -/
def Unbroken (abort : Bool) (inventory : Option (List ActionDef)) (policy : PolicyEngine)
    (capabilityPolicies : List PolicyRule) (threadId : ThreadId) :
    Bool → List (TimedCall J) → LeaseManager → Prop
  | _, [], _ => True
  | paid, call :: calls, m =>
    match vetCall inventory policy capabilityPolicies threadId m call with
    | .refused _ =>
      Unbroken abort inventory policy capabilityPolicies threadId paid calls m
    | .needsApproval => paid = false
    | .allowed =>
      match m.findAndConsume call.consumeClock threadId call.actionName with
      | (.ok lease, m') =>
        Unbroken abort inventory policy capabilityPolicies threadId
          (paid || lease.maxUses.isSome) calls m'
      | (.error _, m') =>
        if abort then paid = false
        else Unbroken abort inventory policy capabilityPolicies threadId paid calls m'

theorem unbroken_iff (abort : Bool) (inventory : Option (List ActionDef)) (policy : PolicyEngine)
    (capabilityPolicies : List PolicyRule) (threadId : ThreadId) (paid : Bool)
    (calls : List (TimedCall J)) (m : LeaseManager) :
    let r := preflight abort inventory policy capabilityPolicies threadId calls m
    Unbroken abort inventory policy capabilityPolicies threadId paid calls m ↔
      r.2.1 = .complete ∨ paid = false ∧ ∀ lease ∈ admittedLeases r.1, lease.maxUses = none := by
  induction calls generalizing paid m with
  | nil => simp [Unbroken, preflight]
  | cons call calls ih =>
    cases hv : vetCall inventory policy capabilityPolicies threadId m call with
    | refused reason => simpa [Unbroken, preflight, hv] using ih paid m
    | needsApproval => simp [Unbroken, preflight, hv]
    | allowed =>
      rcases hc : m.findAndConsume call.consumeClock threadId call.actionName with ⟨r, m'⟩
      cases r with
      | ok lease =>
        have hrest := ih (paid || lease.maxUses.isSome) m'
        simp only [Bool.or_eq_false_iff, Option.isSome_eq_false_iff, Option.isNone_iff_eq_none]
          at hrest
        simp only [Unbroken, preflight, hv, hc, admittedLeases_runnable, List.forall_mem_cons,
          hrest, and_assoc]
      | error e =>
        cases abort with
        | true => simp [Unbroken, preflight, hv, hc]
        | false => simpa [Unbroken, preflight, hv, hc] using ih paid m'

section Cost

variable (policy : PolicyEngine) (capabilityPolicies : List PolicyRule) (threadId : ThreadId)
  (outcome : Nat → ExecOutcome J) (schedule : Schedule J) (calls : List (TimedCall J))
  (m : LeaseManager)

def endsPaused (outcome : Nat → ExecOutcome J) (h : HandedOver J) : Bool :=
  interruptedCallNeedsRefund (outcome h.index)

theorem executeActionCalls_charges_iff (inventory : Except EngineError (List ActionDef)) :
    let b := executeActionCalls inventory policy capabilityPolicies threadId outcome schedule
      calls m
    Charges (endsPaused outcome) m b.leases b.handedOver ↔ ∀ inline, inventory = .ok inline →
      Unbroken true (some inline) policy capabilityPolicies threadId false calls m := by
  cases inventory with
  | error e => simp [executeActionCalls, Charges]
  | ok inline =>
    have hstop := charges_stopped_iff true (some inline) policy capabilityPolicies threadId
      (endsPaused outcome) calls m
    have hrun := charges_settle true (some inline) policy capabilityPolicies threadId
      ActionCall.actionName (endsPaused outcome) schedule calls m
    have hunbroken := unbroken_iff true (some inline) policy capabilityPolicies threadId
      false calls m
    simp only [executeActionCalls, Except.ok.injEq, forall_eq']
    refine Iff.trans ?_ hunbroken.symm
    rcases hp : preflight true (some inline) policy capabilityPolicies threadId calls m with
      ⟨outcomes, ending, m'⟩
    rw [hp] at hstop hrun
    cases ending with
    | complete => exact ⟨fun _ => .inl rfl, fun _ => hrun⟩
    | needApproval call => simpa using hstop
    | failed e => simpa using hstop

theorem interruptedResultNeedsRefund_executeSingleAction (actionName : Text) (callId : String)
    (o : ExecOutcome J) : interruptedResultNeedsRefund (executeSingleAction actionName callId o) =
      interruptedCallNeedsRefund o := by
  cases o <;> rfl

theorem handleExecuteActionsParallel_charges_iff
    (inventory : Except EngineError (List ActionDef)) :
    let b := handleExecuteActionsParallel inventory policy threadId outcome schedule calls m
    Charges (endsPaused outcome) m b.leases b.handedOver ↔
      Unbroken false inventory.toOption policy [] threadId false calls m := by
  have hstop := charges_stopped_iff false inventory.toOption policy [] threadId (endsPaused outcome)
    calls m
  have hrun := charges_settle false inventory.toOption policy [] threadId
    (canonicalName inventory.toOption) (endsPaused outcome) schedule calls m
  have hunbroken := unbroken_iff false inventory.toOption policy [] threadId false calls m
  simp only [handleExecuteActionsParallel, interruptedResultNeedsRefund_executeSingleAction]
  refine Iff.trans ?_ hunbroken.symm
  rcases hp : preflight false inventory.toOption policy [] threadId calls m with
    ⟨outcomes, ending, m'⟩
  rw [hp] at hstop hrun
  cases ending with
  | complete => exact ⟨fun _ => .inl rfl, fun _ => hrun⟩
  | needApproval call => simpa using hstop
  | failed e => exact absurd (by rw [hp]) ((preflights ..).ne_failed e)

/-- **The cost of a batch**: each bounded lease loses one use for each call run on it and not
paused, if and only if no call stops the preflight after a use was taken. -/
theorem batch_charges_iff (inventory : Except EngineError (List ActionDef)) :
    (Charges (endsPaused outcome) m
        (executeActionCalls inventory policy capabilityPolicies threadId outcome schedule calls
          m).leases
        (executeActionCalls inventory policy capabilityPolicies threadId outcome schedule calls
          m).handedOver ↔ ∀ inline, inventory = .ok inline →
        Unbroken true (some inline) policy capabilityPolicies threadId false calls m) ∧
    (Charges (endsPaused outcome) m
        (handleExecuteActionsParallel inventory policy threadId outcome schedule calls m).leases
        (handleExecuteActionsParallel inventory policy threadId outcome schedule calls
          m).handedOver ↔ Unbroken false inventory.toOption policy [] threadId false calls m) :=
  ⟨executeActionCalls_charges_iff policy capabilityPolicies threadId outcome schedule calls m
      inventory,
    handleExecuteActionsParallel_charges_iff policy threadId outcome schedule calls m inventory⟩

end Cost

def fiveUses : LeaseManager := (LeaseManager.new.grant 0 1 "tools".toList .all none (some 5)).2

def sampleCall (actionName : Text) : TimedCall Unit where
  id := "call"
  actionName := actionName
  parameters := ()
  findClock := fun _ => 0
  evaluateTime := 0
  consumeClock := fun _ => 0

def sampleInventory : List ActionDef :=
  [⟨"echo".toList, [.compute], false, none⟩, ⟨"shell".toList, [.compute], true, none⟩]

def sampleSchedule : Schedule Unit := ⟨fun l => l, fun l => .refl l⟩

theorem uses_after_stopped_batch :
    (executeActionCalls (.ok sampleInventory) ⟨[], []⟩ [] 1 (fun _ => .panicked) sampleSchedule
        [sampleCall "echo".toList, sampleCall "shell".toList] fiveUses).leases.uses 0 = some 4 ∧
      (handleExecuteActionsParallel (.ok sampleInventory) ⟨[], []⟩ 1 (fun _ => .panicked)
        sampleSchedule [sampleCall "echo".toList, sampleCall "shell".toList]
          fiveUses).leases.uses 0 = some 4 := by
  decide

/-- The first call is paid for and neither call is run, by both executors. -/
theorem stopped_batch_not_charged :
    ¬ Charges (endsPaused fun _ => .panicked) fiveUses
        (executeActionCalls (.ok sampleInventory) ⟨[], []⟩ [] 1 (fun _ => .panicked)
          sampleSchedule [sampleCall "echo".toList, sampleCall "shell".toList] fiveUses).leases
        (executeActionCalls (.ok sampleInventory) ⟨[], []⟩ [] 1 (fun _ => .panicked)
          sampleSchedule [sampleCall "echo".toList, sampleCall "shell".toList]
            fiveUses).handedOver ∧
      ¬ Charges (endsPaused fun _ => .panicked) fiveUses
        (handleExecuteActionsParallel (.ok sampleInventory) ⟨[], []⟩ 1 (fun _ => .panicked)
          sampleSchedule [sampleCall "echo".toList, sampleCall "shell".toList] fiveUses).leases
        (handleExecuteActionsParallel (.ok sampleInventory) ⟨[], []⟩ 1 (fun _ => .panicked)
          sampleSchedule [sampleCall "echo".toList, sampleCall "shell".toList]
            fiveUses).handedOver := by
  obtain ⟨huses, huses'⟩ := uses_after_stopped_batch
  constructor
  · intro h
    obtain ⟨n, hn, hsum⟩ := h 0 5 (by decide)
    rw [huses] at hn
    cases hn
    exact absurd hsum (by decide)
  · intro h
    obtain ⟨n, hn, hsum⟩ := h 0 5 (by decide)
    rw [huses'] at hn
    cases hn
    exact absurd hsum (by decide)

end IronClaw.Engine
