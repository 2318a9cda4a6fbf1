import IronClaw.Engine.LeaseAccounting

/-!
# One result for each call

Both executors fill slots in the order of the calls. The structured one leaves out the slot of a
task that panicked, and the results behind it move up.
-/

namespace IronClaw.Engine

open Foundation (Text)
open List (getElem?_eq_getElem getElem?_map)

variable {J : Type}

section Slots

variable {α : Type} {slots : List (Option α)} {i : Nat} {a : α}

/-- As long as all slots before are filled, a slot keeps its place. -/
theorem getElem?_filterMap_of_filled (h : ∀ j < i, ∃ b, slots[j]? = some (some b))
    (hi : slots[i]? = some (some a)) : (slots.filterMap fun slot => slot)[i]? = some a := by
  induction slots generalizing i with
  | nil => cases hi
  | cons slot slots ih =>
    cases i with
    | zero =>
      cases hi
      rfl
    | succ i =>
      obtain ⟨b, hb⟩ := h 0 (Nat.succ_pos i)
      cases hb
      exact ih (fun j hj => h (j + 1) (Nat.succ_lt_succ hj)) hi

theorem exists_slot_of_getElem? (h : (slots.filterMap fun slot => slot)[i]? = some a) :
    ∃ j ≥ i, slots[j]? = some (some a) := by
  induction slots generalizing i with
  | nil => cases h
  | cons slot slots ih =>
    cases slot with
    | none =>
      obtain ⟨j, hj, hslot⟩ := ih h
      exact ⟨j + 1, Nat.le_succ_of_le hj, hslot⟩
    | some b =>
      cases i with
      | zero => exact ⟨0, le_rfl, congrArg some h⟩
      | succ i =>
        obtain ⟨j, hj, hslot⟩ := ih h
        exact ⟨j + 1, Nat.succ_le_succ hj, hslot⟩

end Slots

/-- What an entry says about a call: it was refused, it ended so, or it was not run. -/
inductive EntryFor (outcome : ExecOutcome J) (call : ActionCall J) : ResultJson J → Prop
  | refused (reason : Refusal) :
      EntryFor outcome call (.error (orchestratorRefusal call.actionName reason))
  | executed {result : ActionResult J} (h : outcome = .ok result) :
      EntryFor outcome call (.executed result.actionName result.output result.isError)
  | failed {text : String} (h : outcome = .error text) : EntryFor outcome call (.error text)
  | panicked (h : outcome = .panicked) : EntryFor outcome call (.error "execution slot empty")
  | paused {pause : GatePause J} (h : pause.callId = call.id) :
      EntryFor outcome call (.gatePaused pause)
  | notRun : EntryFor outcome call .null

section Batch

variable (inventory : Except EngineError (List ActionDef)) (policy : PolicyEngine)
  (capabilityPolicies : List PolicyRule) (threadId : ThreadId) (outcome : Nat → ExecOutcome J)
  (schedule : Schedule J) (calls : List (TimedCall J)) (m : LeaseManager)

/-- A gate pauses one of the calls before the `i`-th. -/
def PausedBefore (outcomes : List PreflightOutcome) (i : Nat) : Prop :=
  ∃ j < i, ∃ lease pause, outcomes[j]? = some (.runnable lease) ∧ outcome j = .gatePaused pause

/-- Calls up to a pause have results, and each call has an entry in the parallel handler's list. -/
structure OneResultEach : Prop where
  results : ∀ batch,
    (∀ call, (preflight true inventory.toOption policy capabilityPolicies threadId calls m).2.1 ≠
      .needApproval call) →
    (executeActionCalls inventory policy capabilityPolicies threadId outcome schedule calls
      m).reply = .ok batch →
    batch.results.length ≤ calls.length ∧ ∀ i call, calls[i]? = some call →
      ¬ PausedBefore outcome
        (preflight true inventory.toOption policy capabilityPolicies threadId calls m).1 i →
      ∃ r, batch.results[i]? = some r ∧ r.callId = call.id ∧ r.actionName = call.actionName
  entries : ∀ entries,
    (handleExecuteActionsParallel inventory policy threadId outcome schedule calls m).reply =
      .return entries →
    entries.length = calls.length ∧ ∀ i call, calls[i]? = some call →
      ∃ entry, entries[i]? = some entry ∧ EntryFor (outcome i) call.toActionCall entry

/-- Of the calls up to a pause, those executed are reported by name; none panics beside others. -/
def Reported (outcomes : List PreflightOutcome) : Prop :=
  ∀ i call lease, calls[i]? = some call → ¬ PausedBefore outcome outcomes i →
    outcomes[i]? = some (.runnable lease) →
    (∀ result, outcome i = .ok result → result.actionName = call.actionName) ∧
      (outcome i = .panicked → (admitted ActionCall.actionName calls outcomes).length = 1)

variable {inventory policy capabilityPolicies threadId outcome schedule calls m}

variable {outcomes : List PreflightOutcome} {i : Nat} {call : TimedCall J} {o : PreflightOutcome}

theorem Preflights.ends {abort : Bool} {inventory : Option (List ActionDef)}
    {ending : PreflightEnd J} {m' : LeaseManager} (h : Preflights abort inventory policy
      capabilityPolicies threadId calls m outcomes ending m') :
    (ending = .complete → outcomes.length = calls.length) ∧ ∀ call, ending = .needApproval call →
      calls[outcomes.length]?.map TimedCall.toActionCall = some call := by
  induction h with
  | nil | needsApproval | failed => simp
  | refused _ _ ih | admitted _ _ _ ih => simpa using ih

def slotFor (outcome : ExecOutcome J) (call : ActionCall J) :
    PreflightOutcome → Option (ActionResult J)
  | .error reason => some (structuredError call reason)
  | .runnable _ => classifyExecResult call outcome

variable (outcome) in
theorem getElem?_slotResults (hcall : calls[i]? = some call) (ho : outcomes[i]? = some o) :
    (slotResults outcome calls outcomes)[i]? = some (slotFor (outcome i) call.toActionCall o) := by
  have hzip : (calls.zip outcomes)[i]? = some (call, o) :=
    List.getElem?_zip_eq_some.mpr ⟨hcall, ho⟩
  rw [slotResults, getElem?_map, List.getElem?_zipIdx, hzip, Option.map_some, Option.map_some,
    Nat.zero_add]
  cases o <;> rfl

theorem length_slotResults :
    (slotResults outcome calls outcomes).length = min calls.length outcomes.length := by
  simp [slotResults]

theorem callId_of_slotFor {outcome : ExecOutcome J} {call : ActionCall J} {r : ActionResult J}
    (h : slotFor outcome call o = some r) : r.callId = call.id := by
  cases o with
  | error reason =>
    cases h
    rfl
  | runnable lease => cases outcome <;> cases h <;> rfl

/-- The slot of a call is filled with a result under its id and its name. -/
def Proper (outcome : ExecOutcome J) (call : ActionCall J) (o : PreflightOutcome) : Prop :=
  ∃ r, slotFor outcome call o = some r ∧ r.callId = call.id ∧ r.actionName = call.actionName

theorem proper_iff {outcome : ExecOutcome J} {call : ActionCall J} :
    Proper outcome call o ↔ ∀ lease, o = .runnable lease →
      (∀ result, outcome = .ok result → result.actionName = call.actionName) ∧
        outcome ≠ .panicked := by
  cases o with
  | error reason => simp [Proper, slotFor, structuredError]
  | runnable lease => cases outcome <;> simp [Proper, slotFor, classifyExecResult]

variable (outcome calls outcomes) in
def resultsOf : List (ActionResult J) :=
  (slotResults outcome calls outcomes).filterMap fun slot => slot

variable (outcome calls outcomes) in
def HasResult (i : Nat) (call : TimedCall J) : Prop :=
  ∃ r, (resultsOf outcome calls outcomes)[i]? = some r ∧ r.callId = call.id ∧
    r.actionName = call.actionName

theorem hasResult_of_proper (hcall : calls[i]? = some call) (ho : outcomes[i]? = some o)
    (hbefore : ∀ j < i, ∃ call o, calls[j]? = some call ∧ outcomes[j]? = some o ∧
      Proper (outcome j) call.toActionCall o)
    (h : Proper (outcome i) call.toActionCall o) : HasResult outcome calls outcomes i call := by
  obtain ⟨r, hr, hkey⟩ := h
  refine ⟨r, getElem?_filterMap_of_filled (fun j hj => ?_)
    ((getElem?_slotResults outcome hcall ho).trans (congrArg some hr)), hkey⟩
  obtain ⟨call, o, hcall, ho, b, hb, -⟩ := hbefore j hj
  exact ⟨b, (getElem?_slotResults outcome hcall ho).trans (congrArg some hb)⟩

/-- Where ids differ, the result of another call is not in the place of a call. -/
theorem proper_of_hasResult (hids : (calls.map fun call => call.id).Nodup)
    (hlength : outcomes.length = calls.length) (hcall : calls[i]? = some call)
    (ho : outcomes[i]? = some o) (h : HasResult outcome calls outcomes i call) :
    Proper (outcome i) call.toActionCall o := by
  obtain ⟨r, hr, hid, hname⟩ := h
  obtain ⟨j, hj, hslot⟩ := exists_slot_of_getElem? hr
  have hlt : j < outcomes.length := by
    have hlt := (List.getElem?_eq_some_iff.mp hslot).1
    rw [length_slotResults] at hlt
    exact hlt.trans_le (min_le_right _ _)
  have hcall' : calls[j]? = some (calls.get ⟨j, hlength ▸ hlt⟩) := getElem?_eq_getElem _
  have heq := getElem?_slotResults outcome hcall' (getElem?_eq_getElem hlt)
  rw [hslot] at heq
  have hid' := callId_of_slotFor (Option.some.inj heq).symm
  have hij : i = j := by
    refine (List.getElem?_inj ?_ hids).mp ?_
    · rw [List.length_map]
      exact (List.getElem?_eq_some_iff.mp hcall).1
    · rw [getElem?_map, getElem?_map, hcall, hcall']
      exact congrArg some (hid.symm.trans hid')
  subst hij
  rw [hcall] at hcall'
  cases hcall'
  rw [getElem?_eq_getElem hlt] at ho
  cases ho
  exact ⟨r, (Option.some.inj heq).symm, hid, hname⟩

theorem reported_iff : Reported outcome calls outcomes ↔
    ∀ i call o, calls[i]? = some call → ¬ PausedBefore outcome outcomes i →
      outcomes[i]? = some o → Proper (outcome i) call.toActionCall o ∨
        outcome i = .panicked ∧ (admitted ActionCall.actionName calls outcomes).length = 1 := by
  constructor
  · intro h i call o hcall hpause ho
    by_cases hpanic : outcome i = .panicked ∧
        (admitted ActionCall.actionName calls outcomes).length = 1
    · exact .inr hpanic
    · refine .inl (proper_iff.mpr fun lease heq => ?_)
      obtain ⟨hname, hlone⟩ := h i call lease hcall hpause (heq ▸ ho)
      exact ⟨hname, fun hout => hpanic ⟨hout, hlone hout⟩⟩
  · intro h i call lease hcall hpause ho
    rcases h i call _ hcall hpause ho with hproper | ⟨hpanic, hlone⟩
    · obtain ⟨hname, hout⟩ := proper_iff.mp hproper lease rfl
      exact ⟨hname, fun hpanic => absurd hpanic hout⟩
    · exact ⟨fun result hok => by simp [hpanic] at hok, fun _ => hlone⟩

/-- **The results of the calls up to a pause**, of a batch that was checked as a whole. -/
theorem hasResult_of_reported (hlength : outcomes.length = calls.length)
    (hlone : ∀ h, admitted ActionCall.actionName calls outcomes = [h] → outcome h.index ≠ .panicked)
    (h : Reported outcome calls outcomes) (hcall : calls[i]? = some call)
    (hpause : ¬ PausedBefore outcome outcomes i) : HasResult outcome calls outcomes i call := by
  have hproper {j : Nat} (hj : j ≤ i) : ∃ call o, calls[j]? = some call ∧
      outcomes[j]? = some o ∧ Proper (outcome j) call.toActionCall o := by
    have hlt : j < calls.length := hj.trans_lt (List.getElem?_eq_some_iff.mp hcall).1
    have ho := getElem?_eq_getElem (hlength.symm ▸ hlt)
    refine ⟨_, _, getElem?_eq_getElem hlt, ho, ?_⟩
    rcases reported_iff.mp h j _ _ (getElem?_eq_getElem hlt)
      (fun ⟨k, hk, hpaused⟩ => hpause ⟨k, hk.trans_le hj, hpaused⟩) ho with
      hproper | ⟨hpanic, hone⟩
    · exact hproper
    · -- a call that runs alone is the one that runs
      refine proper_iff.mpr fun lease heq => absurd hpanic ?_
      obtain ⟨h, hh⟩ := List.length_eq_one_iff.mp hone
      have hmem : ⟨j, calls[j].toActionCall, calls[j].actionName, lease⟩ ∈
          admitted ActionCall.actionName calls outcomes :=
        mem_admitted.mpr ⟨_, getElem?_eq_getElem hlt, heq ▸ ho, rfl, rfl⟩
      rw [hh, List.mem_singleton] at hmem
      subst hmem
      exact hlone _ hh
  obtain ⟨call', o, hcall', ho, hp⟩ := hproper le_rfl
  rw [hcall] at hcall'
  cases hcall'
  exact hasResult_of_proper hcall ho (fun j hj => hproper hj.le) hp

/-- **Each call has its entry** in the list of the parallel handler. -/
theorem entries_handleExecuteActionsParallel {entries : List (ResultJson J)}
    (h : (handleExecuteActionsParallel inventory policy threadId outcome schedule calls m).reply =
      .return entries) : entries.length = calls.length ∧ ∀ i call, calls[i]? = some call →
      ∃ entry, entries[i]? = some entry ∧ EntryFor (outcome i) call.toActionCall entry := by
  have hpreflights := preflights false inventory.toOption policy [] threadId calls m
  simp only [handleExecuteActionsParallel] at h
  rcases hp : preflight false inventory.toOption policy [] threadId calls m with
    ⟨outcomes, ending, m'⟩
  simp only [hp] at hpreflights h
  cases ending with
  | failed e => exact absurd rfl (hpreflights.ne_failed e)
  | complete =>
    have hlength := hpreflights.ends.1 rfl
    dsimp only at h
    split at h
    · cases h
    · cases h
      refine ⟨by simp [hlength], fun i call hcall => ?_⟩
      have hlt := (List.getElem?_eq_some_iff.mp hcall).1
      have ho := getElem?_eq_getElem (hlength.symm ▸ hlt)
      have hzip : (calls.zip outcomes)[i]? = some (call, outcomes[i]) :=
        List.getElem?_zip_eq_some.mpr ⟨hcall, ho⟩
      refine ⟨_, by rw [getElem?_map, List.getElem?_zipIdx, hzip]; rfl, ?_⟩
      dsimp only
      cases outcomes[i] with
      | error reason => exact .refused reason
      | runnable lease =>
        rw [Nat.zero_add]
        cases outcome i with
        | ok result => exact .executed rfl
        | gatePaused pause => exact .paused rfl
        | error text => exact .failed rfl
        | panicked => exact .panicked rfl
  | needApproval paused =>
    obtain ⟨timed, htimed, rfl⟩ := Option.map_eq_some_iff.mp (hpreflights.ends.2 paused rfl)
    have hle := hpreflights.length_le
    have hlt := (List.getElem?_eq_some_iff.mp htimed).1
    cases h
    refine ⟨by simp; omega, fun i call hcall => ?_⟩
    rw [List.append_assoc]
    rcases lt_trichotomy i outcomes.length with hi | rfl | hi
    · have hzip : (calls.zip outcomes)[i]? = some (call, outcomes[i]) :=
        List.getElem?_zip_eq_some.mpr ⟨hcall, getElem?_eq_getElem hi⟩
      refine ⟨_, by rw [List.getElem?_append_left (by simp; omega), getElem?_map, hzip]; rfl,
        ?_⟩
      dsimp only
      cases outcomes[i] with
      | error reason => exact .refused reason
      | runnable lease => exact .notRun
    · rw [htimed] at hcall
      cases hcall
      refine ⟨.gatePaused (approvalPause timed.toActionCall), ?_, .paused rfl⟩
      rw [List.getElem?_append_right (by simp [hle])]
      simp [hle]
    · have hlt' := (List.getElem?_eq_some_iff.mp hcall).1
      refine ⟨.null, ?_, .notRun⟩
      rw [List.getElem?_append_right (by simp; omega), List.getElem?_append_right (by simp; omega),
        List.getElem?_replicate]
      exact if_pos (by simp; omega)

variable (outcome schedule) in
theorem reply_of_complete {inline : List ActionDef} {m' : LeaseManager}
    (hp : preflight true (some inline) policy capabilityPolicies threadId calls m =
      (outcomes, .complete, m')) :
    let reply := (executeActionCalls (.ok inline) policy capabilityPolicies threadId outcome
      schedule calls m).reply
    (∃ h, admitted ActionCall.actionName calls outcomes = [h] ∧ outcome h.index = .panicked ∧
      reply = .panicked) ∨
    (∀ h, admitted ActionCall.actionName calls outcomes = [h] → outcome h.index ≠ .panicked) ∧
      reply = .ok ⟨resultsOf outcome calls outcomes, firstInterrupt outcome calls outcomes⟩ := by
  simp only [executeActionCalls, hp]
  split
  · rename_i h hone hpanic
    rw [hone] at hpanic
    exact .inl ⟨h, hone, (List.cons.inj hpanic).1, rfl⟩
  · rename_i hnot
    exact .inr ⟨fun h hone hpanic => hnot h hone (by simp [hone, hpanic]), rfl⟩

variable (inventory policy capabilityPolicies threadId outcome schedule calls m)

def AllReported : Prop :=
  ∀ inline, inventory = .ok inline →
    let r := preflight true (some inline) policy capabilityPolicies threadId calls m
    r.2.1 = .complete → Reported outcome calls r.1

/-- **Each call has its result** if each that runs is reported, up to a pause; with different ids,
only then. -/
theorem oneResultEach_exact :
    (AllReported inventory policy capabilityPolicies threadId outcome calls m →
      OneResultEach inventory policy capabilityPolicies threadId outcome schedule calls m) ∧
    ((calls.map fun call => call.id).Nodup →
      OneResultEach inventory policy capabilityPolicies threadId outcome schedule calls m →
        AllReported inventory policy capabilityPolicies threadId outcome calls m) := by
  constructor
  · refine fun h => ⟨fun batch hend hreply => ?_, fun _ => entries_handleExecuteActionsParallel⟩
    cases inventory with
    | error e => cases hreply
    | ok inline =>
      rcases hp : preflight true (some inline) policy capabilityPolicies threadId calls m with
        ⟨outcomes, ending, m'⟩
      have hreported := h inline rfl
      simp only [Except.toOption, hp] at hend hreported ⊢
      cases ending with
      | needApproval call => exact absurd rfl (hend call)
      | failed e => simp [executeActionCalls, hp] at hreply
      | complete =>
        rcases reply_of_complete outcome schedule hp with
          ⟨h, -, -, heq⟩ | ⟨hlone, heq⟩
        · rw [hreply] at heq
          cases heq
        · rw [hreply] at heq
          cases heq
          have hends := preflights true (some inline) policy capabilityPolicies threadId calls m
          rw [hp] at hends
          refine ⟨(List.length_filterMap_le ..).trans ?_, fun i call => ?_⟩
          · exact length_slotResults.trans_le (min_le_left _ _)
          · exact hasResult_of_reported (hends.ends.1 rfl) hlone (hreported rfl)
  · rintro hids h inline rfl
    have hends := preflights true (some inline) policy capabilityPolicies threadId calls m
    have hresults := h.results
    rcases hp : preflight true (some inline) policy capabilityPolicies threadId calls m with
      ⟨outcomes, ending, m'⟩
    simp only [Except.toOption, hp] at hends hresults ⊢
    rintro rfl
    rcases reply_of_complete outcome schedule hp with
      ⟨h, hone, hpanic, -⟩ | ⟨-, heq⟩
    · refine reported_iff.mpr fun i call o hcall _ ho => ?_
      cases o with
      | error reason => exact .inl (proper_iff.mpr (by rintro lease ⟨⟩))
      | runnable lease =>
        have hmem : ⟨i, call.toActionCall, call.actionName, lease⟩ ∈
            admitted ActionCall.actionName calls outcomes :=
          mem_admitted.mpr ⟨call, hcall, ho, rfl, rfl⟩
        rw [hone, List.mem_singleton] at hmem
        subst hmem
        exact .inr ⟨hpanic, by rw [hone]; rfl⟩
    · exact reported_iff.mpr fun i call o hcall hpause ho => .inl <|
        proper_of_hasResult hids (hends.ends.1 rfl) hcall ho
          ((hresults _ (by rintro call ⟨⟩) heq).2 i call hcall hpause)

end Batch

/-- Of two calls that run, the first panics: only the second one's result is left. -/
theorem not_oneResultEach_of_panicked :
    ¬ OneResultEach (.ok sampleInventory) ⟨[], []⟩ [] 1
      (fun i => if i = 0 then .panicked else .error "timeout") sampleSchedule
      [sampleCall "echo".toList, sampleCall "echo".toList] fiveUses := by
  intro h
  obtain ⟨r, hr, -⟩ := (h.results ⟨[⟨"call", "echo".toList, .error "timeout", true⟩], none⟩
    nofun rfl).2 1 _ rfl fun ⟨j, hj, _, pause, _, hpause⟩ => by
      obtain rfl : j = 0 := by omega
      cases hpause
  cases hr

end IronClaw.Engine
