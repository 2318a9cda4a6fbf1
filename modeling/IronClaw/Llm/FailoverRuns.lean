import IronClaw.Llm.Failover

/-!
# Requests to providers with failover, one after the other

Of each provider it is kept how many failures there were since the last success, and when the last
of them was, if there were as many as the threshold. The time zero is kept as one.
-/

namespace IronClaw.Llm

variable {n : Nat} {R : Type}

/-- What comes of calling a provider, and the time when its failure is recorded. -/
abbrev Outcome (R : Type) := Except LlmError R × Instant

abbrev Calls (n : Nat) (R : Type) := Fin (n + 1) → Outcome R

structure Request (n : Nat) (R : Type) where
  now : Instant
  call : Calls n R

/-- No other provider is tried after this outcome. -/
def isFinal : Except LlmError R → Bool
  | .ok _ => true
  | .error e => !isRetryable e

def recordOutcome (config : CooldownConfig) (c : ProviderCooldown) :
    Outcome R → ProviderCooldown
  | (.ok _, _) => .new
  | (.error e, time) =>
    if isRetryable e then
      let r := c.recordFailure config.failureThreshold
      if r.2 then r.1.activateCooldown time else r.1
    else c

def exhaustedReason : String :=
  "Invariant violated in FailoverProvider: providers were exhausted but no last_error was " ++
    "recorded (this branch should be unreachable; possible causes: no provider attempts were " ++
    "made or `available` was unexpectedly empty)."

/-- Try providers in order. Without any, the last error is that of the provider itself. -/
def tryProviders (config : CooldownConfig) (call : Calls n R) :
    List (Fin (n + 1)) → Option LlmError → (Fin (n + 1) → ProviderCooldown) →
      Except LlmError (Fin (n + 1) × R) × (Fin (n + 1) → ProviderCooldown)
  | [], lastError, cooldowns =>
    (.error (lastError.getD (.requestFailed "failover" exhaustedReason)), cooldowns)
  | i :: rest, _, cooldowns =>
    let cooldowns := Function.update cooldowns i (recordOutcome config (cooldowns i) (call i))
    match (call i).1 with
    | .ok response => (.ok (i, response), cooldowns)
    | .error e => if isRetryable e then tryProviders config call rest (some e) cooldowns
      else (.error e, cooldowns)

def free (config : CooldownConfig) (cooldowns : Fin (n + 1) → ProviderCooldown) (now : Instant) :
    List (Fin (n + 1)) :=
  (List.finRange (n + 1)).filter fun i =>
    !(cooldowns i).isInCooldown now (config.cooldownDuration % 2 ^ 64)

/-- The providers that are called: no more once an outcome is final. -/
def attempted (call : Calls n R) : List (Fin (n + 1)) → List (Fin (n + 1))
  | [] => []
  | i :: rest => i :: if isFinal (call i).1 then [] else attempted call rest

def cooldownsAfter (config : CooldownConfig) : List (Request n R) → Fin (n + 1) → ProviderCooldown
  | [] => fun _ => .new
  | q :: before =>
    let cooldowns := cooldownsAfter config before
    (tryProviders config q.call (available config cooldowns q.now) none cooldowns).2

def tried (config : CooldownConfig) (before : List (Request n R)) (q : Request n R) :
    List (Fin (n + 1)) :=
  attempted q.call (available config (cooldownsAfter config before) q.now)

def respond (config : CooldownConfig) (before : List (Request n R)) (q : Request n R) :
    Except LlmError (Fin (n + 1) × R) :=
  let cooldowns := cooldownsAfter config before
  (tryProviders config q.call (available config cooldowns q.now) none cooldowns).1

/-- What came of calling a provider, the last outcome first. -/
def history (config : CooldownConfig) (i : Fin (n + 1)) :
    List (Request n R) → List (Outcome R)
  | [] => []
  | q :: before =>
    if i ∈ tried config before q then q.call i :: history config i before
    else history config i before

def failures : List (Outcome R) → List Instant
  | [] => []
  | (.ok _, _) :: _ => []
  | (.error e, time) :: h => if isRetryable e then time :: failures h else failures h

/-- When the cooldown was activated last since the last success. -/
def activated (config : CooldownConfig) : List (Outcome R) → Option Instant
  | [] => none
  | (.ok _, _) :: _ => none
  | (.error e, time) :: h =>
    if isRetryable e && config.failureThreshold ≤ ((failures h).length + 1) % 2 ^ 32 then some time
    else activated config h

def summary (config : CooldownConfig) (h : List (Outcome R)) :
    ProviderCooldown where
  failureCount := (failures h).length % 2 ^ 32
  cooldownActivatedNanos := ((activated config h).map (max · 1)).getD 0

/-- What a request after others should do, if an activation counts as made at this time. -/
structure TriesRight (asMade : Instant → Instant) (config : CooldownConfig)
    (before : List (Request n R)) (q : Request n R) : Prop where
  nonempty : tried config before q ≠ []
  once : (tried config before q).Nodup
  order : tried config before q <+: free config (cooldownsAfter config before) q.now ∨
    free config (cooldownsAfter config before) q.now = [] ∧ ∃ i, tried config before q = [i] ∧
      ∀ j, (cooldownsAfter config before i).cooldownActivatedNanos ≤
        (cooldownsAfter config before j).cooldownActivatedNanos
  result : ∃ front i, tried config before q = front ++ [i] ∧
    (∀ j ∈ front, isFinal (q.call j).1 = false) ∧
    respond config before q = (q.call i).1.map (Prod.mk i) ∧
    (isFinal (q.call i).1 = false →
      tried config before q = available config (cooldownsAfter config before) q.now)
  skipped : ∀ i ∉ available config (cooldownsAfter config before) q.now,
    config.failureThreshold ≤ (failures (history config i before)).length ∧
    ∃ time, activated config (history config i before) = some time ∧
      q.now - asMade time < config.cooldownDuration

section Runs

variable {config : CooldownConfig} {call : Calls n R} {cooldowns : Fin (n + 1) → ProviderCooldown}
  {l : List (Fin (n + 1))} {lastError : Option LlmError} {i : Fin (n + 1)} {now : Instant}

theorem recordOutcome_summary (h : List (Outcome R)) (x : Outcome R) :
    recordOutcome config (summary config h) x = summary config (x :: h) := by
  obtain ⟨outcome, time⟩ := x
  cases outcome with
  | ok response => simp [recordOutcome, summary, failures, activated, ProviderCooldown.new]
  | error e =>
    by_cases hretry : isRetryable e = true
    · simp only [recordOutcome, summary, failures, activated, hretry, if_true, Bool.true_and,
        ProviderCooldown.recordFailure, ProviderCooldown.activateCooldown, Nat.mod_add_mod,
        List.length_cons]
      split_ifs <;> rfl
    · simp [recordOutcome, summary, failures, activated, hretry]

theorem threshold_le_of_activated {h : List (Outcome R)} {time : Instant}
    (hactivated : activated config h = some time) :
    config.failureThreshold ≤ (failures h).length := by
  induction h with
  | nil => cases hactivated
  | cons x h ih =>
    obtain ⟨outcome, t⟩ := x
    cases outcome with
    | ok response => cases hactivated
    | error e =>
      rw [activated] at hactivated
      by_cases hretry : isRetryable e = true
      · simp only [failures, hretry, if_true, List.length_cons]
        rw [hretry, Bool.true_and] at hactivated
        split_ifs at hactivated with hreached
        · -- the counter may have wrapped around, and is then less
          exact (of_decide_eq_true hreached).trans (Nat.mod_le _ _)
        · exact (ih hactivated).trans (Nat.le_succ _)
      · simp only [hretry, Bool.false_and, Bool.false_eq_true, if_false] at hactivated
        simpa [failures, hretry] using ih hactivated

theorem available_of_free (h : free config cooldowns now ≠ []) :
    available config cooldowns now = free config cooldowns now := by
  have hfree : (free config cooldowns now).isEmpty = false := by simpa using h
  show (if (free config cooldowns now).isEmpty then _ else free config cooldowns now) = _
  rw [hfree, if_neg Bool.false_ne_true]

theorem available_of_free_nil (h : free config cooldowns now = []) :
    ∃ i, available config cooldowns now = [i] ∧
      ∀ j, (cooldowns i).cooldownActivatedNanos ≤ (cooldowns j).cooldownActivatedNanos := by
  have hopen : available config cooldowns now = ((List.finRange (n + 1)).argmin fun i =>
      (cooldowns i).cooldownActivatedNanos).toList := by
    show (if (free config cooldowns now).isEmpty then _ else free config cooldowns now) = _
    simp [h]
  cases holdest : (List.finRange (n + 1)).argmin fun i => (cooldowns i).cooldownActivatedNanos with
  | none =>
    have hnil := List.argmin_eq_none.mp holdest
    simp [List.finRange_succ] at hnil
  | some i =>
    rw [holdest] at hopen
    refine ⟨i, hopen, fun j => ?_⟩
    exact List.le_of_mem_argmin (f := fun i => (cooldowns i).cooldownActivatedNanos)
      (List.mem_finRange j) holdest

theorem available_ne_nil : available config cooldowns now ≠ [] := by
  by_cases h : free config cooldowns now = []
  · obtain ⟨i, hi, -⟩ := available_of_free_nil h
    simp [hi]
  · rwa [available_of_free h]

theorem isInCooldown_of_skipped (h : i ∉ available config cooldowns now) :
    (cooldowns i).isInCooldown now (config.cooldownDuration % 2 ^ 64) = true := by
  by_contra hfree
  have hmem : i ∈ free config cooldowns now :=
      List.mem_filter.mpr ⟨List.mem_finRange i, by rw [Bool.not_eq_true] at hfree; rw [hfree]; rfl⟩
  exact h ((available_of_free (List.ne_nil_of_mem hmem)).symm ▸ hmem)

theorem nodup_available (config : CooldownConfig) (cooldowns : Fin (n + 1) → ProviderCooldown)
    (now : Instant) : (available config cooldowns now).Nodup := by
  by_cases h : free config cooldowns now = []
  · obtain ⟨i, hi, -⟩ := available_of_free_nil h
    simp [hi]
  · rw [available_of_free h]
    exact (List.nodup_finRange _).filter _

theorem attempted_isPrefix : attempted call l <+: l := by
  induction l with
  | nil => exact List.prefix_refl _
  | cons i l ih =>
    rw [attempted]
    split_ifs
    · exact ⟨l, rfl⟩
    · exact (List.prefix_cons_inj i).mpr ih

theorem attempted_ne_nil (h : l ≠ []) : attempted call l ≠ [] := by
  cases l with
  | nil => exact absurd rfl h
  | cons i l => exact List.cons_ne_nil _ _

theorem tryProviders_cooldowns (h : l.Nodup) (i : Fin (n + 1)) :
    (tryProviders config call l lastError cooldowns).2 i =
      if i ∈ attempted call l then recordOutcome config (cooldowns i) (call i) else cooldowns i := by
  induction l generalizing lastError cooldowns with
  | nil => simp [tryProviders, attempted]
  | cons j l ih =>
    obtain ⟨hj, hnodup⟩ := List.nodup_cons.mp h
    have hlater : j ∉ attempted call l := fun hmem => hj (attempted_isPrefix.subset hmem)
    have hfinal : (Function.update cooldowns j (recordOutcome config (cooldowns j) (call j))) i =
        if i = j then recordOutcome config (cooldowns i) (call i) else cooldowns i := by
      by_cases hij : i = j
      · subst hij
        simp
      · simp [hij]
    rw [tryProviders, attempted]
    cases houtcome : (call j).1 with
    | ok response => simpa [isFinal] using hfinal
    | error e =>
      by_cases hretry : isRetryable e = true
      · simp only [hretry, if_true, isFinal, Bool.not_true, Bool.false_eq_true, if_false,
          List.mem_cons]
        rw [ih hnodup]
        by_cases hij : i = j
        · subst hij
          simp [hlater]
        · simp [hij]
      · simpa [isFinal, hretry] using hfinal

/-- **What is kept about a provider** is the summary of its history. -/
theorem cooldownsAfter_eq_summary (before : List (Request n R)) (i : Fin (n + 1)) :
    cooldownsAfter config before i = summary config (history config i before) := by
  induction before with
  | nil => simp [cooldownsAfter, history, summary, failures, activated,
      ProviderCooldown.new]
  | cons q before ih =>
    have hnodup := nodup_available config (cooldownsAfter config before) q.now
    rw [cooldownsAfter, tryProviders_cooldowns hnodup, history, ih]
    show (if i ∈ tried config before q then _ else _) = _
    split_ifs
    · exact recordOutcome_summary _ _
    · rfl

theorem tryProviders_result (h : l ≠ [] ) : ∃ front i, attempted call l = front ++ [i] ∧
    (∀ j ∈ front, isFinal (call j).1 = false) ∧
    (tryProviders config call l lastError cooldowns).1 = (call i).1.map (Prod.mk i) ∧
    (isFinal (call i).1 = false → attempted call l = l) := by
  induction l generalizing lastError cooldowns with
  | nil => exact absurd rfl h
  | cons j l ih =>
    rw [tryProviders, attempted]
    cases houtcome : (call j).1 with
    | ok response => exact ⟨[], j, by simp [isFinal], by simp, by simp [houtcome, Except.map],
        by simp [isFinal, houtcome]⟩
    | error e =>
      by_cases hretry : isRetryable e = true
      · simp only [isFinal, hretry, Bool.not_true, Bool.false_eq_true, if_false, if_true]
        cases l with
        | nil => exact ⟨[], j, rfl, by simp, by simp [tryProviders, houtcome, Except.map],
            fun _ => rfl⟩
        | cons j' l =>
          obtain ⟨front, i, hattempted, hfront, hresult, hall⟩ := ih (List.cons_ne_nil _ _)
          refine ⟨j :: front, i, by rw [hattempted]; rfl, ?_, hresult, fun hi => by rw [hall hi]⟩
          intro x hx
          rcases List.mem_cons.mp hx with rfl | hx
          · simp [houtcome, hretry]
          · exact hfront x hx
      · exact ⟨[], j, by simp [isFinal, hretry], by simp, by simp [hretry, houtcome, Except.map],
          by simp [isFinal, houtcome, hretry]⟩

theorem activated_of_isInCooldown {h : List (Outcome R)}
    (hcooldown : (summary config h).isInCooldown now (config.cooldownDuration % 2 ^ 64) = true) :
    ∃ time, activated config h = some time ∧ now - max time 1 < config.cooldownDuration := by
  obtain ⟨hactive, hrecent⟩ := Bool.and_eq_true_iff.mp hcooldown
  cases htime : activated config h with
  | none => simp [summary, htime] at hactive
  | some time =>
    simp only [summary, htime, Option.map_some, Option.getD_some, decide_eq_true_eq] at hrecent
    exact ⟨time, rfl, hrecent.trans_le (Nat.mod_le _ _)⟩

end Runs

/-- **Failover tries the right providers**, if an activation at time zero counts as at one. -/
theorem triesRight (config : CooldownConfig) (before : List (Request n R)) (q : Request n R) :
    TriesRight (max · 1) config before q where
  nonempty := attempted_ne_nil available_ne_nil
  once := (nodup_available _ _ _).sublist attempted_isPrefix.sublist
  order := by
    by_cases h : free config (cooldownsAfter config before) q.now = []
    · obtain ⟨i, hi, holdest⟩ := available_of_free_nil h
      refine .inr ⟨h, i, ?_, holdest⟩
      rw [tried, hi, attempted]
      split_ifs <;> rfl
    · refine .inl ?_
      rw [← available_of_free h]
      exact attempted_isPrefix
  result := tryProviders_result available_ne_nil
  skipped i hi := by
    have hcooldown := isInCooldown_of_skipped hi
    rw [cooldownsAfter_eq_summary] at hcooldown
    obtain ⟨time, hactivated, hrecent⟩ := activated_of_isInCooldown hcooldown
    exact ⟨threshold_le_of_activated hactivated, time, hactivated, hrecent⟩

def failedAtZero : Request 1 Unit :=
  ⟨0, fun i => (if i = 0 then .error (.rateLimited "primary" none) else .ok (), 0)⟩

/-- Five nanoseconds later it is still skipped, for a cooldown of five nanoseconds. -/
theorem not_triesRight_id : ¬ ∀ (config : CooldownConfig) (before : List (Request 1 Unit))
    (q : Request 1 Unit), TriesRight id config before q := by
  intro h
  obtain ⟨-, time, hactivated, hrecent⟩ :=
    (h ⟨5, 1⟩ [failedAtZero] { failedAtZero with now := 5 }).skipped 0 (by decide)
  have hzero : activated ⟨5, 1⟩ (history ⟨5, 1⟩ 0 [failedAtZero]) = some 0 := by decide
  rw [hactivated] at hzero
  cases hzero
  exact absurd hrecent (by decide)

end IronClaw.Llm
