import Mathlib.Order.Basic
import IronClaw.Foundation.HashMap
import IronClaw.Foundation.Run
import Mathlib.Algebra.GroupWithZero.Nat
import Mathlib.Algebra.Group.Int.Defs

/-!
# The cost guard

The guard keeps the cost of a day and the times of the last actions, and refuses a call when a limit
is reached. A new day resets the cost when its first call is recorded.
-/

namespace IronClaw.Agent

open Foundation (HashMap run)
open Option (any_none any_some filter_some)

abbrev Day := Nat

/-- Readings of a clock that never goes back, in nanoseconds. -/
abbrev Instant := Nat

def hour : Nat := 3600 * 10 ^ 9

structure CostGuardConfig where
  maxCostPerDayCents : Option Nat
  maxActionsPerHour : Option Nat
  maxCostPerUserPerDayCents : Option Nat

inductive CostLimitExceeded where
  | dailyBudget (spentCents limitCents : Nat)
  | hourlyRate (actions limit : Nat)
  | userDailyBudget (userId : String) (spentCents limitCents : Nat)
deriving DecidableEq

structure ModelTokens (D : Type) where
  inputTokens : Nat
  outputTokens : Nat
  cost : D

structure DailyCost (D : Type) where
  total : D
  /-- The day that the total is of. -/
  resetDate : Day

structure CostGuard (D : Type) where
  config : CostGuardConfig
  dailyCost : DailyCost D
  /-- The times of actions, the oldest first. -/
  actionWindow : List Instant
  /-- Set when the daily budget is exceeded to short-circuit checks. -/
  budgetExceeded : Bool
  modelTokens : HashMap String (ModelTokens D)
  perUserDailyCost : HashMap String (DailyCost D)

structure LlmCall (D : Type) where
  model : String
  inputTokens : Nat
  outputTokens : Nat
  cacheReadInputTokens : Nat
  cacheCreationInputTokens : Nat
  cacheReadDiscount : D
  cacheWriteMultiplier : D
  costPerToken : Option (D × D)

structure Decimals (D : Type) where
  zero : D
  one : D
  add : D → D → D
  mul : D → D → D
  div : D → D → D
  ofNat : Nat → D
  isZero : D → Bool
  /-- The digits of the truncated amount, read as a 64-bit number. -/
  whole : D → Option Nat

section Operations

variable {D : Type} (decimals : Decimals D)

def toCents (usd : D) : Nat := (decimals.whole (decimals.mul usd (decimals.ofNat 100))).getD 0

def LlmCall.cost (prices : String → D × D) (call : LlmCall D) : D :=
  let (inputRate, outputRate) := call.costPerToken.getD (prices call.model)
  let cachedTotal := min (call.cacheReadInputTokens + call.cacheCreationInputTokens) (2 ^ 32 - 1)
  let uncachedInput := call.inputTokens - cachedTotal
  let effectiveDiscount :=
    if decimals.isZero call.cacheReadDiscount then decimals.one else call.cacheReadDiscount
  let cacheReadCost := decimals.div
    (decimals.mul inputRate (decimals.ofNat call.cacheReadInputTokens)) effectiveDiscount
  let cacheWriteCost := decimals.mul
    (decimals.mul inputRate (decimals.ofNat call.cacheCreationInputTokens))
    call.cacheWriteMultiplier
  decimals.add
    (decimals.add
      (decimals.add (decimals.mul inputRate (decimals.ofNat uncachedInput)) cacheReadCost)
      cacheWriteCost)
    (decimals.mul outputRate (decimals.ofNat call.outputTokens))

namespace CostGuard

def new (config : CostGuardConfig) (today : Day) : CostGuard D :=
  ⟨config, ⟨decimals.zero, today⟩, [], false, ∅, ∅⟩

def drain (now : Instant) (window : List Instant) : List Instant :=
  if hour ≤ now then window.dropWhile fun t => decide (t < now - hour) else window

def checkAllowed (now : Instant) (guard : CostGuard D) :
    Except CostLimitExceeded Unit × CostGuard D :=
  let spentCents := toCents decimals guard.dailyCost.total
  -- the flag stands for a total that reached the limit, of whatever day
  if guard.budgetExceeded then
    (.error (.dailyBudget spentCents (guard.config.maxCostPerDayCents.getD 0)), guard)
  else
    match guard.config.maxCostPerDayCents.filter (· ≤ spentCents) with
    | some limitCents =>
      (.error (.dailyBudget spentCents limitCents), { guard with budgetExceeded := true })
    | none =>
      match guard.config.maxActionsPerHour with
      | none => (.ok (), guard)
      | some limit =>
        let window := drain now guard.actionWindow
        if window.length ≥ limit then
          (.error (.hourlyRate window.length limit), { guard with actionWindow := window })
        else (.ok (), { guard with actionWindow := window })

/-- Check whether the next action is allowed for a user: the global limits, then the user's budget.
-/
def checkAllowedForUser (userId : String) (today : Day) (now : Instant) (guard : CostGuard D) :
    Except CostLimitExceeded Unit × CostGuard D :=
  match guard.checkAllowed decimals now with
  | (.error e, guard) => (.error e, guard)
  | (.ok (), guard) =>
    match guard.config.maxCostPerUserPerDayCents with
    | none => (.ok (), guard)
    | some limitCents =>
      match (guard.perUserDailyCost.lookup userId).filter (·.resetDate == today) with
      | none => (.ok (), guard)
      | some entry =>
        let spentCents := toCents decimals entry.total
        if spentCents ≥ limitCents then
          (.error (.userDailyBudget userId spentCents limitCents), guard)
        else (.ok (), guard)

def resetDaily (today : Day) (guard : CostGuard D) : CostGuard D :=
  if today ≠ guard.dailyCost.resetDate then
    { guard with
      dailyCost := ⟨decimals.zero, today⟩
      budgetExceeded := false
      perUserDailyCost := HashMap.retain guard.perUserDailyCost fun _ e => e.resetDate == today }
  else guard

def recordLlmCall (prices : String → D × D) (call : LlmCall D) (today : Day) (now : Instant)
    (guard : CostGuard D) : D × CostGuard D :=
  let cost := call.cost decimals prices
  let guard := guard.resetDaily decimals today
  let total := decimals.add guard.dailyCost.total cost
  let reached := guard.config.maxCostPerDayCents.any (· ≤ toCents decimals total)
  let tokens := (guard.modelTokens.lookup call.model).getD ⟨0, 0, decimals.zero⟩
  (cost,
    { guard with
      dailyCost := { guard.dailyCost with total := total }
      budgetExceeded := guard.budgetExceeded || reached
      actionWindow := guard.actionWindow ++ [now]
      modelTokens := guard.modelTokens.insert call.model
        ⟨tokens.inputTokens + call.inputTokens, tokens.outputTokens + call.outputTokens,
          decimals.add tokens.cost cost⟩ })

def recordUserCost (userId : String) (cost : D) (today : Day) (guard : CostGuard D) : CostGuard D :=
  let entry := (guard.perUserDailyCost.lookup userId).getD ⟨decimals.zero, today⟩
  let total := if today ≠ entry.resetDate then decimals.zero else entry.total
  { guard with
    perUserDailyCost :=
      guard.perUserDailyCost.insert userId ⟨decimals.add total cost, today⟩ }

end CostGuard

end Operations

inductive CostEvent (D : Type) where
  | recorded (today : Day) (now : Instant) (cost : D)
  | attributed (userId : String) (today : Day) (cost : D)

structure GuardHost (D : Type) where
  guard : CostGuard D
  day : Day
  now : Instant
  log : List (CostEvent D)

inductive GuardCall (D : Type) where
  | checkAllowed (today : Day) (now : Instant)
  | checkAllowedForUser (userId : String) (today : Day) (now : Instant)
  | recordLlmCall (call : LlmCall D) (today : Day) (now : Instant)
  | recordLlmCallForUser (userId : String) (call : LlmCall D) (today : Day) (now : Instant)
      (later : Day)

section Host

variable {D : Type} (decimals : Decimals D)

namespace GuardHost

def new (config : CostGuardConfig) (today : Day) : GuardHost D :=
  ⟨.new decimals config today, today, 0, []⟩

variable (host : GuardHost D)

def checked (guard : CostGuard D) (today : Day) (now : Instant) : GuardHost D :=
  { host with guard := guard, day := today, now := now }

def record (prices : String → D × D) (call : LlmCall D) (today : Day) (now : Instant) :
    GuardHost D :=
  let r := host.guard.recordLlmCall decimals prices call today now
  ⟨r.2, today, now, host.log ++ [.recorded today now r.1]⟩

def recordUser (userId : String) (cost : D) (today : Day) : GuardHost D :=
  { host with
    guard := host.guard.recordUserCost decimals userId cost today
    day := today
    log := host.log ++ [.attributed userId today cost] }

/-- One call, at times that are not before the last ones. -/
def perform (prices : String → D × D) (host : GuardHost D) : GuardCall D → Option (GuardHost D)
  | .checkAllowed today now =>
    if today < host.day ∨ now < host.now then none
    else some (host.checked (host.guard.checkAllowed decimals now).2 today now)
  | .checkAllowedForUser userId today now =>
    if today < host.day ∨ now < host.now then none
    else some (host.checked (host.guard.checkAllowedForUser decimals userId today now).2 today now)
  | .recordLlmCall call today now =>
    if today < host.day ∨ now < host.now then none
    else some (host.record decimals prices call today now)
  | .recordLlmCallForUser userId call today now later =>
    if today < host.day ∨ now < host.now ∨ later < today then none
    else
      some ((host.record decimals prices call today now).recordUser decimals userId
        (call.cost decimals prices) later)

end GuardHost

inductive Limit where
  | daily
  | hourly
  | user
deriving DecidableEq

def CostLimitExceeded.limit : CostLimitExceeded → Limit
  | dailyBudget .. => .daily
  | hourlyRate .. => .hourly
  | userDailyBudget .. => .user

def refusal : Except CostLimitExceeded Unit → Option Limit
  | .ok () => none
  | .error e => some e.limit

def sum (costs : List D) : D := costs.foldl decimals.add decimals.zero

def costsOn (today : Day) (log : List (CostEvent D)) : List D :=
  log.filterMap fun
    | .recorded day _ cost => if day = today then some cost else none
    | .attributed .. => none

def userCostsOn (userId : String) (today : Day) (log : List (CostEvent D)) : List D :=
  log.filterMap fun
    | .attributed user day cost => if user = userId ∧ day = today then some cost else none
    | .recorded .. => none

def actionsWithinHour (now : Instant) (log : List (CostEvent D)) : Nat :=
  log.countP fun
    | .recorded _ t _ => decide (now ≤ t + hour)
    | .attributed .. => false

/-- The first limit in the order of the checks reached on the day or in the last hour. -/
def expected (config : CostGuardConfig) (log : List (CostEvent D)) (userId : Option String)
    (today : Day) (now : Instant) : Option Limit :=
  if config.maxCostPerDayCents.any (· ≤ toCents decimals (sum decimals (costsOn today log))) then
    some .daily
  else if config.maxActionsPerHour.any (· ≤ actionsWithinHour now log) then some .hourly
  else if userId.any fun userId => config.maxCostPerUserPerDayCents.any
      (· ≤ toCents decimals (sum decimals (userCostsOn userId today log))) then some .user
  else none

/-- The flag, if it is set, is about a total of the day of the check. -/
def Current (guard : CostGuard D) (today : Day) : Prop :=
  guard.budgetExceeded = true → ∀ limit, guard.config.maxCostPerDayCents = some limit →
    limit = 0 ∨ guard.dailyCost.resetDate = today ∧ limit ≤ toCents decimals guard.dailyCost.total

/-- If the users' limit is zero, there is an entry of the day for the user. -/
def Seen (guard : CostGuard D) (userId : String) (today : Day) : Prop :=
  guard.config.maxCostPerUserPerDayCents = some 0 →
    ∃ entry, guard.perUserDailyCost.lookup userId = some entry ∧ entry.resetDate = today

def entryTotal (guard : CostGuard D) (userId : String) (today : Day) : D :=
  match guard.perUserDailyCost.lookup userId with
  | none => decimals.zero
  | some entry => if entry.resetDate = today then entry.total else decimals.zero

/-- What the counters say about what was recorded. -/
structure Accounts (config : CostGuardConfig) (host : GuardHost D) : Prop where
  config_eq : host.guard.config = config
  dated : host.guard.dailyCost.resetDate ≤ host.day
  daily : ∀ today, host.day ≤ today → sum decimals (costsOn today host.log) =
    if host.guard.dailyCost.resetDate = today then host.guard.dailyCost.total else decimals.zero
  flagged : host.guard.budgetExceeded = true → ∃ limit, config.maxCostPerDayCents = some limit
  unflagged : host.guard.budgetExceeded = false → ∀ limit, config.maxCostPerDayCents = some limit →
    limit ≤ toCents decimals host.guard.dailyCost.total → limit = 0
  sorted : host.guard.actionWindow.Pairwise (· ≤ ·)
  past : ∀ t ∈ host.guard.actionWindow, t ≤ host.now
  window : ∀ now, host.now ≤ now →
    host.guard.actionWindow.countP (fun t => decide (now ≤ t + hour)) =
      actionsWithinHour now host.log
  usersDated : ∀ userId entry, host.guard.perUserDailyCost.lookup userId = some entry →
    entry.resetDate ≤ host.day
  users : ∀ userId today, host.day ≤ today →
    sum decimals (userCostsOn userId today host.log) = entryTotal decimals host.guard userId today

theorem dropWhile_eq_filter {window : List Instant} (hsorted : window.Pairwise (· ≤ ·))
    (cutoff : Instant) : (window.dropWhile fun t => decide (t < cutoff)) = window.filter fun t =>
      decide (cutoff ≤ t) := by
  induction window with
  | nil => rfl
  | cons t window ih =>
    rw [List.pairwise_cons] at hsorted
    by_cases ht : t < cutoff
    · rw [List.dropWhile_cons_of_pos (by simpa using ht), ih hsorted.2,
        List.filter_cons_of_neg (by simpa using ht)]
    · have hall : ∀ t' ∈ t :: window, cutoff ≤ t' := by
        intro t' ht'
        rcases List.mem_cons.mp ht' with rfl | ht'
        · exact not_lt.mp ht
        · exact (not_lt.mp ht).trans (hsorted.1 t' ht')
      rw [List.dropWhile_cons_of_neg (by simpa using ht), List.filter_eq_self.mpr]
      simpa using hall

theorem drain_eq_filter {window : List Instant} (hsorted : window.Pairwise (· ≤ ·))
    (now : Instant) :
    CostGuard.drain now window = window.filter fun t => decide (now ≤ t + hour) := by
  unfold CostGuard.drain
  split_ifs with hnow
  · rw [dropWhile_eq_filter hsorted]
    simp only [Nat.sub_le_iff_le_add]
  · -- the clock has not run for an hour
    refine (List.filter_eq_self.mpr fun t _ => ?_).symm
    rw [decide_eq_true_eq]
    exact (not_le.mp hnow).le.trans (Nat.le_add_left hour t)

variable {decimals : Decimals D} {config : CostGuardConfig} {host host' : GuardHost D}
  {today : Day} {now : Instant}

theorem checkAllowed_guard (decimals : Decimals D) (now : Instant) (guard : CostGuard D) :
    ∃ flag window, (guard.checkAllowed decimals now).2 =
        { guard with budgetExceeded := flag, actionWindow := window } ∧
      (flag = guard.budgetExceeded ∨ flag = true ∧
        ∃ limit, guard.config.maxCostPerDayCents = some limit) ∧
      (window = guard.actionWindow ∨ window = CostGuard.drain now guard.actionWindow) := by
  unfold CostGuard.checkAllowed
  cases hflag : guard.budgetExceeded with
  | true => exact ⟨true, guard.actionWindow, by simp [← hflag], .inl rfl, .inl rfl⟩
  | false =>
    simp only [Bool.false_eq_true, if_false]
    cases hlimit : guard.config.maxCostPerDayCents.filter
        (· ≤ toCents decimals guard.dailyCost.total) with
    | some limit =>
      have hsome := (Option.filter_eq_some_iff.mp hlimit).1
      exact ⟨true, guard.actionWindow, rfl, .inr ⟨rfl, limit, hsome⟩, .inl rfl⟩
    | none =>
      cases hrate : guard.config.maxActionsPerHour with
      | none => exact ⟨false, guard.actionWindow, by simp [← hflag], .inl rfl, .inl rfl⟩
      | some limit =>
        refine ⟨false, CostGuard.drain now guard.actionWindow, ?_, .inl rfl, .inr rfl⟩
        simp only
        split_ifs <;> rw [← hflag]

theorem checkAllowedForUser_guard (decimals : Decimals D) (userId : String) (today : Day)
    (now : Instant) (guard : CostGuard D) :
    (guard.checkAllowedForUser decimals userId today now).2 =
      (guard.checkAllowed decimals now).2 := by
  unfold CostGuard.checkAllowedForUser
  split
  · rename_i hcheck
    rw [hcheck]
  · rename_i hcheck
    rw [hcheck]
    split
    · rfl
    · split
      · rfl
      · simp only
        split_ifs <;> rfl

theorem Accounts.checked (h : Accounts decimals config host) (hday : host.day ≤ today)
    (hnow : host.now ≤ now) :
    Accounts decimals config (host.checked (host.guard.checkAllowed decimals now).2 today now) := by
  obtain ⟨flag, window, hguard, hflag, hwindow⟩ := checkAllowed_guard decimals now host.guard
  rw [hguard]
  have hdrain := drain_eq_filter h.sorted now
  refine
    { config_eq := h.config_eq
      dated := h.dated.trans hday
      daily := fun d hd => h.daily d (hday.trans hd)
      flagged := fun hf => ?_
      unflagged := fun hf => ?_
      sorted := ?_
      past := fun t ht => ?_
      window := fun t ht => ?_
      usersDated := fun userId entry hl => (h.usersDated userId entry hl).trans hday
      users := fun userId d hd => h.users userId d (hday.trans hd) }
  · rcases hflag with heq | ⟨-, hlimit⟩
    · exact h.flagged (heq.symm.trans hf)
    · exact h.config_eq ▸ hlimit
  · rcases hflag with heq | ⟨heq, -⟩
    · exact h.unflagged (heq.symm.trans hf)
    · exact absurd (heq.symm.trans hf) (by simp)
  · rcases hwindow with rfl | rfl
    · exact h.sorted
    · rw [hdrain]
      exact h.sorted.filter _
  · have hmem : t ∈ host.guard.actionWindow := by
      rcases hwindow with rfl | rfl
      · exact ht
      · rw [hdrain] at ht
        exact List.mem_of_mem_filter ht
    exact (h.past t hmem).trans hnow
  · refine Eq.trans ?_ (h.window t (hnow.trans ht))
    rcases hwindow with rfl | rfl
    · rfl
    · -- what was dropped is not within an hour of a later time
      change List.countP _ (CostGuard.drain now host.guard.actionWindow) = _
      rw [hdrain, List.countP_filter]
      refine List.countP_congr fun t' _ => ?_
      simp only [Bool.and_eq_true, decide_eq_true_eq]
      exact ⟨And.left, fun hrecent => ⟨hrecent, le_trans ht hrecent⟩⟩

theorem sum_append (costs : List D) (cost : D) :
    sum decimals (costs ++ [cost]) = decimals.add (sum decimals costs) cost := by
  simp [sum]

variable (log : List (CostEvent D))

theorem costsOn_recorded (day d : Day) (t : Instant) (cost : D) :
    costsOn d (log ++ [.recorded day t cost]) =
      if day = d then costsOn d log ++ [cost] else costsOn d log := by
  unfold costsOn
  rw [List.filterMap_append]
  split_ifs with h
  · simp [h]
  · simp [h]

theorem costsOn_attributed (userId : String) (day d : Day) (cost : D) :
    costsOn d (log ++ [.attributed userId day cost]) = costsOn d log := by
  simp [costsOn]

theorem userCostsOn_recorded (userId : String) (day d : Day) (t : Instant) (cost : D) :
    userCostsOn userId d (log ++ [.recorded day t cost]) = userCostsOn userId d log := by
  simp [userCostsOn]

theorem userCostsOn_attributed (userId userId' : String) (day d : Day) (cost : D) :
    userCostsOn userId d (log ++ [.attributed userId' day cost]) =
      if userId' = userId ∧ day = d then userCostsOn userId d log ++ [cost]
      else userCostsOn userId d log := by
  unfold userCostsOn
  rw [List.filterMap_append]
  split_ifs with h
  · simp [h]
  · simp [h]

theorem actionsWithinHour_recorded (day : Day) (t t' : Instant) (cost : D) :
    actionsWithinHour t' (log ++ [.recorded day t cost]) =
      actionsWithinHour t' log + if t' ≤ t + hour then 1 else 0 := by
  simp [actionsWithinHour, List.countP_append]

theorem actionsWithinHour_attributed (userId : String) (day : Day) (t' : Instant) (cost : D) :
    actionsWithinHour t' (log ++ [.attributed userId day cost]) = actionsWithinHour t' log := by
  simp [actionsWithinHour, List.countP_append]

theorem Accounts.reset (h : Accounts decimals config host)
    (hzero : toCents decimals decimals.zero = 0) (hday : host.day ≤ today) (hnow : host.now ≤ now) :
    Accounts decimals config (host.checked (host.guard.resetDaily decimals today) today now) ∧
      (host.guard.resetDaily decimals today).dailyCost.resetDate = today := by
  unfold CostGuard.resetDaily
  split_ifs with hdate
  · refine ⟨?_, rfl⟩
    have hpast : host.guard.dailyCost.resetDate < today :=
      lt_of_le_of_ne (h.dated.trans hday) (Ne.symm hdate)
    refine
      { config_eq := h.config_eq
        dated := le_rfl
        daily := fun d hd => ?_
        flagged := nofun
        unflagged := fun _ limit _ hle => Nat.le_zero.mp (hzero ▸ hle)
        sorted := h.sorted
        past := fun t ht => (h.past t ht).trans hnow
        window := fun t ht => h.window t (hnow.trans ht)
        usersDated := fun userId entry hl => ?_
        users := fun userId d hd => ?_ }
    · have hne : host.guard.dailyCost.resetDate ≠ d := (hpast.trans_le hd).ne
      have hnone := h.daily d (hday.trans hd)
      rw [if_neg hne] at hnone
      exact hnone.trans (ite_self _).symm
    · simp only [GuardHost.checked, HashMap.lookup_retain, Option.filter_eq_some_iff] at hl
      exact (beq_iff_eq.mp hl.2).le
    · refine (h.users userId d (hday.trans hd)).trans ?_
      simp only [entryTotal, GuardHost.checked, HashMap.lookup_retain]
      cases hlookup : host.guard.perUserDailyCost.lookup userId with
      | none => rfl
      | some entry =>
        by_cases hkept : entry.resetDate = today
        · rw [filter_some, if_pos (beq_iff_eq.mpr hkept)]
        · -- an entry that is dropped is not of a day to come
          have hle := (h.usersDated userId entry hlookup).trans hday
          have hne : entry.resetDate ≠ d := ((lt_of_le_of_ne hle hkept).trans_le hd).ne
          rw [filter_some, if_neg (by simpa using hkept)]
          exact if_neg hne
  · have hdate : today = host.guard.dailyCost.resetDate := not_not.mp hdate
    refine ⟨?_, hdate.symm⟩
    exact
      { config_eq := h.config_eq
        dated := h.dated.trans hday
        daily := fun d hd => h.daily d (hday.trans hd)
        flagged := h.flagged
        unflagged := h.unflagged
        sorted := h.sorted
        past := fun t ht => (h.past t ht).trans hnow
        window := fun t ht => h.window t (hnow.trans ht)
        usersDated := fun userId entry hl => (h.usersDated userId entry hl).trans hday
        users := fun userId d hd => h.users userId d (hday.trans hd) }

theorem Accounts.record (h : Accounts decimals config host)
    (hzero : toCents decimals decimals.zero = 0) (hday : host.day ≤ today) (hnow : host.now ≤ now)
    (prices : String → D × D) (call : LlmCall D) :
    Accounts decimals config (host.record decimals prices call today now) := by
  obtain ⟨hreset, hdate⟩ := h.reset hzero hday hnow
  have hconfig : (host.guard.resetDaily decimals today).config = config := hreset.config_eq
  refine
    { config_eq := hconfig
      dated := hreset.dated
      daily := fun d hd => ?_
      flagged := fun hf => ?_
      unflagged := fun hf limit hlimit hle => ?_
      sorted := ?_
      past := fun t ht => ?_
      window := fun t ht => ?_
      usersDated := hreset.usersDated
      users := fun userId d hd => ?_ }
  · have hd' := hreset.daily d hd
    simp only [GuardHost.checked, hdate] at hd'
    simp only [GuardHost.record, CostGuard.recordLlmCall, hdate, costsOn_recorded]
    split_ifs with heq
    · rw [if_pos heq] at hd'
      rw [sum_append, hd']
    · rw [if_neg heq] at hd'
      exact hd'
  · -- the flag was up before, or is raised by the limit of the day
    simp only [GuardHost.record, CostGuard.recordLlmCall, Bool.or_eq_true] at hf
    rcases hf with hf | hf
    · exact hreset.flagged hf
    · rw [hconfig] at hf
      cases hlimit : config.maxCostPerDayCents with
      | none => simp [hlimit] at hf
      | some limit => exact ⟨limit, rfl⟩
  · simp only [GuardHost.record, CostGuard.recordLlmCall, Bool.or_eq_false_iff, hconfig, hlimit,
      any_some] at hf hle
    exact absurd hle (by simpa using hf.2)
  · -- the call is the latest action of the window
    refine List.pairwise_append.mpr ⟨hreset.sorted, List.pairwise_singleton _ _,
      fun t ht t' ht' => ?_⟩
    rw [List.mem_singleton.mp ht']
    exact hreset.past t ht
  · rcases List.mem_append.mp ht with ht | ht
    · exact hreset.past t ht
    · rw [List.mem_singleton.mp ht]
      exact le_rfl
  · have hwindow := hreset.window t ht
    simp only [GuardHost.checked] at hwindow
    simp only [GuardHost.record, CostGuard.recordLlmCall, List.countP_append, List.countP_singleton,
      actionsWithinHour_recorded, hwindow, decide_eq_true_eq]
  · simp only [GuardHost.record, userCostsOn_recorded]
    exact hreset.users userId d hd

theorem Accounts.recordUser (h : Accounts decimals config host) {later : Day}
    (hday : host.day ≤ later) (userId : String) (cost : D) :
    Accounts decimals config (host.recordUser decimals userId cost later) where
  config_eq := h.config_eq
  dated := h.dated.trans hday
  daily := by
    intro d hd
    simp only [GuardHost.recordUser, costsOn_attributed]
    exact h.daily d (hday.trans hd)
  flagged := h.flagged
  unflagged := h.unflagged
  sorted := h.sorted
  past := h.past
  window := by
    intro t ht
    simp only [GuardHost.recordUser, actionsWithinHour_attributed]
    exact h.window t ht
  usersDated := by
    intro userId' entry hl
    simp only [GuardHost.recordUser, CostGuard.recordUserCost, HashMap.lookup_insert] at hl
    by_cases huser : userId' = userId
    · rw [if_pos huser] at hl
      cases hl
      exact le_rfl
    · rw [if_neg huser] at hl
      exact (h.usersDated userId' entry hl).trans hday
  users := by
    intro userId' d hd
    have hold := h.users userId' d (hday.trans hd)
    simp only [GuardHost.recordUser, userCostsOn_attributed, entryTotal, CostGuard.recordUserCost,
      HashMap.lookup_insert]
    unfold entryTotal at hold
    by_cases huser : userId' = userId
    · subst huser
      rw [if_pos rfl]
      by_cases heq : later = d
      · subst heq
        rw [if_pos ⟨rfl, rfl⟩, sum_append, hold]
        cases hlookup : host.guard.perUserDailyCost.lookup userId' with
        | none => simp
        | some entry =>
          by_cases hentry : entry.resetDate = later
          · simp [hentry]
          · simp [hentry, Ne.symm hentry]
      · -- nothing is recorded yet on a day to come
        rw [if_neg (fun hc => heq hc.2), hold]
        simp only [if_neg heq]
        cases hlookup : host.guard.perUserDailyCost.lookup userId' with
        | none => rfl
        | some entry =>
          have hle := (h.usersDated userId' entry hlookup).trans hday
          exact if_neg (hle.trans_lt (lt_of_le_of_ne hd heq)).ne
    · rw [if_neg huser, if_neg (fun hc => huser hc.1.symm)]
      exact hold

theorem accounts_new (hzero : toCents decimals decimals.zero = 0) (config : CostGuardConfig)
    (today : Day) : Accounts decimals config (.new decimals config today) where
  config_eq := rfl
  dated := le_rfl
  daily := fun d _ => (ite_self _).symm
  flagged := nofun
  unflagged := fun _ limit _ hle => Nat.le_zero.mp (hzero ▸ hle)
  sorted := List.Pairwise.nil
  past := nofun
  window := fun _ _ => rfl
  usersDated := fun userId entry hl => by simp [GuardHost.new, CostGuard.new] at hl
  users := fun userId d _ => by
    simp [GuardHost.new, CostGuard.new, entryTotal, userCostsOn, sum]

theorem accounts_of_perform (h : Accounts decimals config host)
    (hzero : toCents decimals decimals.zero = 0) {prices : String → D × D} {call : GuardCall D}
    (hp : host.perform decimals prices call = some host') : Accounts decimals config host' := by
  cases call with
  | checkAllowed today now =>
    simp only [GuardHost.perform] at hp
    split_ifs at hp with htime
    cases hp
    rw [not_or, not_lt, not_lt] at htime
    exact h.checked htime.1 htime.2
  | checkAllowedForUser userId today now =>
    simp only [GuardHost.perform, checkAllowedForUser_guard] at hp
    split_ifs at hp with htime
    cases hp
    rw [not_or, not_lt, not_lt] at htime
    exact h.checked htime.1 htime.2
  | recordLlmCall call today now =>
    simp only [GuardHost.perform] at hp
    split_ifs at hp with htime
    cases hp
    rw [not_or, not_lt, not_lt] at htime
    exact h.record hzero htime.1 htime.2 prices call
  | recordLlmCallForUser userId call today now later =>
    simp only [GuardHost.perform] at hp
    split_ifs at hp with htime
    cases hp
    rw [not_or, not_or, not_lt, not_lt, not_lt] at htime
    exact (h.record hzero htime.1 htime.2.1 prices call).recordUser htime.2.2 userId _

theorem Accounts.daily_iff (h : Accounts decimals config host)
    (hzero : toCents decimals decimals.zero = 0) (hday : host.day ≤ today) :
    ((host.guard.budgetExceeded = true ∨ config.maxCostPerDayCents.any
        (· ≤ toCents decimals host.guard.dailyCost.total) = true ↔ config.maxCostPerDayCents.any
        (· ≤ toCents decimals (sum decimals (costsOn today host.log))) = true)) ↔
      Current decimals host.guard today := by
  rw [h.daily today hday]
  unfold Current
  rw [h.config_eq]
  cases hlimit : config.maxCostPerDayCents with
  | none =>
    have hflag : host.guard.budgetExceeded ≠ true := by
      intro hf
      obtain ⟨limit, hsome⟩ := h.flagged hf
      rw [hlimit] at hsome
      cases hsome
    simp [hflag]
  | some limit =>
    simp only [any_some, decide_eq_true_eq, Option.some.injEq, forall_eq']
    cases hflag : host.guard.budgetExceeded with
    | true =>
      by_cases hdate : host.guard.dailyCost.resetDate = today
      · rw [if_pos hdate]
        simp only [true_or, true_iff, hdate, true_and, forall_const]
        refine ⟨Or.inr, fun h => h.elim (fun hz => hz ▸ Nat.zero_le _) id⟩
      · rw [if_neg hdate, hzero]
        simp [hdate]
    | false =>
      have hunflagged := h.unflagged hflag limit hlimit
      simp only [Bool.false_eq_true, false_or, false_imp_iff, iff_true]
      split_ifs with hdate
      · exact Iff.rfl
      · rw [hzero]
        exact ⟨fun hle => (hunflagged hle).le, fun hle => (Nat.le_zero.mp hle) ▸ Nat.zero_le _⟩

theorem refusal_checkAllowed (decimals : Decimals D) (now : Instant) (guard : CostGuard D) :
    refusal (guard.checkAllowed decimals now).1 =
      if guard.budgetExceeded = true ∨ guard.config.maxCostPerDayCents.any
          (· ≤ toCents decimals guard.dailyCost.total) = true then some .daily
      else if guard.config.maxActionsPerHour.any
          (· ≤ (CostGuard.drain now guard.actionWindow).length) then some .hourly else none := by
  unfold CostGuard.checkAllowed
  by_cases hflag : guard.budgetExceeded = true
  · rw [if_pos hflag, if_pos (.inl hflag)]
    rfl
  · rw [if_neg hflag]
    cases hlimit : guard.config.maxCostPerDayCents with
    | none =>
      cases guard.config.maxActionsPerHour with
      | none => simp [hflag, refusal]
      | some limit =>
        simp only [Option.filter_none, hflag, any_none, Bool.false_eq_true,
          or_self, if_false,
          any_some, decide_eq_true_eq, ge_iff_le]
        split_ifs <;> rfl
    | some limit =>
      by_cases hreached : limit ≤ toCents decimals guard.dailyCost.total
      · simp [filter_some, hreached, refusal, CostLimitExceeded.limit]
      · cases guard.config.maxActionsPerHour with
        | none => simp [filter_some, hflag, hreached, refusal]
        | some limit' =>
          simp only [filter_some, hflag, hreached, decide_false,
            Bool.false_eq_true, if_false,
            any_some, decide_eq_true_eq, or_self, ge_iff_le]
          split_ifs <;> rfl

/-- The budget of the user is exceeded, as far as the guard can tell. -/
def userReached (decimals : Decimals D) (guard : CostGuard D) (userId : String) (today : Day) :
    Prop :=
  ∃ limit entry, guard.config.maxCostPerUserPerDayCents = some limit ∧
    guard.perUserDailyCost.lookup userId = some entry ∧ entry.resetDate = today ∧
    limit ≤ toCents decimals entry.total

theorem refusal_checkAllowedForUser (decimals : Decimals D) (userId : String) (today : Day)
    (now : Instant) (guard : CostGuard D) [Decidable (userReached decimals guard userId today)] :
    refusal (guard.checkAllowedForUser decimals userId today now).1 =
      match refusal (guard.checkAllowed decimals now).1 with
      | some limit => some limit
      | none => if userReached decimals guard userId today then some .user else none := by
  obtain ⟨flag, window, hguard, -, -⟩ := checkAllowed_guard decimals now guard
  have hpair : guard.checkAllowed decimals now = ((guard.checkAllowed decimals now).1,
    { guard with budgetExceeded := flag, actionWindow := window }) := Prod.ext rfl hguard
  unfold CostGuard.checkAllowedForUser
  rw [hpair]
  cases (guard.checkAllowed decimals now).1 with
  | error e => rfl
  | ok _ =>
    simp only [refusal]
    cases hlimit : guard.config.maxCostPerUserPerDayCents with
    | none => simp [userReached, hlimit]
    | some limit =>
      cases hlookup : guard.perUserDailyCost.lookup userId with
      | none => simp [userReached, hlookup]
      | some entry =>
        by_cases hdate : entry.resetDate = today
        · by_cases hreached : limit ≤ toCents decimals entry.total
          · simp [filter_some, userReached, hlimit, hlookup, hdate, hreached,
              CostLimitExceeded.limit]
          · simp [filter_some, userReached, hlimit, hlookup, hdate, hreached]
        · simp [filter_some, userReached, hlookup, hdate]

theorem Accounts.user_iff (h : Accounts decimals config host)
    (hzero : toCents decimals decimals.zero = 0) (hday : host.day ≤ today) (userId : String) :
    ((userReached decimals host.guard userId today ↔ config.maxCostPerUserPerDayCents.any
        (· ≤ toCents decimals (sum decimals (userCostsOn userId today host.log))) = true)) ↔
      Seen host.guard userId today := by
  rw [h.users userId today hday]
  unfold userReached Seen entryTotal
  rw [h.config_eq]
  cases hlimit : config.maxCostPerUserPerDayCents with
  | none => simp
  | some limit =>
    cases hlookup : host.guard.perUserDailyCost.lookup userId with
    | none => simp [hzero]
    | some entry =>
      by_cases hdate : entry.resetDate = today
      · simp [hdate]
      · simp [hdate, hzero]

theorem global_verdict_eq_iff {a b c : Prop} [Decidable a] [Decidable b] [Decidable c] :
    ((if a then some Limit.daily else if c then some .hourly else none) =
      if b then some .daily else if c then some .hourly else none) ↔ (a ↔ b) := by
  by_cases a <;> by_cases b <;> by_cases c <;> simp [*]

theorem verdict_eq_iff {a b c u v : Prop} [Decidable a] [Decidable b] [Decidable c] [Decidable u]
    [Decidable v] :
    ((match if a then some Limit.daily else if c then some .hourly else none with
      | some limit => some limit
      | none => if u then some .user else none) =
      if b then some .daily else if c then some .hourly else if v then some .user else none) ↔
      (a ↔ b) ∧
        ((u ↔ v) ∨ (if b then some Limit.daily else if c then some .hourly else none) ≠ none) := by
  by_cases a <;> by_cases b <;> by_cases c <;> by_cases u <;> by_cases v <;> simp [*]

/-- **The verdict of a check** names the limit that is reached, if any, exactly when the flag is
current; for a user, also when seen or another limit is reached. -/
theorem refusal_eq_expected_iff {prices : String → D × D} {first : Day} {calls : List (GuardCall D)}
    (hzero : toCents decimals decimals.zero = 0)
    (hr : run (GuardHost.perform decimals prices) (.new decimals config first) calls = some host)
    (hday : host.day ≤ today) (hnow : host.now ≤ now) :
    (refusal (host.guard.checkAllowed decimals now).1 =
        expected decimals config host.log none today now ↔ Current decimals host.guard today) ∧
    ∀ userId, (refusal (host.guard.checkAllowedForUser decimals userId today now).1 =
        expected decimals config host.log (some userId) today now ↔
      Current decimals host.guard today ∧ (Seen host.guard userId today ∨
        expected decimals config host.log none today now ≠ none)) := by
  classical
  have h : Accounts decimals config host := Foundation.run_invariant (C := fun _ _ => True)
    (fun _ _ _ h _ hp => accounts_of_perform h hzero hp) (accounts_new hzero config first)
    (.of_forall_mem (by simp) _) hr
  -- the window is sorted, so that draining it leaves the actions of the last hour
  have hcount : (CostGuard.drain now host.guard.actionWindow).length =
      actionsWithinHour now host.log := by
    rw [drain_eq_filter h.sorted, ← List.countP_eq_length_filter, h.window now hnow]
  have hdaily := h.daily_iff hzero hday
  refine ⟨?_, fun userId => ?_⟩
  · rw [refusal_checkAllowed, hcount, h.config_eq, ← hdaily]
    simp only [expected, any_none, Bool.false_eq_true, if_false]
    exact global_verdict_eq_iff
  · rw [refusal_checkAllowedForUser, refusal_checkAllowed, hcount, h.config_eq, ← hdaily,
      ← h.user_iff hzero hday userId]
    simp only [expected, any_none, any_some, Bool.false_eq_true, if_false]
    exact verdict_eq_iff

end Host

def sixDigits : Decimals Int where
  zero := 0
  one := 10 ^ 6
  add := fun a b => a + b
  mul := fun a b => a * b / 10 ^ 6
  div := fun a b => a * 10 ^ 6 / b
  ofNat := fun n => n * 10 ^ 6
  isZero := fun a => a == 0
  whole := fun a =>
    let digits := a.tdiv (10 ^ 6)
    if 0 ≤ a ∧ digits < 2 ^ 64 then some digits.toNat else none

def twoDollars : LlmCall Int := ⟨"model", 2, 0, 0, 0, 10 ^ 6, 10 ^ 6, some (10 ^ 6, 0)⟩

def dollarADay : CostGuardConfig := ⟨some 100, none, none⟩

def firstDay : List (GuardCall Int) := [.checkAllowed 0 0, .recordLlmCall twoDollars 0 1]

theorem toCents_zero : toCents sixDigits sixDigits.zero = 0 := by decide

theorem refusal_on_first_day : ∃ host, run (GuardHost.perform sixDigits fun _ => (0, 0))
      (.new sixDigits dollarADay 0) firstDay = some host ∧
    refusal (host.guard.checkAllowed sixDigits 2).1 =
      expected sixDigits dollarADay host.log none 0 2 := by
  obtain ⟨host, hrun⟩ : ∃ host, run (GuardHost.perform sixDigits fun _ => (0, 0))
      (.new sixDigits dollarADay 0) firstDay = some host := ⟨_, rfl⟩
  have hcurrent : Current sixDigits host.guard 0 ∧ host.day ≤ 0 ∧ host.now ≤ 2 := by
    cases hrun
    refine ⟨fun _ limit hlimit => .inr ⟨rfl, ?_⟩, by decide, by decide⟩
    cases hlimit
    decide
  exact ⟨host, hrun,
    (refusal_eq_expected_iff toCents_zero hrun hcurrent.2.1 hcurrent.2.2).1.mpr hcurrent.1⟩

/-- On the second day nothing is recorded: the check is refused for the first day's cost. -/
theorem refused_on_second_day : ∃ host, run (GuardHost.perform sixDigits fun _ => (0, 0))
      (.new sixDigits dollarADay 0) firstDay = some host ∧
    refusal (CostGuard.checkAllowed sixDigits 0 (.new sixDigits dollarADay 0)).1 = none ∧
    refusal (host.guard.checkAllowed sixDigits 2).1 = some .daily ∧
    expected sixDigits dollarADay host.log none 1 2 = none := by
  refine ⟨_, rfl, by decide, by decide, by decide⟩

end IronClaw.Agent
