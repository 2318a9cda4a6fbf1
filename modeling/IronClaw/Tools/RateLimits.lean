import IronClaw.Tools.Registry

/-!
# The rate limiter over a run

Each user and tool has windows of a minute and of an hour, opened again by the first call after they
are over. So a time as long as a window meets two at most.
-/

namespace IronClaw.Tools

open Foundation (Text HashMap)

inductive LimitType where
  | perMinute
  | perHour
deriving DecidableEq

inductive RateLimitResult where
  | allowed (remainingMinute remainingHour : Int)
  | limited (retryAfter : Nat) (limitType : LimitType)
deriving DecidableEq

namespace LimitType

def length : LimitType → Nat
  | perMinute => minuteLength
  | perHour => hourLength

def limit (config : RateLimitConfig) : LimitType → Nat
  | perMinute => config.requestsPerMinute
  | perHour => config.requestsPerHour

def window (state : ToolRateLimitState) : LimitType → WindowState
  | perMinute => state.minuteWindow
  | perHour => state.hourWindow

theorem length_pos (k : LimitType) : 0 < k.length := by cases k <;> decide

end LimitType

inductive RateOperation where
  | check (config : RateLimitConfig) (record : Bool)
  | clear
deriving DecidableEq

structure RateCall where
  key : Text × Text
  now : MonotonicTime
  op : RateOperation

namespace RateLimiter

variable (limiter : RateLimiter)

def checkWindows (now : MonotonicTime) (state : ToolRateLimitState) (config : RateLimitConfig)
    (record : Bool) : RateLimitResult × ToolRateLimitState :=
  if config.requestsPerMinute ≤ state.minuteWindow.count then
    (.limited (state.minuteWindow.timeUntilReset now minuteLength) .perMinute, state)
  else if config.requestsPerHour ≤ state.hourWindow.count then
    (.limited (state.hourWindow.timeUntilReset now hourLength) .perHour, state)
  else
    let state : ToolRateLimitState :=
      ⟨{ state.minuteWindow with count := state.minuteWindow.count + record.toNat },
        { state.hourWindow with count := state.hourWindow.count + record.toNat }⟩
    (.allowed (config.requestsPerMinute - state.minuteWindow.count)
      (config.requestsPerHour - state.hourWindow.count), state)

def checkInternal (now : MonotonicTime) (key : Text × Text) (config : RateLimitConfig)
    (record : Bool) : RateLimitResult × RateLimiter :=
  let r := checkWindows now (current limiter now key.1 key.2) config record
  (r.1, limiter.insert key r.2)

def perform (c : RateCall) : Option RateLimitResult × RateLimiter :=
  match c.op with
  | .check config record =>
    let r := limiter.checkInternal c.now c.key config record
    (some r.1, r.2)
  | .clear => (none, limiter.erase c.key)

def outcomes (limiter : RateLimiter) : List RateCall → List (RateCall × Option RateLimitResult)
  | [] => []
  | c :: calls => (c, (limiter.perform c).1) :: outcomes (limiter.perform c).2 calls

def after (limiter : RateLimiter) (calls : List RateCall) : RateLimiter :=
  calls.foldl (fun limiter c => (limiter.perform c).2) limiter

theorem checkAndRecord_eq (now : MonotonicTime) (userId toolName : Text) (config : RateLimitConfig) :
    limiter.checkAndRecord now userId toolName config =
      let r := limiter.checkInternal now (userId, toolName) config true
      (match r.1 with
        | .limited retryAfter _ => some retryAfter
        | .allowed _ _ => none, r.2) := by
  unfold checkAndRecord checkInternal checkWindows
  dsimp only
  split_ifs <;> rfl

theorem checkWindows_cases (now : MonotonicTime) (state : ToolRateLimitState)
    (config : RateLimitConfig) (record : Bool) :
    (∃ k : LimitType, k.limit config ≤ (k.window state).count ∧
      checkWindows now state config record =
        (.limited ((k.window state).timeUntilReset now k.length) k, state)) ∨
      ∃ a b state', checkWindows now state config record = (.allowed a b, state') ∧ 0 ≤ a ∧ 0 ≤ b ∧
        ∀ k : LimitType, (k.window state).count < k.limit config ∧
          k.window state' = { k.window state with
            count := (k.window state).count + record.toNat } := by
  have hone := record.toNat_le
  unfold checkWindows
  split_ifs with hminute hhour
  · exact .inl ⟨.perMinute, hminute, rfl⟩
  · exact .inl ⟨.perHour, hhour, rfl⟩
  · rw [not_le] at hminute hhour
    refine .inr ⟨_, _, _, rfl, by push_cast; omega, by push_cast; omega, fun k => ?_⟩
    cases k
    · exact ⟨hminute, rfl⟩
    · exact ⟨hhour, rfl⟩

variable {limiter} {limiter' : RateLimiter} {key : Text × Text} {calls : List RateCall}

theorem lookup_perform (c : RateCall) (key : Text × Text) :
    (limiter.perform c).2.lookup key = if key = c.key then
      match c.op with
      | .check config record =>
        some (checkWindows c.now (current limiter c.now c.key.1 c.key.2) config record).2
      | .clear => none
    else limiter.lookup key := by
  unfold perform checkInternal
  split
  · exact HashMap.lookup_insert ..
  · exact HashMap.lookup_erase ..

theorem perform_congr {c : RateCall} (h : limiter.lookup c.key = limiter'.lookup c.key) :
    (limiter.perform c).1 = (limiter'.perform c).1 ∧
      (limiter.perform c).2.lookup c.key = (limiter'.perform c).2.lookup c.key := by
  have hcurrent : current limiter c.now c.key.1 c.key.2 = current limiter' c.now c.key.1 c.key.2 := by
    unfold current
    rw [h]
  rw [lookup_perform, lookup_perform, hcurrent, if_pos rfl, if_pos rfl]
  refine ⟨?_, rfl⟩
  unfold perform checkInternal
  rw [hcurrent]
  split <;> rfl

theorem outcomes_filter (h : limiter.lookup key = limiter'.lookup key) :
    (outcomes limiter calls).filter (fun x => x.1.key == key) =
      outcomes limiter' (calls.filter fun c => c.key == key) := by
  induction calls generalizing limiter limiter' with
  | nil => rfl
  | cons c calls ih =>
    by_cases hkey : c.key = key
    · subst hkey
      obtain ⟨hresult, hlookup⟩ := perform_congr h
      rw [List.filter_cons_of_pos (by simp), outcomes, outcomes, List.filter_cons_of_pos (by simp),
        hresult, ih hlookup]
    · rw [List.filter_cons_of_neg (by simpa using hkey), outcomes,
        List.filter_cons_of_neg (by simpa using hkey)]
      exact ih (by rw [lookup_perform, if_neg (Ne.symm hkey), h])

end RateLimiter

namespace WindowState

variable {limit length t n now : Nat} {w : WindowState}

/-- This many calls since `t` were recorded, in this window or with the one before. -/
def Bounded (limit length t n : Nat) (w : WindowState) : Prop :=
  w.count ≤ limit ∧ ((n ≤ w.count ∧ (0 < n → t < w.windowStart + length)) ∨
    (n ≤ limit + w.count ∧ t < w.windowStart))

theorem Bounded.maybeReset (h : w.Bounded limit length t n) (hlength : 0 < length)
    (hnow : now ≤ t + length) : (w.maybeReset now length).Bounded limit length t n := by
  unfold WindowState.maybeReset
  split_ifs with hover
  · obtain ⟨hcount, ⟨hn, hlast⟩ | ⟨-, hstart⟩⟩ := h
    · refine ⟨Nat.zero_le _, ?_⟩
      rcases Nat.eq_zero_or_pos n with rfl | hpos
      · exact .inl ⟨le_rfl, fun h => absurd h (lt_irrefl 0)⟩
      · have hlast := hlast hpos
        exact .inr ⟨hn.trans (hcount.trans (Nat.le_add_right _ _)), show t < now by omega⟩
    · omega
  · exact h

theorem Bounded.record (h : w.Bounded limit length t n) (ht : t < w.windowStart + length)
    (hlt : w.count < limit) :
    Bounded limit length t (n + 1) { w with count := w.count + 1 } := by
  obtain ⟨-, ⟨hn, -⟩ | ⟨hn, hstart⟩⟩ := h
  · exact ⟨hlt, .inl ⟨Nat.succ_le_succ hn, fun _ => ht⟩⟩
  · exact ⟨hlt, .inr ⟨by simp only; omega, hstart⟩⟩

theorem lt_of_maybeReset (w : WindowState) (now : Nat) (hlength : 0 < length) :
    now < (w.maybeReset now length).windowStart + length := by
  unfold WindowState.maybeReset
  split_ifs with hover
  · exact Nat.lt_add_of_pos_right hlength
  · rw [not_le] at hover
    omega

end WindowState

namespace RateLimiter

variable {limiter : RateLimiter} {key : Text × Text} {config : RateLimitConfig} {calls : List RateCall}
  {t n : Nat} {k : LimitType}

/-- Every call about the pair has the same configuration, or forgets the pair. -/
def Fixed (key : Text × Text) (config : RateLimitConfig) (calls : List RateCall) : Prop :=
  ∀ c ∈ calls, c.key = key → c.op = .clear ∨ ∃ record, c.op = .check config record

/-- The calls are about the time of a window, and none of them forgets the pair. -/
def Within (key : Text × Text) (t length : Nat) (calls : List RateCall) : Prop :=
  ∀ c ∈ calls, t ≤ c.now ∧ c.now ≤ t + length ∧ (c.key = key → c.op ≠ .clear)

def recorded (key : Text × Text) (x : RateCall × Option RateLimitResult) : Bool :=
  x.1.key == key && match x.1.op, x.2 with
    | .check _ true, some (.allowed _ _) => true
    | _, _ => false

def Bounds (limiter : RateLimiter) (key : Text × Text) (config : RateLimitConfig) (k : LimitType)
    (t n : Nat) : Prop :=
  match limiter.lookup key with
  | none => n = 0
  | some state => (k.window state).Bounded (k.limit config) k.length t n

theorem window_current (limiter : RateLimiter) (now : MonotonicTime) (key : Text × Text)
    (k : LimitType) : k.window (current limiter now key.1 key.2) =
      (((limiter.lookup key).map fun state => k.window state).getD ⟨now, 0⟩).maybeReset now
        k.length := by
  unfold current
  cases hlookup : limiter.lookup (key.1, key.2) with
  | none => cases k <;> simp [LimitType.window, WindowState.maybeReset, LimitType.length]
  | some state => cases k <;> rfl

theorem Bounds.window (h : limiter.Bounds key config k t n) (now : MonotonicTime) :
    (((limiter.lookup key).map fun state => k.window state).getD ⟨now, 0⟩).Bounded
      (k.limit config) k.length t n := by
  unfold Bounds at h
  cases hlookup : limiter.lookup key with
  | none =>
    rw [hlookup] at h
    exact ⟨Nat.zero_le _, .inl ⟨h.le, fun hpos => absurd h hpos.ne'⟩⟩
  | some state =>
    rw [hlookup] at h
    exact h

theorem bounds_perform (h : limiter.Bounds key config k t n) {c : RateCall}
    (hop : c.key = key → ∃ record, c.op = .check config record) (ht : t ≤ c.now)
    (hnow : c.now ≤ t + k.length) : (limiter.perform c).2.Bounds key config k t
      (n + if recorded key (c, (limiter.perform c).1) then 1 else 0) := by
  unfold Bounds
  rw [lookup_perform]
  by_cases hkey : c.key = key
  · subst hkey
    obtain ⟨record, hop⟩ := hop rfl
    have hresult : (limiter.perform c).1 =
        some (checkWindows c.now (current limiter c.now c.key.1 c.key.2) config record).1 := by
      rw [perform, hop]
      rfl
    have hbound := (h.window c.now).maybeReset k.length_pos hnow
    have hlast := ht.trans_lt (WindowState.lt_of_maybeReset (((limiter.lookup c.key).map
      fun state => k.window state).getD ⟨c.now, 0⟩) c.now k.length_pos)
    rw [← window_current] at hbound hlast
    rw [if_pos rfl, hop, hresult]
    dsimp only
    rcases checkWindows_cases c.now (current limiter c.now c.key.1 c.key.2) config record with
      ⟨k', -, hcheck⟩ | ⟨a, b, state', hcheck, -, -, hstate⟩
    · rw [hcheck]
      simpa [recorded, hop] using hbound
    · obtain ⟨hlt, hwindow⟩ := hstate k
      rw [hcheck]
      dsimp only
      rw [hwindow]
      cases record with
      | false => simpa [recorded, hop] using hbound
      | true => simpa [recorded, hop] using hbound.record hlast hlt
  · rw [if_neg (Ne.symm hkey)]
    simpa [recorded, hkey, Bounds] using h

theorem Bounds.zero (h : limiter.Bounds key config k t n) (t' : Nat) :
    limiter.Bounds key config k t' 0 := by
  unfold Bounds at h ⊢
  cases hlookup : limiter.lookup key with
  | none => rfl
  | some state =>
    rw [hlookup] at h
    exact ⟨h.1, .inl ⟨Nat.zero_le _, fun hpos => absurd hpos (lt_irrefl 0)⟩⟩

theorem bounds_after (limiter : RateLimiter) (k : LimitType)
    (h : ∀ t, limiter.Bounds key config k t 0) (hfixed : Fixed key config calls)
    (t : Nat) : (limiter.after calls).Bounds key config k t 0 := by
  induction calls generalizing limiter with
  | nil => exact h t
  | cons c calls ih =>
    refine ih _ (fun t' => ?_) fun x hx => hfixed x (List.mem_cons_of_mem c hx)
    by_cases hop : c.key = key ∧ c.op = .clear
    · rw [Bounds, lookup_perform, if_pos hop.1.symm, hop.2]
    · refine (bounds_perform (h c.now) (fun hkey => ?_) le_rfl (Nat.le_add_right _ _)).zero t'
      exact (hfixed c List.mem_cons_self hkey).resolve_left fun hclear => hop ⟨hkey, hclear⟩

/-- **Twice a limit** bounds what is recorded in the time of a window. -/
theorem recorded_le (h : limiter.Bounds key config k t n) (hfixed : Fixed key config calls)
    (hwithin : Within key t k.length calls) :
    n + (outcomes limiter calls).countP (recorded key) ≤ 2 * k.limit config := by
  induction calls generalizing limiter n with
  | nil =>
    obtain ⟨hcount, ⟨hn, -⟩ | ⟨hn, -⟩⟩ := h.window 0
    · simp only [outcomes, List.countP_nil]
      omega
    · simp only [outcomes, List.countP_nil]
      omega
  | cons c calls ih =>
    obtain ⟨ht, hnow, hclear⟩ := hwithin c List.mem_cons_self
    have hstep := ih (bounds_perform h (fun hkey =>
        (hfixed c List.mem_cons_self hkey).resolve_left (hclear hkey)) ht hnow)
      (fun x hx => hfixed x (List.mem_cons_of_mem c hx))
      fun x hx => hwithin x (List.mem_cons_of_mem c hx)
    rw [outcomes, List.countP_cons]
    omega

theorem windowStart_checkWindows (now : MonotonicTime) (state : ToolRateLimitState)
    (config : RateLimitConfig) (record : Bool) (k : LimitType) :
    (k.window (checkWindows now state config record).2).windowStart =
      (k.window state).windowStart := by
  rcases checkWindows_cases now state config record with
    ⟨k', -, hcheck⟩ | ⟨a, b, state', hcheck, -, -, hstate⟩
  · rw [hcheck]
  · rw [hcheck]
    dsimp only
    rw [(hstate k).2]

def Started (limiter : RateLimiter) (now : Nat) : Prop :=
  ∀ key state, limiter.lookup key = some state → ∀ k : LimitType, (k.window state).windowStart ≤ now

theorem Started.current {now now' : Nat} (h : limiter.Started now) (hle : now' ≤ now)
    (key : Text × Text) (k : LimitType) :
    (k.window (current limiter now' key.1 key.2)).windowStart ≤ now := by
  rw [window_current, WindowState.maybeReset]
  split_ifs
  · exact hle
  · cases hlookup : limiter.lookup key with
    | none => exact hle
    | some state => exact h key state hlookup k

theorem started_after {now : Nat} (h : limiter.Started now) (hcalls : ∀ c ∈ calls, c.now ≤ now) :
    (limiter.after calls).Started now := by
  induction calls generalizing limiter with
  | nil => exact h
  | cons c calls ih =>
    refine ih (fun key state hlookup k => ?_) fun x hx => hcalls x (List.mem_cons_of_mem c hx)
    rw [lookup_perform] at hlookup
    split_ifs at hlookup with hkey
    · split at hlookup
      · cases hlookup
        rw [windowStart_checkWindows]
        exact h.current (hcalls c List.mem_cons_self) _ k
      · cases hlookup
    · exact h key state hlookup k

theorem not_limited_again {now now' retry retry' : Nat} (h : limiter.Started now)
    {record record' : Bool}
    (hlimited : (limiter.checkInternal now key config record).1 = .limited retry k)
    (hnow : now + retry ≤ now') (hlimit : 0 < k.limit config) :
    ((limiter.checkInternal now key config record).2.checkInternal now' key config record').1 ≠
      .limited retry' k := by
  obtain ⟨elapsed, helapsed⟩ := Nat.exists_eq_add_of_le (h.current le_rfl key k)
  intro hagain
  unfold checkInternal at hlimited hagain
  rcases checkWindows_cases now (current limiter now key.1 key.2) config record with
    ⟨k', -, hcheck⟩ | ⟨a, b, state', hcheck, -⟩
  · rw [hcheck] at hlimited hagain
    cases hlimited
    dsimp only at hagain
    rcases checkWindows_cases now' (current (limiter.insert key (current limiter now key.1 key.2))
      now' key.1 key.2) config record' with ⟨k'', hreached, hcheck'⟩ | ⟨a, b, state', hcheck', -⟩
    · rw [hcheck'] at hagain
      cases hagain
      -- the window is over, so it is opened again with nothing in it
      rw [window_current, HashMap.lookup_insert, if_pos rfl, Option.map_some, Option.getD_some,
        WindowState.maybeReset, if_pos] at hreached
      · exact absurd hreached (not_le.mpr hlimit)
      · rw [WindowState.timeUntilReset] at hnow
        omega
    · rw [hcheck'] at hagain
      cases hagain
  · rw [hcheck] at hlimited
    cases hlimited

structure Lawful : Prop where
  remaining : ∀ calls c a b, (c, some (RateLimitResult.allowed a b)) ∈ outcomes ∅ calls →
    0 ≤ a ∧ 0 ≤ b
  ownCalls : ∀ calls key, (outcomes ∅ calls).filter (fun x => x.1.key == key) =
    outcomes ∅ (calls.filter fun c => c.key == key)
  recorded : ∀ before during key config (k : LimitType) t, Fixed key config (before ++ during) →
    Within key t k.length during →
    (outcomes (after ∅ before) during).countP (recorded key) ≤ 2 * k.limit config
  honest : ∀ calls key config (k : LimitType) now now' retry retry' record record',
    (∀ c ∈ calls, c.now ≤ now) → 0 < k.limit config → now + retry ≤ now' →
    ((after ∅ calls).checkInternal now key config record).1 = .limited retry k →
    (((after ∅ calls).checkInternal now key config record).2.checkInternal now' key config
      record').1 ≠ .limited retry' k

theorem remaining_nonneg {c : RateCall} {a b : Int}
    (h : (c, some (RateLimitResult.allowed a b)) ∈ outcomes limiter calls) : 0 ≤ a ∧ 0 ≤ b := by
  induction calls generalizing limiter with
  | nil => cases h
  | cons c' calls ih =>
    rcases List.mem_cons.mp h with heq | hmem
    · have hresult := (Prod.mk.inj heq).2
      unfold perform checkInternal at hresult
      split at hresult
      · next config record _ =>
        rcases checkWindows_cases c'.now (current limiter c'.now c'.key.1 c'.key.2) config record with
          ⟨k, -, hcheck⟩ | ⟨a', b', state', hcheck, ha, hb, -⟩
        · rw [hcheck] at hresult
          cases hresult
        · rw [hcheck] at hresult
          cases hresult
          exact ⟨ha, hb⟩
      · cases hresult
    · exact ih hmem

/-- **The limiter is lawful**: no underflow, pairs do not meet, twice a limit bounds what is
recorded, refusals end when they say. -/
theorem rateLimiter_lawful : Lawful where
  remaining := fun _ _ _ _ h => remaining_nonneg h
  ownCalls := fun _ _ => outcomes_filter rfl
  recorded := fun before during key config k t hfixed hwithin => by
    have hbounds := bounds_after ∅ k (fun _ => rfl)
      (fun c hc => hfixed c (List.mem_append_left during hc)) t
    have hle := recorded_le hbounds (fun c hc => hfixed c (List.mem_append_right before hc)) hwithin
    omega
  honest := fun _ _ _ _ _ _ _ _ _ _ hcalls hlimit hnow hlimited =>
    not_limited_again (started_after (fun _ _ h => by cases h) hcalls) hlimited hnow hlimit

def clearedCalls : List RateCall :=
  let call : RateCall := ⟨(['u'], ['t']), 0, .check ⟨1, 10⟩ true⟩
  [call, { call with op := .clear }, call, { call with op := .clear }, call]

/-- Three calls are recorded in a minute where one is allowed. -/
theorem clearedCalls_recorded :
    (∀ c ∈ clearedCalls, c.now = 0) ∧ Fixed (['u'], ['t']) ⟨1, 10⟩ clearedCalls ∧
      ¬ (outcomes ∅ clearedCalls).countP (recorded (['u'], ['t'])) ≤
        2 * LimitType.perMinute.limit ⟨1, 10⟩ := by
  refine ⟨by decide, fun c hc _ => ?_, by decide⟩
  simp only [clearedCalls, List.mem_cons, List.not_mem_nil, or_false] at hc
  rcases hc with rfl | rfl | rfl | rfl | rfl <;> simp

end RateLimiter

end IronClaw.Tools
