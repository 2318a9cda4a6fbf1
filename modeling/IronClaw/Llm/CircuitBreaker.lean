import Mathlib.Data.List.Induction
import IronClaw.Foundation.Run
import IronClaw.Foundation.Log

/-!
# The circuit breaker

The breaker opens after too many transient failures, lets probes through after a while, and closes
when enough of them succeeded. A request waits for the provider without the lock, so its result may
come in when the breaker is in another state.
-/

namespace IronClaw.Llm

open Foundation (Along run)
open List (append_nil mem_append mem_append_left mem_cons mem_singleton)

/-- Readings of a clock that never goes back. -/
abbrev Instant := Nat

inductive LlmError where
  | requestFailed (provider reason : String)
  | rateLimited (provider : String) (retryAfter : Option Nat)
  | badGateway (provider : String) (status : Nat) (retryAfter : Option Nat)
  | invalidResponse (provider reason : String)
  | emptyResponse (provider : String)
  | contextLengthExceeded (used limit : Nat)
  | modelNotAvailable (provider model : String)
  | authFailed (provider : String)
  | sessionExpired (provider : String)
  | sessionRenewalFailed (provider reason : String)
  | http (error : String)
  | json (error : String)
  | io (error : String)
deriving DecidableEq

def isTransient : LlmError → Bool
  | .requestFailed .. | .rateLimited .. | .badGateway .. | .invalidResponse .. | .emptyResponse ..
  | .sessionExpired .. | .sessionRenewalFailed .. | .http _ | .io _ => true
  | .contextLengthExceeded .. | .modelNotAvailable .. | .authFailed .. | .json _ => false

structure CircuitBreakerConfig where
  /-- Consecutive transient failures before the circuit opens. -/
  failureThreshold : Nat
  /-- How long the circuit stays open before allowing a probe. -/
  recoveryTimeout : Nat
  /-- Successful probes needed in half-open to close the circuit. -/
  halfOpenSuccessesNeeded : Nat
  modelName : String
  /-- A duration in seconds, as it is printed. -/
  seconds : Nat → String

inductive CircuitState where
  | closed
  | opened
  | halfOpen
deriving DecidableEq

structure BreakerState where
  state : CircuitState
  consecutiveFailures : Nat
  openedAt : Option Instant
  halfOpenSuccesses : Nat
deriving DecidableEq

def BreakerState.new : BreakerState := ⟨.closed, 0, none, 0⟩

section Operations

variable (config : CircuitBreakerConfig) (now : Instant) (s : BreakerState)

def checkAllowed : Except LlmError Unit × BreakerState :=
  match s.state with
  | .closed | .halfOpen => (.ok (), s)
  | .opened =>
    match s.openedAt with
    | some openedAt =>
      if now - openedAt ≥ config.recoveryTimeout then
        (.ok (), { s with state := .halfOpen, halfOpenSuccesses := 0 })
      else
        let remaining := config.recoveryTimeout - (now - openedAt)
        (.error (.requestFailed config.modelName
          ("Circuit breaker open (" ++ toString s.consecutiveFailures ++
            " consecutive failures, recovery in " ++ config.seconds remaining ++ "s)")), s)
    | none => (.ok (), { s with state := .closed })

def recordSuccess : BreakerState :=
  match s.state with
  | .closed => { s with consecutiveFailures := 0 }
  | .halfOpen =>
    let successes := s.halfOpenSuccesses + 1
    if successes ≥ config.halfOpenSuccessesNeeded then ⟨.closed, 0, none, successes⟩
    else { s with halfOpenSuccesses := successes }
  -- the debug assertion of the source says that this branch is not reached
  | .opened => { s with state := .closed, consecutiveFailures := 0, openedAt := none }

def recordFailure (error : LlmError) : BreakerState :=
  if !isTransient error then s
  else
    match s.state with
    | .closed =>
      let failures := s.consecutiveFailures + 1
      if failures ≥ config.failureThreshold then
        { s with state := .opened, consecutiveFailures := failures, openedAt := some now }
      else { s with consecutiveFailures := failures }
    | .halfOpen => { s with state := .opened, openedAt := some now, halfOpenSuccesses := 0 }
    | .opened => s

end Operations

/-- How far a request for a completion has come. -/
inductive Stage (R : Type) where
  | checking
  | calling
  | recording (outcome : Except LlmError R)
  | finished (outcome : Except LlmError R)

inductive BreakerEvent where
  | entered (state : CircuitState) (now : Instant)
  /-- A request was admitted, and the breaker was in this state. -/
  | admitted (request : Nat) (now : Instant) (state : CircuitState)
  /-- A success was recorded in this state. -/
  | succeeded (request : Nat) (state : CircuitState)
deriving DecidableEq

structure BreakerHost (R : Type) where
  breaker : BreakerState
  requests : List (Stage R)
  now : Instant
  log : List BreakerEvent

inductive BreakerAction (R : Type) where
  | request
  | checkAllowed (request : Nat) (now : Instant)
  | answer (request : Nat) (outcome : Except LlmError R)
  | record (request : Nat) (now : Instant)

namespace BreakerHost

variable {R : Type}

def new : BreakerHost R := ⟨.new, [], 0, []⟩

def changed (now : Instant) (s s' : BreakerState) : List BreakerEvent :=
  if s.state = s'.state then [] else [.entered s'.state now]

def perform (config : CircuitBreakerConfig) (host : BreakerHost R) :
    BreakerAction R → Option (BreakerHost R)
  | .request => some { host with requests := host.requests ++ [.checking] }
  | .checkAllowed request now =>
    match host.requests[request]? with
    | some .checking =>
      if now < host.now then none
      else
        match Llm.checkAllowed config now host.breaker with
        | (.ok (), s') =>
          some
            { breaker := s'
              requests := host.requests.set request .calling
              now := now
              log := host.log ++ changed now host.breaker s' ++ [.admitted request now s'.state] }
        | (.error e, s') =>
          some
            { breaker := s'
              requests := host.requests.set request (.finished (.error e))
              now := now
              log := host.log ++ changed now host.breaker s' }
    | _ => none
  | .answer request outcome =>
    match host.requests[request]? with
    | some .calling => some { host with requests := host.requests.set request (.recording outcome) }
    | _ => none
  | .record request now =>
    match host.requests[request]? with
    | some (.recording outcome) =>
      if now < host.now then none
      else
        match outcome with
        | .ok _ =>
          let s' := recordSuccess config host.breaker
          some
            { breaker := s'
              requests := host.requests.set request (.finished outcome)
              now := now
              log := host.log ++ [.succeeded request host.breaker.state] ++
                changed now host.breaker s' }
        | .error e =>
          let s' := recordFailure config now host.breaker e
          some
            { breaker := s'
              requests := host.requests.set request (.finished outcome)
              now := now
              log := host.log ++ changed now host.breaker s' }
    | _ => none

end BreakerHost

def latestOpening (log : List BreakerEvent) : Option Instant :=
  log.reverse.findSome? fun
    | .entered .opened now => some now
    | _ => none

def successes (log : List BreakerEvent) : List Nat :=
  log.filterMap fun
    | .succeeded request _ => some request
    | _ => none

/-- The circuit is half-open, and enough requests admitted since then have succeeded. -/
def Recovered (config : CircuitBreakerConfig) (log : List BreakerEvent) : Prop :=
  ∃ earlier now phase, log = earlier ++ .entered .halfOpen now :: phase ∧
    (∀ state t, .entered state t ∉ phase) ∧ (successes phase).Nodup ∧
    config.halfOpenSuccessesNeeded ≤ (successes phase).length ∧
    ∀ request ∈ successes phase, ∃ t, .admitted request t .halfOpen ∈ phase

/-- After an opening nobody is admitted before the timeout. The circuit closes when it has
recovered, and no success is recorded while it is open. -/
structure Guarded (config : CircuitBreakerConfig) (log : List BreakerEvent) : Prop where
  admission : ∀ before request now state after,
    log = before ++ .admitted request now state :: after →
      ∀ openedAt, latestOpening before = some openedAt → openedAt + config.recoveryTimeout ≤ now
  closing : ∀ before now after, log = before ++ .entered .closed now :: after →
    Recovered config before
  success : ∀ request state, .succeeded request state ∈ log → state ≠ .opened

def AdmittedSinceOpening (log : List BreakerEvent) (request : Nat) : Prop :=
  ∃ earlier now state rest, log = earlier ++ .admitted request now state :: rest ∧
    ∀ t, .entered .opened t ∉ rest

/-- A success is of a closed circuit, or of a request admitted since it has opened last. -/
def Timely {R : Type} (host : BreakerHost R) : BreakerAction R → Prop
  | .record request _ => ∀ response, host.requests[request]? = some (.recording (.ok response)) →
    host.breaker.state ≠ .closed → AdmittedSinceOpening host.log request
  | _ => True

/-- What the log says about a half-open circuit since it became so. -/
structure Probes (phase : List BreakerEvent) (n : Nat) : Prop where
  quiet : ∀ state t, .entered state t ∉ phase
  probing : ∀ request t state, .admitted request t state ∈ phase → state = .halfOpen
  nodup : (successes phase).Nodup
  length : (successes phase).length = n
  admitted : ∀ request ∈ successes phase, ∃ t, .admitted request t .halfOpen ∈ phase

/-- What the log says about each state. The log of an open circuit ends with its opening. -/
def Stands (config : CircuitBreakerConfig) (now : Instant) (log : List BreakerEvent)
    (s : BreakerState) : Prop :=
  match s.state with
  | .closed => ∀ openedAt, latestOpening log = some openedAt →
      openedAt + config.recoveryTimeout ≤ now
  | .opened => ∃ openedAt earlier, s.openedAt = some openedAt ∧ openedAt ≤ now ∧
      log = earlier ++ [.entered .opened openedAt]
  | .halfOpen => ∃ openedAt earlier t phase, openedAt + config.recoveryTimeout ≤ now ∧
      log = earlier ++ .entered .opened openedAt :: .entered .halfOpen t :: phase ∧
      Probes phase s.halfOpenSuccesses

section Events

variable {config : CircuitBreakerConfig} {now openedAt : Instant} {log : List BreakerEvent}
  {s s' : BreakerState} {request : Nat} {e : BreakerEvent}

theorem latestOpening_snoc : latestOpening (log ++ [e]) =
    match e with
    | .entered .opened now => some now
    | _ => latestOpening log := by
  unfold latestOpening
  rw [List.reverse_append, List.reverse_singleton, List.singleton_append, List.findSome?_cons]
  cases e with
  | entered state now => cases state <;> rfl
  | _ => rfl

theorem successes_snoc : successes (log ++ [e]) =
    match e with
    | .succeeded request _ => successes log ++ [request]
    | _ => successes log := by
  unfold successes
  rw [List.filterMap_append]
  cases e with
  | succeeded request state => rfl
  | _ => exact append_nil _

theorem mem_successes : request ∈ successes log ↔ ∃ state, .succeeded request state ∈ log := by
  simp only [successes, List.mem_filterMap]
  constructor
  · rintro ⟨e, he, heq⟩
    split at heq
    · cases heq
      exact ⟨_, he⟩
    · cases heq
  · rintro ⟨state, he⟩
    exact ⟨_, he, rfl⟩

theorem latestOpening_of_quiet {earlier phase : List BreakerEvent}
    (hquiet : ∀ t, .entered .opened t ∉ phase) :
    latestOpening (earlier ++ .entered .opened openedAt :: phase) = some openedAt := by
  induction phase using List.reverseRecOn with
  | nil => rw [latestOpening_snoc]
  | append_singleton phase e ih =>
    have hlast : ∀ t, e ≠ .entered .opened t := by
      rintro t rfl
      exact hquiet t (List.mem_append_right _ List.mem_cons_self)
    have hrest := ih fun t ht => hquiet t (mem_append_left _ ht)
    rw [← List.cons_append, ← List.append_assoc, latestOpening_snoc]
    split
    · exact absurd rfl (hlast _)
    · exact hrest

theorem Probes.not_opened {phase : List BreakerEvent} {n : Nat} (h : Probes phase n)
    (t t' : Instant) : .entered .opened t ∉ BreakerEvent.entered .halfOpen t' :: phase := by
  intro hmem
  rcases mem_cons.mp hmem with hmem | hmem
  · cases hmem
  · exact h.quiet _ _ hmem

theorem Stands.waited (h : Stands config now log s) (hstate : s.state ≠ .opened)
    (hopened : latestOpening log = some openedAt) : openedAt + config.recoveryTimeout ≤ now := by
  unfold Stands at h
  split at h
  · exact h openedAt hopened
  · exact absurd ‹_› hstate
  · obtain ⟨openedAt', earlier, t, phase, hpassed, rfl, hprobes⟩ := h
    rw [latestOpening_of_quiet fun t' => hprobes.not_opened t' t] at hopened
    cases hopened
    exact hpassed

theorem Stands.later {now' : Instant} (h : Stands config now log s) (hnow : now ≤ now') :
    Stands config now' log s := by
  unfold Stands at h ⊢
  split at h
  · exact fun openedAt hopened => Nat.le_trans (h openedAt hopened) hnow
  · obtain ⟨openedAt, earlier, hat, hle, hlog⟩ := h
    exact ⟨openedAt, earlier, hat, Nat.le_trans hle hnow, hlog⟩
  · obtain ⟨openedAt, earlier, t, phase, hpassed, hrest⟩ := h
    exact ⟨openedAt, earlier, t, phase, Nat.le_trans hpassed hnow, hrest⟩

theorem Stands.of_closed (h : s.state = .closed) : Stands config now log s ↔
    ∀ openedAt, latestOpening log = some openedAt → openedAt + config.recoveryTimeout ≤ now := by
  unfold Stands
  rw [h]

theorem Stands.of_opened (h : s.state = .opened) : Stands config now log s ↔
    ∃ openedAt earlier, s.openedAt = some openedAt ∧ openedAt ≤ now ∧
      log = earlier ++ [.entered .opened openedAt] := by
  unfold Stands
  rw [h]

theorem Stands.of_halfOpen (h : s.state = .halfOpen) : Stands config now log s ↔
    ∃ openedAt earlier t phase, openedAt + config.recoveryTimeout ≤ now ∧
      log = earlier ++ .entered .opened openedAt :: .entered .halfOpen t :: phase ∧
      Probes phase s.halfOpenSuccesses := by
  unfold Stands
  rw [h]

theorem Guarded.snoc (h : Guarded config log)
    (hadmission : ∀ request now state, e = .admitted request now state →
      ∀ openedAt, latestOpening log = some openedAt → openedAt + config.recoveryTimeout ≤ now)
    (hclosing : ∀ now, e = .entered .closed now → Recovered config log)
    (hsuccess : ∀ request state, e = .succeeded request state → state ≠ .opened) :
    Guarded config (log ++ [e]) where
  admission := by
    intro before request now state after hlog
    rcases Foundation.snoc_eq_append_cons hlog with ⟨after', hold⟩ | ⟨rfl, heq⟩
    · exact h.admission before request now state after' hold
    · exact hadmission request now state heq.symm
  closing := by
    intro before now after hlog
    rcases Foundation.snoc_eq_append_cons hlog with ⟨after', hold⟩ | ⟨rfl, heq⟩
    · exact h.closing before now after' hold
    · exact hclosing now heq.symm
  success := by
    intro request state hmem
    rcases mem_append.mp hmem with hmem | hmem
    · exact h.success request state hmem
    · exact hsuccess request state (mem_singleton.mp hmem).symm

structure Sound (config : CircuitBreakerConfig) (now : Instant) (log : List BreakerEvent)
    (s : BreakerState) : Prop where
  stands : Stands config now log s
  guarded : Guarded config log

theorem Sound.later {now' : Instant} (h : Sound config now log s) (hnow : now ≤ now') :
    Sound config now' log s := ⟨h.stands.later hnow, h.guarded⟩

theorem Sound.admission (h : Sound config now log s) (hstate : s.state ≠ .opened) (request : Nat) :
    Sound config now (log ++ [.admitted request now s.state]) s where
  stands := by
    have hstands := h.stands
    cases hs : s.state with
    | opened => exact absurd hs hstate
    | closed =>
      rw [Stands.of_closed hs] at hstands ⊢
      intro openedAt hopened
      rw [latestOpening_snoc] at hopened
      exact hstands openedAt hopened
    | halfOpen =>
      rw [Stands.of_halfOpen hs] at hstands ⊢
      obtain ⟨openedAt, earlier, t, phase, hpassed, rfl, hprobes⟩ := hstands
      refine ⟨openedAt, earlier, t, phase ++ [.admitted request now .halfOpen], hpassed, by simp,
        ⟨?_, ?_, ?_, ?_, ?_⟩⟩
      · intro state t' hmem
        exact hprobes.quiet state t' (by simpa using hmem)
      · intro request' t' state hmem
        rcases mem_append.mp hmem with hmem | hmem
        · exact hprobes.probing request' t' state hmem
        · cases mem_singleton.mp hmem
          rfl
      · rw [successes_snoc]
        exact hprobes.nodup
      · rw [successes_snoc]
        exact hprobes.length
      · intro request' hmem
        rw [successes_snoc] at hmem
        obtain ⟨t', ht'⟩ := hprobes.admitted request' hmem
        exact ⟨t', mem_append_left _ ht'⟩
  guarded := by
    refine h.guarded.snoc ?_ nofun nofun
    intro request' now' state he openedAt hopened
    cases he
    exact h.stands.waited hstate hopened

theorem Sound.opens (h : Sound config now log s) (hstate : s'.state = .opened)
    (hat : s'.openedAt = some now) : Sound config now (log ++ [.entered .opened now]) s' where
  stands := (Stands.of_opened hstate).mpr ⟨now, log, hat, Nat.le_refl now, rfl⟩
  guarded := h.guarded.snoc nofun nofun
    nofun

theorem Sound.halfOpens (h : Sound config now log s) (hopened : s.state = .opened)
    (hat : s.openedAt = some openedAt) (hpassed : config.recoveryTimeout ≤ now - openedAt)
    (hstate : s'.state = .halfOpen) (hnone : s'.halfOpenSuccesses = 0) :
    Sound config now (log ++ [.entered .halfOpen now]) s' where
  stands := by
    obtain ⟨openedAt', earlier, hat', hle, hlog⟩ := (Stands.of_opened hopened).mp h.stands
    obtain rfl : openedAt' = openedAt := Option.some.inj (hat'.symm.trans hat)
    refine (Stands.of_halfOpen hstate).mpr ⟨openedAt', earlier, now, [], ?_, by simp [hlog], ?_⟩
    · rw [Nat.add_comm]
      exact Nat.add_le_of_le_sub hle hpassed
    · rw [hnone]
      exact ⟨by simp, by simp, List.nodup_nil, rfl, by simp [successes]⟩
  guarded := h.guarded.snoc nofun nofun
    nofun

theorem Sound.succeedClosed (h : Sound config now log s) (hstate : s.state = .closed)
    (hstate' : s'.state = .closed) (request : Nat) :
    Sound config now (log ++ [.succeeded request .closed]) s' where
  stands := by
    rw [Stands.of_closed hstate']
    intro openedAt hopened
    rw [latestOpening_snoc] at hopened
    exact (Stands.of_closed hstate).mp h.stands openedAt hopened
  guarded := by
    refine h.guarded.snoc nofun nofun ?_
    intro request' state he
    cases he
    simp

theorem Sound.succeedHalfOpen (h : Sound config now log s) (hstate : s.state = .halfOpen)
    (hstate' : s'.state = .halfOpen) (hcount : s'.halfOpenSuccesses = s.halfOpenSuccesses + 1)
    (hadmitted : AdmittedSinceOpening log request) (hnew : request ∉ successes log) :
    Sound config now (log ++ [.succeeded request .halfOpen]) s' where
  stands := by
    obtain ⟨openedAt, earlier, t, phase, hpassed, rfl, hprobes⟩ :=
      (Stands.of_halfOpen hstate).mp h.stands
    obtain ⟨before, now', state, rest, hlog, hrest⟩ := hadmitted
    -- the request was admitted after the last opening, and so as a probe
    have hmem : .admitted request now' state ∈ phase := by
      rcases Foundation.mem_of_append_cons_eq hlog.symm (hrest openedAt) with heq | hmem
      · cases heq
      · rcases mem_cons.mp hmem with heq | hmem
        · cases heq
        · exact hmem
    obtain rfl := hprobes.probing request now' state hmem
    have hnew' : request ∉ successes phase := by
      intro hs
      obtain ⟨state, hs⟩ := mem_successes.mp hs
      exact hnew (mem_successes.mpr ⟨state, by simp [hs]⟩)
    refine (Stands.of_halfOpen hstate').mpr ⟨openedAt, earlier, t,
      phase ++ [.succeeded request .halfOpen], hpassed, by simp, ⟨?_, ?_, ?_, ?_, ?_⟩⟩
    · intro state t' hs
      exact hprobes.quiet state t' (by simpa using hs)
    · intro request' t' state hs
      exact hprobes.probing request' t' state (by simpa using hs)
    · rw [successes_snoc]
      exact List.nodup_append.mpr ⟨hprobes.nodup, by simp, by
        intro r hr r' hr' heq
        obtain rfl := mem_singleton.mp hr'
        exact hnew' (heq ▸ hr)⟩
    · rw [successes_snoc, hcount, List.length_append, hprobes.length]
      rfl
    · intro request' hs
      rw [successes_snoc] at hs
      rcases mem_append.mp hs with hs | hs
      · obtain ⟨t', ht'⟩ := hprobes.admitted request' hs
        exact ⟨t', mem_append_left _ ht'⟩
      · obtain rfl := mem_singleton.mp hs
        exact ⟨now', mem_append_left _ hmem⟩
  guarded := by
    refine h.guarded.snoc nofun nofun ?_
    intro request' state he
    cases he
    simp

theorem Sound.closes (h : Sound config now log s) (hstate : s.state = .halfOpen)
    (hcount : config.halfOpenSuccessesNeeded ≤ s.halfOpenSuccesses) (hstate' : s'.state = .closed) :
    Sound config now (log ++ [.entered .closed now]) s' where
  stands := by
    rw [Stands.of_closed hstate']
    intro openedAt hopened
    rw [latestOpening_snoc] at hopened
    exact h.stands.waited (by rw [hstate]; simp) hopened
  guarded := by
    refine h.guarded.snoc nofun ?_ nofun
    intro _ _
    obtain ⟨openedAt, earlier, t, phase, -, rfl, hprobes⟩ :=
      (Stands.of_halfOpen hstate).mp h.stands
    refine ⟨earlier ++ [.entered .opened openedAt], t, phase, by simp, hprobes.quiet, hprobes.nodup,
      ?_, hprobes.admitted⟩
    rw [hprobes.length]
    exact hcount

theorem Stands.not_admitted (h : Stands config now log s) (hstate : s.state = .opened) :
    ¬ AdmittedSinceOpening log request := by
  rintro ⟨before, now', state, rest, hlog, hrest⟩
  obtain ⟨openedAt, earlier, -, -, rfl⟩ := (Stands.of_opened hstate).mp h
  rcases Foundation.mem_of_append_cons_eq hlog.symm (hrest openedAt) with heq | hmem
  · cases heq
  · cases hmem

theorem checkAllowed_cases (config : CircuitBreakerConfig) (now : Instant) (s : BreakerState) :
    (s.state ≠ .opened ∧ checkAllowed config now s = (.ok (), s)) ∨
    (s.state = .opened ∧ ∃ openedAt, s.openedAt = some openedAt ∧
      config.recoveryTimeout ≤ now - openedAt ∧
      checkAllowed config now s = (.ok (), { s with state := .halfOpen, halfOpenSuccesses := 0 })) ∨
    (s.state = .opened ∧ ∃ e, checkAllowed config now s = (.error e, s)) ∨
    (s.state = .opened ∧ s.openedAt = none) := by
  unfold checkAllowed
  cases hs : s.state with
  | closed => exact .inl ⟨by simp, rfl⟩
  | halfOpen => exact .inl ⟨by simp, rfl⟩
  | opened =>
    cases hat : s.openedAt with
    | none => exact .inr (.inr (.inr ⟨rfl, rfl⟩))
    | some openedAt =>
      simp only
      split_ifs with hpassed
      · exact .inr (.inl ⟨trivial, openedAt, rfl, hpassed, rfl⟩)
      · exact .inr (.inr (.inl ⟨trivial, _, rfl⟩))

theorem recordFailure_cases (config : CircuitBreakerConfig) (now : Instant) (s : BreakerState)
    (e : LlmError) : (s.state ≠ .opened ∧ (recordFailure config now s e).state = .opened ∧
      (recordFailure config now s e).openedAt = some now) ∨
    (s.state = .closed ∧ (recordFailure config now s e).state = .closed) ∨
    recordFailure config now s e = s := by
  unfold recordFailure
  split_ifs
  · exact .inr (.inr rfl)
  · cases hs : s.state with
    | closed =>
      simp only
      split_ifs
      · exact .inl ⟨by simp, rfl, rfl⟩
      · exact .inr (.inl ⟨trivial, rfl⟩)
    | halfOpen => exact .inl ⟨by simp, rfl, rfl⟩
    | opened => exact .inr (.inr rfl)

theorem changed_of_eq {now : Instant} {s s' : BreakerState} (h : s.state = s'.state) :
    BreakerHost.changed now s s' = [] := if_pos h

theorem changed_of_ne {now : Instant} {s s' : BreakerState} (h : s.state ≠ s'.state) :
    BreakerHost.changed now s s' = [.entered s'.state now] := if_neg h

theorem not_succeeded_of_mem_changed (state : CircuitState) :
    .succeeded request state ∉ BreakerHost.changed now s s' := by
  unfold BreakerHost.changed
  split_ifs <;> simp

theorem Sound.recordFailure (h : Sound config now log s) (error : LlmError) :
    Sound config now (log ++ BreakerHost.changed now s (Llm.recordFailure config now s error))
      (Llm.recordFailure config now s error) := by
  rcases recordFailure_cases config now s error with ⟨hstate, hopened, hat⟩ | ⟨hstate,
    hclosed⟩ | hsame
  · rw [changed_of_ne (by rw [hopened]; exact hstate), hopened]
    exact h.opens hopened hat
  · rw [changed_of_eq (hstate.trans hclosed.symm), append_nil]
    exact ⟨(Stands.of_closed hclosed).mpr ((Stands.of_closed hstate).mp h.stands), h.guarded⟩
  · rw [hsame, changed_of_eq rfl, append_nil]
    exact h

theorem Sound.recordSuccess (h : Sound config now log s)
    (hadmitted : s.state ≠ .closed → AdmittedSinceOpening log request)
    (hnew : request ∉ successes log) : Sound config now (log ++ [.succeeded request s.state] ++
      BreakerHost.changed now s (Llm.recordSuccess config s)) (Llm.recordSuccess config s) := by
  cases hs : s.state with
  | closed =>
    have hclosed : (Llm.recordSuccess config s).state = .closed := by
      simp only [Llm.recordSuccess, hs]
    rw [changed_of_eq (hs.trans hclosed.symm), append_nil]
    exact h.succeedClosed hs hclosed request
  | opened => exact absurd (hadmitted (by simp [hs])) (h.stands.not_admitted hs)
  | halfOpen =>
    have hprobe : Sound config now (log ++ [.succeeded request .halfOpen])
        { s with halfOpenSuccesses := s.halfOpenSuccesses + 1 } :=
      h.succeedHalfOpen hs hs rfl (hadmitted (by simp [hs])) hnew
    by_cases hcount : config.halfOpenSuccessesNeeded ≤ s.halfOpenSuccesses + 1
    · have hclosed : (Llm.recordSuccess config s).state = .closed := by
        simp only [Llm.recordSuccess, hs, ge_iff_le, if_pos hcount]
      rw [changed_of_ne (by rw [hs, hclosed]; simp), hclosed]
      exact hprobe.closes hs hcount hclosed
    · -- more probes are needed, and the circuit stays as it is
      have hstays : Llm.recordSuccess config s =
          { s with halfOpenSuccesses := s.halfOpenSuccesses + 1 } := by
        simp only [Llm.recordSuccess, hs, ge_iff_le, if_neg hcount]
      have hquiet : BreakerHost.changed now s (Llm.recordSuccess config s) = [] :=
        changed_of_eq (by rw [hstays])
      rw [hquiet, hstays, append_nil]
      exact hprobe

end Events

section Runs

variable {R : Type} {config : CircuitBreakerConfig} {host host' : BreakerHost R}
  {action : BreakerAction R}

/-- The circuit is sound, and successes are recorded only of finished requests. -/
structure Soundly (config : CircuitBreakerConfig) (host : BreakerHost R) : Prop where
  sound : Sound config host.now host.log host.breaker
  reported : ∀ request state, .succeeded request state ∈ host.log →
    ∃ outcome, host.requests[request]? = some (.finished outcome)

theorem Soundly.not_succeeded (h : Soundly config host) {request : Nat} {stage : Stage R}
    (hstage : host.requests[request]? = some stage) (hopen : ∀ outcome, stage ≠ .finished outcome) :
    request ∉ successes host.log := by
  intro hmem
  obtain ⟨state, hmem⟩ := mem_successes.mp hmem
  obtain ⟨outcome, hfinished⟩ := h.reported request state hmem
  rw [hstage] at hfinished
  exact hopen outcome (Option.some.inj hfinished)

theorem Soundly.reported_set (h : Soundly config host) {request : Nat} {stage : Stage R}
    (hstage : host.requests[request]? = some stage) (hopen : ∀ outcome, stage ≠ .finished outcome)
    (stage' : Stage R) {request' : Nat} {state : CircuitState}
      (hmem : .succeeded request' state ∈ host.log) :
    ∃ outcome, (host.requests.set request stage')[request']? = some (.finished outcome) := by
  obtain ⟨outcome, hfinished⟩ := h.reported request' state hmem
  have hne : request ≠ request' := by
    rintro rfl
    exact h.not_succeeded hstage hopen (mem_successes.mpr ⟨state, hmem⟩)
  exact ⟨outcome, by rw [List.getElem?_set_ne hne, hfinished]⟩

theorem Soundly.checkAllowed (h : Soundly config host) {request : Nat} {now : Instant}
    (hp : host.perform config (.checkAllowed request now) = some host') : Soundly config host' := by
  simp only [BreakerHost.perform] at hp
  split at hp
  · rename_i hstage
    split_ifs at hp with hnow
    have hlater := h.sound.later (Nat.le_of_not_lt hnow)
    have hkept (stage' : Stage R) {r : Nat} {state : CircuitState}
        (hmem : .succeeded r state ∈ host.log) := h.reported_set hstage (by simp) stage' hmem
    rcases checkAllowed_cases config now host.breaker with
      ⟨hstate, hr⟩ | ⟨hstate, openedAt, hat, hpassed, hr⟩ | ⟨hstate, e, hr⟩ | ⟨hstate, hnone⟩
    · rw [hr] at hp
      cases hp
      rw [changed_of_eq rfl, append_nil]
      refine ⟨hlater.admission hstate request, fun r state hmem => hkept _ (by simpa using hmem)⟩
    · rw [hr] at hp
      cases hp
      rw [changed_of_ne (by simp [hstate])]
      have hhalf : Sound config now (host.log ++ [.entered .halfOpen now])
          { host.breaker with state := .halfOpen, halfOpenSuccesses := 0 } :=
        hlater.halfOpens hstate hat hpassed rfl rfl
      exact ⟨hhalf.admission (by simp) request, fun r state hmem => hkept _ (by simpa using hmem)⟩
    · rw [hr] at hp
      cases hp
      rw [changed_of_eq rfl, append_nil]
      exact ⟨hlater, fun r state hmem => hkept _ hmem⟩
    · -- an open circuit knows when it was opened
      obtain ⟨openedAt, -, hat, -⟩ := (Stands.of_opened hstate).mp h.sound.stands
      rw [hnone] at hat
      cases hat
  · cases hp

theorem Soundly.record (h : Soundly config host) {request : Nat} {now : Instant}
    (htimely : Timely host (.record request now))
    (hp : host.perform config (.record request now) = some host') : Soundly config host' := by
  simp only [BreakerHost.perform] at hp
  split at hp
  · rename_i outcome hstage
    split_ifs at hp with hnow
    have hlater := h.sound.later (Nat.le_of_not_lt hnow)
    have hlt : request < host.requests.length := (List.getElem?_eq_some_iff.mp hstage).1
    have hkept (stage' : Stage R) {r : Nat} {state : CircuitState}
        (hmem : .succeeded r state ∈ host.log) := h.reported_set hstage (by simp) stage' hmem
    split at hp
    · rename_i response
      cases hp
      refine ⟨?_, fun r state hmem => ?_⟩
      · exact hlater.recordSuccess (fun hne => htimely response hstage hne)
          (h.not_succeeded hstage (by simp))
      · rw [mem_append, mem_append, mem_singleton] at hmem
        rcases hmem with (hmem | heq) | hmem
        · exact hkept _ hmem
        · cases heq
          exact ⟨.ok response, List.getElem?_set_self hlt⟩
        · exact absurd hmem (not_succeeded_of_mem_changed state)
    · rename_i e
      cases hp
      refine ⟨hlater.recordFailure e, fun r state hmem => ?_⟩
      rcases mem_append.mp hmem with hmem | hmem
      · exact hkept _ hmem
      · exact absurd hmem (not_succeeded_of_mem_changed state)
  · cases hp

theorem soundly_of_perform (h : Soundly config host) (htimely : Timely host action)
    (hp : host.perform config action = some host') : Soundly config host' := by
  cases action with
  | request =>
    cases hp
    refine ⟨h.sound, fun r state hmem => ?_⟩
    obtain ⟨outcome, hfinished⟩ := h.reported r state hmem
    have hlt : r < host.requests.length := (List.getElem?_eq_some_iff.mp hfinished).1
    exact ⟨outcome, by rw [List.getElem?_append_left hlt, hfinished]⟩
  | checkAllowed request now => exact h.checkAllowed hp
  | answer request outcome =>
    simp only [BreakerHost.perform] at hp
    split at hp
    · rename_i hstage
      cases hp
      exact ⟨h.sound, fun r state hmem => h.reported_set hstage (by simp) _ hmem⟩
    · cases hp
  | record request now => exact h.record htimely hp

theorem soundly_new (config : CircuitBreakerConfig) : Soundly config (.new : BreakerHost R) where
  sound :=
    { stands := by simp [Stands, BreakerHost.new, BreakerState.new, latestOpening]
      guarded := ⟨by simp [BreakerHost.new], by simp [BreakerHost.new], by simp [BreakerHost.new]⟩ }
  reported := by simp [BreakerHost.new]

/-- **The breaker guards its provider** if no success comes in from before the latest opening while
the circuit is not closed. -/
theorem guarded_of_timely {actions : List (BreakerAction R)}
    (htimely : Along (BreakerHost.perform config) Timely .new actions)
    (hr : run (BreakerHost.perform config) .new actions = some host) : Guarded config host.log :=
  (Foundation.run_invariant (fun _ _ _ h hc hp => soundly_of_perform h hc hp) (soundly_new config)
    htimely hr).sound.guarded

end Runs

def strictConfig : CircuitBreakerConfig := ⟨1, 30, 1, "model", toString⟩

def unreachable : LlmError := .io "connection refused"

def probedActions : List (BreakerAction Unit) :=
  [.request, .checkAllowed 0 0, .answer 0 (.error unreachable), .record 0 1,
    .request, .checkAllowed 1 5, .request, .checkAllowed 2 31, .answer 2 (.ok ()), .record 2 32]

theorem guarded_of_probe :
    ∃ host, run (BreakerHost.perform strictConfig) .new probedActions = some host ∧
      Guarded strictConfig host.log := by
  obtain ⟨host, hrun⟩ : ∃ host, run (BreakerHost.perform strictConfig) .new probedActions =
      some host := ⟨_, rfl⟩
  refine ⟨host, hrun, guarded_of_timely ?_ hrun⟩
  iterate 3 refine .of_step rfl trivial ?_
  refine .of_step rfl nofun ?_
  iterate 5 refine .of_step rfl trivial ?_
  refine .of_step rfl (fun _ _ _ => ?_) trivial
  exact ⟨_, 31, .halfOpen, [], rfl, by simp⟩

/-- One of two requests opens the circuit, the other closes it again, and a third is admitted early.
-/
def lateActions : List (BreakerAction Unit) :=
  [.request, .request, .checkAllowed 0 0, .checkAllowed 1 0,
    .answer 0 (.error unreachable), .record 0 1, .answer 1 (.ok ()), .record 1 2,
    .request, .checkAllowed 2 3]

/-- A success counts while open, the circuit closes unprobed, and a request is admitted early. -/
theorem late_success_closes :
    ∃ host, run (BreakerHost.perform strictConfig) .new lateActions = some host ∧
      (∃ request, .succeeded request .opened ∈ host.log) ∧
      (∃ before now after, host.log = before ++ .entered .closed now :: after ∧
        ¬ Recovered strictConfig before) ∧
      ∃ before request now state after, host.log = before ++ .admitted request now state :: after ∧
        ∃ openedAt, latestOpening before = some openedAt ∧
          now < openedAt + strictConfig.recoveryTimeout := by
  refine ⟨_, rfl, ⟨1, by decide⟩, ⟨[.admitted 0 0 .closed, .admitted 1 0 .closed,
    .entered .opened 1, .succeeded 1 .opened], 2, _, rfl, ?_⟩, ⟨[.admitted 0 0 .closed,
      .admitted 1 0 .closed, .entered .opened 1, .succeeded 1 .opened, .entered .closed 2], 2, 3,
      .closed, [], rfl, 1, rfl, by decide⟩⟩
  -- the circuit was never half-open
  rintro ⟨earlier, now, phase, hlog, -⟩
  have hmem : BreakerEvent.entered .halfOpen now ∈ earlier ++ .entered .halfOpen now :: phase :=
    List.mem_append_right _ List.mem_cons_self
  rw [← hlog] at hmem
  simp at hmem

end IronClaw.Llm
