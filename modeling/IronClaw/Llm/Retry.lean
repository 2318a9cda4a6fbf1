import IronClaw.Llm.FailoverRuns

/-!
# Retries of a request

A request is made again after errors that may pass, up to a number of times. Before that comes a
delay: what the provider asks for, or one that doubles with each attempt, up to a quarter.
-/

namespace IronClaw.Llm

variable {R : Type}

/-- The delay in nanoseconds. `offset` is drawn at random, up to half of the base. -/
def retryBackoffDelay (attempt offset : Nat) : Nat :=
  let baseMs : Nat := min (1000 * min (2 ^ attempt) (2 ^ 64 - 1)) (2 ^ 64 - 1)
  -- the base is taken for a signed number, and the sum may wrap around
  let delayMs : Int := (baseMs + (offset - baseMs / 4) : Int).bmod (2 ^ 64)
  (max delayMs 100).toNat * 1000000

/-- The delay that a provider asks for. -/
def LlmError.retryAfter? : LlmError → Option Nat
  | .rateLimited _ retryAfter | .badGateway _ _ retryAfter => retryAfter
  | _ => none

def retryDelay (e : LlmError) (attempt offset : Nat) : Nat :=
  e.retryAfter?.getD (retryBackoffDelay attempt offset)

/-- The attempts from one on, of which so many may follow, with the delays between them. -/
def retryFrom (op : Nat → Except LlmError R) (offset : Nat → Nat) :
    Nat → Nat → Except LlmError R × List Nat
  | 0, attempt => (op attempt, [])
  | left + 1, attempt =>
    match op attempt with
    | .ok response => (.ok response, [])
    | .error e =>
      if isRetryable e then
        let rest := retryFrom op offset left (attempt + 1)
        (rest.1, retryDelay e attempt (offset attempt) :: rest.2)
      else (.error e, [])

def retryLoop (maxRetries : Nat) (op : Nat → Except LlmError R) (offset : Nat → Nat) :
    Except LlmError R × List Nat :=
  retryFrom op offset maxRetries 0

/-- Up to 2^52 seconds, **a delay is off by a quarter** of its base at most. -/
theorem retryBackoffDelay_mem {attempt offset : Nat} (hattempt : attempt ≤ 52)
    (hoffset : offset ≤ 500 * 2 ^ attempt) :
    750 * 2 ^ attempt * 1000000 ≤ retryBackoffDelay attempt offset ∧
      retryBackoffDelay attempt offset ≤ 1250 * 2 ^ attempt * 1000000 := by
  have hpos : 0 < 2 ^ attempt := Nat.two_pow_pos attempt
  have hle : 2 ^ attempt ≤ 2 ^ 52 := Nat.pow_le_pow_right (by decide) hattempt
  unfold retryBackoffDelay
  generalize 2 ^ attempt = power at *
  -- nothing saturates or wraps around
  have hbase : min (1000 * min power (2 ^ 64 - 1)) (2 ^ 64 - 1) = 1000 * power := by omega
  rw [hbase]
  dsimp only
  rw [Int.bmod_eq_of_le (by omega) (by omega)]
  omega

/-- The last of some attempts, and what was waited for before each but the first. -/
structure Retried (op : Nat → Except LlmError R) (offset : Nat → Nat) (first left : Nat)
    (r : Except LlmError R × List Nat) : Prop where
  result : r.1 = op (first + r.2.length)
  bounded : r.2.length ≤ left
  final : r.2.length = left ∨ isFinal r.1 = true
  delays : ∀ k delay, r.2[k]? = some delay → ∃ e, op (first + k) = .error e ∧
    isRetryable e = true ∧ delay = retryDelay e (first + k) (offset (first + k))

theorem retried_retryFrom (op : Nat → Except LlmError R) (offset : Nat → Nat) (left first : Nat) :
    Retried op offset first left (retryFrom op offset left first) := by
  induction left generalizing first with
  | zero => exact ⟨rfl, le_rfl, .inl rfl, nofun⟩
  | succ left ih =>
    rw [retryFrom]
    cases hop : op first with
    | ok response => exact ⟨hop.symm, Nat.zero_le _, .inr rfl, nofun⟩
    | error e =>
      dsimp only
      split_ifs with hretry
      · obtain ⟨hresult, hbounded, hfinal, hdelays⟩ := ih (first + 1)
        refine ⟨?_, Nat.succ_le_succ hbounded, hfinal.imp_left (congrArg _), ?_⟩
        · rw [hresult, List.length_cons, Nat.add_right_comm, Nat.add_assoc]
        · rintro (_ | k) delay hk
          · cases hk
            exact ⟨e, hop, hretry, rfl⟩
          · rw [← Nat.add_assoc, Nat.add_right_comm]
            exact hdelays k delay hk
      · exact ⟨hop.symm, Nat.zero_le _, .inr (by simp [isFinal, hretry]), nofun⟩

/-- **The retry loop** stops at the first final outcome or the last attempt. Before another one it
waits as asked to, or about as long as its number says. -/
theorem retryLoop_exact (maxRetries : Nat) (op : Nat → Except LlmError R) (offset : Nat → Nat)
    (hoffset : ∀ k, offset k ≤ 500 * 2 ^ k) :
    Retried op offset 0 maxRetries (retryLoop maxRetries op offset) ∧
      ∀ k delay, (retryLoop maxRetries op offset).2[k]? = some delay → k ≤ 52 →
        (∃ e, op k = .error e ∧ e.retryAfter? = some delay) ∨
          750 * 2 ^ k * 1000000 ≤ delay ∧ delay ≤ 1250 * 2 ^ k * 1000000 := by
  have hretried := retried_retryFrom op offset maxRetries 0
  refine ⟨hretried, fun k delay hk hle => ?_⟩
  obtain ⟨e, hop, -, hdelay⟩ := hretried.delays k delay hk
  rw [Nat.zero_add] at hop hdelay
  rw [hdelay, retryDelay]
  cases hafter : e.retryAfter? with
  | none => exact .inr (retryBackoffDelay_mem hle (hoffset k))
  | some duration => exact .inl ⟨e, hop, hafter⟩

theorem retryLoop_exact_io :
    Retried (fun _ => .error (.io "reset")) (fun _ => 0) 0 3
      (retryLoop (R := Unit) 3 (fun _ => .error (.io "reset")) fun _ => 0) :=
  (retryLoop_exact 3 _ _ fun _ => Nat.zero_le _).1

end IronClaw.Llm
