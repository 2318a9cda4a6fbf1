import IronClaw.Hooks.ToolCalls
import IronClaw.Tools.Permissions
import IronClaw.Tools.Tool

/-!
# Registered tools

Tools are registered under their names, and found under other spellings too. A rate limiter counts
the uses of each by each user in a minute and in an hour.
-/

namespace IronClaw.Tools

open Foundation (Text Json HashMap)

structure RateLimitConfig where
  requestsPerMinute : Nat
  requestsPerHour : Nat
deriving DecidableEq

/-- Readings of a clock that never goes back, in nanoseconds. -/
abbrev MonotonicTime := Nat

structure WindowState where
  windowStart : MonotonicTime
  count : Nat
deriving DecidableEq

def minuteLength : Nat := 60 * 10 ^ 9

def hourLength : Nat := 3600 * 10 ^ 9

def WindowState.maybeReset (now : MonotonicTime) (length : Nat) (w : WindowState) : WindowState :=
  if length ≤ now - w.windowStart then ⟨now, 0⟩ else w

def WindowState.timeUntilReset (now : MonotonicTime) (length : Nat) (w : WindowState) : Nat :=
  length - (now - w.windowStart)

structure ToolRateLimitState where
  minuteWindow : WindowState
  hourWindow : WindowState
deriving DecidableEq

abbrev RateLimiter := HashMap (Text × Text) ToolRateLimitState

namespace RateLimiter

variable (limiter : RateLimiter) (now : MonotonicTime) (userId toolName : Text)

/-- The windows that are not over. -/
def current : ToolRateLimitState :=
  match limiter.lookup (userId, toolName) with
  | some state => ⟨state.minuteWindow.maybeReset now minuteLength,
      state.hourWindow.maybeReset now hourLength⟩
  | none => ⟨⟨now, 0⟩, ⟨now, 0⟩⟩

/-- Record a use, unless a limit is reached: then give the time after which to try again. -/
def checkAndRecord (config : RateLimitConfig) : Option Nat × RateLimiter :=
  let state := current limiter now userId toolName
  if config.requestsPerMinute ≤ state.minuteWindow.count then
    (some (state.minuteWindow.timeUntilReset now minuteLength),
      limiter.insert (userId, toolName) state)
  else if config.requestsPerHour ≤ state.hourWindow.count then
    (some (state.hourWindow.timeUntilReset now hourLength),
      limiter.insert (userId, toolName) state)
  else
    (none, limiter.insert (userId, toolName)
      ⟨{ state.minuteWindow with count := state.minuteWindow.count + 1 },
        { state.hourWindow with count := state.hourWindow.count + 1 }⟩)

end RateLimiter

structure RegisteredTool where
  spec : Hooks.ToolSpec
  requiresApproval : Json → ApprovalRequirement
  rateLimitConfig : Option RateLimitConfig
  providerExtension : Option Text

abbrev ToolRegistry := HashMap Text RegisteredTool

namespace ToolRegistry

variable (tools : ToolRegistry) (name : Text)

def resolveName : Option Text :=
  if (tools.lookup name).isSome then some name
  else if (tools.lookup (Engine.underscored name)).isSome then some (Engine.underscored name)
  else if (tools.lookup (Engine.hyphenated name)).isSome then some (Engine.hyphenated name)
  else none

def get : Option RegisteredTool := (resolveName tools name).bind tools.lookup

variable {tools name}

theorem resolveName_registered {key : Text} (h : resolveName tools name = some key) :
    (tools.lookup key).isSome = true := by
  unfold resolveName at h
  split_ifs at h with h₁ h₂ h₃
  · cases h
    exact h₁
  · cases h
    exact h₂
  · cases h
    exact h₃

theorem resolveName_insert {key : Text} (h : (tools.lookup key).isSome = true)
    (tool : RegisteredTool) : resolveName (tools.insert key tool) name =
      resolveName tools name := by
  have hsome : ∀ name', ((tools.insert key tool).lookup name').isSome =
    (tools.lookup name').isSome := by
    intro name'
    rw [HashMap.lookup_insert]
    split_ifs with hkey
    · rw [hkey, h]
      rfl
    · rfl
  simp only [resolveName, hsome]

theorem resolveName_self {tool : RegisteredTool} (h : tools.lookup name = some tool) :
    resolveName tools name = some name := by
  simp [resolveName, h]

theorem get_self {tool : RegisteredTool} (h : tools.lookup name = some tool) :
    get tools name = some tool := by
  rw [get, resolveName_self h, Option.bind_some, h]

theorem get_eq_none_iff : get tools name = none ↔ resolveName tools name = none := by
  rw [get]
  cases h : resolveName tools name with
  | none => simp
  | some key => simpa [Option.isSome_iff_ne_none] using resolveName_registered h

end ToolRegistry

end IronClaw.Tools
