import IronClaw.Llm.Completion
import Mathlib.Algebra.GroupWithZero.Nat

/-!
# The key of a cached response

The key is the hash of the model, the messages and the parameters of a request, with bars between
them and none of it escaped.
-/

namespace IronClaw.Llm.ResponseCache

open Foundation (Bytes ReadableBefore SelfDelimiting terminated_eq_iff)
open Foundation.Json (EndsValue)
open Completion (CompletionRequest writeMessages selfDelimiting_writeMessages)

def bar : UInt8 := 124

def toLeBytes (n : UInt32) : Bytes :=
  [UInt8.ofNat n.toNat, UInt8.ofNat (n.toNat / 2 ^ 8), UInt8.ofNat (n.toNat / 2 ^ 16),
    UInt8.ofNat (n.toNat / 2 ^ 24)]

def optionBytes : Option UInt32 → Bytes
  | some n => toLeBytes n
  | none => []

def stopBytes (stops : Option (List Bytes)) : Bytes := (stops.getD []).flatMap fun s => s ++ [0]

structure CacheQuery (V : Type) where
  model : Bytes
  request : CompletionRequest V
deriving DecidableEq

section Key

variable {V κ : Type} (writeValue : V → Bytes) (digest : Bytes → κ)

def paramBytes (r : CompletionRequest V) : Bytes :=
  optionBytes r.maxTokens ++ bar :: (optionBytes r.temperature ++ bar :: stopBytes r.stopSequences)

def restBytes (r : CompletionRequest V) : Bytes :=
  writeMessages writeValue r.messages ++ bar :: paramBytes r

def cacheKey (q : CacheQuery V) : κ := digest (q.model ++ bar :: restBytes writeValue q.request)

end Key

/-- The number begins with a bar, and the one request goes on with the rest of it, a bar, and the
other request. -/
def Swallows (n : UInt32) (rest rest' : Bytes) : Prop :=
  ∃ b₁ b₂ b₃, toLeBytes n = [bar, b₁, b₂, b₃] ∧ rest = b₁ :: b₂ :: b₃ :: bar :: rest'

/-- Only one of two requests has a number, and the other one has its bytes behind it. -/
def SwallowedByOne : Option UInt32 → Option UInt32 → Bytes → Bytes → Prop
  | none, some n, rest, rest' => Swallows n rest rest'
  | some n, none, rest, rest' => Swallows n rest' rest
  | _, _, _, _ => False

def splitStops (stops : Option (List Bytes)) : List Bytes :=
  (stops.getD []).flatMap fun s => s.splitOn 0

section Confusable

variable {V : Type} (writeValue : V → Bytes)

/-- One request alone has a limit or temperature that the other swallows, or stops split the same.
-/
def ParamsConfused (r r' : CompletionRequest V) : Prop :=
  SwallowedByOne r.maxTokens r'.maxTokens
    (optionBytes r.temperature ++ bar :: stopBytes r.stopSequences)
    (optionBytes r'.temperature ++ bar :: stopBytes r'.stopSequences) ∨
  r.maxTokens = r'.maxTokens ∧
    (SwallowedByOne r.temperature r'.temperature (stopBytes r.stopSequences)
      (stopBytes r'.stopSequences) ∨
    r.temperature = r'.temperature ∧ r.stopSequences ≠ r'.stopSequences ∧
      splitStops r.stopSequences = splitStops r'.stopSequences)

/-- The second model is the first with a bar and the beginning of its messages behind it. -/
def HidesIn (q q' : CacheQuery V) : Prop :=
  ∃ hidden, q'.model = q.model ++ bar :: hidden ∧
    restBytes writeValue q.request = hidden ++ bar :: restBytes writeValue q'.request

/-- Two different requests that have the same bytes hashed. -/
def Confusable (q q' : CacheQuery V) : Prop :=
  HidesIn writeValue q q' ∨ HidesIn writeValue q' q ∨
    q.model = q'.model ∧ q.request.messages = q'.request.messages ∧
      ParamsConfused q.request q'.request

end Confusable

theorem toLeBytes_injective : Function.Injective toLeBytes := by
  intro n m heq
  simp only [toLeBytes, List.cons.injEq, and_true] at heq
  obtain ⟨h₀, h₁, h₂, h₃⟩ := heq
  have hn := n.toNat_lt
  have hm := m.toNat_lt
  have hbyte : ∀ {a b : Nat}, UInt8.ofNat a = UInt8.ofNat b → a % 2 ^ 8 = b % 2 ^ 8 := by
    intro a b h
    simpa using congrArg UInt8.toNat h
  have h₀ := hbyte h₀
  have h₁ := hbyte h₁
  have h₂ := hbyte h₂
  have h₃ := hbyte h₃
  exact UInt32.toNat_inj.mp (by omega)

theorem selfDelimiting_toLeBytes : SelfDelimiting toLeBytes := by
  intro n m s t heq
  obtain ⟨hbytes, hst⟩ := List.append_inj heq rfl
  exact ⟨toLeBytes_injective hbytes, hst⟩

theorem bar_cons_eq_iff {n : UInt32} {rest rest' : Bytes} :
    bar :: rest = toLeBytes n ++ bar :: rest' ↔ Swallows n rest rest' := by
  constructor
  · intro heq
    obtain ⟨hbar, hrest⟩ := List.cons.inj heq
    exact ⟨_, _, _, by rw [hbar]; rfl, hrest⟩
  · rintro ⟨b₁, b₂, b₃, hbytes, rfl⟩
    rw [hbytes]
    rfl

theorem optionBytes_eq_iff {o o' : Option UInt32} {rest rest' : Bytes} :
    optionBytes o ++ bar :: rest = optionBytes o' ++ bar :: rest' ↔
      SwallowedByOne o o' rest rest' ∨ o = o' ∧ rest = rest' := by
  cases o with
  | none =>
    cases o' with
    | none => simp [optionBytes, SwallowedByOne]
    | some n => simpa [optionBytes, SwallowedByOne] using bar_cons_eq_iff
  | some n =>
    cases o' with
    | none =>
      rw [eq_comm]
      simpa [optionBytes, SwallowedByOne] using bar_cons_eq_iff
    | some m =>
      simp only [optionBytes, SwallowedByOne, false_or, Option.some.injEq]
      constructor
      · intro heq
        obtain ⟨hnm, hrest⟩ := selfDelimiting_toLeBytes n m _ _ heq
        exact ⟨hnm, (List.cons.inj hrest).2⟩
      · rintro ⟨rfl, rfl⟩
        rfl

section Keys

variable {V κ : Type} {writeValue : V → Bytes} {digest : Bytes → κ}

theorem ne_of_swallowedByOne {o o' : Option UInt32} {rest rest' : Bytes}
    (h : SwallowedByOne o o' rest rest') : o ≠ o' := by
  rintro rfl
  cases o <;> exact h

theorem stopBytes_eq_iff {stops stops' : Option (List Bytes)} :
    stopBytes stops = stopBytes stops' ↔ splitStops stops = splitStops stops' :=
  terminated_eq_iff 0 _ _

/-- **Parameters** of the same bytes are the same, or confused. -/
theorem paramBytes_eq_iff {r r' : CompletionRequest V} :
    paramBytes r = paramBytes r' ↔ ParamsConfused r r' ∨ r.maxTokens = r'.maxTokens ∧
      r.temperature = r'.temperature ∧ r.stopSequences = r'.stopSequences := by
  rw [paramBytes, paramBytes, optionBytes_eq_iff, optionBytes_eq_iff, stopBytes_eq_iff,
    ParamsConfused]
  by_cases hstops : r.stopSequences = r'.stopSequences
  · simp only [hstops, ne_eq, not_true_eq_false, and_false, or_false, and_true]
    tauto
  · simp only [hstops, ne_eq, not_false_eq_true, true_and, and_false, or_false]

theorem ParamsConfused.ne {r r' : CompletionRequest V} (h : ParamsConfused r r') : r ≠ r' := by
  rintro rfl
  rcases h with h | ⟨-, h | ⟨-, hstops, -⟩⟩
  · exact ne_of_swallowedByOne h rfl
  · exact ne_of_swallowedByOne h rfl
  · exact hstops rfl

theorem HidesIn.ne {q q' : CacheQuery V} (h : HidesIn writeValue q q') : q ≠ q' := by
  rintro rfl
  obtain ⟨hidden, hmodel, -⟩ := h
  have hlength := congrArg List.length hmodel
  rw [List.length_append, List.length_cons] at hlength
  omega

theorem HidesIn.bytes_eq {q q' : CacheQuery V} (h : HidesIn writeValue q q') :
    q.model ++ bar :: restBytes writeValue q.request =
      q'.model ++ bar :: restBytes writeValue q'.request := by
  obtain ⟨hidden, hmodel, hrest⟩ := h
  rw [hmodel, hrest, List.append_assoc, List.cons_append]

theorem hidesIn_of_append {q q' : CacheQuery V} {more : Bytes}
    (hmodel : q'.model = q.model ++ more) (hne : q.model ≠ q'.model)
    (hrest : bar :: restBytes writeValue q.request =
      more ++ bar :: restBytes writeValue q'.request) : HidesIn writeValue q q' := by
  cases more with
  | nil =>
    rw [List.append_nil] at hmodel
    exact absurd hmodel.symm hne
  | cons b hidden =>
    obtain ⟨rfl, htail⟩ := List.cons.inj hrest
    exact ⟨hidden, hmodel, htail⟩

/-- **The key tells two requests apart** exactly if they are not confusable. -/
theorem toldApart_iff (hvalue : ReadableBefore EndsValue writeValue)
    (hdigest : Function.Injective digest) (q q' : CacheQuery V) :
    (cacheKey writeValue digest q = cacheKey writeValue digest q' → q = q') ↔
      ¬ Confusable writeValue q q' := by
  rw [cacheKey, cacheKey, hdigest.eq_iff]
  constructor
  · rintro hsame (h | h | ⟨hmodel, hmessages, h⟩)
    · exact h.ne (hsame h.bytes_eq)
    · exact h.ne (hsame h.bytes_eq.symm).symm
    · refine h.ne (congrArg CacheQuery.request (hsame ?_))
      rw [hmodel, restBytes, restBytes, hmessages, paramBytes_eq_iff.mpr (.inl h)]
  · intro hnot heq
    by_cases hmodel : q.model = q'.model
    · rw [hmodel] at heq
      have hrest : restBytes writeValue q.request = restBytes writeValue q'.request :=
        (List.cons.inj (List.append_cancel_left heq)).2
      -- the messages can be read off, and what is behind them are the parameters
      obtain ⟨hmessages, hparams⟩ := selfDelimiting_writeMessages hvalue _ _ _ _ hrest
      rcases paramBytes_eq_iff.mp (List.cons.inj hparams).2 with h | ⟨hmax, htemp, hstops⟩
      · exact absurd (.inr (.inr ⟨hmodel, hmessages, h⟩)) hnot
      · obtain ⟨model, messages, maxTokens, temperature, stops⟩ := q
        obtain ⟨model', messages', maxTokens', temperature', stops'⟩ := q'
        dsimp only at hmodel hmessages hmax htemp hstops
        rw [hmodel, hmessages, hmax, htemp, hstops]
    · refine absurd ?_ hnot
      rcases List.append_eq_append_iff.mp heq with ⟨more, hmore, hrest⟩ | ⟨more, hmore, hrest⟩
      · exact .inl (hidesIn_of_append hmore hmodel hrest)
      · exact .inr (.inl (hidesIn_of_append hmore (Ne.symm hmodel) hrest))

end Keys

end IronClaw.Llm.ResponseCache
