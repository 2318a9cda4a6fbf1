import Mathlib.Data.List.FinRange
import Mathlib.Data.List.MinMax
import IronClaw.Foundation.HashMap
import IronClaw.Foundation.Interleaving
import IronClaw.Llm.CircuitBreaker
import Mathlib.Algebra.GroupWithZero.Nat

/-!
# Failover between providers

A request is passed to one provider after the other until one answers; those that fail too often are
left out for a while. The index of the one that answered last is kept for all tasks together, and
for each task until its first question.
-/

namespace IronClaw.Llm

open Foundation (HashMap Pool run Along Throughout)

/-- Another provider is tried. -/
def isRetryable : LlmError → Bool
  | .requestFailed .. | .rateLimited .. | .badGateway .. | .invalidResponse .. | .emptyResponse ..
  | .sessionRenewalFailed .. | .http _ | .io _ => true
  | .contextLengthExceeded .. | .modelNotAvailable .. | .authFailed .. | .sessionExpired ..
  | .json _ => false

structure CooldownConfig where
  cooldownDuration : Instant
  failureThreshold : Nat

structure ProviderCooldown where
  failureCount : Nat
  cooldownActivatedNanos : Instant

namespace ProviderCooldown

def new : ProviderCooldown := ⟨0, 0⟩

def isInCooldown (c : ProviderCooldown) (nowNanos cooldownNanos : Instant) : Bool :=
  c.cooldownActivatedNanos ≠ 0 && nowNanos - c.cooldownActivatedNanos < cooldownNanos

def recordFailure (c : ProviderCooldown) (threshold : Nat) : ProviderCooldown × Bool :=
  let count := (c.failureCount + 1) % 2 ^ 32
  ({ c with failureCount := count }, threshold ≤ count)

def activateCooldown (c : ProviderCooldown) (nowNanos : Instant) : ProviderCooldown :=
  { c with cooldownActivatedNanos := max nowNanos 1 }

end ProviderCooldown

variable {n : Nat}

/-- The providers to try, in order, or the one in cooldown for the longest time. -/
def available (config : CooldownConfig) (cooldowns : Fin (n + 1) → ProviderCooldown)
    (now : Instant) : List (Fin (n + 1)) :=
  let free := (List.finRange (n + 1)).filter fun i =>
    !(cooldowns i).isInCooldown now (config.cooldownDuration % 2 ^ 64)
  if free.isEmpty then
    ((List.finRange (n + 1)).argmin fun i => (cooldowns i).cooldownActivatedNanos).toList
  else free

inductive Question where
  | effectiveModelName (requestedModel : Option String)
  | costPerToken
  | calculateCost (inputTokens outputTokens : UInt32)

def Question.isName : Question → Bool
  | effectiveModelName _ => true
  | _ => false

inductive Answer (D : Type) where
  | name (model : String)
  | rates (input output : D)
  | cost (amount : D)

/-- What a provider says about itself. Amounts are decimals of a library. -/
structure Provider (D : Type) where
  effectiveModelName : Option String → String
  costPerToken : D × D
  calculateCost : UInt32 → UInt32 → D

def Provider.answer {D : Type} (p : Provider D) : Question → Answer D
  | .effectiveModelName requestedModel => .name (p.effectiveModelName requestedModel)
  | .costPerToken => .rates p.costPerToken.1 p.costPerToken.2
  | .calculateCost inputTokens outputTokens => .cost (p.calculateCost inputTokens outputTokens)

structure Asked (n : Nat) where
  question : Question
  asked : Fin (n + 1)
  served : Fin (n + 1)

abbrev TaskId := Nat

/-- The state that all tasks share, with the log of the questions. -/
structure FailoverProvider (n : Nat) where
  lastUsed : Fin (n + 1)
  cooldowns : Fin (n + 1) → ProviderCooldown
  providerForTask : HashMap TaskId (Fin (n + 1))
  log : List (Asked n)

def FailoverProvider.new : FailoverProvider n := ⟨0, fun _ => .new, ∅, []⟩

/-- How far the request of a task has come. Without an answered request a task is idle. -/
inductive RequestStage (n : Nat) where
  | idle
  | calling (i : Fin (n + 1)) (rest : List (Fin (n + 1)))
  /-- The provider has failed too often, and its cooldown is not activated yet. -/
  | failing (i : Fin (n + 1)) (rest : List (Fin (n + 1)))
  | answered (i : Fin (n + 1))
  | stored (i : Fin (n + 1))
  | settled (i : Fin (n + 1))
  | served (i : Fin (n + 1))

structure Task (n : Nat) where
  id : Option TaskId
  stage : RequestStage n

inductive TaskEvent where
  | request (now : Instant)
  | outcome (result : Except LlmError Unit)
  | activate (now : Instant)
  | store
  | reset
  | bind
  /-- The request is dropped while a provider is called. -/
  | abandon
  | ask (question : Question)
  | exit

namespace FailoverProvider

variable (s : FailoverProvider n) (t : Task n)

def setCooldown (i : Fin (n + 1)) (c : ProviderCooldown) : FailoverProvider n :=
  { s with cooldowns := Function.update s.cooldowns i c }

def tryNext : List (Fin (n + 1)) → RequestStage n
  | [] => .idle
  | i :: rest => .calling i rest

def bound : Option (Fin (n + 1)) := t.id.bind s.providerForTask.lookup

def bindProvider (i : Fin (n + 1)) : FailoverProvider n :=
  match t.id with
  | some id => { s with providerForTask := s.providerForTask.insert id i }
  | none => s

def takeBound : FailoverProvider n :=
  match t.id with
  | some id => { s with providerForTask := s.providerForTask.erase id }
  | none => s

def askedProvider : Question → Fin (n + 1)
  | .effectiveModelName _ => (s.bound t).getD s.lastUsed
  | _ => s.lastUsed

/-- A question changes only the task's index, and is logged after an answered request. -/
def ask (question : Question) : FailoverProvider n :=
  let asked := s.askedProvider t question
  let s := if question.isName then s.takeBound t else s
  match t.stage with
  | .served i => { s with log := s.log ++ [⟨question, asked, i⟩] }
  | _ => s

end FailoverProvider

open FailoverProvider (tryNext)

def taskStep (config : CooldownConfig) (e : TaskEvent) (s : FailoverProvider n) (t : Task n) :
    Option (FailoverProvider n × List (Task n)) :=
  match e, t.stage with
  | .request now, .idle =>
    some (s, [{ t with stage := tryNext (available config s.cooldowns now) }])
  | .request now, .served _ =>
    some (s, [{ t with stage := tryNext (available config s.cooldowns now) }])
  | .outcome (.ok _), .calling i _ => some (s, [{ t with stage := .answered i }])
  | .outcome (.error e), .calling i rest =>
    if isRetryable e then
      let r := (s.cooldowns i).recordFailure config.failureThreshold
      some (s.setCooldown i r.1,
        [{ t with stage := if r.2 then .failing i rest else tryNext rest }])
    else some (s, [{ t with stage := .idle }])
  | .activate now, .failing i rest =>
    some (s.setCooldown i ((s.cooldowns i).activateCooldown now),
      [{ t with stage := tryNext rest }])
  | .store, .answered i => some ({ s with lastUsed := i }, [{ t with stage := .stored i }])
  | .reset, .stored i => some (s.setCooldown i .new, [{ t with stage := .settled i }])
  | .bind, .settled i => some (s.bindProvider t i, [{ t with stage := .served i }])
  | .abandon, .calling _ _ => some (s, [{ t with stage := .idle }])
  | .ask question, .idle => some (s.ask t question, [t])
  | .ask question, .served _ => some (s.ask t question, [t])
  | .exit, .idle => some (s, [])
  | .exit, .served _ => some (s, [])
  | _, _ => none

inductive FailoverEvent where
  | spawn (id : Option TaskId)
  | task (i : Nat) (e : TaskEvent)

def startPool (n : Nat) : Pool (FailoverProvider n) (Task n) := ⟨.new, []⟩

/-- The id of a new task is not that of another task that is running. -/
def failoverStep (config : CooldownConfig) (p : Pool (FailoverProvider n) (Task n)) :
    FailoverEvent → Option (Pool (FailoverProvider n) (Task n))
  | .spawn id =>
    if p.tasks.all fun t => t.id.isNone || t.id ≠ id then some (p.start ⟨id, .idle⟩) else none
  | .task i e => p.advance (taskStep config) i e

/-- Every answer is that of the provider that served the request. -/
def Attributed {D : Type} (providers : Fin (n + 1) → Provider D)
    (p : Pool (FailoverProvider n) (Task n)) : Prop :=
  ∀ r ∈ p.shared.log, (providers r.asked).answer r.question = (providers r.served).answer r.question

/-- A task asks with its index there, or when no other provider has answered since its request. -/
def InTime (p : Pool (FailoverProvider n) (Task n)) : FailoverEvent → Prop
  | .task i (.ask question) => ∀ t, p.tasks[i]? = some t → ∀ j, t.stage = .served j →
      question.isName = true ∧ (p.shared.bound t).isSome ∨ p.shared.lastUsed = j
  | _ => True

def PassedRight (p : Pool (FailoverProvider n) (Task n)) : Prop :=
  ∀ r ∈ p.shared.log, r.asked = r.served

def BoundRight (s : FailoverProvider n) (t : Task n) : Prop :=
  ∀ j, t.stage = .served j → ∀ i, s.bound t = some i → i = j

def Apart (t u : Task n) : Prop := ∀ id, t.id = some id → u.id ≠ some id

def BoundPool (p : Pool (FailoverProvider n) (Task n)) : Prop :=
  p.Holds (fun _ => True) BoundRight Apart

section Steps

variable {config : CooldownConfig} {e : TaskEvent} {s s' : FailoverProvider n} {t t' u : Task n}
  {ts : List (Task n)}

theorem Apart.symm (h : Apart t u) : Apart u t := fun id hu ht => h id ht hu

variable (i : Fin (n + 1))

theorem lookup_bindProvider (id : TaskId) : (s.bindProvider t i).providerForTask.lookup id =
      if t.id = some id then some i else s.providerForTask.lookup id := by
  unfold FailoverProvider.bindProvider
  cases t.id with
  | none => simp
  | some id' => simp [HashMap.lookup_insert, eq_comm]

theorem lookup_takeBound (id : TaskId) : (s.takeBound t).providerForTask.lookup id =
      if t.id = some id then none else s.providerForTask.lookup id := by
  unfold FailoverProvider.takeBound
  cases t.id with
  | none => simp
  | some id' => simp [HashMap.lookup_erase, eq_comm]

theorem bound_bindProvider_self {i : Fin (n + 1)} (hid : t'.id = t.id) {j : Fin (n + 1)}
    (h : (s.bindProvider t i).bound t' = some j) : j = i := by
  rw [FailoverProvider.bound, hid, Option.bind_eq_some_iff] at h
  obtain ⟨id, hid, hlookup⟩ := h
  rw [lookup_bindProvider, if_pos hid] at hlookup
  exact (Option.some.inj hlookup).symm

def logged (e : TaskEvent) (s : FailoverProvider n) (t : Task n) : List (Asked n) :=
  match e, t.stage with
  | .ask question, .served i => [⟨question, s.askedProvider t question, i⟩]
  | _, _ => []

/-- A step of a task leaves or ends it, changes no other index, and keeps its own right. -/
structure Steps (e : TaskEvent) (s : FailoverProvider n) (t : Task n) (s' : FailoverProvider n)
    (ts : List (Task n)) : Prop where
  ids : ∀ t' ∈ ts, t'.id = t.id
  single : ts.Pairwise Apart
  frame : ∀ id, t.id ≠ some id →
    s'.providerForTask.lookup id = s.providerForTask.lookup id
  own : BoundRight s t → ∀ t' ∈ ts, BoundRight s' t'
  log : s'.log = s.log ++ logged e s t

theorem Steps.of_unserved (hmap : s'.providerForTask = s.providerForTask) (hid : t'.id = t.id)
    (hserved : ∀ j, t'.stage ≠ .served j) (hlog : s'.log = s.log) (hask : logged e s t = []) :
    Steps e s t s' [t'] where
  ids := by simp [hid]
  single := List.pairwise_singleton _ _
  frame := fun id _ => by rw [hmap]
  own := fun _ u hu j hj => by
    rw [List.mem_singleton.mp hu] at hj
    exact absurd hj (hserved j)
  log := by simp [hlog, hask]

theorem tryNext_ne_served (l : List (Fin (n + 1))) (j : Fin (n + 1)) : tryNext l ≠ .served j := by
  cases l <;> exact nofun

theorem log_takeBound : (s.takeBound t).log = s.log := by
  unfold FailoverProvider.takeBound
  split <;> rfl

theorem log_bindProvider : (s.bindProvider t i).log = s.log := by
  unfold FailoverProvider.bindProvider
  split <;> rfl

variable (question : Question)

theorem lookup_ask (id : TaskId) : (s.ask t question).providerForTask.lookup id =
      if question.isName = true ∧ t.id = some id then none else s.providerForTask.lookup id := by
  unfold FailoverProvider.ask
  dsimp only
  have hmap : (if question.isName = true then s.takeBound t else s).providerForTask.lookup id =
      if question.isName = true ∧ t.id = some id then none
      else s.providerForTask.lookup id := by
    by_cases hname : question.isName = true
    · simp [hname, lookup_takeBound]
    · simp [hname]
  split <;> exact hmap

theorem log_ask : (s.ask t question).log = s.log ++ logged (.ask question) s t := by
  unfold FailoverProvider.ask logged
  dsimp only
  have hlog : (if question.isName = true then s.takeBound t else s).log = s.log := by
    split_ifs
    · exact log_takeBound
    · rfl
  cases t.stage <;> simp [hlog]

theorem steps_ask : Steps (.ask question) s t (s.ask t question) [t] where
  ids := by simp
  single := List.pairwise_singleton _ _
  frame := fun id hid => by rw [lookup_ask, if_neg (fun h => hid h.2)]
  own := by
    intro h u hu j hj i hi
    rw [List.mem_singleton.mp hu] at hj hi
    -- an index that is still there after the question was there before it
    refine h j hj i ?_
    rw [FailoverProvider.bound, Option.bind_eq_some_iff] at hi ⊢
    obtain ⟨id, hid, hlookup⟩ := hi
    rw [lookup_ask] at hlookup
    split_ifs at hlookup
    exact ⟨id, hid, hlookup⟩
  log := log_ask question

theorem steps_bind (hask : logged .bind s t = []) :
    Steps .bind s t (s.bindProvider t i) [{ t with stage := .served i }] where
  ids := by simp
  single := List.pairwise_singleton _ _
  frame := fun id hid => by rw [lookup_bindProvider, if_neg hid]
  own := by
    intro _ u hu j hj k hk
    rw [List.mem_singleton.mp hu] at hj hk
    cases hj
    exact bound_bindProvider_self rfl hk
  log := by rw [log_bindProvider, hask, List.append_nil]

theorem steps_exit (hask : logged .exit s t = []) : Steps .exit s t s [] where
  ids := nofun
  single := List.Pairwise.nil
  frame := fun _ _ => rfl
  own := fun _ => nofun
  log := by simp [hask]

theorem steps_of_taskStep (h : taskStep config e s t = some (s', ts)) : Steps e s t s' ts := by
  -- only the step that binds leaves a task served, and only a question changes the log
  unfold taskStep at h
  split at h
  · -- a request of an idle task
    cases h
    exact .of_unserved rfl rfl (tryNext_ne_served _) rfl rfl
  · -- a request after one that was served
    cases h
    exact .of_unserved rfl rfl (tryNext_ne_served _) rfl rfl
  · -- an answer
    cases h
    exact .of_unserved rfl rfl nofun rfl rfl
  · -- a failure, with which the task tries the next provider or ends
    dsimp only at h
    split at h
    · cases h
      refine .of_unserved rfl rfl (fun j => ?_) rfl rfl
      dsimp only
      split
      · exact nofun
      · exact tryNext_ne_served _ j
    · cases h
      exact .of_unserved rfl rfl nofun rfl rfl
  · -- a provider begins to cool down
    cases h
    exact .of_unserved rfl rfl (tryNext_ne_served _) rfl rfl
  · -- the provider that answered becomes the last one used ...
    cases h
    exact .of_unserved rfl rfl nofun rfl rfl
  · -- ... its failures are forgotten ...
    cases h
    exact .of_unserved rfl rfl nofun rfl rfl
  · -- ... and it is bound to the task
    cases h
    exact steps_bind _ rfl
  · -- a request that is given up
    cases h
    exact .of_unserved rfl rfl nofun rfl rfl
  · -- questions, before and after a request was served
    cases h
    exact steps_ask _
  · cases h
    exact steps_ask _
  · -- the end of the task
    cases h
    exact steps_exit rfl
  · cases h
    exact steps_exit rfl
  · cases h

theorem Steps.frame_boundRight (h : Steps e s t s' ts) (hapart : Apart t u)
    (hu : BoundRight s u) : BoundRight s' u := by
  intro j hj i hi
  -- the index of `u` is under an id that is not that of `t`
  refine hu j hj i ?_
  rw [FailoverProvider.bound, Option.bind_eq_some_iff] at hi ⊢
  obtain ⟨id, hid, hlookup⟩ := hi
  rw [h.frame id fun ht => hapart id ht hid] at hlookup
  exact ⟨id, hid, hlookup⟩

end Steps

section Runs

variable {config : CooldownConfig} {p p' : Pool (FailoverProvider n) (Task n)} {e : FailoverEvent}

theorem bound_failoverStep (hp : BoundPool p) (h : failoverStep config p e = some p') :
    BoundPool p' := by
  cases e with
  | spawn id =>
    rw [failoverStep, Option.ite_none_right_eq_some] at h
    obtain ⟨hfresh, h⟩ := h
    cases h
    rw [List.all_eq_true] at hfresh
    -- a new task has no request, and an id that no other task has
    refine Pool.Holds.start hp (fun j hj => (by cases hj)) fun u hu id' hu' hid => ?_
    dsimp only at hid
    have hid' := hfresh u hu
    rw [hid, hu'] at hid'
    simp at hid'
  | task i e =>
    obtain ⟨front, t, back, s', ts, htasks, -, hnext, rfl⟩ := Pool.advance_eq_some_iff.mp h
    have hsteps := steps_of_taskStep hnext
    refine Pool.Holds.replace hp (fun _ _ => Apart.symm) htasks trivial ?_ ?_ ?_ hsteps.single
    · exact hsteps.own (hp.tasks t (by simp [htasks]))
    · exact fun u _ hu hapart => hsteps.frame_boundRight hapart hu
    · intro u _ hapart t' ht' id hid
      rw [hsteps.ids t' ht'] at hid
      exact hapart id hid

theorem askedProvider_eq_iff {s : FailoverProvider n} {t : Task n} {j : Fin (n + 1)}
    (hbound : BoundRight s t) (hj : t.stage = .served j) (question : Question) :
    s.askedProvider t question = j ↔
      question.isName = true ∧ (s.bound t).isSome ∨ s.lastUsed = j := by
  cases question with
  | effectiveModelName requestedModel =>
    -- the one question that looks at the index of the task
    rw [FailoverProvider.askedProvider]
    cases hi : s.bound t with
    | none => simp
    | some i => simpa [Question.isName] using hbound j hj i hi
  | costPerToken => simp [FailoverProvider.askedProvider, Question.isName]
  | calculateCost inputTokens outputTokens =>
    simp [FailoverProvider.askedProvider, Question.isName]

theorem passedRight_failoverStep_iff (hp : BoundPool p) (hright : PassedRight p)
    (h : failoverStep config p e = some p') : PassedRight p' ↔ InTime p e := by
  cases e with
  | spawn id =>
    rw [failoverStep, Option.ite_none_right_eq_some] at h
    obtain ⟨-, h⟩ := h
    cases h
    exact iff_of_true hright trivial
  | task i e =>
    obtain ⟨front, t, back, s', ts, htasks, hi, hnext, rfl⟩ := Pool.advance_eq_some_iff.mp h
    have hlog := (steps_of_taskStep hnext).log
    have hget : p.tasks[i]? = some t := by simp [htasks, ← hi]
    have hbound : BoundRight p.shared t := hp.tasks t (by simp [htasks])
    -- what was logged before is right, so that the new entry decides
    have hsplit : PassedRight ⟨s', front ++ ts ++ back⟩ ↔
        ∀ r ∈ logged e p.shared t, r.asked = r.served := by
      change (∀ r ∈ s'.log, r.asked = r.served) ↔ _
      rw [hlog, List.forall_mem_append]
      exact and_iff_right hright
    rw [hsplit]
    cases e with
    | ask question =>
      have hiff : InTime p (.task i (.ask question)) ↔ ∀ j, t.stage = .served j →
          question.isName = true ∧ (p.shared.bound t).isSome ∨ p.shared.lastUsed = j := by
        simp only [InTime, hget, Option.some.injEq, forall_eq']
      rw [hiff]
      cases hstage : t.stage with
      | served j =>
        have hasked := askedProvider_eq_iff hbound hstage question
        simpa [logged, hstage] using hasked
      | _ => exact iff_of_true (by simp [logged, hstage]) nofun
    | _ => exact iff_of_true nofun trivial

theorem passedRight_throughout_iff {events : List FailoverEvent}
    (hr : run (failoverStep config) (startPool n) events = some p) :
    Throughout (failoverStep config) PassedRight (startPool n) events ↔
      Along (failoverStep config) InTime (startPool n) events :=
  Foundation.throughout_iff_along (fun _ _ _ hp h => bound_failoverStep hp h)
    (fun _ _ _ hp hright h => passedRight_failoverStep_iff hp hright h) (Pool.Holds.empty trivial)
    nofun hr

end Runs

def cooldownDefaults : CooldownConfig := ⟨300 * 10 ^ 9, 3⟩

def primaryAndFallback : Fin 2 → Provider Nat
  | 0 => ⟨fun _ => "primary", (1, 1), fun _ _ => 1⟩
  | 1 => ⟨fun _ => "fallback", (5, 5), fun _ _ => 5⟩

def answeredBy (i : Nat) : List FailoverEvent :=
  [.task i (.outcome (.ok ())), .task i .store, .task i .reset, .task i .bind]

/-- The primary provider answers a task, the other another one, and then the first asks for rates.
-/
def overtaken : List FailoverEvent :=
  .spawn (some 1) :: .spawn (some 2) :: .task 0 (.request 1) :: answeredBy 0 ++
    .task 1 (.request 2) :: .task 1 (.outcome (.error (.rateLimited "primary" none))) ::
      answeredBy 1 ++ [.task 0 (.ask .costPerToken)]

end IronClaw.Llm
