import IronClaw.Foundation.Interleaving

/-!
# Programs of atomic calls

A program makes calls to a system and ends with a value or an error. It follows a protocol if,
whatever the answers are, it makes only calls that its phase allows.
-/

namespace IronClaw.Foundation

/-- A program that makes calls of type `C`, and ends with an `α` or an error `ε`. -/
inductive Program (C : Type) (Answer : C → Type) (ε α : Type) where
  | done (result : Except ε α)
  | call (c : C) (rest : Answer c → Program C Answer ε α)

namespace Program

variable {C : Type} {Answer : C → Type} {σ ε α β : Type}

def bind (p : Program C Answer ε α) (f : α → Program C Answer ε β) : Program C Answer ε β :=
  match p with
  | done (.ok a) => f a
  | done (.error e) => done (.error e)
  | call c rest => call c fun r => (rest r).bind f

instance : Monad (Program C Answer ε) where
  pure a := done (.ok a)
  bind := bind

def ask (c : C) : Program C Answer ε (Answer c) := call c fun r => done (.ok r)

def next : Program C Answer ε α → Option C
  | done _ => none
  | call c _ => some c

def attempt : Program C Answer ε α → Program C Answer ε (Except ε α)
  | done r => done (.ok r)
  | call c rest => call c fun r => (rest r).attempt

theorem next_eq_some {p : Program C Answer ε α} {c : C} {rest : Answer c → Program C Answer ε α}
    (h : p = call c rest) : p.next = some c := by
  rw [h]
  rfl

theorem bind_pure (p : Program C Answer ε α) : (p >>= pure) = p := by
  induction p with
  | done r => cases r <;> rfl
  | call c rest ih => exact congrArg (call c) (funext ih)

section Exec

variable (system : (c : C) → σ → Answer c × σ)

def exec : Program C Answer ε α → σ → Except ε α × σ
  | done r, s => (r, s)
  | call c rest, s => exec (rest (system c s).1) (system c s).2

@[simp] theorem exec_done (r : Except ε α) (s : σ) :
    exec system (done r : Program C Answer ε α) s = (r, s) := rfl

@[simp] theorem exec_pure (a : α) (s : σ) :
    exec system (pure a : Program C Answer ε α) s = (.ok a, s) := rfl

@[simp] theorem exec_ask (c : C) (s : σ) : exec system (ask c : Program C Answer ε (Answer c)) s =
      (.ok (system c s).1, (system c s).2) := rfl

theorem exec_bind (p : Program C Answer ε α) (f : α → Program C Answer ε β) (s : σ) :
    exec system (p >>= f) s =
      match exec system p s with
      | (.ok a, s') => exec system (f a) s'
      | (.error e, s') => (.error e, s') := by
  induction p generalizing s with
  | done r =>
    cases r with
    | ok a => rfl
    | error e => rfl
  | call c rest ih => exact ih (system c s).1 (system c s).2

variable {p : Program C Answer ε α}

theorem exec_bind_ok {f : α → Program C Answer ε β} {s s' : σ} {a : α}
    (h : exec system p s = (.ok a, s')) : exec system (p >>= f) s = exec system (f a) s' := by
  rw [exec_bind, h]

theorem exec_attempt (p : Program C Answer ε α) (s : σ) :
    exec system p.attempt s = (.ok (exec system p s).1, (exec system p s).2) := by
  induction p generalizing s with
  | done r => rfl
  | call c rest ih => exact ih (system c s).1 (system c s).2

theorem exec_attempt_bind {f : Except ε α → Program C Answer ε β} {s s' : σ} {r : Except ε α}
    (h : exec system p s = (r, s')) : exec system (p.attempt >>= f) s = exec system (f r) s' :=
  exec_bind_ok system ((exec_attempt system p s).trans (by rw [h]))

end Exec

end Program

/-- What is noted of a program after its calls, and the calls that it may make then. -/
structure Protocol (C : Type) (Answer : C → Type) where
  Phase : Type
  allowed : Phase → C → Prop
  next : Phase → (c : C) → Answer c → Phase

namespace Program

variable {C : Type} {Answer : C → Type} {σ ε α β : Type} {P : Protocol C Answer}

/-- From a phase on, the program makes allowed calls, and it ends with `Q`. -/
def Follows (P : Protocol C Answer) (Q : P.Phase → Except ε α → Prop) (g : P.Phase) :
    Program C Answer ε α → Prop
  | done r => Q g r
  | call c rest => P.allowed g c ∧ ∀ r, Follows P Q (P.next g c r) (rest r)

variable {g : P.Phase}

theorem Follows.ask {Q : P.Phase → Except ε β → Prop} {c : C} {f : Answer c → Program C Answer ε β}
    (hallowed : P.allowed g c) (hrest : ∀ r, Follows P Q (P.next g c r) (f r)) :
    Follows P Q g (ask c >>= f) :=
  ⟨hallowed, hrest⟩

variable {p : Program C Answer ε α}

/-- **Composition**: the second program follows from each phase the first one ends in. -/
theorem Follows.bind {Q : P.Phase → Except ε α → Prop} {Q' : P.Phase → Except ε β → Prop}
    {f : α → Program C Answer ε β} (hp : Follows P Q g p)
    (hok : ∀ g a, Q g (.ok a) → Follows P Q' g (f a))
    (herror : ∀ g e, Q g (.error e) → Q' g (.error e)) : Follows P Q' g (p >>= f) := by
  induction p generalizing g with
  | done r =>
    cases r with
    | ok a => exact hok g a hp
    | error e => exact herror g e hp
  | call c rest ih => exact ⟨hp.1, fun r => ih r (hp.2 r)⟩

theorem Follows.mono {Q Q' : P.Phase → Except ε α → Prop} (hp : Follows P Q g p)
    (h : ∀ g r, Q g r → Q' g r) : Follows P Q' g p := by
  induction p generalizing g with
  | done r => exact h g r hp
  | call c rest ih => exact ⟨hp.1, fun r => ih r (hp.2 r)⟩

theorem Follows.attempt {Q : P.Phase → Except ε α → Prop} (hp : Follows P Q g p) :
    Follows P (fun g r => ∃ r', r = .ok r' ∧ Q g r') g p.attempt := by
  induction p generalizing g with
  | done r => exact ⟨r, rfl, hp⟩
  | call c rest ih => exact ⟨hp.1, fun r => ih r (hp.2 r)⟩

end Program

structure Running {C : Type} {Answer : C → Type} (P : Protocol C Answer) (ε α : Type) where
  phase : P.Phase
  program : Program C Answer ε α

namespace Running

variable {C : Type} {Answer : C → Type} {σ ε α : Type} {P : Protocol C Answer}

/-- A program makes its next call, or reports its result and is gone. -/
def next (system : (c : C) → σ → Answer c × σ) (ended : Except ε α → σ → σ) (s : σ)
    (t : Running P ε α) : Option (σ × List (Running P ε α)) :=
  match t.program with
  | .done r => some (ended r s, [])
  | .call c rest => some ((system c s).2, [⟨P.next t.phase c (system c s).1, rest (system c s).1⟩])

def Follows (Q : P.Phase → Except ε α → Prop) (t : Running P ε α) : Prop :=
  t.program.Follows P Q t.phase

variable {system : (c : C) → σ → Answer c × σ} {ended : Except ε α → σ → σ} {s s' : σ}
  {t : Running P ε α} {ts : List (Running P ε α)} {Q : P.Phase → Except ε α → Prop}

theorem next_cases (h : t.next system ended s = some (s', ts)) (hf : t.Follows Q) :
    (∃ r, t.program = .done r ∧ Q t.phase r ∧ s' = ended r s ∧ ts = []) ∨
      ∃ c rest, t.program = .call c rest ∧ P.allowed t.phase c ∧ s' = (system c s).2 ∧
        ts = [⟨P.next t.phase c (system c s).1, rest (system c s).1⟩] ∧
        (rest (system c s).1).Follows P Q (P.next t.phase c (system c s).1) := by
  obtain ⟨g, p⟩ := t
  cases p with
  | done r =>
    cases h
    exact .inl ⟨r, rfl, hf, rfl, rfl⟩
  | call c rest =>
    cases h
    exact .inr ⟨c, rest, rfl, hf.1, rfl, rfl, hf.2 _⟩

end Running

end IronClaw.Foundation
