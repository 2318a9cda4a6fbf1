/-!
# Stateful computations that can fail

A computation changes a state, and ends with a value or an error. What it changed before an error
stays changed, as in a program without transactions.
-/

namespace IronClaw.Foundation

abbrev Effect (σ ε α : Type) := ExceptT ε (StateM σ) α

namespace Effect

variable {σ ε α β : Type}

def exec (x : Effect σ ε α) (s : σ) : Except ε α × σ := x.run.run s

@[simp] theorem exec_pure (a : α) (s : σ) : exec (pure a : Effect σ ε α) s = (.ok a, s) := rfl

@[simp] theorem exec_throw (e : ε) (s : σ) : exec (throw e : Effect σ ε α) s = (.error e, s) := rfl

@[simp] theorem exec_get (s : σ) : exec (get : Effect σ ε σ) s = (.ok s, s) := rfl

@[simp] theorem exec_modify (f : σ → σ) (s : σ) :
    exec (modify f : Effect σ ε PUnit) s = (.ok ⟨⟩, f s) := rfl

theorem exec_bind (x : Effect σ ε α) (f : α → Effect σ ε β) (s : σ) :
    exec (x >>= f) s =
      match exec x s with
      | (.ok a, s') => exec (f a) s'
      | (.error e, s') => (.error e, s') := by
  change (match x s with | (r, s') => ExceptT.bindCont f r s') = match x s with
    | (.ok a, s') => exec (f a) s'
    | (.error e, s') => (.error e, s')
  rcases x s with ⟨r, s'⟩
  cases r with
  | ok a => rfl
  | error e => rfl

variable {x : Effect σ ε α} {f : α → Effect σ ε β} {s s' : σ}

theorem exec_bind_ok {a : α} (h : exec x s = (.ok a, s')) : exec (x >>= f) s = exec (f a) s' := by
  rw [exec_bind, h]

theorem exec_bind_error {e : ε} (h : exec x s = (.error e, s')) :
    exec (x >>= f) s = (.error e, s') := by
  rw [exec_bind, h]

def ofExcept : Except ε α → Effect σ ε α
  | .ok a => pure a
  | .error e => throw e

@[simp] theorem exec_ofExcept (r : Except ε α) (s : σ) :
    exec (ofExcept r : Effect σ ε α) s = (r, s) := by
  cases r <;> rfl

/-- Go on if a condition holds, and fail otherwise. -/
def require (c : Bool) (e : ε) : Effect σ ε Unit := if c then pure () else throw e

/-- The result of a computation, its failure made a value. -/
def attempt (x : Effect σ ε α) : Effect σ ε (Except ε α) := fun s =>
  let r := exec x s
  (.ok r.1, r.2)

@[simp] theorem exec_attempt (x : Effect σ ε α) (s : σ) :
    exec (attempt x) s = (.ok (exec x s).1, (exec x s).2) := rfl

theorem bind_eq_ok_iff {x : Except ε α} {f : α → Except ε β} {b : β} :
    x >>= f = .ok b ↔ ∃ a, x = .ok a ∧ f a = .ok b := by
  cases x with
  | error e => exact iff_of_false nofun fun ⟨_, h, _⟩ => by cases h
  | ok a => exact ⟨fun h => ⟨a, rfl, h⟩, fun ⟨_, h, h'⟩ => by cases h; exact h'⟩

def Reads (x : Effect σ ε α) : Prop := ∀ s, (exec x s).2 = s

theorem Reads.pure (a : α) : Reads (pure a : Effect σ ε α) := fun _ => rfl

theorem Reads.ofExcept (r : Except ε α) : Reads (ofExcept r : Effect σ ε α) := fun s => by simp

theorem Reads.require (c : Bool) (e : ε) : Reads (require c e : Effect σ ε Unit) := by
  intro s
  rw [Effect.require]
  split <;> rfl

theorem Reads.attempt (h : Reads x) : Reads (attempt x) := h

/-- After a computation that only reads, either nothing follows or the rest runs on the same
state. -/
theorem Reads.bind_induction {P : σ → Prop} {s : σ} (hx : Reads x) (herror : P s)
    (hok : ∀ a, exec x s = (.ok a, s) → P (exec (f a) s).2) : P (exec (x >>= f) s).2 := by
  have hs := hx s
  rcases h : exec x s with ⟨r, s'⟩
  rw [h] at hs
  cases hs
  cases r with
  | ok a =>
    rw [exec_bind_ok h]
    exact hok a h
  | error e =>
    rw [exec_bind_error h]
    exact herror

theorem exec_bind_reads (hf : ∀ a, Reads (f a)) (s : σ) : (exec (x >>= f) s).2 = (exec x s).2 := by
  rw [exec_bind]
  rcases exec x s with ⟨r, s'⟩
  cases r with
  | ok a => exact hf a s'
  | error e => rfl

theorem exec_require_eq_ok_iff {c : Bool} {e : ε} {s : σ} :
    exec (require c e : Effect σ ε Unit) s = (.ok (), s) ↔ c = true := by
  cases c with
  | true => exact iff_of_true rfl rfl
  | false => exact iff_of_false nofun Bool.false_ne_true

theorem exec_require_bind_eq_ok_iff {c : Bool} {e : ε} {f : Unit → Effect σ ε α} {a : α} :
    exec (require c e >>= f) s = (.ok a, s') ↔ c = true ∧ exec (f ()) s = (.ok a, s') := by
  cases c with
  | true => exact ⟨fun h => ⟨rfl, h⟩, And.right⟩
  | false => exact iff_of_false nofun fun h => Bool.false_ne_true h.1

/-- Every run relates the state before to the state after. -/
def Within (R : σ → σ → Prop) (x : Effect σ ε α) : Prop := ∀ s, R s (exec x s).2

section Within

variable {R : σ → σ → Prop}

theorem Within.pure (hrefl : ∀ s, R s s) (a : α) : Within R (pure a : Effect σ ε α) := hrefl

theorem Within.throw (hrefl : ∀ s, R s s) (e : ε) : Within R (throw e : Effect σ ε α) := hrefl

theorem Within.get (hrefl : ∀ s, R s s) : Within R (get : Effect σ ε σ) := hrefl

theorem Within.modify {f : σ → σ} (h : ∀ s, R s (f s)) : Within R (modify f : Effect σ ε PUnit) := h

variable {x : Effect σ ε α}

theorem Within.of_reads (hrefl : ∀ s, R s s) (h : Reads x) : Within R x := by
  intro s
  rw [h s]
  exact hrefl s

theorem rel_exec_bind (htrans : ∀ a b c, R a b → R b c → R a c) {f : α → Effect σ ε β} {s : σ}
    (hx : R s (exec x s).2) (hf : ∀ a s', exec x s = (.ok a, s') → R s' (exec (f a) s').2) :
    R s (exec (x >>= f) s).2 := by
  rw [exec_bind]
  revert hx hf
  rcases exec x s with ⟨r, s'⟩
  intro hx hf
  cases r with
  | ok a => exact htrans _ _ _ hx (hf a s' rfl)
  | error e => exact hx

/-- **Composition**: a preorder that both computations respect. -/
theorem Within.bind (htrans : ∀ a b c, R a b → R b c → R a c) {f : α → Effect σ ε β}
    (hx : Within R x) (hf : ∀ a, Within R (f a)) :
    Within R (x >>= f) := fun s => rel_exec_bind htrans (hx s) fun a s' _ => hf a s'

theorem Within.ite {c : Prop} [Decidable c] {x y : Effect σ ε α} (hx : Within R x)
    (hy : Within R y) : Within R (if c then x else y) := by
  split
  · exact hx
  · exact hy

end Within

/-- From a state with `I`, every run ends in one with `I`, and with a result that has `Q` if
it succeeds. -/
def Ensures (I : σ → Prop) (Q : α → Prop) (x : Effect σ ε α) : Prop :=
  ∀ s, I s → I (exec x s).2 ∧ ∀ a, (exec x s).1 = .ok a → Q a

section Ensures

variable {I : σ → Prop} {Q : α → Prop}

theorem Ensures.pure {a : α} (h : Q a) : Ensures I Q (pure a : Effect σ ε α) :=
  fun _ hs => ⟨hs, fun b hb => by cases hb; exact h⟩

variable {x : Effect σ ε α}

theorem Ensures.bind {R : β → Prop} {f : α → Effect σ ε β} (hx : Ensures I Q x)
    (hf : ∀ a, Q a → Ensures I R (f a)) : Ensures I R (x >>= f) := by
  intro s hs
  obtain ⟨hinv, hres⟩ := hx s hs
  rw [exec_bind]
  revert hinv hres
  rcases exec x s with ⟨r, s'⟩
  intro hinv hres
  cases r with
  | ok a => exact hf a (hres a rfl) s' hinv
  | error e => exact ⟨hinv, nofun⟩

theorem Ensures.attempt (h : Ensures I Q x) :
    Ensures I (fun r => ∀ a, r = .ok a → Q a) (attempt x) := by
  intro s hs
  refine ⟨(h s hs).1, fun r hr a ha => (h s hs).2 a ?_⟩
  have heq : (exec x s).1 = r := by
    rw [exec_attempt] at hr
    exact Except.ok.inj hr
  exact heq.trans ha

theorem Ensures.of_reads (hx : Reads x) (h : ∀ s a, I s → (exec x s).1 = .ok a → Q a) :
    Ensures I Q x := by
  intro s hs
  rw [hx s]
  exact ⟨hs, fun a => h s a hs⟩

end Ensures

/-- From related states, a computation gives the same result and ends in related states. -/
def Respects (R : σ → σ → Prop) (x : Effect σ ε α) : Prop :=
  ∀ s t, R s t → (exec x s).1 = (exec x t).1 ∧ R (exec x s).2 (exec x t).2

section Respects

variable {R : σ → σ → Prop}

theorem Respects.pure (a : α) : Respects R (pure a : Effect σ ε α) := fun _ _ h => ⟨rfl, h⟩

theorem Respects.throw (e : ε) : Respects R (throw e : Effect σ ε α) := fun _ _ h => ⟨rfl, h⟩

theorem Respects.modify {f : σ → σ} (h : ∀ s t, R s t → R (f s) (f t)) :
    Respects R (modify f : Effect σ ε PUnit) := fun s t hst => ⟨rfl, h s t hst⟩

theorem Respects.ofExcept (r : Except ε α) : Respects R (ofExcept r : Effect σ ε α) := by
  cases r with
  | ok a => exact .pure a
  | error e => exact .throw e

theorem Respects.require (c : Bool) (e : ε) : Respects R (require c e : Effect σ ε Unit) := by
  cases c with
  | true => exact .pure ()
  | false => exact .throw e

theorem Respects.attempt {x : Effect σ ε α} (h : Respects R x) : Respects R (attempt x) :=
  fun s t hst => ⟨congrArg Except.ok (h s t hst).1, (h s t hst).2⟩

theorem Respects.bind {x : Effect σ ε α} {f : α → Effect σ ε β} (hx : Respects R x)
    (hf : ∀ a, Respects R (f a)) : Respects R (x >>= f) := by
  intro s t hst
  obtain ⟨hres, hnext⟩ := hx s t hst
  rw [exec_bind, exec_bind]
  revert hres hnext
  rcases exec x s with ⟨r, s'⟩
  rcases exec x t with ⟨r', t'⟩
  intro hres hnext
  cases hres
  cases r with
  | ok a => exact hf a s' t' hnext
  | error e => exact ⟨rfl, hnext⟩

theorem Respects.ite {c : Prop} [Decidable c] {x y : Effect σ ε α} (hx : Respects R x)
    (hy : Respects R y) : Respects R (if c then x else y) := by
  split
  · exact hx
  · exact hy

theorem Respects.get_bind {f : σ → Effect σ ε α}
    (h : ∀ s t, R s t → (exec (f s) s).1 = (exec (f t) t).1 ∧ R (exec (f s) s).2 (exec (f t) t).2) :
    Respects R (get >>= f) := by
  intro s t hst
  rw [exec_bind, exec_bind, exec_get, exec_get]
  exact h s t hst

end Respects

end Effect

end IronClaw.Foundation
