import Mathlib.Data.Option.Basic

/-!
# Runs of a guarded machine

A machine is a partial step function, and a run takes a list of actions. `Along` says that every
step of a run meets a condition on its state.
-/

namespace IronClaw.Foundation

variable {σ α : Type*} {step : σ → α → Option σ}

/-- The state the actions `as` lead to from `s`, if each of them is enabled in turn. -/
def run (step : σ → α → Option σ) : σ → List α → Option σ
  | s, [] => some s
  | s, a :: as => (step s a).bind fun s' => run step s' as

@[simp] theorem run_nil (s : σ) : run step s [] = some s := rfl

theorem run_cons (s : σ) (a : α) (as : List α) :
    run step s (a :: as) = (step s a).bind fun s' => run step s' as := rfl

variable {s t : σ} {as : List α}

theorem run_cons_eq_some {a : α} :
    run step s (a :: as) = some t ↔ ∃ s', step s a = some s' ∧ run step s' as = some t := by
  rw [run_cons, Option.bind_eq_some_iff]

theorem run_append (s : σ) (as bs : List α) :
    run step s (as ++ bs) = (run step s as).bind fun s' => run step s' bs := by
  induction as generalizing s with
  | nil => rfl
  | cons a as ih =>
    rw [List.cons_append, run_cons, run_cons, Option.bind_assoc]
    exact congrArg _ (funext fun s' => ih s')

/-- Every step of the run of `as` from `s` meets `C` in the state it is taken in. -/
def Along (step : σ → α → Option σ) (C : σ → α → Prop) : σ → List α → Prop
  | _, [] => True
  | s, a :: as => C s a ∧ ∀ s', step s a = some s' → Along step C s' as

variable {C D : σ → α → Prop}

theorem Along.of_step {s s' : σ} {a : α} (hs : step s a = some s') (hc : C s a)
    (h : Along step C s' as) : Along step C s (a :: as) := by
  refine ⟨hc, fun t ht => ?_⟩
  rw [hs] at ht
  cases ht
  exact h

instance Along.instDecidable [∀ s a, Decidable (C s a)] (s : σ) (as : List α) :
    Decidable (Along step C s as) :=
  match as with
  | [] => isTrue trivial
  | a :: as =>
    match h : step s a with
    | none => decidable_of_iff (C s a) (by simp [Along, h])
    | some s' =>
      have := Along.instDecidable s' as
      decidable_of_iff (C s a ∧ Along step C s' as) (by simp [Along, h])

theorem Along.mono (h : ∀ s a, C s a → D s a) {s : σ} (hc : Along step C s as) :
    Along step D s as := by
  induction as generalizing s with
  | nil => trivial
  | cons a as ih => exact ⟨h s a hc.1, fun s' hs => ih (hc.2 s' hs)⟩

theorem Along.and {s : σ} (hc : Along step C s as) (hd : Along step D s as) :
    Along step (fun s a => C s a ∧ D s a) s as := by
  induction as generalizing s with
  | nil => trivial
  | cons a as ih =>
    exact ⟨⟨hc.1, hd.1⟩, fun s' hs => ih (hc.2 s' hs) (hd.2 s' hs)⟩

theorem Along.of_forall_mem (h : ∀ a ∈ as, ∀ s, C s a) (s : σ) : Along step C s as := by
  induction as generalizing s with
  | nil => trivial
  | cons a as ih =>
    refine ⟨h a List.mem_cons_self s, fun s' _ => ih (fun b hb => ?_) s'⟩
    exact h b (List.mem_cons_of_mem a hb)

theorem Along.append_iff {s : σ} {as bs : List α} : Along step C s (as ++ bs) ↔
      Along step C s as ∧ ∀ s', run step s as = some s' → Along step C s' bs := by
  induction as generalizing s with
  | nil => simp [Along]
  | cons a as ih =>
    simp only [List.cons_append, Along, ih, run_cons_eq_some]
    constructor
    · rintro ⟨hc, h⟩
      refine ⟨⟨hc, fun s' hs => (h s' hs).1⟩, ?_⟩
      rintro t ⟨s', hs, ht⟩
      exact (h s' hs).2 t ht
    · rintro ⟨⟨hc, h⟩, ht⟩
      exact ⟨hc, fun s' hs => ⟨h s' hs, fun t hr => ht t ⟨s', hs, hr⟩⟩⟩

theorem along_congr (h : ∀ s a s', step s a = some s' → (C s a ↔ D s a))
    (hr : run step s as = some t) : Along step C s as ↔ Along step D s as := by
  induction as generalizing s with
  | nil => exact Iff.rfl
  | cons a as ih =>
    obtain ⟨s', hs, hr⟩ := run_cons_eq_some.mp hr
    refine and_congr (h s a s' hs) (forall₂_congr fun t' ht' => ?_)
    rw [hs] at ht'
    cases ht'
    exact ih hr

variable {I : σ → Prop}

/-- **The invariant rule**: what steps under `C` preserve, runs under `C` preserve. -/
theorem run_invariant (hstep : ∀ s a s', I s → C s a → step s a = some s' → I s') (hs : I s)
    (hc : Along step C s as) (hr : run step s as = some t) : I t := by
  induction as generalizing s with
  | nil =>
    cases hr
    exact hs
  | cons a as ih =>
    obtain ⟨s', ha, hr⟩ := run_cons_eq_some.mp hr
    exact ih (hstep s a s' hs hc.1 ha) (hc.2 s' ha) hr

/-- **The potential rule**: if no step adds to a potential, and those that count take one from it, a
run has at most as many of these. -/
theorem countP_add_le_of_run {μ : σ → Nat} {p : α → Bool}
    (hstep : ∀ s a s', step s a = some s' → μ s' + (if p a then 1 else 0) ≤ μ s)
    (hr : run step s as = some t) : as.countP p + μ t ≤ μ s := by
  induction as generalizing s with
  | nil =>
    cases hr
    simp
  | cons a as ih =>
    obtain ⟨s', ha, hr⟩ := run_cons_eq_some.mp hr
    have hfirst := hstep s a s' ha
    have hrest := ih hr
    rw [List.countP_cons]
    omega

theorem Along.of_invariant (hstep : ∀ s a s', I s → C s a → step s a = some s' → I s')
    (h : ∀ s a, I s → C s a → D s a) {s : σ} (hs : I s) (hc : Along step C s as) :
    Along step D s as := by
  induction as generalizing s with
  | nil => trivial
  | cons a as ih => exact ⟨h s a hs hc.1, fun s' ha => ih (hstep s a s' hs hc.1 ha) (hc.2 s' ha)⟩

/-- `I` holds in every state that the run of `as` from `s` passes through. -/
def Throughout (step : σ → α → Option σ) (I : σ → Prop) (s : σ) (as : List α) : Prop :=
  ∀ front, front <+: as → ∀ s', run step s front = some s' → I s'

theorem throughout_cons {s s' : σ} {a : α} (hs : step s a = some s') :
    Throughout step I s (a :: as) ↔ I s ∧ Throughout step I s' as := by
  constructor
  · intro h
    refine ⟨h [] List.nil_prefix s rfl, fun front hfront t ht => ?_⟩
    refine h (a :: front) (List.cons_prefix_cons.mpr ⟨rfl, hfront⟩) t ?_
    exact run_cons_eq_some.mpr ⟨s', hs, ht⟩
  · rintro ⟨hi, h⟩ front hfront t ht
    rcases List.prefix_cons_iff.mp hfront with rfl | ⟨rest, rfl, hrest⟩
    · cases ht
      exact hi
    · obtain ⟨s₁, hs₁, ht⟩ := run_cons_eq_some.mp ht
      rw [hs] at hs₁
      cases hs₁
      exact h rest hrest t ht

/-- If exactly the steps under `C` preserve `I`, then `I` holds throughout exactly the runs that
meet `C`. -/
theorem throughout_iff_along {I J : σ → Prop} (hJ : ∀ s a s', J s → step s a = some s' → J s')
    (hI : ∀ s a s', J s → I s → step s a = some s' → (I s' ↔ C s a)) (hj : J s) (hi : I s)
    (hr : run step s as = some t) : Throughout step I s as ↔ Along step C s as := by
  induction as generalizing s with
  | nil =>
    refine ⟨fun _ => trivial, fun _ front hfront s' hs' => ?_⟩
    rw [List.prefix_nil.mp hfront] at hs'
    cases hs'
    exact hi
  | cons a as ih =>
    obtain ⟨s', hs, hr⟩ := run_cons_eq_some.mp hr
    have hstep : I s' ↔ C s a := hI s a s' hj hi hs
    rw [throughout_cons hs]
    constructor
    · rintro ⟨-, h⟩
      have hi' : I s' := h [] List.nil_prefix s' rfl
      exact .of_step hs (hstep.mp hi') ((ih (hJ s a s' hj hs) hi' hr).mp h)
    · rintro ⟨hc, h⟩
      exact ⟨hi, (ih (hJ s a s' hj hs) (hstep.mpr hc) hr).mpr (h s' hs)⟩

end IronClaw.Foundation
