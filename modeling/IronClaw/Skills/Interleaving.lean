import IronClaw.Foundation.Interleaving
import IronClaw.Skills.Undo

/-!
# Calls of the tracker at the same time

A call of the tracker loads the document, waits, and saves what it makes of it. Nothing compares
what is stored at the save with what was loaded.
-/

namespace IronClaw.Skills

open Foundation (Along Pool Throughout run throughout_iff_along)
open List (countP_append mem_append mem_cons)

/-- A call of the tracker. The updater of an update leaves the metrics alone. -/
inductive TrackerCall where
  | recordUsage (now : Time) (success : Bool)
  | updateSkill (u : Update) (h : ∀ m, (u.updater.run m).metrics = m.metrics)

def TrackerCall.isRecordUsage : TrackerCall → Bool
  | recordUsage _ _ => true
  | updateSkill _ _ => false

abbrev Answer := TrackerCall × Except EngineError Unit

structure SkillHost where
  doc : MemoryDoc
  log : List Answer

/-- A call before its load, and one that has loaded a document and computed what to save. -/
inductive TrackerTask where
  | loading (call : TrackerCall)
  | saving (call : TrackerCall) (loaded saved : MemoryDoc)

section Steps

variable (sha256 : String → String)

def TrackerCall.result (loaded : MemoryDoc) : TrackerCall → Except EngineError MemoryDoc
  | recordUsage now success => Skills.recordUsage now loaded success
  | updateSkill u _ => u.apply sha256 loaded

def SkillHost.answer (host : SkillHost) (call : TrackerCall) (result : Except EngineError Unit) :
    SkillHost :=
  { host with log := host.log ++ [(call, result)] }

def TrackerTask.next (failure : Option EngineError) (host : SkillHost) :
    TrackerTask → Option (SkillHost × List TrackerTask)
  | loading call =>
    match failure with
    | some e => some (host.answer call (.error e), [])
    | none =>
      match call.result sha256 host.doc with
      | .error e => some (host.answer call (.error e), [])
      | .ok saved => some (host, [.saving call host.doc saved])
  | saving call _ saved =>
    match failure with
    | some e => some (host.answer call (.error e), [])
    | none => some ({ host with doc := saved }.answer call (.ok ()), [])

inductive TrackerAction where
  | call (c : TrackerCall)
  | step (i : Nat) (failure : Option EngineError)

def trackerStep (p : Pool SkillHost TrackerTask) : TrackerAction →
    Option (Pool SkillHost TrackerTask)
  | .call c => some (p.start (.loading c))
  | .step i failure => p.advance (TrackerTask.next sha256) i failure

end Steps

def usageCount (doc : MemoryDoc) : Except String Nat :=
  doc.metadata.map fun metadata => metadata.metrics.usageCount

def Answer.isUse : Answer → Bool
  | (call, .ok _) => call.isRecordUsage
  | (_, .error _) => false

def uses (log : List Answer) : Nat := log.countP Answer.isUse

def Answer.content (content : String) : Answer → String
  | (.updateSkill u _, .ok _) => u.newContent
  | _ => content

def lastContent (first : String) (log : List Answer) : String := log.foldl Answer.content first

/-- The stored document counts the uses since a first state, and has the content of the last
update. -/
structure Accounted (first : MemoryDoc) (p : Pool SkillHost TrackerTask) : Prop where
  usageCount : usageCount p.shared.doc = (usageCount first).map (· + uses p.shared.log)
  content : p.shared.doc.content = lastContent first.content p.shared.log

/-- A save finds the count that its call has loaded, and if it is one of a use, also the content. -/
def Current (p : Pool SkillHost TrackerTask) : TrackerAction → Prop
  | .step i none => ∀ call loaded saved, p.tasks[i]? = some (.saving call loaded saved) →
      usageCount p.shared.doc = usageCount loaded ∧
        (call.isRecordUsage → p.shared.doc.content = loaded.content)
  | _ => True

section Accounts

variable {sha256 : String → String} {first loaded saved : MemoryDoc} {call : TrackerCall}
  {p p' : Pool SkillHost TrackerTask} {action : TrackerAction}

theorem map_add_left_inj {x y : Except String Nat} (n : Nat) :
    x.map (· + n) = y.map (· + n) ↔ x = y := by
  cases x <;> cases y <;> simp [Except.map]

theorem map_add_map_add (x : Except String Nat) (m n : Nat) :
    (x.map (· + m)).map (· + n) = x.map (· + (m + n)) := by
  cases x <;> simp [Except.map, Nat.add_assoc]

theorem uses_snoc (log : List Answer) (answer : Answer) :
    uses (log ++ [answer]) = uses log + if answer.isUse then 1 else 0 := by
  simp [uses, countP_append, List.countP_singleton]

theorem lastContent_snoc (content : String) (log : List Answer) (answer : Answer) :
    lastContent content (log ++ [answer]) = answer.content (lastContent content log) := by
  simp [lastContent]

theorem saved_of_result (h : call.result sha256 loaded = .ok saved) :
    usageCount saved = (usageCount loaded).map (· + if call.isRecordUsage then 1 else 0) ∧
      saved.content = Answer.content loaded.content (call, .ok ()) := by
  cases call with
  | recordUsage now success =>
    obtain ⟨metadata, metrics, hmetadata, hcount, rfl⟩ := recordUsage_ok h
    refine ⟨?_, rfl⟩
    simp [usageCount, hmetadata, Except.map, TrackerCall.isRecordUsage, hcount]
  | updateSkill u hkeeps =>
    obtain ⟨metadata, hmetadata, -, rfl⟩ := updateSkill_ok h
    refine ⟨?_, rfl⟩
    simp [usageCount, hmetadata, Except.map, TrackerCall.isRecordUsage, hkeeps, advanced]

def Computed (sha256 : String → String) (p : Pool SkillHost TrackerTask) : Prop :=
  ∀ call loaded saved, .saving call loaded saved ∈ p.tasks → call.result sha256 loaded = .ok saved

theorem trackerStep_cases (h : trackerStep sha256 p action = some p') :
    (∃ call, action = .call call ∧ p' = p.start (.loading call)) ∨
    ∃ i failure front task back, action = .step i failure ∧ p.tasks = front ++ task :: back ∧
      front.length = i ∧
      ((∃ call e, (task = .loading call ∨ ∃ loaded saved, task = .saving call loaded saved) ∧
          (failure = none → task = .loading call ∧ call.result sha256 p.shared.doc = .error e) ∧
          p' = ⟨p.shared.answer call (.error e), front ++ back⟩) ∨
        (∃ call saved, task = .loading call ∧ failure = none ∧
          call.result sha256 p.shared.doc = .ok saved ∧
          p' = ⟨p.shared, front ++ .saving call p.shared.doc saved :: back⟩) ∨
        ∃ call loaded saved, task = .saving call loaded saved ∧ failure = none ∧
          p' = ⟨{ p.shared with doc := saved }.answer call (.ok ()), front ++ back⟩) := by
  cases action with
  | call call =>
    cases h
    exact .inl ⟨call, rfl, rfl⟩
  | step i failure =>
    obtain ⟨front, task, back, host, tasks, htasks, hi, hnext, rfl⟩ :=
      Pool.advance_eq_some_iff.mp h
    refine .inr ⟨i, failure, front, task, back, rfl, htasks, hi, ?_⟩
    cases task with
    | loading call =>
      cases failure with
      | some e =>
        cases hnext
        exact .inl ⟨call, e, .inl rfl, nofun, by simp⟩
      | none =>
        cases hresult : call.result sha256 p.shared.doc with
        | error e =>
          simp only [TrackerTask.next, hresult] at hnext
          cases hnext
          exact .inl ⟨call, e, .inl rfl, fun _ => ⟨rfl, hresult⟩, by simp⟩
        | ok saved =>
          simp only [TrackerTask.next, hresult] at hnext
          cases hnext
          exact .inr (.inl ⟨call, saved, rfl, rfl, hresult, by simp⟩)
    | saving call loaded saved =>
      cases failure with
      | some e =>
        cases hnext
        exact .inl ⟨call, e, .inr ⟨loaded, saved, rfl⟩, nofun, by simp⟩
      | none =>
        cases hnext
        exact .inr (.inr ⟨call, loaded, saved, rfl, rfl, by simp⟩)

theorem mem_of_split {front back : List TrackerTask} {task t : TrackerTask}
    (htasks : p.tasks = front ++ task :: back) (h : t ∈ front ++ back) : t ∈ p.tasks := by
  rw [htasks]
  simp only [mem_append, mem_cons] at h ⊢
  exact h.imp_right Or.inr

theorem computed_of_step (h : Computed sha256 p) (hstep : trackerStep sha256 p action = some p') :
    Computed sha256 p' := by
  rcases trackerStep_cases hstep with ⟨call, -, rfl⟩ |
    ⟨i, failure, front, task, back, -, htasks, -, ⟨call, e, -, -, rfl⟩ |
      ⟨call, saved, -, -, hresult, rfl⟩ | ⟨call, loaded, saved, -, -, rfl⟩⟩
  · intro c loaded saved hmem
    rcases mem_append.mp hmem with hmem | hmem
    · exact h c loaded saved hmem
    · cases List.mem_singleton.mp hmem
  · exact fun c loaded saved hmem => h c loaded saved (mem_of_split htasks hmem)
  · intro c loaded saved' hmem
    rw [mem_append, mem_cons, or_left_comm] at hmem
    rcases hmem with heq | hmem
    · cases heq
      exact hresult
    · exact h c loaded saved' (mem_of_split htasks (mem_append.mpr hmem))
  · exact fun c loaded saved hmem => h c loaded saved (mem_of_split htasks hmem)

theorem accounted_of_error (h : Accounted first p) (call : TrackerCall) (e : EngineError)
    (tasks : List TrackerTask) : Accounted first ⟨p.shared.answer call (.error e), tasks⟩ where
  usageCount := by
    simp only [SkillHost.answer, uses_snoc]
    exact h.usageCount
  content := by
    simp only [SkillHost.answer, lastContent_snoc]
    cases call <;> exact h.content

theorem accounted_save_iff (h : Accounted first p) (hresult : call.result sha256 loaded = .ok saved)
    (tasks : List TrackerTask) :
    Accounted first ⟨{ p.shared with doc := saved }.answer call (.ok ()), tasks⟩ ↔
      usageCount p.shared.doc = usageCount loaded ∧
        (call.isRecordUsage → p.shared.doc.content = loaded.content) := by
  obtain ⟨hcount, hcontent⟩ := saved_of_result hresult
  have husage : usageCount saved = (usageCount first).map (· + uses
    (p.shared.log ++ [(call, .ok ())])) ↔
      usageCount p.shared.doc = usageCount loaded := by
    rw [hcount, uses_snoc, ← map_add_map_add, ← h.usageCount]
    exact (map_add_left_inj _).trans eq_comm
  have hlast : saved.content = lastContent first.content (p.shared.log ++ [(call, .ok ())]) ↔
      (call.isRecordUsage → p.shared.doc.content = loaded.content) := by
    rw [hcontent, lastContent_snoc, ← h.content]
    cases call with
    | recordUsage now success => simp [Answer.content, TrackerCall.isRecordUsage, eq_comm]
    | updateSkill u hkeeps => simp [Answer.content, TrackerCall.isRecordUsage]
  exact ⟨fun ⟨h₁, h₂⟩ => ⟨husage.mp h₁, hlast.mp h₂⟩, fun ⟨h₁, h₂⟩ => ⟨husage.mpr h₁, hlast.mpr h₂⟩⟩

theorem accounted_step_iff (hcomputed : Computed sha256 p) (h : Accounted first p)
    (hstep : trackerStep sha256 p action = some p') : Accounted first p' ↔ Current p action := by
  rcases trackerStep_cases hstep with ⟨call, rfl, rfl⟩ |
    ⟨i, failure, front, task, back, rfl, htasks, hi, ⟨call, e, -, hloading, rfl⟩ |
      ⟨call, saved, rfl, rfl, hresult, rfl⟩ | ⟨call, loaded, saved, rfl, rfl, rfl⟩⟩
  · exact ⟨fun _ => trivial, fun _ => ⟨h.usageCount, h.content⟩⟩
  · refine ⟨fun _ => ?_, fun _ => accounted_of_error h call e _⟩
    cases failure with
    | some e => trivial
    | none =>
      intro c loaded saved hget
      rw [(hloading rfl).1] at htasks
      simp [htasks, ← hi] at hget
  · refine ⟨fun _ => ?_, fun _ => ⟨h.usageCount, h.content⟩⟩
    intro c loaded saved' hget
    simp [htasks, ← hi] at hget
  · have hresult : call.result sha256 loaded = .ok saved :=
      hcomputed call loaded saved (by simp [htasks])
    rw [accounted_save_iff h hresult]
    constructor
    · intro hcurrent c loaded' saved' hget
      simp only [htasks, ← hi, List.getElem?_append_right, Nat.le_refl, Nat.sub_self,
        List.getElem?_cons_zero, Option.some.injEq, TrackerTask.saving.injEq] at hget
      obtain ⟨rfl, rfl, rfl⟩ := hget
      exact hcurrent
    · intro hcurrent
      exact hcurrent call loaded saved (by simp [htasks, ← hi])

def IsSkill (doc : MemoryDoc) : Prop := doc.docType = .skill ∧
    ∃ metadata, doc.metadata = .ok metadata

theorem isSkill_of_result (h : IsSkill loaded) (hresult : call.result sha256 loaded = .ok saved) :
    IsSkill saved := by
  cases call with
  | recordUsage now success =>
    obtain ⟨metadata, metrics, -, -, rfl⟩ := recordUsage_ok hresult
    exact ⟨h.1, _, rfl⟩
  | updateSkill u hkeeps =>
    obtain ⟨metadata, -, -, rfl⟩ := updateSkill_ok hresult
    exact ⟨h.1, _, rfl⟩

theorem exists_result_of_isSkill (h : IsSkill loaded) (hcall : call.isRecordUsage) :
    ∃ saved, call.result sha256 loaded = .ok saved := by
  cases call with
  | recordUsage now success =>
    obtain ⟨htype, metadata, hmetadata⟩ := h
    simp [TrackerCall.result, recordUsage, htype, hmetadata]
  | updateSkill u hkeeps => cases hcall

def TrackerTask.isUse : TrackerTask → Bool
  | loading c => c.isRecordUsage
  | saving c _ _ => c.isRecordUsage

def pendingUses (tasks : List TrackerTask) : Nat := tasks.countP TrackerTask.isUse

def TrackerAction.isUse : TrackerAction → Bool
  | .call c => c.isRecordUsage
  | .step _ _ => false

def TrackerAction.Reliable : TrackerAction → Prop
  | .call _ => True
  | .step _ failure => failure = none

structure AllSkills (p : Pool SkillHost TrackerTask) : Prop where
  doc : IsSkill p.shared.doc
  saved : ∀ call loaded saved, .saving call loaded saved ∈ p.tasks → IsSkill saved

theorem allSkills_of_step (h : AllSkills p) (hstep : trackerStep sha256 p action = some p') :
    AllSkills p' := by
  rcases trackerStep_cases hstep with ⟨call, -, rfl⟩ |
    ⟨i, failure, front, task, back, -, htasks, -, ⟨call, e, -, -, rfl⟩ |
      ⟨call, saved, -, -, hresult, rfl⟩ | ⟨call, loaded, saved, rfl, -, rfl⟩⟩
  · refine ⟨h.doc, fun c loaded saved hmem => ?_⟩
    rcases mem_append.mp hmem with hmem | hmem
    · exact h.saved c loaded saved hmem
    · cases List.mem_singleton.mp hmem
  · exact ⟨h.doc, fun c loaded saved hmem => h.saved c loaded saved (mem_of_split htasks hmem)⟩
  · refine ⟨h.doc, fun c loaded saved' hmem => ?_⟩
    rw [mem_append, mem_cons, or_left_comm] at hmem
    rcases hmem with heq | hmem
    · cases heq
      exact isSkill_of_result h.doc hresult
    · exact h.saved c loaded saved' (mem_of_split htasks (mem_append.mpr hmem))
  · refine ⟨h.saved call loaded saved (by simp [htasks]), fun c loaded saved hmem => ?_⟩
    exact h.saved c loaded saved (mem_of_split htasks hmem)

theorem uses_of_step (h : AllSkills p) (hreliable : action.Reliable)
    (hstep : trackerStep sha256 p action = some p') : uses p'.shared.log + pendingUses p'.tasks =
      uses p.shared.log + pendingUses p.tasks + if action.isUse then 1 else 0 := by
  rcases trackerStep_cases hstep with ⟨call, rfl, rfl⟩ |
    ⟨i, failure, front, task, back, rfl, htasks, -, ⟨call, e, -, hloading, rfl⟩ |
      ⟨call, saved, rfl, -, -, rfl⟩ | ⟨call, loaded, saved, rfl, -, rfl⟩⟩
  · cases huse : call.isRecordUsage <;>
      simp [Pool.start, pendingUses, countP_append, TrackerTask.isUse,
        TrackerAction.isUse, huse,
        Nat.add_assoc]
  · -- only an update finds something wrong with a skill
    obtain ⟨rfl, herror⟩ := hloading hreliable
    have hupdate : call.isRecordUsage = false := by
      by_contra huse
      have hexists : ∃ saved, call.result sha256 p.shared.doc = .ok saved :=
        exists_result_of_isSkill h.doc (by simpa using huse)
      obtain ⟨saved, hsaved⟩ := hexists
      rw [hsaved] at herror
      cases herror
    simp [SkillHost.answer, uses_snoc, pendingUses, htasks, TrackerTask.isUse, TrackerAction.isUse,
      Answer.isUse, hupdate]
  · cases huse : call.isRecordUsage <;>
      simp [pendingUses, htasks, TrackerTask.isUse, TrackerAction.isUse, huse]
  · cases huse : call.isRecordUsage <;>
      simp [SkillHost.answer, uses_snoc, pendingUses, htasks, countP_append, TrackerTask.isUse,
        TrackerAction.isUse, Answer.isUse, huse] <;> omega

theorem uses_of_run {actions : List TrackerAction} (h : AllSkills p)
    (hreliable : ∀ a ∈ actions, a.Reliable) (hrun : run (trackerStep sha256) p actions = some p') :
    uses p'.shared.log + pendingUses p'.tasks =
      uses p.shared.log + pendingUses p.tasks + actions.countP TrackerAction.isUse := by
  induction actions generalizing p with
  | nil =>
    cases hrun
    rfl
  | cons a actions ih =>
    obtain ⟨p₁, hstep, hrun⟩ := Foundation.run_cons_eq_some.mp hrun
    rw [ih (allSkills_of_step h hstep) (fun b hb => hreliable b (List.mem_cons_of_mem a hb)) hrun,
      uses_of_step h (hreliable a List.mem_cons_self) hstep, List.countP_cons]
    omega

end Accounts

def idle (doc : MemoryDoc) : Pool SkillHost TrackerTask := ⟨⟨doc, []⟩, []⟩

/-- **No lost update.** The accounts are right exactly if each save finds what its call loaded; then
every use is recorded once all have answered. -/
theorem accounted_iff_current (sha256 : String → String) {doc : MemoryDoc}
    {actions : List TrackerAction} {p : Pool SkillHost TrackerTask}
    (hrun : run (trackerStep sha256) (idle doc) actions = some p) :
    (Throughout (trackerStep sha256) (Accounted doc) (idle doc) actions ↔
      Along (trackerStep sha256) Current (idle doc) actions) ∧
    (IsSkill doc → (∀ a ∈ actions, a.Reliable) → p.tasks = [] →
      uses p.shared.log = actions.countP TrackerAction.isUse) := by
  refine ⟨?_, fun hskill hreliable hdone => ?_⟩
  · apply throughout_iff_along (J := Computed sha256) ?_ ?_ ?_ ?_ hrun
    · exact fun p action p' h hstep => computed_of_step h hstep
    · exact fun p action p' hcomputed h hstep => accounted_step_iff hcomputed h hstep
    · intro call loaded saved hmem
      cases hmem
    · refine ⟨?_, rfl⟩
      cases h : usageCount doc <;> simp [idle, uses, h, Except.map]
  · have hstart : AllSkills (idle doc) := ⟨hskill, fun call loaded saved hmem => by cases hmem⟩
    have huses := uses_of_run hstart hreliable hrun
    rw [hdone] at huses
    simpa [idle, uses, pendingUses] using huses

def oneByOne : List TrackerAction :=
  [.call (.recordUsage 1 true), .step 0 none, .step 0 none,
    .call (.updateSkill (rewrite 2 "two") fun _ => rfl), .step 0 none, .step 0 none]

theorem accounted_of_oneByOne :
    ∃ p, run (trackerStep id) (idle (bareSkill 1 none)) oneByOne = some p ∧
      Accounted (bareSkill 1 none) p ∧ uses p.shared.log = 1 := by
  obtain ⟨p, hrun, hdone⟩ : ∃ p, run (trackerStep id) (idle (bareSkill 1 none)) oneByOne = some p ∧
      p.tasks = [] := ⟨_, rfl, rfl⟩
  have hcurrent : Along (trackerStep id) Current (idle (bareSkill 1 none)) oneByOne := by
    refine .of_step rfl trivial (.of_step rfl ?_ (.of_step rfl ?_ (.of_step rfl trivial
      (.of_step rfl ?_ (.of_step rfl ?_ trivial)))))
    all_goals
      rintro call loaded saved ⟨⟩
      try exact ⟨rfl, fun _ => rfl⟩
  have hnoLoss := accounted_iff_current id hrun
  refine ⟨p, hrun, hnoLoss.1.mpr hcurrent oneByOne (List.prefix_refl _) p hrun, ?_⟩
  exact hnoLoss.2 ⟨rfl, _, rfl⟩ (by simp [oneByOne, TrackerAction.Reliable]) hdone

/-- Two uses loaded before either is saved count as one; and a use takes an update back. -/
theorem update_lost : (∃ p, run (trackerStep id) (idle (bareSkill 1 none))
        [.call (.recordUsage 1 true), .call (.recordUsage 1 true), .step 0 none, .step 1 none,
          .step 0 none, .step 0 none] = some p ∧
      p.tasks = [] ∧ uses p.shared.log = 2 ∧ usageCount p.shared.doc = .ok 1) ∧
    ∃ p, run (trackerStep id) (idle (bareSkill 1 none)) [.call (.recordUsage 1 true), .step 0 none,
          .call (.updateSkill (rewrite 2 "two") fun _ => rfl), .step 1 none, .step 1 none,
          .step 0 none] = some p ∧
      p.tasks = [] ∧ lastContent "one" p.shared.log = "two" ∧ p.shared.doc.content = "one" :=
  ⟨⟨_, rfl, rfl, rfl, rfl⟩, _, rfl, rfl, rfl, rfl⟩

end IronClaw.Skills
