import IronClaw.Memory.Reading
import IronClaw.Routines.Copies
import IronClaw.Routines.Steps

/-!
# Owners of routines

Routines execute in the workspace of their owner, those of a webhook in that of the engine. A
message starts those of its sender. Events and calls may come with a user.
-/

namespace IronClaw.Routines

open Foundation (Along Pool Text Throughout run throughout_iff_along)
open Memory (Documents DocKey MemoryDocument)

def Origin.caller : Origin → Option UserId
  | event userId => some userId
  | systemEvent userId | manual userId => userId
  | cron | webhook _ => none

def RoutineTable.ownerOf (table : RoutineTable) (id : Uuid) : Option UserId :=
  (table.lookup id).map Routine.userId

/-- A run in the owner's workspace, fired for nobody else, which writes and reads there. -/
structure StaysWithOwner (env : RoutineEnv) (owner : UserId) (f : FiredRun) : Prop where
  workspace : f.workspace.userId = owner
  caller : ∀ userId ∈ f.origin.caller, owner = userId
  reads : ∀ (docs : Documents) (path : Text) (found : DocKey × MemoryDocument),
    f.workspace.locate docs path = some found → found.1.scope = owner ∨
      owner = env.workspace.userId ∧ found.1.scope ∈ env.workspace.additionalReadScopes
  writes : ∀ path, (f.workspace.key path).scope = owner

def AllStay (env : RoutineEnv) (routines : RoutineTable) (p : EnginePool) : Prop :=
  ∀ f ∈ p.shared.fires, ∃ owner ∈ routines.ownerOf f.routine.id, StaysWithOwner env owner f

def OwnWebhook (env : RoutineEnv) (p : EnginePool) (a : EngineAction) : Prop :=
  ∀ i runId r path, a = .advance i (.fire runId) → p.tasks[i]? = some (.firing r (.webhook path)) →
    r.userId = env.workspace.userId

def EngineTask.Selected : EngineTask → Prop
  | checking e _ _ triggered | triggering e triggered =>
    ∀ r ∈ triggered, ∀ userId ∈ e.origin.caller, r.userId = userId
  | emitting e _ r _ => ∀ userId ∈ e.origin.caller, r.userId = userId
  | manualCounting r caller => ∀ userId ∈ caller, r.userId = userId
  | firing r origin => ∀ userId ∈ origin.caller, r.userId = userId
  | _ => True

/-- A routine's owner is the same in all copies, and tasks select for their user. -/
structure Selective (env : RoutineEnv) (routines : RoutineTable) (p : EnginePool) : Prop where
  copies : Everywhere env 0 (fun _ => True) (fun r => routines.ownerOf r.id = some r.userId) p
  selected : ∀ t ∈ p.tasks, t.Selected

section Steps

variable {env : RoutineEnv} {routines : RoutineTable} {s s' : EngineShared} {p p' : EnginePool}
  {a : EngineAction} {t : EngineTask} {ts : List EngineTask}

theorem owner_persist (env : RoutineEnv) (routines : RoutineTable) :
    Persistent env 0 (fun _ => True) fun r => routines.ownerOf r.id = some r.userId where
  written := fun _ _ _ _ _ hold _ _ => hold
  patched := fun _ _ _ hr => hr
  edited := by
    intro r r' edit t hr _ _ h
    obtain ⟨_, _, _, _, rfl⟩ := exists_of_apply h
    exact hr
  saved := fun _ hold _ _ => hold

theorem userId_of_selects {libs : RoutineLibs} {e : EngineInput} {m : EventMatcher}
    (h : e.selects libs m) : ∀ userId ∈ e.origin.caller, m.routine.userId = userId := by
  cases e with
  | message sender channel content =>
    cases m with
    | message r regex =>
      rintro userId ⟨⟩
      simp only [EngineInput.selects, routineMatchesMessage] at h
      split at h
      · simp only [Bool.and_eq_true, Routine.isOwnedBy, beq_iff_eq] at h
        exact h.1.1
      · cases h
    | system r => cases h
  | systemEvent source eventType payload user =>
    cases m with
    | message r regex => cases h
    | system r =>
      rintro userId ⟨⟩
      simp only [EngineInput.selects, matchesSystemEvent] at h
      split at h
      · simp only [Bool.and_eq_true, Option.elim_some, Routine.isOwnedBy, beq_iff_eq] at h
        exact h.1.2
      · cases h

theorem selected_of_precedes {u : EngineTask} (h : t.Selected) (hprecedes : Precedes env s t u) :
    u.Selected := by
  cases u with
  | checking e counts rest triggered =>
    rcases hprecedes with ⟨rfl, -, rfl⟩ | ⟨m, chosen, rfl, rfl | ⟨-, hselects, rfl⟩⟩
    · exact fun r hr => absurd hr List.not_mem_nil
    · exact h
    · intro r hr
      rcases List.mem_append.mp hr with hr | hr
      · exact h r hr
      · rw [List.mem_singleton.mp hr]
        exact userId_of_selects hselects
  | emitting e counts r rest =>
    obtain ⟨m, triggered, rfl, -, hselects, rfl⟩ := hprecedes
    exact userId_of_selects hselects
  | triggering e triggered =>
    obtain ⟨counts, rfl, -⟩ := hprecedes
    exact h
  | manualCounting r caller =>
    obtain ⟨id, rfl, -, howner, -⟩ := hprecedes
    rintro userId ⟨rfl⟩
    simpa [Routine.isOwnedBy] using howner
  | firing r origin =>
    rcases hprecedes with ⟨path, rfl, rfl, -⟩ | ⟨caller, rfl, rfl, -⟩
    · exact nofun
    · exact h
  | _ => trivial

variable {r : Routine} {origin : Origin}

theorem selected_of_pending {rest : List EngineTask} {f : FiredRun} (h : t.Selected)
    (hpending : t.pending = some (r, origin, rest)) : ∀ u ∈ rest ++ [.recording f], u.Selected := by
  intro u hu
  rcases mem_of_pending hpending hu with rfl | ⟨due, -, rfl⟩ | ⟨e, counts, matchers, -, rfl⟩ |
    ⟨e, triggered, rfl, rfl⟩
  · trivial
  · trivial
  · exact fun r hr => absurd hr List.not_mem_nil
  · exact fun r hr => h r (List.mem_cons_of_mem _ hr)

theorem userId_of_pending {rest : List EngineTask} (h : t.Selected)
    (hpending : t.pending = some (r, origin, rest)) :
    ∀ userId ∈ origin.caller, r.userId = userId := by
  rcases pending_cases hpending with ⟨due, rfl, rfl, -⟩ | ⟨e, counts, matchers, rfl, rfl, -⟩ |
    ⟨e, triggered, rfl, rfl, -⟩ | ⟨rfl, -⟩
  · exact nofun
  · exact h
  · exact h r List.mem_cons_self
  · exact h

theorem selective_of_engineStep (h : Selective env routines p)
    (hstep : engineStep env p a = some p') : Selective env routines p' where
  copies := everywhere_of_engineStep (owner_persist env routines) h.copies (fun _ _ _ => trivial)
    hstep
  selected := by
    rcases engineStep_cases hstep with ⟨u, hu, rfl⟩ | ⟨now, rfl, -, rfl⟩ |
      ⟨event, front, t, back, s', ts, rfl, htasks, hnext, rfl⟩
    · intro v hv
      rcases List.mem_append.mp hv with hv | hv
      · exact h.selected v hv
      · rw [List.mem_singleton.mp hv]
        cases a <;> cases hu <;> trivial
    · exact h.selected
    · have ht : t.Selected := h.selected t (by simp [htasks])
      intro v hv
      rcases mem_replaced_iff.mp hv with hv | hv
      · rcases next_cases hnext with ⟨-, hgo⟩ | ⟨runId, r, origin, rest, -, hpending, -, -, rfl⟩ |
          ⟨status, run, -, -, -, -, rfl⟩
        · exact selected_of_precedes ht (precedes_of_goNext hgo v hv)
        · exact selected_of_pending ht hpending v hv
        · rw [List.mem_singleton.mp hv]
          trivial
      · exact h.selected v (Pool.mem_of_split htasks hv)

theorem userId_workspaceOf (userId : UserId) : (env.workspaceOf userId).userId = userId := by
  rw [RoutineEnv.workspaceOf]
  split_ifs with h
  · exact h.symm
  · rfl

theorem scope_of_locate {ws : Memory.Workspace} {docs : Documents} {path : Text}
    {found : DocKey × MemoryDocument} (h : ws.locate docs path = some found) :
    found.1.scope ∈ ws.readUserIds := by
  obtain ⟨scope, hscope, hfound⟩ := List.exists_of_findSome?_eq_some h
  obtain ⟨doc, -, rfl⟩ := Option.map_eq_some_iff.mp hfound
  show scope ∈ ws.readUserIds
  rw [Memory.Workspace.scopesOf] at hscope
  split_ifs at hscope
  · rw [List.mem_singleton.mp hscope]
    exact List.mem_cons_self
  · exact hscope

theorem mem_readUserIds_workspaceOf {userId scope : UserId}
    (h : scope ∈ (env.workspaceOf userId).readUserIds) : scope = userId ∨
      userId = env.workspace.userId ∧ scope ∈ env.workspace.additionalReadScopes := by
  rw [RoutineEnv.workspaceOf] at h
  split_ifs at h with huser
  · rcases List.mem_cons.mp h with rfl | h
    · exact .inl huser.symm
    · exact .inr ⟨huser, h⟩
  · exact .inl (List.mem_singleton.mp h)

theorem staysWithOwner_iff (env : RoutineEnv) (s : EngineShared) (runId : Uuid)
    (hcaller : ∀ userId ∈ origin.caller, r.userId = userId) :
    StaysWithOwner env r.userId (s.fire env runId r origin) ↔
      ∀ path, origin = .webhook path → r.userId = env.workspace.userId := by
  constructor
  · rintro h path rfl
    exact h.workspace.symm
  · intro hown
    have hworkspace : (s.fire env runId r origin).workspace = env.workspaceOf r.userId := by
      cases origin with
      | webhook path => exact (if_pos (hown path rfl)).symm
      | _ => rfl
    refine ⟨?_, hcaller, fun docs path found hfound => ?_, fun path => ?_⟩
    · rw [hworkspace, userId_workspaceOf]
    · rw [hworkspace] at hfound
      exact mem_readUserIds_workspaceOf (scope_of_locate hfound)
    · rw [hworkspace]
      exact userId_workspaceOf r.userId

theorem allStay_iff_of_step (hselective : Selective env routines p)
    (hstep : engineStep env p a = some p') (h : AllStay env routines p) :
    AllStay env routines p' ↔ OwnWebhook env p a := by
  rcases engineStep_cases hstep with ⟨u, hu, rfl⟩ | ⟨now, rfl, -, rfl⟩ |
    ⟨event, front, t, back, s', ts, rfl, htasks, hnext, rfl⟩
  · exact iff_of_true h fun i runId r path heq => absurd heq (ne_advance_of_starts hu i _)
  · exact iff_of_true h nofun
  · have hget := getElem_length htasks
    have hmem : t ∈ p.tasks := by simp [htasks]
    rcases next_cases hnext with ⟨rfl, hgo⟩ | ⟨runId, r, origin, rest, rfl, hpending, -, rfl, rfl⟩ |
      ⟨status, run, rfl, rfl, hstatus, rfl, rfl⟩
    · refine iff_of_true ?_ nofun
      intro f hf
      have hfires : s'.fires = p.shared.fires := fires_of_sharedStep (sharedStep_of_goNext hgo)
      exact h f (hfires ▸ hf)
    · -- the run that is fired now, besides those before
      have hcaller := userId_of_pending (hselective.selected t hmem) hpending
      have howner : routines.ownerOf r.id = some r.userId :=
        (ok_pending (hselective.copies.tasks t hmem) hpending).1
      have hiff := staysWithOwner_iff env p.shared runId hcaller
      constructor
      · rintro hall i runId' r' path ⟨⟩ ht'
        rw [hget] at ht'
        cases ht'
        cases hpending
        obtain ⟨owner, howner', hstays⟩ :=
          hall _ (List.mem_append_right _ (List.mem_singleton_self _))
        cases Option.mem_some.mp (howner ▸ howner')
        exact hiff.mp hstays path rfl
      · intro hown f hf
        rcases List.mem_append.mp hf with hf | hf
        · exact h f hf
        · rw [List.mem_singleton.mp hf]
          refine ⟨r.userId, howner, hiff.mpr ?_⟩
          rintro path rfl
          rcases pending_cases hpending with ⟨due, -, horigin, -⟩ |
            ⟨e, counts, matchers, -, horigin, -⟩ | ⟨e, triggered, -, horigin, -⟩ | ⟨rfl, -⟩
          · cases horigin
          · cases e <;> cases horigin
          · cases e <;> cases horigin
          · exact hown _ runId r path rfl hget
    · exact iff_of_true h nofun

end Steps

/-- **Whose memories a run sees**: its owner's throughout exactly if each webhook fires a routine of
the engine's user. -/
theorem allStay_iff_ownWebhook {env : RoutineEnv} {now : Time} {routines : RoutineTable}
    {runs : List RoutineRun} {actions : List EngineAction} {p : EnginePool}
    (hrun : run (engineStep env) (.boot now routines runs) actions = some p) :
    Throughout (engineStep env) (AllStay env routines) (.boot now routines runs) actions ↔
      Along (engineStep env) (OwnWebhook env) (.boot now routines runs) actions := by
  refine throughout_iff_along (J := Selective env routines) (fun _ _ _ => selective_of_engineStep)
    (fun _ _ _ hselective h hstep => allStay_iff_of_step hselective hstep h) ?_ ?_ hrun
  · refine ⟨⟨⟨Nat.zero_le _, fun id r hr => ?_, ?_, ?_⟩, ?_⟩, ?_⟩
    · have hid : r.id = id := RoutineTable.id_of_lookup hr
      have hr : routines.lookup id = some r := hr
      rw [hid, RoutineTable.ownerOf, hr]
      rfl
    all_goals simp [EnginePool.boot]
  · intro f hf
    cases hf

theorem allStay_oneDelivery : Throughout (engineStep smallEngine)
    (AllStay smallEngine (.single (freshRoutine "user1" (.webhook none none) none)))
    (webhookEngine "user1") oneDelivery := by
  obtain ⟨p, hrun⟩ : ∃ p,
      run (engineStep smallEngine) (webhookEngine "user1") oneDelivery = some p := ⟨_, rfl⟩
  refine (allStay_iff_ownWebhook hrun).mpr ?_
  iterate 5 refine .of_step rfl nofun ?_
  -- the delivery fires, for the user of the engine
  refine .of_step rfl (by rintro i runId r path ⟨⟩ ⟨⟩; rfl) ?_
  refine .of_step rfl nofun ?_
  exact .of_step rfl nofun trivial

def ownNotes : Documents :=
  (∅ : Documents).insert (smallEngine.workspace.key "notes.md".toList) ⟨"secret".toList, .obj []⟩

/-- Another user's routine is fired by a webhook, and reads the engine's user's notes. -/
theorem webhook_reads_other_notes :
    ∃ p f, run (engineStep smallEngine) (webhookEngine "user2") oneDelivery = some p ∧
      f ∈ p.shared.fires ∧ f.routine.userId = "user2" ∧ f.workspace.userId = "user1" ∧
      ∃ found, f.workspace.locate ownNotes "notes.md".toList = some found ∧
        found.1.scope = "user1" ∧ found.2.content = "secret".toList :=
  ⟨_, _, rfl, List.mem_singleton_self _, rfl, rfl, _, rfl, rfl, rfl⟩

end IronClaw.Routines
