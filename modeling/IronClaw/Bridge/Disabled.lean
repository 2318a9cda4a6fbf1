import IronClaw.Bridge.Adapter

/-!
# Disabled tools

A disabled tool has no effect where the permission is looked up, under that name. The routes to the
missions and to the extension of a latent action do not look at it.
-/

namespace IronClaw.Bridge

open Foundation (Text Json Effect)
open Missions (MissionAction)
open Tools (RegisteredTool ToolPermissionSnapshot)
open List (map_cons map_nil mem_cons not_mem_nil)

/-- What decides the route of a call: its names, the permissions, and the two managers. -/
structure CallNames where
  actionName : Text
  canonicalName : Text
  resolvedName : Option Text
  permissions : ToolPermissionSnapshot
  hasMissions : Bool
  authManager : Bool

def ActionCall.names (config : AdapterConfig) (call : ActionCall) : CallNames :=
  ⟨call.actionName, call.canonicalName, call.resolvedName, call.env.permissions,
    config.hasMissions, call.env.execution.authManager⟩

def missionActionName (name : Text) : Text :=
  if name == "routine_create".toList then "mission_create".toList
  else if name == "routine_update".toList then "mission_update".toList
  else (Missions.renamedRoutineAction name).getD name

theorem effectiveCall_actionName (libs : Missions.Libraries) (name : Text) (params : Json) :
    (Missions.effectiveCall libs name params).actionName = missionActionName name := by
  unfold Missions.effectiveCall Missions.routineToMissionAlias missionActionName
  split_ifs
  · rfl
  · rfl
  · cases Missions.renamedRoutineAction name <;> rfl

namespace CallNames

variable (names : CallNames)

def lookupName : Text := names.resolvedName.getD names.canonicalName

def missionAction : Option MissionAction :=
  if names.hasMissions then MissionAction.ofName (missionActionName names.canonicalName) else none

/-- The user has disabled the action or its operation. -/
def DisabledFor : Prop :=
  names.permissions.isDisabled names.actionName = true ∨
    names.permissions.isDisabled names.canonicalName = true ∨
    names.permissions.isDisabled (missionActionName names.canonicalName) = true ∨
    names.permissions.isDisabled names.lookupName = true

/-- No mission call, and its tool is of the first engine, or disabled before an extension is tried.
-/
def Stopped : Prop :=
  names.missionAction = none ∧
    if names.canonicalName = toolInfoName then names.permissions.isDisabled names.lookupName = true
    else isV1OnlyTool names.lookupName = true ∨ isV1AuthTool names.lookupName = true ∨
      (names.permissions.isDisabled names.lookupName = true ∧
        (names.resolvedName.isSome = true ∨ names.authManager = false))

end CallNames

/-- The call ends with an error; nothing is executed, changed, activated, or recorded. -/
structure Inert (config : AdapterConfig) (call : ActionCall) (s : AdapterState) : Prop where
  failed : ∃ e, (Effect.exec (executeActionInternal config call) s).1 = .error e
  executed : (Effect.exec (executeActionInternal config call) s).2.executed = s.executed
  missions : (Effect.exec (executeActionInternal config call) s).2.missions = s.missions
  activated : (Effect.exec (executeActionInternal config call) s).2.activated = s.activated
  rateLimiter : (Effect.exec (executeActionInternal config call) s).2.rateLimiter = s.rateLimiter

section Inert

variable (config : AdapterConfig) (call : ActionCall)

theorem missionRoute_eq_none_iff :
    missionRoute config call = none ↔ (call.names config).missionAction = none := by
  unfold missionRoute CallNames.missionAction Missions.handleMissionCall
  cases h : config.hasMissions with
  | false => simp [ActionCall.names, h]
  | true => simp [ActionCall.names, h, effectiveCall_actionName]

def FailsAt (s : AdapterState) (x : AdapterOp Missions.ActionResult) : Prop :=
  ∃ e, Effect.exec x s = (.error e, s)

variable {config call}

theorem ensureToolNotDisabled_of_disabled {lookupName : Text}
    (h : call.env.permissions.isDisabled lookupName = true) :
    ∃ e, ensureToolNotDisabled call lookupName = .error e := by
  rw [ensureToolNotDisabled, if_pos h]
  exact ⟨_, rfl⟩

theorem failsAt_ofExcept_bind {α : Type} {r : Except BridgeError α}
    (h : ∃ e, r = .error e) (f : α → AdapterOp Missions.ActionResult) (s : AdapterState) :
    FailsAt s (Effect.ofExcept r >>= f) := by
  obtain ⟨e, rfl⟩ := h
  exact ⟨e, rfl⟩

theorem failsAt_toolInfoRoute (h : call.env.permissions.isDisabled call.lookupName = true)
    (s : AdapterState) : FailsAt s (toolInfoRoute config call) := by
  obtain ⟨e, he⟩ := failsAt_ofExcept_bind (ensureToolNotDisabled_of_disabled h)
    (fun _ => do
      Effect.ofExcept (enforceToolApproval config call s.autoApproved call.lookupName
        (call.env.tools.get call.lookupName) false)
      pure (resultOf config call call.canonicalName (toolInfoAnswer config call).1
        (toolInfoAnswer config call).2)) s
  exact ⟨e, he⟩

theorem rejectV1Tools_error
    (h : isV1OnlyTool call.lookupName = true ∨ isV1AuthTool call.lookupName = true) :
    ∃ e, rejectV1Tools call = .error e := by
  unfold rejectV1Tools
  split_ifs with honly hauth
  · exact ⟨_, rfl⟩
  · exact ⟨_, rfl⟩
  · exact absurd h (by simp [honly, hauth])

theorem failsAt_toolRoute (hlatent : call.latent = none)
    (h : call.env.permissions.isDisabled call.lookupName = true) (s : AdapterState) :
    FailsAt s (toolRoute config call) := by
  cases hreject : rejectV1Tools call with
  | error e =>
    rw [toolRoute]
    exact failsAt_ofExcept_bind ⟨e, hreject⟩ _ s
  | ok u =>
    obtain ⟨e, he⟩ := ensureToolNotDisabled_of_disabled h
    refine ⟨e, ?_⟩
    rw [toolRoute, routeLatent, hlatent, hreject]
    change Effect.exec (admitCall config call (call.env.tools.get call.lookupName)
      call.lookupName >>= _)
      s = _
    rw [admitCall, he]
    rfl

theorem latent_eq_none (h : call.resolvedName.isSome = true ∨
    call.env.execution.authManager = false) : call.latent = none := by
  unfold ActionCall.latent
  rcases h with h | h
  · cases hname : call.resolvedName with
    | none => simp [hname] at h
    | some name => rfl
  · simp [h]

theorem inert_of_failsAt (h : ∀ s, FailsAt s (route config call)) (s : AdapterState) :
    Inert config call s := by
  have hcount : Effect.exec (executeActionInternal config call) s =
      Effect.exec (Effect.require (s.callCount < maxCallsPerStep) callLimitReached >>= fun _ =>
        route config call) { s with callCount := (s.callCount + 1) % 2 ^ 32 } := rfl
  obtain ⟨e, he⟩ := h { s with callCount := (s.callCount + 1) % 2 ^ 32 }
  have hfails : ∃ e, Effect.exec (executeActionInternal config call) s =
      (.error e, { s with callCount := (s.callCount + 1) % 2 ^ 32 }) := by
    rw [hcount]
    cases decide (s.callCount < maxCallsPerStep) with
    | true => exact ⟨e, he⟩
    | false => exact ⟨callLimitReached, rfl⟩
  obtain ⟨e', he'⟩ := hfails
  exact ⟨⟨e', by rw [he']⟩, by rw [he'], by rw [he'], by rw [he'], by rw [he']⟩

theorem inert_of_stopped (h : (call.names config).Stopped) (s : AdapterState) :
    Inert config call s := by
  obtain ⟨hmission, hroute⟩ := h
  refine inert_of_failsAt (fun s' => ?_) s
  rw [route, (missionRoute_eq_none_iff config call).mpr hmission]
  by_cases hinfo : (call.names config).canonicalName = toolInfoName
  · rw [if_pos hinfo] at hroute
    simp only [if_pos (show call.canonicalName = toolInfoName from hinfo)]
    exact failsAt_toolInfoRoute hroute s'
  · rw [if_neg hinfo] at hroute
    simp only [if_neg (show call.canonicalName ≠ toolInfoName from hinfo)]
    rcases hroute with hv1 | hv1 | ⟨hdisabled, hlatent⟩
    · exact failsAt_ofExcept_bind (rejectV1Tools_error (.inl hv1)) _ s'
    · exact failsAt_ofExcept_bind (rejectV1Tools_error (.inr hv1)) _ s'
    · exact failsAt_toolRoute (latent_eq_none hlatent) hdisabled s'

end Inert

def missionNames : List Text :=
  ["mission_create", "mission_list", "mission_get", "mission_fire", "mission_pause",
    "mission_resume", "mission_complete", "mission_update"].map String.toList

def routineNames : List Text :=
  ["routine_create", "routine_update", "routine_list", "routine_fire", "routine_pause",
    "routine_resume", "routine_delete", "routine_history"].map String.toList

theorem ofName_eq_none {name : Text} (h : name ∉ missionNames) :
    MissionAction.ofName name = none := by
  simp only [missionNames, map_cons, map_nil, mem_cons, not_mem_nil, or_false,
    not_or] at h
  obtain ⟨h₁, h₂, h₃, h₄, h₅, h₆, h₇, h₈⟩ := h
  simp only [MissionAction.ofName, beq_iff_eq]
  rw [if_neg h₁, if_neg h₂, if_neg h₃, if_neg h₄, if_neg h₅, if_neg h₆, if_neg h₇, if_neg h₈]

theorem missionActionName_of_not_routine {name : Text} (h : name ∉ routineNames) :
    missionActionName name = name := by
  simp only [routineNames, map_cons, map_nil, mem_cons, not_mem_nil, or_false,
    not_or] at h
  obtain ⟨h₁, h₂, h₃, h₄, h₅, h₆, h₇, h₈⟩ := h
  simp only [missionActionName, Missions.renamedRoutineAction, beq_iff_eq]
  rw [if_neg h₁, if_neg h₂, if_neg h₃, if_neg h₄, if_neg h₅, if_neg h₆, if_neg h₇, if_neg h₈]
  rfl

theorem mem_of_missionAction {name : Text}
    (h : (MissionAction.ofName (missionActionName name)).isSome = true) :
    name ∈ missionNames ++ routineNames := by
  by_contra hname
  rw [List.mem_append, not_or] at hname
  rw [missionActionName_of_not_routine hname.2, ofName_eq_none hname.1] at h
  cases h

def probeTool : RegisteredTool := ⟨⟨[], [], id⟩, fun _ => .never, none, none⟩

/-- A call with the same names, which is approved, and which nothing else stops. -/
def probe (call : ActionCall) : ActionCall where
  actionName := call.actionName
  parameters := .obj []
  lease := call.lease
  ctx :=
    { threadType := .research, projectId := 1, userId := [], currentCallId := none,
      sourceChannel := none, userTimezone := none, threadGoal := none, threadId := [],
      availableActions := call.ctx.availableActions, toolInfo := some fun _ => .ok (some .null) }
  approvalAlreadyGranted := true
  env :=
    { execution := { sampleExecution with authManager := call.env.execution.authManager }
      missions := ⟨0, 0, 0, 1, 1, fun _ _ => .error (.other [])⟩
      now := 0
      tools := match call.resolvedName with
        | some key => call.env.tools.insert key probeTool
        | none => call.env.tools
      permissions := call.env.permissions
      latent := some ⟨.error [], some [], ∅⟩
      missingCredential := fun _ => none
      providerReadiness := fun _ => .ready
      extensions := none }

def probeConfig (hasMissions : Bool) : AdapterConfig :=
  { sampleAdapter with hasMissions := hasMissions }

def probeState : AdapterState := ⟨∅, 1, ∅, ⟨.empty, [], ∅, ∅, ∅, ∅⟩, [], []⟩

section Probe

variable {config : AdapterConfig} {call : ActionCall}

theorem probe_resolvedName : (probe call).resolvedName = call.resolvedName := by
  change (probe call).env.tools.resolveName call.canonicalName = _
  unfold probe
  dsimp only
  cases h : call.resolvedName with
  | none => exact h
  | some key =>
    dsimp only
    rw [Tools.ToolRegistry.resolveName_insert (Tools.ToolRegistry.resolveName_registered h)]
    exact h

theorem probe_names : (probe call).names (probeConfig config.hasMissions) = call.names config := by
  unfold ActionCall.names
  rw [probe_resolvedName]
  rfl

theorem exists_ok_of_mission (call : ActionCall) {name : Text}
    (h : name ∈ missionNames ++ routineNames) :
    ∃ op r, Missions.handleMissionCall sampleAdapter.manager (probe call).env.missions
        (probe call).ctx.toThreadExecutionContext name (.obj []) = some op ∧
      (Effect.exec op probeState.missions).1 = .ok r := by
  simp only [missionNames, routineNames, map_cons, map_nil, List.cons_append,
    List.nil_append, mem_cons, not_mem_nil, or_false] at h
  rcases h with rfl | rfl | rfl | rfl | rfl | rfl | rfl | rfl | rfl | rfl | rfl | rfl | rfl | rfl |
    rfl | rfl <;> exact ⟨_, _, rfl, rfl⟩

theorem route_ok_of_mission (config : AdapterConfig) (hmissions : config.hasMissions = true)
    (h : (MissionAction.ofName (missionActionName call.canonicalName)).isSome = true) :
    ∃ r, (Effect.exec (route (probeConfig config.hasMissions) (probe call)) probeState).1 =
      .ok r := by
  obtain ⟨op, r, hop, hr⟩ := exists_ok_of_mission call (mem_of_missionAction h)
  have hroute : missionRoute (probeConfig config.hasMissions) (probe call) =
      some (lift .engine op) := by
    rw [hmissions]
    exact congrArg (Option.map (lift .engine)) hop
  refine ⟨r, ?_⟩
  rw [route, hroute]
  dsimp only
  rw [exec_lift, hr]
  rfl

theorem enforceToolApproval_of_granted (config : AdapterConfig)
    (h : call.approvalAlreadyGranted = true) (autoApproved : Finset Text) (lookupName : Text)
    (tool : Option RegisteredTool) (includeInstallApproval : Bool) :
    enforceToolApproval config call autoApproved lookupName tool includeInstallApproval =
      .ok () := by
  unfold enforceToolApproval
  cases tool with
  | none => rfl
  | some tool =>
    dsimp only
    cases effectiveRequirement call.env lookupName tool call.parameters includeInstallApproval <;>
      simp [approvalGate, h]

theorem toolInfoRoute_ok (config : AdapterConfig)
    (h : call.env.permissions.isDisabled call.lookupName = false) :
    ∃ r, (Effect.exec (toolInfoRoute (probeConfig config.hasMissions) (probe call)) probeState).1 =
      .ok r := by
  have hlookup : (probe call).lookupName = call.lookupName := by
    rw [ActionCall.lookupName, probe_resolvedName]
    rfl
  have hallowed : ensureToolNotDisabled (probe call) (probe call).lookupName = .ok () := by
    rw [ensureToolNotDisabled, hlookup]
    refine if_neg ?_
    rw [show (probe call).env.permissions = call.env.permissions from rfl, h]
    decide
  rw [toolInfoRoute, Effect.exec_bind_ok (Effect.exec_get probeState), hallowed,
    enforceToolApproval_of_granted _ rfl]
  exact ⟨_, rfl⟩

theorem activated_of_latent (hname : call.resolvedName = none)
    (hauth : call.env.execution.authManager = true) (hv1 : rejectV1Tools (probe call) = .ok ()) :
    (Effect.exec (toolRoute (probeConfig config.hasMissions) (probe call)) probeState).2.activated =
      [[]] := by
  have hlatent : (probe call).latent = some ⟨.error [], some [], ∅⟩ := by
    rw [ActionCall.latent, probe_resolvedName, hname]
    exact if_pos (Bool.and_eq_true_iff.mpr ⟨rfl, hauth⟩)
  rw [toolRoute, hv1, routeLatent, hlatent]
  rfl

theorem probe_tool : (probe call).env.tools.get (probe call).lookupName =
    call.resolvedName.map fun _ => probeTool := by
  have hresolved : (probe call).resolvedName = call.resolvedName := probe_resolvedName
  rw [ActionCall.lookupName, hresolved]
  unfold probe
  dsimp only
  cases h : call.resolvedName with
  | none => exact Tools.ToolRegistry.get_eq_none_iff.mpr h
  | some key => exact Tools.ToolRegistry.get_self (AList.lookup_insert _)

theorem respond_ok (authManager hasMissions : Bool) {executed : ExecutedCall}
    (hparams : executed.parameters = .obj []) {gotten : Except ToolFailure Text}
    (h : ∀ raw, gotten = .ok raw → raw = "{}".toList) (s : Missions.MissionSystem) :
    ∃ r, (Effect.exec (respond sampleAdapter.libs sampleAdapter.manager.libs
      { sampleExecution with authManager := authManager } executed hasMissions gotten) s).1 =
        .ok r := by
  cases gotten with
  | error failure =>
    have hnone : requiredCredential sampleAdapter.libs
        { sampleExecution with authManager := authManager } (failureMessage executed failure) =
          none := by
      unfold requiredCredential
      split_ifs
      · exact Option.filter_eq_none_iff.mpr fun _ _ => Bool.false_ne_true
      · rfl
    rw [respond, Effect.exec_ofExcept]
    unfold respondError
    dsimp only
    rw [hnone]
    exact ⟨_, rfl⟩
  | ok raw =>
    obtain rfl := h raw rfl
    -- the output names no status, no extension and no skill, and the call names no target
    have hout : extensionOutcome sampleAdapter.libs
        { sampleExecution with authManager := authManager } executed (.obj []) = .unchanged := by
      unfold extensionOutcome
      cases managesExtensions executed.lookupName <;> cases isInstall executed.lookupName <;>
        cases authManager <;> rfl
    have hsync : syncSkillInstallResult { sampleExecution with authManager := authManager } executed
        (.obj []) = .ok () := by
      unfold syncSkillInstallResult
      split_ifs <;> rfl
    have hproject : writtenProject executed hasMissions = none := by
      unfold writtenProject
      rw [hparams]
      split_ifs <;> rfl
    have hvalue : outputValue sampleAdapter.libs executed "{}".toList = .obj [] := rfl
    rw [respond, respondOk]
    simp only [hvalue, hout, hsync, spliceProject, hproject]
    exact ⟨_, rfl⟩

theorem probe_lookupName : (probe call).lookupName = call.lookupName := by
  rw [ActionCall.lookupName, probe_resolvedName]
  rfl

theorem probe_allowed (h : call.env.permissions.isDisabled call.lookupName = false) :
    ensureToolNotDisabled (probe call) call.lookupName = .ok () := by
  rw [ensureToolNotDisabled]
  refine if_neg ?_
  rw [show (probe call).env.permissions = call.env.permissions from rfl, h]
  decide

theorem probe_admitted (h : call.env.permissions.isDisabled call.lookupName = false)
    (s : AdapterState) : Effect.exec (admitCall (probeConfig config.hasMissions) (probe call)
      (call.resolvedName.map fun _ => probeTool) call.lookupName) s = (.ok (), s) := by
  have hrate : checkRateLimit (probe call) call.lookupName
      (call.resolvedName.map fun _ => probeTool) = pure () := by
    unfold checkRateLimit
    cases call.resolvedName <;> rfl
  have hauth : checkActionAuth (probeConfig config.hasMissions) (probe call) call.lookupName =
      .ok () := by
    unfold checkActionAuth
    exact if_neg (by simp [probeConfig, sampleAdapter])
  have hprovider : checkProvider (probeConfig config.hasMissions) (probe call)
      (call.resolvedName.map fun _ => probeTool) = .ok () := by
    unfold checkProvider
    cases call.resolvedName <;> rfl
  have hhooks : checkHooks (probeConfig config.hasMissions) (probe call) call.lookupName
      (call.resolvedName.map fun _ => probeTool) = .ok () := by
    cases call.resolvedName <;> rfl
  rw [admitCall, probe_allowed h, hrate, hauth, hprovider, hhooks]
  simp only [enforceToolApproval_of_granted _ (rfl : (probe call).approvalAlreadyGranted = true)]
  rfl

theorem toolRoute_ok (config : AdapterConfig) (hlatent : (probe call).latent = none)
    (h : call.env.permissions.isDisabled call.lookupName = false)
    (hv1 : rejectV1Tools (probe call) = .ok ()) :
    ∃ r, (Effect.exec (toolRoute (probeConfig config.hasMissions) (probe call)) probeState).1 =
      .ok r := by
  have hgotten : ∀ raw, runTool sampleAdapter.libs (probe call).env.execution
      (call.resolvedName.map fun _ => probeTool) (executedCall (probe call) call.lookupName) =
        .ok raw → raw = "{}".toList := by
    intro raw hraw
    have hhost : runTool sampleAdapter.libs (probe call).env.execution
        (call.resolvedName.map fun _ => probeTool) (executedCall (probe call) call.lookupName) =
      executeToolWithSafety sampleAdapter.libs (probe call).env.execution
        (call.resolvedName.map fun _ => probeTool) call.lookupName (.obj []) := rfl
    rw [hhost] at hraw
    unfold executeToolWithSafety at hraw
    split at hraw
    · cases hraw
    · next tool htool =>
      -- the only tool there can be is the one that gives an empty object
      obtain ⟨name, -, rfl⟩ := Option.map_eq_some_iff.mp (Option.filter_eq_some_iff.mp htool).1
      cases hraw
      rfl
  have hparams : (executedCall (probe call) call.lookupName).parameters = .obj [] := rfl
  obtain ⟨r, hr⟩ := respond_ok call.env.execution.authManager config.hasMissions hparams hgotten
    probeState.missions
  rw [toolRoute, hv1, routeLatent, hlatent]
  change ∃ r, (Effect.exec (do
    admitCall (probeConfig config.hasMissions) (probe call) ((probe call).env.tools.get
      (probe call).lookupName) (probe call).lookupName
    executeTool (probeConfig config.hasMissions) (probe call) ((probe call).env.tools.get
      (probe call).lookupName) (probe call).lookupName) probeState).1 = .ok r
  rw [probe_tool, probe_lookupName, Effect.exec_bind_ok (probe_admitted h probeState)]
  refine ⟨r, ?_⟩
  rw [executeTool, Effect.exec_bind_ok (Effect.exec_modify _ probeState), exec_lift]
  exact (congrArg (Except.mapError id) hr).trans rfl

end Probe

section Condition

variable {config : AdapterConfig} {call : ActionCall}

theorem rejectV1Tools_probe (honly : isV1OnlyTool call.lookupName = false)
    (hauth : isV1AuthTool call.lookupName = false) : rejectV1Tools (probe call) = .ok () := by
  rw [rejectV1Tools, probe_lookupName, honly, hauth]
  rfl

theorem stopped_of_route {e : BridgeError}
    (he : (Effect.exec (route (probeConfig config.hasMissions) (probe call)) probeState).1 =
      .error e) (hactivated : (Effect.exec (route (probeConfig config.hasMissions) (probe call))
      probeState).2.activated = []) : (call.names config).Stopped := by
  have hmission : (call.names config).missionAction = none := by
    by_contra hsome
    unfold CallNames.missionAction at hsome
    split_ifs at hsome with hmissions
    · obtain ⟨r, hr⟩ := route_ok_of_mission config hmissions
        (Option.isSome_iff_ne_none.mpr hsome)
      rw [hr] at he
      cases he
    · exact hsome rfl
  have hnone : missionRoute (probeConfig config.hasMissions) (probe call) = none := by
    rw [missionRoute_eq_none_iff, probe_names]
    exact hmission
  refine ⟨hmission, ?_⟩
  rw [route, hnone] at he hactivated
  dsimp only at he hactivated
  by_cases hinfo : (call.names config).canonicalName = toolInfoName
  · rw [if_pos (show (probe call).canonicalName = toolInfoName from hinfo)] at he
    rw [if_pos hinfo]
    by_contra hallowed
    obtain ⟨r, hr⟩ := toolInfoRoute_ok config (Bool.eq_false_iff.mpr hallowed)
    rw [hr] at he
    cases he
  · rw [if_neg (show (probe call).canonicalName ≠ toolInfoName from hinfo)] at he hactivated
    rw [if_neg hinfo]
    by_contra hrest
    simp only [not_or, Bool.not_eq_true] at hrest
    obtain ⟨honly, hauth, hrest⟩ := hrest
    have hv1 := rejectV1Tools_probe honly hauth
    by_cases hlatent : call.resolvedName.isSome = true ∨ call.env.execution.authManager = false
    · have hallowed : call.env.permissions.isDisabled call.lookupName = false := by
        by_contra hdisabled
        exact hrest ⟨(Bool.not_eq_false _).mp hdisabled, hlatent⟩
      have hnolatent : (probe call).latent = none :=
        latent_eq_none (by rw [probe_resolvedName]; exact hlatent)
      obtain ⟨r, hr⟩ := toolRoute_ok config hnolatent hallowed hv1
      rw [hr] at he
      cases he
    · -- the extension is activated before the permission is looked up
      simp only [not_or, Bool.not_eq_true, Option.isSome_eq_false_iff, Option.isNone_iff_eq_none,
        Bool.not_eq_false] at hlatent
      rw [activated_of_latent hlatent.1 hlatent.2 hv1] at hactivated
      cases hactivated

theorem stopped_of_inert (h : Inert (probeConfig config.hasMissions) (probe call)
    { probeState with callCount := 0 }) : (call.names config).Stopped := by
  have hcount : Effect.exec (executeActionInternal (probeConfig config.hasMissions) (probe call))
      { probeState with callCount := 0 } =
    Effect.exec (route (probeConfig config.hasMissions) (probe call)) probeState := rfl
  obtain ⟨⟨e, he⟩, -, -, hactivated, -⟩ := h
  rw [hcount] at he hactivated
  exact stopped_of_route he hactivated

end Condition

/-- **Disabled tools.** Every call whose tool is disabled is inert if and only if its names are
stopped. -/
theorem inert_iff_stopped (config : AdapterConfig) (call : ActionCall) :
    (∀ config' call' s, call'.names config' = call.names config →
      (call'.names config').DisabledFor → Inert config' call' s) ↔
      ((call.names config).DisabledFor → (call.names config).Stopped) := by
  constructor
  · intro h hdisabled
    exact stopped_of_inert (h _ _ _ probe_names (by rw [probe_names]; exact hdisabled))
  · intro h config' call' s hnames hdisabled
    rw [hnames] at hdisabled
    exact inert_of_stopped (by rw [hnames]; exact h hdisabled) s

def disabledCall (actionName : Text) (parameters : Json) : ActionCall where
  actionName := actionName
  parameters := parameters
  lease := ⟨1, 1, "missions".toList, .all, none, none, none, false⟩
  ctx := ⟨⟨.mission, 1, "alice".toList, none, none, none, none⟩, "t".toList, none, none⟩
  approvalAlreadyGranted := false
  env :=
    { execution := sampleExecution
      missions := ⟨0, 0, 0, 7, 1, fun _ _ => .error (.other [])⟩
      now := 0
      tools := ∅
      permissions := ⟨AList.insert actionName .disabled ∅⟩
      latent := none
      missingCredential := fun _ => none
      providerReadiness := fun _ => .ready
      extensions := none }

/-- A user who has disabled the creation of missions creates one. -/
theorem disabled_mission_created :
    let config := { sampleAdapter with hasMissions := true }
    let call := disabledCall "mission_create".toList
      (.obj [("cadence".toList, .str "manual".toList)])
    (call.names config).DisabledFor ∧
      (Effect.exec (executeActionInternal config call) probeState).2.missions.active = [7] ∧
      ¬ Inert config call probeState := by
  refine ⟨.inl (by decide), rfl, fun h => ?_⟩
  obtain ⟨e, he⟩ := h.failed
  cases he

end IronClaw.Bridge
