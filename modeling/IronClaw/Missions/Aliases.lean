import IronClaw.Missions.Ownership
import IronClaw.Missions.RoundTrip

/-!
# Routine calls and mission calls

`routine_create` goes through a manual mission and an update, and `routine_update` moves what it can
to where `mission_update` reads it.
-/

namespace IronClaw.Missions

open Foundation (Text Json Effect)
open Option (bind_some getD_some none_or or_none)
open List (map_cons map_nil mem_cons not_mem_nil)

section Parameters

variable {key : String} {k : Text} {v : Option Json} {j : Json}

@[simp] theorem isObject_setIfSome (key : String) (v : Option Json) (j : Json) :
    (setIfSome key v j).isObject = j.isObject := by
  cases v with
  | none => rfl
  | some v => cases j <;> rfl

@[simp] theorem isObject_obj (members : List (Text × Json)) :
    (Json.obj members).isObject = true := rfl

theorem get_setIfSome (hj : j.isObject = true) (key : String) (v : Option Json) (k : Text) :
    (setIfSome key v j).get k = if key.toList = k then v.or (j.get k) else j.get k := by
  cases v with
  | none => rw [setIfSome, none_or, ite_self]
  | some v =>
    cases j with
    | obj members => exact Json.get_obj_setMember ..
    | _ => cases hj

theorem get_setIfSome_self (hj : j.isObject = true) (key : String) (v : Option Json) :
    (setIfSome key v j).get key.toList = v.or (j.get key.toList) := by
  rw [get_setIfSome hj, if_pos rfl]

theorem get_setIfSome_of_ne (hj : j.isObject = true) (h : key.toList ≠ k) :
    (setIfSome key v j).get k = j.get k := by
  rw [get_setIfSome hj, if_neg h]

theorem get_obj_asObject (params : Json) (k : Text) :
    (Json.obj (params.asObject.getD [])).get k = params.get k := by
  cases params <;> rfl

end Parameters

def MissionCadence.inZone (timezone : Option ValidTimezone) : MissionCadence → MissionCadence
  | .cron expression _ => .cron expression timezone
  | c => c

def MissionCadence.printed : MissionCadence → MissionCadence
  | .onSystemEvent source eventType _ => .onSystemEvent source eventType []
  | .webhook path _ => .webhook path none
  | c => c

def ReadsAs (libs : Libraries) (c : MissionCadence) (timezone : Option ValidTimezone) : Prop :=
  parseCadence libs (cadenceToRoundTripString c) timezone = .ok c

theorem parseCadence_inZone {libs : Libraries} {s : Text} {timezone : Option ValidTimezone}
    {c : MissionCadence} (h : parseCadence libs s timezone = .ok c)
    (timezone' : Option ValidTimezone) : parseCadence libs s timezone' = .ok (c.inZone timezone') := by
  rw [parseCadence_eq] at h ⊢
  split_ifs at h ⊢ with hmanual hevent hsystem hwebhook
  · cases h
    rfl
  · obtain ⟨channel, pattern, rfl, -⟩ := parseEvent_eq_ok h
    exact h
  · obtain ⟨source, eventType, rfl, -⟩ := parseSystemEvent_eq_ok h
    exact h
  · rw [parseWebhook] at h ⊢
    split_ifs at h ⊢ with hempty
    cases h
    rfl
  · rw [parseCron] at h ⊢
    split_ifs at h ⊢ with hwords
    cases h
    rfl

theorem parseCadence_manual {libs : Libraries} (h : Lowercases libs.toLowercase)
    (timezone : Option ValidTimezone) :
    parseCadence libs "manual".toList timezone = .ok .manual := by
  have hparse := parseCadence?_manual h timezone
  rw [parseCadence?_eq h] at hparse
  split_ifs at hparse
  exact Option.some.inj hparse

theorem inZone_parseRoutineRequest (libs : Libraries) (params : Json)
    (timezone : Option ValidTimezone) : (parseRoutineRequest libs params).inZone
        (((((subParam params "request" "timezone").bind Json.asStr).bind
          (ValidTimezone.parse libs))).or timezone) = (parseRoutineRequest libs params).inZone
        ((parseRoutineRequest libs params).timezone.or timezone) := by
  rw [parseRoutineRequest]
  split_ifs <;> rfl

theorem Mission.managedBy_self (m : Mission) : m.managedBy m.userId = true := by
  rw [managedBy, isOwnedBy]
  cases hshared : m.isShared with
  | true => exact hshared
  | false => simp

section Left

variable (config : ManagerConfig) (env : CallEnv) (ctx : ThreadExecutionContext)

theorem exec_updateMission (id : MissionId) (userId : Text) (updates : MissionUpdate)
    (s : MissionSystem) :
    (Manager.updateMission config env id userId updates).exec s =
      match s.store.loadMission id with
      | none => (.error (Manager.missionNotFound config id), s)
      | some m =>
        if m.managedBy userId then
          match updates.apply config.libs env.now m with
          | .ok m' => (.ok (), { s with store := s.store.saveMission m' })
          | .error e => (.error e, s)
        else (.error (Manager.accessDenied config id userId), s) := by
  rw [Manager.updateMission, Manager.loadManaged, Manager.loadAllowed]
  cases hload : s.store.loadMission id with
  | none =>
    have hmissing : (Manager.loadMission config id).exec s =
        (.error (Manager.missionNotFound config id), s) := by
      rw [Manager.loadMission, Effect.exec_bind, Effect.exec_get]
      simp only [hload]
      rfl
    exact Effect.exec_bind_error (Effect.exec_bind_error hmissing)
  | some m =>
    have hfound : (Manager.loadMission config id).exec s = (.ok m, s) := by
      rw [Manager.loadMission, Effect.exec_bind, Effect.exec_get]
      simp only [hload]
      rfl
    rw [Effect.exec_bind, Effect.exec_bind_ok hfound]
    dsimp only
    split_ifs with hmanaged
    · rw [hmanaged]
      change ((Effect.ofExcept (updates.apply config.libs env.now m) : MissionOp Mission) >>=
        Manager.saveMission).exec s = _
      rw [Effect.exec_bind, Effect.exec_ofExcept]
      cases updates.apply config.libs env.now m with
      | ok m' => rfl
      | error e => rfl
    · rw [Bool.not_eq_true] at hmanaged
      rw [hmanaged]
      rfl

def createdMission (req : Calls.CreateRequest) (nextFireAt : Option Instant) : Mission :=
  { Mission.new env.newMissionId env.now req.projectId ctx.userId req.name req.goal req.cadence with
    nextFireAt := nextFireAt
    notifyChannels := req.notifyChannels }

def afterUpdates (updates : MissionUpdate) (m : Mission) : Mission :=
  if Calls.hasUpdates updates then (updates.apply config.libs env.now m).toOption.getD m else m

def missionLeft (s : MissionSystem) (actionName : String) (params : Json) : Option Mission :=
  (handleMissionCall config env ctx actionName.toList params).bind fun op =>
    (op.exec s).2.store.loadMission env.newMissionId

variable {config env ctx}

theorem loadMission_create {s : MissionSystem} {req : Calls.CreateRequest}
    {next : Option Instant} (hnext : scheduledFire config.libs env.now req.cadence = .ok next) :
    ((Calls.create config env ctx req).exec s).2.store.loadMission env.newMissionId =
      some (afterUpdates config env req.updates (createdMission env ctx req next)) := by
  let m := createdMission env ctx req next
  let created : MissionSystem :=
    { s with store := s.store.saveMission m, active := s.active ++ [m.id] }
  have hcreate : (Manager.createMission config env req.projectId ctx.userId req.name req.goal
      req.cadence req.notifyChannels).exec s = (.ok env.newMissionId, created) := by
    rw [Manager.createMission, hnext]
    rfl
  have hload : created.store.loadMission env.newMissionId = some m := by
    rw [MissionStore.loadMission_saveMission]
    exact if_pos rfl
  rw [Calls.create, Effect.exec_bind_ok hcreate, Effect.exec_bind_reads fun _ => Effect.Reads.pure _,
    Calls.applyUpdates, afterUpdates]
  split_ifs with hupdates
  · rw [Effect.exec_attempt]
    dsimp only
    rw [exec_updateMission, hload]
    dsimp only
    have hown : m.managedBy ctx.userId = true := Mission.managedBy_self m
    rw [if_pos hown, ← show m = createdMission env ctx req next from rfl]
    cases happly : req.updates.apply config.libs env.now m with
    | error e => exact hload
    | ok m' =>
      have hid : env.newMissionId = m'.id := (MissionUpdate.of_apply happly).1.symm
      change (created.store.saveMission m').loadMission env.newMissionId = some m'
      rw [MissionStore.loadMission_saveMission, if_pos hid]
  · exact hload

theorem loadMission_create_of_error {s : MissionSystem} {req : Calls.CreateRequest}
    {e : EngineError} (herror : scheduledFire config.libs env.now req.cadence = .error e) :
    ((Calls.create config env ctx req).exec s).2 = s := by
  have hcreate : (Manager.createMission config env req.projectId ctx.userId req.name req.goal
      req.cadence req.notifyChannels).exec s = (.error e, s) := by
    rw [Manager.createMission, herror]
    rfl
  rw [Calls.create, Effect.exec_bind_error hcreate]

end Left

def givenGuardrail (params : Json) (group key : String) : Option Json :=
  (subParam params group key).or (params.get key.toList)

def SetsGuardrail (params : Json) (group key : String) (o : Option Nat) : Prop :=
  ∀ v, givenGuardrail params group key = some v → ∃ n, v.asU64 = some n ∧ o = some n

/-- The parameters of `mission_create` that say what those of a routine say, as far as they can. -/
def flatParams (libs : Libraries) (params : Json) : Json :=
  setIfSome "timezone" (subParam params "request" "timezone") <|
  setIfSome "dedup_window_secs" (givenGuardrail params "guardrails" "dedup_window_secs") <|
  setIfSome "max_concurrent" (givenGuardrail params "guardrails" "max_concurrent") <|
  setIfSome "cooldown_secs" (givenGuardrail params "advanced" "cooldown_secs") <|
  setIfSome "cadence" (some (.str (cadenceToRoundTripString (parseRoutineRequest libs params)))) <|
  routineCreateParams params

section Creating

variable {config : ManagerConfig} {env : CallEnv} {ctx : ThreadExecutionContext} {params : Json}

theorem routineCreateParams_eq : routineCreateParams params = setIfSome "notify_channels"
    (((subParam params "delivery" "channel").bind Json.asStr).map fun channel => .arr [.str channel])
    (.obj [("name".toList, .str ((strParam params "name").getD "unnamed routine".toList)),
      ("goal".toList, .str ((((params.get "prompt".toList).or (params.get "goal".toList)).bind
        Json.asStr).getD [])), ("cadence".toList, .str "manual".toList)]) := by
  rw [routineCreateParams]
  cases (subParam params "delivery" "channel").bind Json.asStr <;> rfl

@[simp] theorem isObject_routineCreateParams : (routineCreateParams params).isObject = true := by
  rw [routineCreateParams_eq, isObject_setIfSome, isObject_obj]

theorem get_routineCreateParams {k : Text}
    (hk : k ∉ ["name", "goal", "cadence", "notify_channels"].map String.toList) :
    (routineCreateParams params).get k = none := by
  simp only [map_cons, map_nil, mem_cons, not_mem_nil, or_false, not_or] at hk
  obtain ⟨hname, hgoal, hcadence, hchannels⟩ := hk
  rw [routineCreateParams_eq, get_setIfSome_of_ne rfl (Ne.symm hchannels),
    Json.get_obj_of_ne (Ne.symm hname), Json.get_obj_of_ne (Ne.symm hgoal),
    Json.get_obj_of_ne (Ne.symm hcadence), Json.get_obj_nil]

theorem get_name_routineCreateParams : (routineCreateParams params).get "name".toList =
    some (.str ((strParam params "name").getD "unnamed routine".toList)) := by
  rw [routineCreateParams_eq, get_setIfSome_of_ne rfl (by decide), Json.get_obj_self]

theorem get_goal_routineCreateParams : (routineCreateParams params).get "goal".toList =
    some (.str ((((params.get "prompt".toList).or (params.get "goal".toList)).bind
      Json.asStr).getD [])) := by
  rw [routineCreateParams_eq, get_setIfSome_of_ne rfl (by decide), Json.get_obj_of_ne (by decide),
    Json.get_obj_self]

theorem get_cadence_routineCreateParams : (routineCreateParams params).get "cadence".toList =
    some (.str "manual".toList) := by
  rw [routineCreateParams_eq, get_setIfSome_of_ne rfl (by decide), Json.get_obj_of_ne (by decide),
    Json.get_obj_of_ne (by decide), Json.get_obj_self]

theorem get_notifyChannels_routineCreateParams :
    (routineCreateParams params).get "notify_channels".toList =
      ((subParam params "delivery" "channel").bind Json.asStr).map fun channel =>
        .arr [.str channel] := by
  rw [routineCreateParams_eq, get_setIfSome_self rfl, Json.get_obj_of_ne (by decide),
    Json.get_obj_of_ne (by decide), Json.get_obj_of_ne (by decide), Json.get_obj_nil, or_none]

theorem strictU64_eq_ok {libs : Libraries} {key : String} {o : Option Nat}
    (h : strictU64 libs params key = .ok o) : o = (params.get key.toList).bind Json.asU64 ∧
      ∀ v, params.get key.toList = some v → ∃ n, v.asU64 = some n ∧ o = some n := by
  rw [strictU64] at h
  cases hv : params.get key.toList with
  | none =>
    rw [hv] at h
    cases h
    exact ⟨rfl, nofun⟩
  | some v =>
    rw [hv] at h
    dsimp only at h
    cases hn : v.asU64 with
    | none =>
      rw [hn] at h
      cases h
    | some n =>
      rw [hn] at h
      cases h
      exact ⟨hn.symm, fun v' hv' => ⟨n, Option.some.inj hv' ▸ hn, rfl⟩⟩

theorem strictU32_eq_ok {libs : Libraries} {key : String} {o : Option Nat}
    (h : strictU32 libs params key = .ok o) :
    strictU64 libs params key = .ok o ∧ ∀ n, o = some n → n < 2 ^ 32 := by
  rw [strictU32] at h
  split at h
  · cases h
  · next hnone =>
    cases h
    exact ⟨hnone, nofun⟩
  · next n hn =>
    split_ifs at h with hlt
    cases h
    exact ⟨hn, fun n' hn' => Option.some.inj hn' ▸ hlt⟩

theorem strictU64_of_none {libs : Libraries} {key : String} (h : params.get key.toList = none) :
    strictU64 libs params key = .ok none := by
  rw [strictU64, h]

theorem strictU32_of_none {libs : Libraries} {key : String} (h : params.get key.toList = none) :
    strictU32 libs params key = .ok none := by
  rw [strictU32, strictU64_of_none h]

theorem extractGuardrails_eq_ok {libs : Libraries} {base updates : MissionUpdate}
    (h : extractGuardrails libs params base = .ok updates) :
    ∃ cooldown concurrent dedup perDay,
      strictU64 libs params "cooldown_secs" = .ok cooldown ∧
      strictU32 libs params "max_concurrent" = .ok concurrent ∧
      strictU64 libs params "dedup_window_secs" = .ok dedup ∧
      strictU32 libs params "max_threads_per_day" = .ok perDay ∧
      updates = { base with
        cooldownSecs := cooldown.or base.cooldownSecs
        maxConcurrent := concurrent.or base.maxConcurrent
        dedupWindowSecs := dedup.or base.dedupWindowSecs
        maxThreadsPerDay := perDay.or base.maxThreadsPerDay } := by
  obtain ⟨cooldown, hcooldown, h⟩ := Effect.bind_eq_ok_iff.mp h
  obtain ⟨concurrent, hconcurrent, h⟩ := Effect.bind_eq_ok_iff.mp h
  obtain ⟨dedup, hdedup, h⟩ := Effect.bind_eq_ok_iff.mp h
  obtain ⟨perDay, hperDay, h⟩ := Effect.bind_eq_ok_iff.mp h
  cases h
  exact ⟨cooldown, concurrent, dedup, perDay, hcooldown, hconcurrent, hdedup, hperDay, rfl⟩

def routineRequest (ctx : ThreadExecutionContext) (params : Json) (cadence : MissionCadence)
    (updates : MissionUpdate) : Calls.CreateRequest where
  projectId := ctx.projectId
  name := (strParam params "name").getD "unnamed routine".toList
  goal := (((params.get "prompt".toList).or (params.get "goal".toList)).bind Json.asStr).getD []
  cadence := cadence
  notifyChannels :=
    (((subParam params "delivery" "channel").bind Json.asStr).map fun channel => [channel]).getD
      ctx.sourceChannel.toList
  updates := updates

variable {projects : Foundation.HashMap ProjectId Project}

theorem createRequest_eq {p : Json} {cadenceText : Text} {cadence : MissionCadence}
    (hreject : shouldRejectImmediateMissionCreate ctx = false)
    (habsent : ∀ key ∈ ["project_id", "success_criteria"].map String.toList, p.get key = none)
    (hname : p.get "name".toList = (routineCreateParams params).get "name".toList)
    (hgoal : p.get "goal".toList = (routineCreateParams params).get "goal".toList)
    (hchannels : p.get "notify_channels".toList =
      (routineCreateParams params).get "notify_channels".toList)
    (hcadence : p.get "cadence".toList = some (.str cadenceText))
    (hreads : parseCadence config.libs cadenceText (timezoneParam config.libs p ctx) = .ok cadence)
    (base : Option MissionUpdate) :
    Calls.createRequest config ctx p base projects =
      match extractGuardrails config.libs p (base.getD MissionUpdate.default) with
      | .error msg => .error (.invalid msg)
      | .ok updates => .ok (routineRequest ctx params cadence updates) := by
  have hproject : strParam p "project_id" = none := by
    rw [strParam, habsent _ List.mem_cons_self]
    rfl
  have hcriteria : strParam p "success_criteria" = none := by
    rw [strParam, habsent _ (List.mem_cons_of_mem _ List.mem_cons_self)]
    rfl
  have hfirst (key : String) (i : Nat) {v : Json} (hv : p.get key.toList = some v) :
      firstParam p [key] i = some v := by
    rw [firstParam, List.findSome?_cons, hv]
    rfl
  have hstr (t : Text) : (Json.str t).asStr = some t := rfl
  rw [Calls.createRequest, if_neg (by rw [hreject]; decide), hfirst _ _ hcadence,
    hfirst _ _ (hname.trans get_name_routineCreateParams),
    hfirst _ _ (hgoal.trans get_goal_routineCreateParams)]
  simp only [routineRequest]
  generalize (strParam params "name").getD "unnamed routine".toList = name
  generalize (((params.get "prompt".toList).or (params.get "goal".toList)).bind Json.asStr).getD [] =
    goal
  simp only [bind_some, hstr, hreads, Calls.targetProject, hproject, hcriteria,
    none_or, notifyChannelsParam, hchannels, get_notifyChannels_routineCreateParams]
  cases extractGuardrails config.libs p (base.getD MissionUpdate.default) with
  | error msg => rfl
  | ok updates =>
    dsimp only
    rw [getD_some, getD_some]
    cases (subParam params "delivery" "channel").bind Json.asStr <;> rfl

theorem createRequest_routineCreateParams (h : Lowercases config.libs.toLowercase)
    (hreject : shouldRejectImmediateMissionCreate ctx = false) (updates : MissionUpdate) :
    Calls.createRequest config ctx (routineCreateParams params) (some updates) projects =
      .ok (routineRequest ctx params .manual updates) := by
  have habsent (key : String)
      (hkey : key.toList ∉ ["name", "goal", "cadence", "notify_channels"].map String.toList) :
      (routineCreateParams params).get key.toList = none := get_routineCreateParams hkey
  have hguards : extractGuardrails config.libs (routineCreateParams params) updates =
      .ok updates := by
    rw [extractGuardrails, strictU64_of_none (habsent _ (by decide)),
      strictU32_of_none (habsent _ (by decide)), strictU64_of_none (habsent _ (by decide)),
      strictU32_of_none (habsent _ (by decide))]
    rfl
  rw [createRequest_eq hreject (fun key hkey => get_routineCreateParams (by revert key; decide)) rfl
    rfl rfl get_cadence_routineCreateParams (parseCadence_manual h _), getD_some, hguards]

section Flat

variable (libs : Libraries) (params : Json)

theorem get_flatParams_of_not_mem {k : Text} (hk : k ∉ ["timezone", "dedup_window_secs",
    "max_concurrent", "cooldown_secs", "cadence"].map String.toList) :
    (flatParams libs params).get k = (routineCreateParams params).get k := by
  simp only [map_cons, map_nil, mem_cons, not_mem_nil, or_false, not_or] at hk
  obtain ⟨htimezone, hdedup, hconcurrent, hcooldown, hcadence⟩ := hk
  rw [flatParams, get_setIfSome_of_ne (by simp) (Ne.symm htimezone),
    get_setIfSome_of_ne (by simp) (Ne.symm hdedup),
    get_setIfSome_of_ne (by simp) (Ne.symm hconcurrent),
    get_setIfSome_of_ne (by simp) (Ne.symm hcooldown), get_setIfSome_of_ne (by simp) (Ne.symm hcadence)]

theorem get_cadence_flatParams : (flatParams libs params).get "cadence".toList =
    some (.str (cadenceToRoundTripString (parseRoutineRequest libs params))) := by
  simp (disch := first | decide | simp) only [flatParams, get_setIfSome_of_ne, get_setIfSome_self,
    Option.some_or]

theorem get_timezone_flatParams : (flatParams libs params).get "timezone".toList =
    subParam params "request" "timezone" := by
  simp (disch := first | decide | simp) only [flatParams, get_setIfSome_of_ne, get_setIfSome_self,
    get_routineCreateParams, or_none]

theorem get_dedup_flatParams : (flatParams libs params).get "dedup_window_secs".toList =
    givenGuardrail params "guardrails" "dedup_window_secs" := by
  simp (disch := first | decide | simp) only [flatParams, get_setIfSome_of_ne, get_setIfSome_self,
    get_routineCreateParams, or_none]

theorem get_concurrent_flatParams : (flatParams libs params).get "max_concurrent".toList =
    givenGuardrail params "guardrails" "max_concurrent" := by
  simp (disch := first | decide | simp) only [flatParams, get_setIfSome_of_ne, get_setIfSome_self,
    get_routineCreateParams, or_none]

theorem get_cooldown_flatParams : (flatParams libs params).get "cooldown_secs".toList =
    givenGuardrail params "advanced" "cooldown_secs" := by
  simp (disch := first | decide | simp) only [flatParams, get_setIfSome_of_ne, get_setIfSome_self,
    get_routineCreateParams, or_none]

variable {libs params}

theorem extractGuardrails_flatParams {updates : MissionUpdate}
    (h : extractGuardrails libs (flatParams libs params) MissionUpdate.default = .ok updates) :
    (updates = { MissionUpdate.default with
        cooldownSecs := (routineCreateUpdate libs params).cooldownSecs
        maxConcurrent := (routineCreateUpdate libs params).maxConcurrent
        dedupWindowSecs := (routineCreateUpdate libs params).dedupWindowSecs }) ∧
      SetsGuardrail params "advanced" "cooldown_secs" updates.cooldownSecs ∧
      SetsGuardrail params "guardrails" "max_concurrent" updates.maxConcurrent ∧
      SetsGuardrail params "guardrails" "dedup_window_secs" updates.dedupWindowSecs := by
  obtain ⟨cooldown, concurrent, dedup, perDay, hcooldown, hconcurrent, hdedup, hperDay, rfl⟩ :=
    extractGuardrails_eq_ok h
  obtain ⟨hconcurrent, hsmall⟩ := strictU32_eq_ok hconcurrent
  have hnoPerDay : strictU32 libs (flatParams libs params) "max_threads_per_day" = .ok none :=
    strictU32_of_none (by
      rw [get_flatParams_of_not_mem libs params (by decide), get_routineCreateParams (by decide)])
  cases hnoPerDay.symm.trans hperDay
  obtain ⟨hcooldown, hcooldown'⟩ := strictU64_eq_ok hcooldown
  obtain ⟨hconcurrent, hconcurrent'⟩ := strictU64_eq_ok hconcurrent
  obtain ⟨hdedup, hdedup'⟩ := strictU64_eq_ok hdedup
  rw [get_cooldown_flatParams] at hcooldown hcooldown'
  rw [get_concurrent_flatParams] at hconcurrent hconcurrent'
  rw [get_dedup_flatParams] at hdedup hdedup'
  have hmodulo : ((givenGuardrail params "guardrails" "max_concurrent").bind Json.asU64).map
      (fun n => n % 2 ^ 32) = concurrent := by
    rw [← hconcurrent]
    cases concurrent with
    | none => rfl
    | some n => exact congrArg some (Nat.mod_eq_of_lt (hsmall n rfl))
  simp only [MissionUpdate.default, or_none]
  refine ⟨?_, hcooldown', hconcurrent', hdedup'⟩
  rw [hcooldown, hdedup, ← hmodulo]
  rfl

end Flat

theorem createRequest_flatParams
    (hreads : ReadsAs config.libs (parseRoutineRequest config.libs params)
      (parseRoutineRequest config.libs params).timezone)
    (hreject : shouldRejectImmediateMissionCreate ctx = false) :
    Calls.createRequest config ctx (flatParams config.libs params) none projects =
      match extractGuardrails config.libs (flatParams config.libs params) MissionUpdate.default with
      | .error msg => .error (.invalid msg)
      | .ok updates => .ok (routineRequest ctx params ((parseRoutineRequest config.libs params).inZone
          ((parseRoutineRequest config.libs params).timezone.or ctx.userTimezone)) updates) := by
  have hzone : parseCadence config.libs
      (cadenceToRoundTripString (parseRoutineRequest config.libs params))
      (timezoneParam config.libs (flatParams config.libs params) ctx) =
        .ok ((parseRoutineRequest config.libs params).inZone
          ((parseRoutineRequest config.libs params).timezone.or ctx.userTimezone)) := by
    rw [parseCadence_inZone hreads, timezoneParam, strParam, get_timezone_flatParams,
      inZone_parseRoutineRequest]
  have hsame (key : String) (hkey : key.toList ∉ ["timezone", "dedup_window_secs",
      "max_concurrent", "cooldown_secs", "cadence"].map String.toList) :=
    get_flatParams_of_not_mem config.libs params hkey
  refine createRequest_eq hreject (fun key hkey => ?_) (hsame "name" (by decide))
    (hsame "goal" (by decide)) (hsame "notify_channels" (by decide)) (get_cadence_flatParams _ _)
    hzone none
  rw [get_flatParams_of_not_mem _ _ (by revert key; decide),
    get_routineCreateParams (by revert key; decide)]

theorem handleMissionCall_mission_create (config : ManagerConfig) (env : CallEnv)
    (ctx : ThreadExecutionContext) (params : Json) : ∃ callId,
      handleMissionCall config env ctx "mission_create".toList params =
        some (finish callId "mission_create".toList
          (Calls.missionCreate config env ctx params none)) := by
  have hrenamed : renamedRoutineAction "mission_create".toList = none := by decide
  have hcall : effectiveCall config.libs "mission_create".toList params =
      ⟨"mission_create".toList, params, none⟩ := by
    rw [effectiveCall, routineToMissionAlias, if_neg (by decide), if_neg (by decide), hrenamed]
    rfl
  have haction : MissionAction.ofName "mission_create".toList = some .create := by decide
  rw [handleMissionCall]
  simp only [hcall, haction]
  exact ⟨_, rfl⟩

theorem handleMissionCall_routine_create (config : ManagerConfig) (env : CallEnv)
    (ctx : ThreadExecutionContext) (params : Json) : ∃ callId,
      handleMissionCall config env ctx "routine_create".toList params =
        some (finish callId "mission_create".toList (Calls.missionCreate config env ctx
          (routineCreateParams params) (some (routineCreateUpdate config.libs params)))) := by
  have hcall : effectiveCall config.libs "routine_create".toList params =
      ⟨"mission_create".toList, routineCreateParams params,
        some (routineCreateUpdate config.libs params)⟩ := by
    rw [effectiveCall, routineToMissionAlias, if_pos (by decide)]
  have haction : MissionAction.ofName "mission_create".toList = some .create := by decide
  rw [handleMissionCall]
  simp only [hcall, haction]
  exact ⟨_, rfl⟩

theorem missionLeft_routine_create (h : Lowercases config.libs.toLowercase)
    (hreject : shouldRejectImmediateMissionCreate ctx = false) (s : MissionSystem) :
    missionLeft config env ctx s "routine_create" params =
      some (afterUpdates config env (routineCreateUpdate config.libs params)
        (createdMission env ctx (routineRequest ctx params .manual
          (routineCreateUpdate config.libs params)) none)) := by
  obtain ⟨callId, hcall⟩ := handleMissionCall_routine_create config env ctx params
  rw [missionLeft, hcall, bind_some, exec_finish_snd, Calls.missionCreate, Effect.exec_bind,
    Effect.exec_get]
  dsimp only
  rw [createRequest_routineCreateParams h hreject]
  exact loadMission_create rfl

theorem of_missionLeft_flatParams {s : MissionSystem} {m : Mission}
    (hreads : ReadsAs config.libs (parseRoutineRequest config.libs params)
      (parseRoutineRequest config.libs params).timezone)
    (hfresh : s.store.loadMission env.newMissionId = none)
    (hleft : missionLeft config env ctx s "mission_create" (flatParams config.libs params) = some m) :
    shouldRejectImmediateMissionCreate ctx = false ∧ ∃ updates next,
      extractGuardrails config.libs (flatParams config.libs params) MissionUpdate.default =
        .ok updates ∧
      m = afterUpdates config env updates (createdMission env ctx (routineRequest ctx params
        ((parseRoutineRequest config.libs params).inZone
          ((parseRoutineRequest config.libs params).timezone.or ctx.userTimezone)) updates) next) := by
  obtain ⟨callId, hcall⟩ :=
    handleMissionCall_mission_create config env ctx (flatParams config.libs params)
  rw [missionLeft, hcall, bind_some, exec_finish_snd, Calls.missionCreate, Effect.exec_bind,
    Effect.exec_get] at hleft
  dsimp only at hleft
  cases hreject : shouldRejectImmediateMissionCreate ctx with
  | true =>
    rw [Calls.createRequest, if_pos hreject] at hleft
    cases hfresh.symm.trans hleft
  | false =>
    rw [createRequest_flatParams hreads hreject] at hleft
    cases hguards : extractGuardrails config.libs (flatParams config.libs params)
        MissionUpdate.default with
    | error msg =>
      rw [hguards] at hleft
      cases hfresh.symm.trans hleft
    | ok updates =>
      rw [hguards] at hleft
      dsimp only at hleft
      let req := routineRequest ctx params ((parseRoutineRequest config.libs params).inZone
        ((parseRoutineRequest config.libs params).timezone.or ctx.userTimezone)) updates
      cases hnext : scheduledFire config.libs env.now req.cadence with
      | error e =>
        rw [loadMission_create_of_error hnext] at hleft
        cases hfresh.symm.trans hleft
      | ok next =>
        rw [loadMission_create hnext] at hleft
        exact ⟨rfl, updates, next, rfl, (Option.some.inj hleft).symm⟩

end Creating

/-- The mission without ids, times, cadence, guardrails, and what `mission_create` cannot say. -/
def Mission.besides (m : Mission) : Mission :=
  { m with
    id := 0
    description := none
    cadence := .manual
    notifyUser := none
    contextPaths := []
    maxThreadsPerDay := 0
    cooldownSecs := 0
    maxConcurrent := 0
    dedupWindowSecs := 0
    createdAt := 0
    updatedAt := 0
    nextFireAt := none }

/-- A routine has the time zone of its request only, and open guardrails if it reacts to events. -/
structure Corresponds (libs : Libraries) (ctx : ThreadExecutionContext) (params : Json)
    (m m' : Mission) : Prop where
  besides : m.besides = m'.besides
  cadence : m.cadence = parseRoutineRequest libs params
  cadence' : m'.cadence = m.cadence.inZone (m.cadence.timezone.or ctx.userTimezone)
  description : m.description = (routineCreateUpdate libs params).description
  notifyUser : m.notifyUser = (routineCreateUpdate libs params).notifyUser
  contextPaths : m.contextPaths = (routineCreateUpdate libs params).contextPaths.getD []
  cooldown : ∀ v, givenGuardrail params "advanced" "cooldown_secs" = some v →
    v.asU64 = some m.cooldownSecs ∧ m'.cooldownSecs = m.cooldownSecs
  concurrent : ∀ v, givenGuardrail params "guardrails" "max_concurrent" = some v →
    v.asU64 = some m.maxConcurrent ∧ m'.maxConcurrent = m.maxConcurrent
  dedup : ∀ v, givenGuardrail params "guardrails" "dedup_window_secs" = some v →
    v.asU64 = some m.dedupWindowSecs ∧ m'.dedupWindowSecs = m.dedupWindowSecs
  defaults : m.cadence.isReactive = false → m.maxThreadsPerDay = m'.maxThreadsPerDay ∧
    m.cooldownSecs = m'.cooldownSecs ∧ m.maxConcurrent = m'.maxConcurrent ∧
    m.dedupWindowSecs = m'.dedupWindowSecs

section Creating

variable {config : ManagerConfig} {env env' : CallEnv} {ctx : ThreadExecutionContext} {params : Json}

theorem isReactive_inZone (c : MissionCadence) (timezone : Option ValidTimezone) :
    (c.inZone timezone).isReactive = c.isReactive := by
  cases c <;> rfl

theorem afterUpdates_guardrails (cooldown concurrent dedup : Option Nat) (m : Mission)
    (hnow : m.updatedAt = env.now) :
    afterUpdates config env { MissionUpdate.default with
        cooldownSecs := cooldown, maxConcurrent := concurrent, dedupWindowSecs := dedup } m =
      { m with
        cooldownSecs := cooldown.getD m.cooldownSecs
        maxConcurrent := concurrent.getD m.maxConcurrent
        dedupWindowSecs := dedup.getD m.dedupWindowSecs } := by
  have hm : { m with updatedAt := env.now } = m := by rw [← hnow]
  rw [afterUpdates]
  split_ifs with hupdates
  · rw [← hm]
    rfl
  · -- there are no guardrails
    cases cooldown <;> cases concurrent <;> cases dedup <;>
      first
      | rfl
      | exact absurd rfl hupdates

theorem corresponds_of_missionLeft (h : Lowercases config.libs.toLowercase)
    (hreads : ReadsAs config.libs (parseRoutineRequest config.libs params)
      (parseRoutineRequest config.libs params).timezone) {next : Option Instant}
    (hnext : scheduledFire config.libs env.now (parseRoutineRequest config.libs params) = .ok next)
    (s : MissionSystem) {s' : MissionSystem} {m' : Mission}
    (hfresh : s'.store.loadMission env'.newMissionId = none)
    (hleft : missionLeft config env' ctx s' "mission_create" (flatParams config.libs params) =
      some m') : ∃ m, missionLeft config env ctx s "routine_create" params = some m ∧
      Corresponds config.libs ctx params m m' := by
  obtain ⟨hreject, updates, next', hguards, rfl⟩ := of_missionLeft_flatParams hreads hfresh hleft
  obtain ⟨rfl, hcooldown, hconcurrent, hdedup⟩ := extractGuardrails_flatParams hguards
  rw [missionLeft_routine_create h hreject, afterUpdates_guardrails _ _ _ _ rfl]
  have happly : afterUpdates config env (routineCreateUpdate config.libs params)
      (createdMission env ctx (routineRequest ctx params .manual
        (routineCreateUpdate config.libs params)) none) =
      { createdMission env ctx (routineRequest ctx params .manual
          (routineCreateUpdate config.libs params)) none with
        description := (routineCreateUpdate config.libs params).description
        cadence := parseRoutineRequest config.libs params
        notifyUser := (routineCreateUpdate config.libs params).notifyUser
        contextPaths := (routineCreateUpdate config.libs params).contextPaths.getD []
        cooldownSecs := (routineCreateUpdate config.libs params).cooldownSecs.getD 0
        maxConcurrent := (routineCreateUpdate config.libs params).maxConcurrent.getD 0
        dedupWindowSecs := (routineCreateUpdate config.libs params).dedupWindowSecs.getD 0
        nextFireAt := next } := by
    have hupdates : Calls.hasUpdates (routineCreateUpdate config.libs params) = true := by
      rw [Calls.hasUpdates, show (routineCreateUpdate config.libs params).cadence.isSome = true from
        rfl]
      simp only [Bool.or_true, Bool.true_or]
    rw [afterUpdates, if_pos hupdates, MissionUpdate.apply, MissionUpdate.nextFire,
      show (routineCreateUpdate config.libs params).cadence =
        some (parseRoutineRequest config.libs params) from rfl]
    dsimp only
    rw [hnext]
    cases (routineCreateUpdate config.libs params).description <;>
      cases (routineCreateUpdate config.libs params).notifyUser <;> rfl
  rw [happly]
  refine ⟨_, rfl, ?_⟩
  constructor
  case defaults =>
    intro hplain
    have hplain' : ((parseRoutineRequest config.libs params).inZone
        ((parseRoutineRequest config.libs params).timezone.or ctx.userTimezone)).isReactive = false :=
      (isReactive_inZone _ _).trans hplain
    dsimp only [createdMission, Mission.new, routineRequest]
    rw [hplain']
    exact ⟨rfl, rfl, rfl, rfl⟩
  case cooldown =>
    intro v hv
    obtain ⟨n, hn, ho⟩ := hcooldown v hv
    dsimp only at ho ⊢
    rw [ho]
    exact ⟨hn, rfl⟩
  case concurrent =>
    intro v hv
    obtain ⟨n, hn, ho⟩ := hconcurrent v hv
    dsimp only at ho ⊢
    rw [ho]
    exact ⟨hn, rfl⟩
  case dedup =>
    intro v hv
    obtain ⟨n, hn, ho⟩ := hdedup v hv
    dsimp only at ho ⊢
    rw [ho]
    exact ⟨hn, rfl⟩
  all_goals rfl

end Creating

def failed : Except EngineError ActionResult → Bool
  | .ok result => result.isError
  | .error _ => true

def givenGoal (params : Json) : Option Text := (strParam params "prompt").or (strParam params "goal")

def givenChannels (params : Json) : Option (List Text) :=
  (((subParam params "delivery" "channel").bind Json.asStr).map fun channel => [channel]).or
    (notifyChannelsParam params)

/-- What an update that succeeds has set. A cadence is set as a cadence string says it. -/
structure UpdateSets (libs : Libraries) (ctx : ThreadExecutionContext) (params : Json)
    (m : Mission) : Prop where
  goal : ∀ goal, givenGoal params = some goal → m.goal = goal
  channels : ∀ channels, givenChannels params = some channels → m.notifyChannels = channels
  cooldown : ∀ v, givenGuardrail params "advanced" "cooldown_secs" = some v →
    v.asU64 = some m.cooldownSecs
  concurrent : ∀ v, givenGuardrail params "guardrails" "max_concurrent" = some v →
    v.asU64 = some m.maxConcurrent
  dedup : ∀ v, givenGuardrail params "guardrails" "dedup_window_secs" = some v →
    v.asU64 = some m.dedupWindowSecs
  cadence : (params.get "request".toList).isSome →
    ReadsAs libs (parseRoutineRequest libs params).printed (timezoneParam libs params ctx) →
    m.cadence = (parseRoutineRequest libs params).printed

section Updating

variable {config : ManagerConfig} {env : CallEnv} {ctx : ThreadExecutionContext}
  (libs : Libraries) (params : Json)

theorem get_routineUpdateParams {k : Text} (hk : k ∉ ["cadence", "max_concurrent",
    "dedup_window_secs", "cooldown_secs", "notify_channels", "notify_user", "context_paths",
    "goal"].map String.toList) : (routineUpdateParams libs params).get k = params.get k := by
  simp only [map_cons, map_nil, mem_cons, not_mem_nil, or_false, not_or] at hk
  obtain ⟨hcadence, hconcurrent, hdedup, hcooldown, hchannels, huser, hpaths, hgoal⟩ := hk
  rw [routineUpdateParams, get_setIfSome_of_ne (by simp) (Ne.symm hcadence),
    get_setIfSome_of_ne (by simp) (Ne.symm hconcurrent),
    get_setIfSome_of_ne (by simp) (Ne.symm hdedup),
    get_setIfSome_of_ne (by simp) (Ne.symm hcooldown),
    get_setIfSome_of_ne (by simp) (Ne.symm hchannels),
    get_setIfSome_of_ne (by simp) (Ne.symm huser),
    get_setIfSome_of_ne (by simp) (Ne.symm hpaths),
    get_setIfSome_of_ne rfl (Ne.symm hgoal), get_obj_asObject]

theorem get_goal_routineUpdateParams : (routineUpdateParams libs params).get "goal".toList =
    ((strParam params "prompt").map .str).or (params.get "goal".toList) := by
  simp (disch := first | exact isObject_obj _ | decide | simp) only [routineUpdateParams,
    get_setIfSome_of_ne, get_setIfSome_self, get_obj_asObject]

theorem get_channels_routineUpdateParams :
    (routineUpdateParams libs params).get "notify_channels".toList =
      (((subParam params "delivery" "channel").bind Json.asStr).map fun channel =>
        .arr [.str channel]).or (params.get "notify_channels".toList) := by
  simp (disch := first | exact isObject_obj _ | decide | simp) only [routineUpdateParams,
    get_setIfSome_of_ne, get_setIfSome_self, get_obj_asObject]

theorem get_cooldown_routineUpdateParams :
    (routineUpdateParams libs params).get "cooldown_secs".toList =
      givenGuardrail params "advanced" "cooldown_secs" := by
  simp (disch := first | exact isObject_obj _ | decide | simp) only [routineUpdateParams,
    get_setIfSome_of_ne, get_setIfSome_self, get_obj_asObject, givenGuardrail]

theorem get_concurrent_routineUpdateParams :
    (routineUpdateParams libs params).get "max_concurrent".toList =
      givenGuardrail params "guardrails" "max_concurrent" := by
  simp (disch := first | exact isObject_obj _ | decide | simp) only [routineUpdateParams,
    get_setIfSome_of_ne, get_setIfSome_self, get_obj_asObject, givenGuardrail]

theorem get_dedup_routineUpdateParams :
    (routineUpdateParams libs params).get "dedup_window_secs".toList =
      givenGuardrail params "guardrails" "dedup_window_secs" := by
  simp (disch := first | exact isObject_obj _ | decide | simp) only [routineUpdateParams,
    get_setIfSome_of_ne, get_setIfSome_self, get_obj_asObject, givenGuardrail]

theorem get_cadence_routineUpdateParams : (routineUpdateParams libs params).get "cadence".toList =
      ((params.get "request".toList).map fun _ =>
        Json.str (cadenceToRoundTripString (parseRoutineRequest libs params))).or
          (params.get "cadence".toList) := by
  simp (disch := first | exact isObject_obj _ | decide | simp) only [routineUpdateParams,
    get_setIfSome_of_ne, get_setIfSome_self, get_obj_asObject]

theorem cadenceToRoundTripString_printed (c : MissionCadence) :
    cadenceToRoundTripString c.printed = cadenceToRoundTripString c := by
  cases c <;> rfl

variable {libs params}

theorem updateRequest_eq (params : Json) : Calls.updateRequest config ctx params =
    (match strParam params "cadence" with
      | some text => (parseCadence config.libs text (timezoneParam config.libs params ctx)).map some
      | none => .ok none) >>= fun cadence =>
    extractGuardrails config.libs params { MissionUpdate.default with
      name := strParam params "name"
      goal := strParam params "goal"
      cadence := cadence
      notifyChannels := notifyChannelsParam params } >>= fun updates =>
    .ok { updates with successCriteria := strParam params "success_criteria" } := by
  rw [Calls.updateRequest]
  cases strParam params "cadence" <;> rfl

theorem updateRequest_eq_ok {updates : MissionUpdate}
    (h : Calls.updateRequest config ctx (routineUpdateParams config.libs params) = .ok updates) :
    updates.goal = givenGoal params ∧ updates.notifyChannels = givenChannels params ∧
      SetsGuardrail params "advanced" "cooldown_secs" updates.cooldownSecs ∧
      SetsGuardrail params "guardrails" "max_concurrent" updates.maxConcurrent ∧
      SetsGuardrail params "guardrails" "dedup_window_secs" updates.dedupWindowSecs ∧
      ((params.get "request".toList).isSome →
        ReadsAs config.libs (parseRoutineRequest config.libs params).printed
          (timezoneParam config.libs params ctx) →
        updates.cadence = some (parseRoutineRequest config.libs params).printed) := by
  rw [updateRequest_eq] at h
  obtain ⟨cadence, hcadence, h⟩ := Effect.bind_eq_ok_iff.mp h
  obtain ⟨updates', hguards, h⟩ := Effect.bind_eq_ok_iff.mp h
  cases h
  obtain ⟨cooldown, concurrent, dedup, perDay, hcooldown, hconcurrent, hdedup, -, rfl⟩ :=
    extractGuardrails_eq_ok hguards
  obtain ⟨hconcurrent, -⟩ := strictU32_eq_ok hconcurrent
  obtain ⟨-, hcooldown⟩ := strictU64_eq_ok hcooldown
  obtain ⟨-, hconcurrent⟩ := strictU64_eq_ok hconcurrent
  obtain ⟨-, hdedup⟩ := strictU64_eq_ok hdedup
  rw [get_cooldown_routineUpdateParams] at hcooldown
  rw [get_concurrent_routineUpdateParams] at hconcurrent
  rw [get_dedup_routineUpdateParams] at hdedup
  simp only [MissionUpdate.default, or_none]
  refine ⟨?_, ?_, hcooldown, hconcurrent, hdedup, fun hrequest hreads => ?_⟩
  · rw [strParam, get_goal_routineUpdateParams, givenGoal]
    cases strParam params "prompt" <;> rfl
  · rw [notifyChannelsParam, get_channels_routineUpdateParams, givenChannels]
    cases (subParam params "delivery" "channel").bind Json.asStr <;> rfl
  · obtain ⟨request, hrequest⟩ := Option.isSome_iff_exists.mp hrequest
    have hstring : strParam (routineUpdateParams config.libs params) "cadence" =
        some (cadenceToRoundTripString (parseRoutineRequest config.libs params)) := by
      rw [strParam, get_cadence_routineUpdateParams, hrequest]
      rfl
    have hzone : timezoneParam config.libs (routineUpdateParams config.libs params) ctx =
        timezoneParam config.libs params ctx := by
      rw [timezoneParam, strParam, get_routineUpdateParams _ _ (by decide)]
      rfl
    rw [ReadsAs, cadenceToRoundTripString_printed] at hreads
    rw [hstring, hzone] at hcadence
    dsimp only at hcadence
    rw [hreads] at hcadence
    cases hcadence
    rfl

theorem handleMissionCall_routine_update (config : ManagerConfig) (env : CallEnv)
    (ctx : ThreadExecutionContext) (params : Json) : ∃ callId,
      handleMissionCall config env ctx "routine_update".toList params =
        some (finish callId "mission_update".toList
          (Calls.missionUpdate config env ctx (routineUpdateParams config.libs params))) := by
  have hcall : effectiveCall config.libs "routine_update".toList params =
      ⟨"mission_update".toList, routineUpdateParams config.libs params, none⟩ := by
    rw [effectiveCall, routineToMissionAlias, if_neg (by decide), if_pos (by decide)]
  have haction : MissionAction.ofName "mission_update".toList = some .update := by decide
  rw [handleMissionCall]
  simp only [hcall, haction]
  exact ⟨_, rfl⟩

theorem MissionUpdate.fields_of_apply {libs : Libraries} {now : Instant} {updates : MissionUpdate}
    {m m' : Mission} (h : updates.apply libs now m = .ok m') :
    m'.goal = updates.goal.getD m.goal ∧ m'.cadence = updates.cadence.getD m.cadence ∧
      m'.notifyChannels = updates.notifyChannels.getD m.notifyChannels ∧
      m'.cooldownSecs = updates.cooldownSecs.getD m.cooldownSecs ∧
      m'.maxConcurrent = updates.maxConcurrent.getD m.maxConcurrent ∧
      m'.dedupWindowSecs = updates.dedupWindowSecs.getD m.dedupWindowSecs ∧
      m'.description = updates.description.or m.description := by
  obtain ⟨next, -, h⟩ := Effect.bind_eq_ok_iff.mp h
  cases h
  exact ⟨rfl, rfl, rfl, rfl, rfl, rfl, rfl⟩

theorem updateSets_or_failed {op : MissionOp ActionResult}
    (hop : handleMissionCall config env ctx "routine_update".toList params = some op)
    (s : MissionSystem) :
    failed (op.exec s).1 = true ∨ ∃ id m, parseMissionId config.libs (idParam params ["id"]) = .ok id ∧
      (op.exec s).2.store.loadMission id = some m ∧ UpdateSets config.libs ctx params m := by
  obtain ⟨callId, hcall⟩ := handleMissionCall_routine_update config env ctx params
  cases hop.symm.trans hcall
  have hid : idParam (routineUpdateParams config.libs params) ["id"] = idParam params ["id"] := by
    rw [idParam, firstParam, argParam, List.findSome?_cons, get_routineUpdateParams _ _ (by decide),
      get_routineUpdateParams _ _ (by decide)]
    rfl
  rw [finish, Effect.exec_bind, Effect.exec_attempt, Calls.missionUpdate, hid, Effect.exec_bind,
    Effect.exec_ofExcept]
  cases hparse : parseMissionId config.libs (idParam params ["id"]) with
  | error e => exact .inl rfl
  | ok id =>
    dsimp only
    cases hupdates : Calls.updateRequest config ctx (routineUpdateParams config.libs params) with
    | error msg => exact .inl rfl
    | ok updates =>
      dsimp only
      rw [Effect.exec_bind, exec_updateMission]
      cases hload : s.store.loadMission id with
      | none => exact .inl rfl
      | some m =>
        dsimp only
        split_ifs with hmanaged
        swap
        · exact .inl rfl
        cases happly : updates.apply config.libs env.now m with
        | error e => exact .inl rfl
        | ok m' =>
          obtain ⟨hgoal, hchannels, hcooldown, hconcurrent, hdedup, hcadence⟩ :=
            updateRequest_eq_ok hupdates
          obtain ⟨hgoal', hcadence', hchannels', hcooldown', hconcurrent', hdedup', -⟩ :=
            MissionUpdate.fields_of_apply happly
          refine .inr ⟨id, m', rfl, ?_, ?_⟩
          · change (s.store.saveMission m').loadMission id = some m'
            rw [MissionStore.loadMission_saveMission, (MissionUpdate.of_apply happly).1,
              MissionStore.id_of_loadMission hload, if_pos rfl]
          · constructor
            case goal =>
              intro goal hgiven
              rw [hgoal', hgoal, hgiven, getD_some]
            case channels =>
              intro channels hgiven
              rw [hchannels', hchannels, hgiven, getD_some]
            case cooldown =>
              intro v hv
              obtain ⟨n, hn, ho⟩ := hcooldown v hv
              rw [hcooldown', ho, getD_some, hn]
            case concurrent =>
              intro v hv
              obtain ⟨n, hn, ho⟩ := hconcurrent v hv
              rw [hconcurrent', ho, getD_some, hn]
            case dedup =>
              intro v hv
              obtain ⟨n, hn, ho⟩ := hdedup v hv
              rw [hdedup', ho, getD_some, hn]
            case cadence =>
              intro hrequest hreads
              rw [hcadence', hcadence hrequest hreads, getD_some]

end Updating

/-- **Routine calls mean what mission calls mean**, as far as these have words for it; an update
fails, or sets what `mission_update` reads. -/
theorem routineCalls_correspond {config : ManagerConfig} (h : Lowercases config.libs.toLowercase)
    (ctx : ThreadExecutionContext) (params : Json) :
    (∀ (env env' : CallEnv) (s s' : MissionSystem) (next : Option Instant) (m' : Mission),
      ReadsAs config.libs (parseRoutineRequest config.libs params)
        (parseRoutineRequest config.libs params).timezone →
      scheduledFire config.libs env.now (parseRoutineRequest config.libs params) = .ok next →
      s'.store.loadMission env'.newMissionId = none →
      missionLeft config env' ctx s' "mission_create" (flatParams config.libs params) = some m' →
      ∃ m, missionLeft config env ctx s "routine_create" params = some m ∧
        Corresponds config.libs ctx params m m') ∧
    ∀ (env : CallEnv) (s : MissionSystem) (op : MissionOp ActionResult),
      handleMissionCall config env ctx "routine_update".toList params = some op →
      failed (op.exec s).1 = true ∨ ∃ id m, parseMissionId config.libs (idParam params ["id"]) = .ok id ∧
        (op.exec s).2.store.loadMission id = some m ∧ UpdateSets config.libs ctx params m :=
  ⟨fun _ _ s _ _ _ hreads hnext hfresh hleft =>
      corresponds_of_missionLeft h hreads hnext s hfresh hleft,
    fun _ s _ hop => updateSets_or_failed hop s⟩

def aliasLibs : Libraries :=
  { plainLibs with parseUuid := sampleLibraries.parseUuid, uuidText := sampleLibraries.uuidText }

def aliasConfig : ManagerConfig := ⟨aliasLibs, 10, 60000000000, none⟩

def aliasContext : ThreadExecutionContext := ⟨.mission, 1, "alice".toList, none, none, none, none⟩

def watchParams : Json :=
  .obj [("id".toList, .str "7".toList), ("name".toList, .str "deploys".toList),
    ("description".toList, .str "look for deploys".toList), ("prompt".toList, .str "report".toList),
    ("request".toList, .obj [("kind".toList, .str "message_event".toList),
      ("pattern".toList, .str "deploy".toList), ("channel".toList, .str "slack".toList)])]

def watchedSystem : MissionSystem :=
  { emptySystem with
    store := emptySystem.store.saveMission
      (Mission.new 7 0 1 "alice".toList "deploys".toList "look".toList .manual) }

/-- Both wait for the same messages, and the routine is updated to wait for them. -/
theorem watch_corresponds :
    (∃ m m', missionLeft aliasConfig (sampleEnv 7) aliasContext emptySystem "routine_create"
        watchParams = some m ∧
      missionLeft aliasConfig (sampleEnv 7) aliasContext emptySystem "mission_create"
        (flatParams aliasLibs watchParams) = some m' ∧
      Corresponds aliasLibs aliasContext watchParams m m') ∧
    ∃ op m, handleMissionCall aliasConfig (sampleEnv 8) aliasContext "routine_update".toList
        watchParams = some op ∧ (op.exec watchedSystem).2.store.loadMission 7 = some m ∧
      UpdateSets aliasLibs aliasContext watchParams m := by
  obtain ⟨hcreate, hupdate⟩ := @routineCalls_correspond aliasConfig lowercases_plainLibs
    aliasContext watchParams
  constructor
  · have hsome : (missionLeft aliasConfig (sampleEnv 7) aliasContext emptySystem "mission_create"
        (flatParams aliasLibs watchParams)).isSome = true := by decide
    obtain ⟨m', hleft⟩ := Option.isSome_iff_exists.mp hsome
    obtain ⟨m, hm, hcorresponds⟩ := hcreate (sampleEnv 7) (sampleEnv 7) emptySystem emptySystem none
      m' rfl rfl rfl hleft
    exact ⟨m, m', hm, hleft, hcorresponds⟩
  · obtain ⟨callId, hop⟩ := handleMissionCall_routine_update aliasConfig (sampleEnv 8) aliasContext
      watchParams
    rcases hupdate (sampleEnv 8) watchedSystem _ hop with hfailed | ⟨id, m, hid, hm, hsets⟩
    · exact absurd hfailed Bool.false_ne_true
    · cases hid
      exact ⟨_, m, hop, hm, hsets⟩

def Mission.undated (m : Mission) : Mission :=
  { m with id := 0, createdAt := 0, updatedAt := 0, nextFireAt := none }

/-- What is claimed of a successful update: nothing of the request is lost, and the description is
set. -/
structure UpdateSetsAll (libs : Libraries) (params : Json) (m : Mission) : Prop where
  description : ∀ description, strParam params "description" = some description →
    m.description = some description
  cadence : (params.get "request".toList).isSome → m.cadence = parseRoutineRequest libs params

def issueParams : Json :=
  .obj [("id".toList, .str "7".toList),
    ("request".toList, .obj [("kind".toList, .str "system_event".toList),
      ("source".toList, .str "github".toList), ("event_type".toList, .str "issue".toList),
      ("filters".toList, .obj [("repository".toList, .str "ironclaw".toList)])])]

/-- A routine that waits gets the guardrails of a manual mission, and loses filters in an update. -/
theorem routineCalls_differ : ReadsAs aliasLibs (parseRoutineRequest aliasLibs watchParams)
        (parseRoutineRequest aliasLibs watchParams).timezone ∧
    (missionLeft aliasConfig (sampleEnv 7) aliasContext emptySystem "routine_create"
        watchParams).map Mission.undated ≠
      (missionLeft aliasConfig (sampleEnv 7) aliasContext emptySystem "mission_create"
        (flatParams aliasLibs watchParams)).map Mission.undated ∧
    ∃ op m, handleMissionCall aliasConfig (sampleEnv 8) aliasContext "routine_update".toList
        issueParams = some op ∧ failed (op.exec watchedSystem).1 = false ∧
      (op.exec watchedSystem).2.store.loadMission 7 = some m ∧
      ¬ UpdateSetsAll aliasLibs issueParams m := by
  refine ⟨rfl, ?_, ?_⟩
  · intro heq
    have hthreads := congrArg (Option.map fun m : Mission => m.maxThreadsPerDay) heq
    exact absurd hthreads (by decide)
  · obtain ⟨callId, hop⟩ := handleMissionCall_routine_update aliasConfig (sampleEnv 8) aliasContext
      issueParams
    refine ⟨_, _, hop, rfl, rfl, fun hsets => ?_⟩
    cases hsets.cadence rfl

end IronClaw.Missions
