import IronClaw.Missions.Manager

/-!
# Mission and routine calls

A thread works with missions by calling actions. The routine actions are aliases: what mission
parameters cannot express is applied by an update after the creation.
-/

namespace IronClaw.Missions

open Foundation (Text Json HashMap Effect)

inductive ThreadType where
  | foreground
  | research
  | mission
deriving DecidableEq

structure ThreadExecutionContext where
  threadType : ThreadType
  projectId : ProjectId
  userId : Text
  currentCallId : Option Text
  sourceChannel : Option Text
  userTimezone : Option ValidTimezone
  threadGoal : Option Text

structure ActionResult where
  callId : Text
  actionName : Text
  output : Json
  isError : Bool

/-- An output, a complaint about parameters, or an error. Errors of operations are complaints. -/
inductive Reply where
  | output (j : Json)
  | invalid (msg : Text)
  | rejected (e : EngineError)

def errorOutput (msg : Text) : Json := .obj [("error".toList, .str msg)]

def finish (callId actionName : Text) (x : MissionOp Reply) : MissionOp ActionResult := do
  match ← Effect.attempt x with
  | .ok (.output j) => pure ⟨callId, actionName, j, false⟩
  | .ok (.invalid msg) => pure ⟨callId, actionName, errorOutput msg, true⟩
  | .ok (.rejected e) => throw e
  | .error e => pure ⟨callId, actionName, errorOutput e.text, true⟩

def strParam (params : Json) (key : String) : Option Text := (params.get key.toList).bind Json.asStr

def argParam (params : Json) (i : Nat) : Option Json :=
  (params.get "_args".toList).bind fun args => args.at? i

def firstParam (params : Json) (keys : List String) (i : Nat) : Option Json :=
  (keys.findSome? fun key => params.get key.toList).or (argParam params i)

def textArray (values : List Json) : List Text := values.filterMap Json.asStr

def asArray : Json → Option (List Json)
  | .arr values => some values
  | _ => none

def strictU64 (libs : Libraries) (params : Json) (key : String) : Except Text (Option Nat) :=
  match params.get key.toList with
  | none => .ok none
  | some v =>
    match v.asU64 with
    | some n => .ok (some n)
    | none => .error ("'".toList ++ key.toList ++ "' must be an integer, got ".toList ++
        libs.jsonText v)

/-- A number that must also fit into 32 bits. -/
def strictU32 (libs : Libraries) (params : Json) (key : String) : Except Text (Option Nat) :=
  match strictU64 libs params key with
  | .error e => .error e
  | .ok none => .ok none
  | .ok (some n) =>
    if n < 2 ^ 32 then .ok (some n)
    else .error ("'".toList ++ key.toList ++ "' value ".toList ++ (toString n).toList ++
      " exceeds u32 max".toList)

def extractGuardrails (libs : Libraries) (params : Json) (base : MissionUpdate) :
    Except Text MissionUpdate := do
  let cooldownSecs ← strictU64 libs params "cooldown_secs"
  let maxConcurrent ← strictU32 libs params "max_concurrent"
  let dedupWindowSecs ← strictU64 libs params "dedup_window_secs"
  let maxThreadsPerDay ← strictU32 libs params "max_threads_per_day"
  .ok { base with
    cooldownSecs := cooldownSecs.or base.cooldownSecs
    maxConcurrent := maxConcurrent.or base.maxConcurrent
    dedupWindowSecs := dedupWindowSecs.or base.dedupWindowSecs
    maxThreadsPerDay := maxThreadsPerDay.or base.maxThreadsPerDay }

def idParam (params : Json) (keys : List String) : Text :=
  ((firstParam params keys 0).bind Json.asStr).getD []

def parseMissionId (libs : Libraries) (idStr : Text) : Except EngineError MissionId :=
  match libs.parseUuid idStr with
  | .ok id => .ok id
  | .error e => .error (.effect ("invalid mission id: ".toList ++ e))

def notifyChannelsParam (params : Json) : Option (List Text) :=
  ((params.get "notify_channels".toList).bind asArray).map textArray

def timezoneParam (libs : Libraries) (params : Json) (ctx : ThreadExecutionContext) :
    Option ValidTimezone :=
  ((strParam params "timezone").bind (ValidTimezone.parse libs)).or ctx.userTimezone

def immediateWords : List Text := ["now", "immediate", "immediately", "asap"].map String.toList

def immediatePhrases : List Text :=
  ["right away", "right now", "at once", "do it now", "do this now"].map String.toList

def scheduleStems : List Text :=
  ["automat", "cron", "daily", "hourly", "mission", "monitor", "monthly", "periodic", "recur",
    "routin", "schedul", "weekly"].map String.toList

def schedulePhrases : List Text :=
  ["every day", "every morning", "every evening", "every week", "every month", "every hour",
    "from now on", "long-running"].map String.toList

def isAsciiAlphanumeric (c : Char) : Bool :=
  isAsciiDigit c || ('a' ≤ c && c ≤ 'z') || ('A' ≤ c && c ≤ 'Z')

def wordSet (text : Text) : List Text :=
  (text.splitOnP fun c => !isAsciiAlphanumeric c).filter fun word => !word.isEmpty

def containsImmediateExecutionMarker (lower : Text) (words : List Text) : Bool :=
  (immediateWords.any fun w => words.contains w) ||
    immediatePhrases.any fun p => Text.hasInfix p lower

def containsSchedulingIntent (lower : Text) (words : List Text) : Bool :=
  (scheduleStems.any fun stem => words.any fun w => stem.isPrefixOf w) ||
    schedulePhrases.any fun p => Text.hasInfix p lower

/-- The user asked for something to run at once, and not on a schedule. -/
def shouldRejectImmediateMissionCreate (ctx : ThreadExecutionContext) : Bool :=
  match ctx.threadType, ctx.threadGoal with
  | .foreground, some goal =>
    let lower := Text.toAsciiLowercase goal
    let words := wordSet lower
    containsImmediateExecutionMarker lower words && !containsSchedulingIntent lower words
  | _, _ => false

structure RoutineMissionAlias where
  missionAction : Text
  missionParams : Json
  postCreateUpdate : Option MissionUpdate

def subParam (params : Json) (key subkey : String) : Option Json :=
  (params.get key.toList).bind fun v => v.get subkey.toList

def routineCreateUpdate (libs : Libraries) (params : Json) : MissionUpdate :=
  { MissionUpdate.default with
    description := (strParam params "description").filter fun s => !s.isEmpty
    cadence := some (parseRoutineRequest libs params)
    contextPaths := ((subParam params "execution" "context_paths").bind asArray).map textArray
    notifyUser := (subParam params "delivery" "user").bind Json.asStr
    cooldownSecs := ((subParam params "advanced" "cooldown_secs").or
      (params.get "cooldown_secs".toList)).bind Json.asU64
    maxConcurrent := (((subParam params "guardrails" "max_concurrent").or
      (params.get "max_concurrent".toList)).bind Json.asU64).map fun n => n % 2 ^ 32
    dedupWindowSecs := ((subParam params "guardrails" "dedup_window_secs").or
      (params.get "dedup_window_secs".toList)).bind Json.asU64 }

def routineCreateParams (params : Json) : Json :=
  let goal := (((params.get "prompt".toList).or (params.get "goal".toList)).bind Json.asStr).getD []
  let base := Json.obj
    [("name".toList, .str ((strParam params "name").getD "unnamed routine".toList)),
      ("goal".toList, .str goal), ("cadence".toList, .str "manual".toList)]
  match (subParam params "delivery" "channel").bind Json.asStr with
  | some channel => base.set "notify_channels".toList (.arr [.str channel])
  | none => base

def setIfSome (key : String) (value : Option Json) (j : Json) : Json :=
  match value with
  | some v => j.set key.toList v
  | none => j

/-- The parameters of an update, moved to where the mission action reads them. -/
def routineUpdateParams (libs : Libraries) (params : Json) : Json :=
  let base : Json := .obj (params.asObject.getD [])
  let cadence := (params.get "request".toList).map fun _ =>
    Json.str (cadenceToRoundTripString (parseRoutineRequest libs params))
  setIfSome "cadence" cadence <|
  setIfSome "max_concurrent" (subParam params "guardrails" "max_concurrent") <|
  setIfSome "dedup_window_secs" (subParam params "guardrails" "dedup_window_secs") <|
  setIfSome "cooldown_secs" (subParam params "advanced" "cooldown_secs") <|
  setIfSome "notify_channels" (((subParam params "delivery" "channel").bind Json.asStr).map
    fun channel => .arr [.str channel]) <|
  setIfSome "notify_user" (subParam params "delivery" "user") <|
  setIfSome "context_paths" (subParam params "execution" "context_paths") <|
  setIfSome "goal" ((strParam params "prompt").map .str) base

def renamedRoutineAction (actionName : Text) : Option Text :=
  if actionName == "routine_list".toList then some "mission_list".toList
  else if actionName == "routine_fire".toList then some "mission_fire".toList
  else if actionName == "routine_pause".toList then some "mission_pause".toList
  else if actionName == "routine_resume".toList then some "mission_resume".toList
  else if actionName == "routine_delete".toList then some "mission_complete".toList
  else if actionName == "routine_history".toList then some "mission_get".toList
  else none

def routineToMissionAlias (libs : Libraries) (actionName : Text) (params : Json) :
    Option RoutineMissionAlias :=
  if actionName == "routine_create".toList then
    some ⟨"mission_create".toList, routineCreateParams params,
      some (routineCreateUpdate libs params)⟩
  else if actionName == "routine_update".toList then
    some ⟨"mission_update".toList, routineUpdateParams libs params, none⟩
  else (renamedRoutineAction actionName).map fun action => ⟨action, params, none⟩

def slugifySimple (libs : Libraries) (name : Text) : Text :=
  let out := (libs.toLowercase name).foldl (fun (acc : Text × Bool) c =>
    if isAsciiAlphanumeric c then (acc.1 ++ [c], false)
    else if acc.2 then acc
    else (acc.1 ++ ['-'], true)) ([], true)
  Text.trimEndMatches (fun c => c == '-') out.1

def resolveProjectRef (libs : Libraries) (projects : HashMap ProjectId Project) (pidStr : Text)
    (ctx : ThreadExecutionContext) : Except EngineError ProjectId :=
  match libs.parseUuid pidStr with
  | .ok pid =>
    if pid = ctx.projectId then .ok pid
    else
      match projects.lookup pid with
      | some p =>
        if !isSharedOwner p.userId && p.userId == ctx.userId then .ok pid
        else .error (.effect "project_id does not belong to current user".toList)
      | none => .error (.effect ("Project not found: ".toList ++ pidStr))
  | .error _ =>
    let needle := libs.toLowercase pidStr
    match (projects.values.filter fun p => p.userId == ctx.userId).find? fun p =>
      libs.toLowercase p.name == needle || slugifySimple libs p.name == needle with
    | some p => .ok p.id
    | none => .error (.effect ("No project matching '".toList ++ pidStr ++
        "' found for current user. Use a project name, slug, or UUID.".toList))

namespace Calls

variable (config : ManagerConfig) (env : CallEnv) (ctx : ThreadExecutionContext) (params : Json)

def rejectedCreate : EngineError :=
  .effect ("Refusing to create a mission for an immediate one-shot request. The user asked for this " ++
      "to run now, so complete the task in the current foreground thread. Only call " ++
      "mission_create/routine_create when the user explicitly asks to schedule, automate, or create a " ++
      "recurring routine/mission.").toList

def cadenceRequired : Text :=
  ("cadence is required. Use 'manual', a cron expression (e.g. '0 9 * * *'), " ++
      "'event:<channel>:<pattern>' (e.g. 'event:telegram:.*'), or 'webhook:<path>'").toList

def statusOutput (status : String) : Json := .obj [("status".toList, .str status.toList)]

def hasUpdates (u : MissionUpdate) : Bool :=
  u.cooldownSecs.isSome || u.maxConcurrent.isSome || u.dedupWindowSecs.isSome ||
    u.maxThreadsPerDay.isSome || u.description.isSome || u.contextPaths.isSome ||
    u.notifyUser.isSome || u.notifyChannels.isSome || u.cadence.isSome || u.successCriteria.isSome

structure CreateRequest where
  projectId : ProjectId
  name : Text
  goal : Text
  cadence : MissionCadence
  notifyChannels : List Text
  updates : MissionUpdate

def targetProject (projects : HashMap ProjectId Project) : Except EngineError ProjectId :=
  match strParam params "project_id" with
  | some pidStr => resolveProjectRef config.libs projects pidStr ctx
  | none => .ok ctx.projectId

def createRequest (postCreateUpdate : Option MissionUpdate)
    (projects : HashMap ProjectId Project) : Except Reply CreateRequest :=
  if shouldRejectImmediateMissionCreate ctx then .error (.rejected rejectedCreate)
  else
    match (firstParam params ["cadence"] 2).bind Json.asStr with
    | none => .error (.invalid cadenceRequired)
    | some cadenceStr =>
      match parseCadence config.libs cadenceStr (timezoneParam config.libs params ctx) with
      | .error msg => .error (.invalid msg)
      | .ok cadence =>
        match targetProject config ctx params projects with
        | .error e => .error (.rejected e)
        | .ok projectId =>
          match extractGuardrails config.libs params
            (postCreateUpdate.getD MissionUpdate.default) with
          | .error msg => .error (.invalid msg)
          | .ok updates => .ok
              { projectId := projectId
                name := ((firstParam params ["name"] 0).bind Json.asStr).getD
                  "unnamed mission".toList
                goal := ((firstParam params ["goal"] 1).bind Json.asStr).getD []
                cadence := cadence
                notifyChannels := (notifyChannelsParam params).getD ctx.sourceChannel.toList
                updates := { updates with
                  successCriteria :=
                    (strParam params "success_criteria").or updates.successCriteria } }

def applyUpdates (id : MissionId) (updates : MissionUpdate) :
    MissionOp (Except EngineError Unit) :=
  if hasUpdates updates then
    Effect.attempt (Manager.updateMission config env id ctx.userId updates)
  else pure (.ok ())

def createOutput (req : CreateRequest) (id : MissionId) (applied : Except EngineError Unit) :
    Json :=
  let created := [("mission_id".toList, Json.str (config.libs.uuidText id)),
    ("name".toList, Json.str req.name)]
  match applied with
  | .ok _ => .obj (created ++ [("status".toList, .str "created".toList)])
  | .error e => .obj (created ++
      [("status".toList, .str "created_with_warnings".toList),
        ("warnings".toList, .arr [.str ("post-create update failed: ".toList ++ e.text ++
          (". The mission was created but the cadence/context_paths/cooldown/notify fields from the " ++
      "routine schema were NOT applied. Call update_mission to retry.").toList)])])

def create (req : CreateRequest) : MissionOp Reply := do
  let id ← Manager.createMission config env req.projectId ctx.userId req.name req.goal req.cadence
    req.notifyChannels
  let applied ← applyUpdates config env ctx id req.updates
  pure (.output (createOutput config req id applied))

def missionCreate (postCreateUpdate : Option MissionUpdate) : MissionOp Reply := do
  let s ← get
  match createRequest config ctx params postCreateUpdate s.projects with
  | .ok req => create config env ctx req
  | .error reply => pure reply

def optionStr (o : Option Text) : Json := o.elim .null .str

def cadenceTimezone : MissionCadence → Json
  | .cron _ (some tz) => .str tz.name
  | _ => .null

def listEntry (m : Mission) : Json :=
  .obj [("id".toList, .str (config.libs.uuidText m.id)),
    ("name".toList, .str m.name),
    ("goal".toList, .str m.goal),
    ("status".toList, .str m.status.debug),
    ("cadence".toList, .str (cadenceToRoundTripString m.cadence)),
    ("timezone".toList, cadenceTimezone m.cadence),
    ("threads".toList, .int m.threadHistory.length),
    ("current_focus".toList, optionStr m.currentFocus),
    ("notify_channels".toList, .arr (m.notifyChannels.map .str)),
    ("cooldown_secs".toList, .int m.cooldownSecs),
    ("max_concurrent".toList, .int m.maxConcurrent),
    ("dedup_window_secs".toList, .int m.dedupWindowSecs),
    ("max_threads_per_day".toList, .int m.maxThreadsPerDay)]

def missionList : MissionOp Reply := do
  let missions ← Manager.listMissions ctx.projectId ctx.userId
  pure (.output (.arr (missions.map (listEntry config))))

def lastResponse (thread : Thread) : Option Text :=
  (thread.messages.reverse.find? fun m => m.1 == .assistant).map Prod.snd

def threadSummary (tid : ThreadId) (thread : Thread) : Json :=
  .obj [("thread_id".toList, .str (config.libs.uuidText tid)),
    ("state".toList, .str thread.state.debug),
    ("created_at".toList, .str (config.libs.rfc3339 thread.createdAt)),
    ("completed_at".toList, optionStr (thread.completedAt.map config.libs.rfc3339)),
    ("steps".toList, .int thread.stepCount),
    ("tokens_used".toList, .int thread.totalTokensUsed),
    ("result".toList, optionStr (lastResponse thread))]

def threadSummaries (threads : HashMap ThreadId Thread) (m : Mission) : List Json :=
  (m.threadHistory.reverse.take 5).filterMap fun tid =>
    (threads.lookup tid).map (threadSummary config tid)

def missionDetails (threads : HashMap ThreadId Thread) (m : Mission) : Json :=
  .obj [("id".toList, .str (config.libs.uuidText m.id)),
    ("name".toList, .str m.name),
    ("goal".toList, .str m.goal),
    ("status".toList, .str m.status.debug),
    ("current_focus".toList, optionStr m.currentFocus),
    ("approach_history".toList, .arr ((m.approachHistory.reverse.take 10).reverse.map .str)),
    ("success_criteria".toList, optionStr m.successCriteria),
    ("total_threads".toList, .int m.threadHistory.length),
    ("cadence".toList, .str (config.libs.debugCadence m.cadence)),
    ("last_fire_at".toList, optionStr (m.lastFireAt.map config.libs.rfc3339)),
    ("next_fire_at".toList, optionStr (m.nextFireAt.map config.libs.rfc3339)),
    ("recent_threads".toList, .arr (threadSummaries config threads m))]

def shownMission (threads : HashMap ThreadId Thread) (idStr : Text) (m : Mission) : Reply :=
  if m.userId != ctx.userId then
    .rejected (.effect ("mission ".toList ++ idStr ++ " belongs to another user".toList))
  else .output (missionDetails config threads m)

def missionGet : MissionOp Reply := do
  let idStr := idParam params ["id", "name"]
  let id ← Effect.ofExcept (parseMissionId config.libs idStr)
  let s ← get
  match s.store.loadMission id with
  | some m => pure (shownMission config ctx s.threads idStr m)
  | none => throw (.effect ("mission not found: ".toList ++ idStr))

def missionFire : MissionOp Reply := do
  let id ← Effect.ofExcept (parseMissionId config.libs (idParam params ["id"]))
  match ← Manager.fireMission config env id ctx.userId none with
  | some tid => pure (.output (.obj [("thread_id".toList, .str (config.libs.uuidText tid)),
      ("status".toList, .str "fired".toList)]))
  | none => pure (.output (.obj [("status".toList, .str "not_fired".toList),
      ("reason".toList, .str "mission is terminal or budget exhausted".toList)]))

def missionPause : MissionOp Reply := do
  let id ← Effect.ofExcept (parseMissionId config.libs (idParam params ["id"]))
  Manager.pauseMission config env id ctx.userId
  pure (.output (statusOutput "ok"))

def missionResume : MissionOp Reply := do
  let id ← Effect.ofExcept (parseMissionId config.libs (idParam params ["id"]))
  Manager.resumeMission config env id ctx.userId
  pure (.output (statusOutput "ok"))

/-- The name serves as an id here, for the alias that deletes. -/
def missionComplete : MissionOp Reply := do
  let id ← Effect.ofExcept (parseMissionId config.libs (idParam params ["id", "name"]))
  Manager.completeMission env id
  pure (.output (statusOutput "completed"))

def updateRequest : Except Text MissionUpdate := do
  let cadence ← match strParam params "cadence" with
    | some cadence =>
      (parseCadence config.libs cadence (timezoneParam config.libs params ctx)).map some
    | none => .ok none
  let updates ← extractGuardrails config.libs params
    { MissionUpdate.default with
      name := strParam params "name"
      goal := strParam params "goal"
      cadence := cadence
      notifyChannels := notifyChannelsParam params }
  .ok { updates with successCriteria := strParam params "success_criteria" }

def missionUpdate : MissionOp Reply := do
  let id ← Effect.ofExcept (parseMissionId config.libs (idParam params ["id"]))
  match updateRequest config ctx params with
  | .error msg => pure (.invalid msg)
  | .ok updates =>
    Manager.updateMission config env id ctx.userId updates
    pure (.output (statusOutput "updated"))

end Calls

structure MissionCall where
  actionName : Text
  params : Json
  postCreateUpdate : Option MissionUpdate

def effectiveCall (libs : Libraries) (actionName : Text) (params : Json) : MissionCall :=
  match routineToMissionAlias libs actionName params with
  | some routine =>
    ⟨routine.missionAction, routine.missionParams, routine.postCreateUpdate⟩
  | none => ⟨actionName, params, none⟩

inductive MissionAction where
  | create
  | list
  | get
  | fire
  | pause
  | resume
  | complete
  | update
deriving DecidableEq

def MissionAction.ofName (name : Text) : Option MissionAction :=
  if name == "mission_create".toList then some create
  else if name == "mission_list".toList then some list
  else if name == "mission_get".toList then some get
  else if name == "mission_fire".toList then some fire
  else if name == "mission_pause".toList then some pause
  else if name == "mission_resume".toList then some resume
  else if name == "mission_complete".toList then some complete
  else if name == "mission_update".toList then some update
  else none

def runAction (config : ManagerConfig) (env : CallEnv) (ctx : ThreadExecutionContext)
    (call : MissionCall) : MissionAction → MissionOp Reply
  | .create => Calls.missionCreate config env ctx call.params call.postCreateUpdate
  | .list => Calls.missionList config ctx
  | .get => Calls.missionGet config ctx call.params
  | .fire => Calls.missionFire config env ctx call.params
  | .pause => Calls.missionPause config env ctx call.params
  | .resume => Calls.missionResume config env ctx call.params
  | .complete => Calls.missionComplete config env call.params
  | .update => Calls.missionUpdate config env ctx call.params

def handleMissionCall (config : ManagerConfig) (env : CallEnv) (ctx : ThreadExecutionContext)
    (actionName : Text) (params : Json) : Option (MissionOp ActionResult) :=
  let call := effectiveCall config.libs actionName params
  let callId := ctx.currentCallId.getD ("synthetic-".toList ++ call.actionName ++ ['-'] ++
    config.libs.uuidText env.newCallId)
  (MissionAction.ofName call.actionName).map fun action =>
    finish callId call.actionName (runAction config env ctx call action)

end IronClaw.Missions
