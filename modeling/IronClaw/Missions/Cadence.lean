import IronClaw.Foundation.Json

/-!
# When missions fire

A cadence is parsed from a short text, or from the request of a routine. What comes from other
crates is collected in `Libraries`.
-/

namespace IronClaw.Missions

open Foundation (Text Json)

abbrev Instant := Int

structure ValidTimezone where
  name : Text
deriving DecidableEq

inductive MissionCadence where
  | cron (expression : Text) (timezone : Option ValidTimezone)
  | onEvent (eventPattern : Text) (channel : Option Text)
  | onSystemEvent (source eventType : Text) (filters : List (Text × Json))
  | webhook (path : Text) (secret : Option Text)
  | manual

/-- What is used of other crates. A cron expression has seven fields when it is asked for. -/
structure Libraries where
  parseUuid : Text → Except Text Nat
  uuidText : Nat → Text
  toLowercase : Text → Text
  isTimezone : Text → Bool
  checkRegex : Text → Except Text Unit
  cronUpcoming : Text → Option ValidTimezone → Instant → Except Text (Option Instant)
  dateIn : Option ValidTimezone → Instant → Int
  rfc3339 : Instant → Text
  debugCadence : MissionCadence → Text
  jsonText : Json → Text

def ValidTimezone.parse (libs : Libraries) (s : Text) : Option ValidTimezone :=
  let trimmed := s.trim
  if trimmed.isEmpty then none
  else if libs.isTimezone trimmed then some ⟨trimmed⟩ else none

inductive EngineError where
  | store (reason : Text)
  | effect (reason : Text)
  | invalidCadence (reason : Text)
  | accessDenied (userId entity : Text)
  | other (text : Text)
deriving DecidableEq

def EngineError.text : EngineError → Text
  | store reason => "store error: ".toList ++ reason
  | effect reason => "effect execution error: ".toList ++ reason
  | invalidCadence reason => "invalid cadence: ".toList ++ reason
  | accessDenied userId entity =>
    "access denied: user '".toList ++ userId ++ "' cannot access ".toList ++ entity
  | other text => text

def splitWhitespace (s : Text) : List Text :=
  (s.splitOnP Text.isWhitespace).filter fun piece => !piece.isEmpty

def isAsciiDigit (c : Char) : Bool := '0' ≤ c && c ≤ '9'

def parseDigits (s : Text) : Nat := s.foldl (fun n c => 10 * n + (c.toNat - '0'.toNat)) 0

def isYearField (field : Text) : Bool :=
  field.length == 4 && field.all isAsciiDigit &&
    (1970 ≤ parseDigits field && parseDigits field ≤ 2099)

/-- Bring an expression to seven fields: five lack seconds and year, six lack the year. -/
def normalizeCronExpression (expression : Text) : Except EngineError Text :=
  let fields := splitWhitespace expression.trim
  let joined := Text.joinWith [' '] fields
  match fields.length with
  | 5 => .ok ("0 ".toList ++ joined ++ " *".toList)
  | 6 =>
    let last := fields.getLastD []
    if isYearField last then
      .error (.invalidCadence ("ambiguous 6-field cron expression '".toList ++ expression ++
        "': the trailing '".toList ++ last ++ ("' looks like a year. The 6-field form is " ++
      "`sec min hr dom mon dow`, NOT the Quartz `min hr dom mon dow year`. Use the explicit " ++
      "7-field form `0 ").toList ++ Text.joinWith [' '] (fields.take 5) ++ [' '] ++ last ++
        "` to mean 'at the given time in ".toList ++ last ++ "'.".toList))
    else .ok (joined ++ " *".toList)
  | 7 => .ok expression.trim
  | n =>
    .error (.invalidCadence ("invalid cron expression '".toList ++ expression ++
      "': expected 5, 6, or 7 fields, got ".toList ++ (toString n).toList))

def nextCronFire (libs : Libraries) (now : Instant) (expression : Text)
    (timezone : Option ValidTimezone) : Except EngineError (Option Instant) := do
  let normalized ← normalizeCronExpression expression
  match libs.cronUpcoming normalized timezone now with
  | .ok next => .ok next
  | .error e => .error (.invalidCadence
      ("invalid cron expression '".toList ++ expression ++ "': ".toList ++ e))

def nextCronFireRequired (libs : Libraries) (now : Instant) (expression : Text)
    (timezone : Option ValidTimezone) : Except EngineError Instant := do
  match ← nextCronFire libs now expression timezone with
  | some next => .ok next
  | none => .error (.invalidCadence ("cron expression '".toList ++ expression ++
      "' has no upcoming fire time (year-locked or otherwise unschedulable)".toList))

/-- Parse a cadence. The explicit prefixes come before what looks like a cron expression. -/
def parseCadence (libs : Libraries) (s : Text) (timezone : Option ValidTimezone) :
    Except Text MissionCadence :=
  let trimmed := s.trim
  let lower := libs.toLowercase trimmed
  if lower == "manual".toList then .ok .manual
  else if "event:".toList.isPrefixOf lower then
    match Text.find? [':'] (Text.trim (trimmed.drop 6)) with
    | some (channel, pattern) =>
      if channel.trim.isEmpty || pattern.trim.isEmpty then .error eventFormat
      else
        match libs.checkRegex pattern.trim with
        | .error e => .error ("event pattern '".toList ++ pattern.trim ++
            "' is not a valid regex: ".toList ++ e)
        | .ok _ => .ok (.onEvent pattern.trim
            (if channel.trim == ['*'] then none else some channel.trim))
    | none => .error eventFormat
  else if "system_event:".toList.isPrefixOf lower then
    match Text.find? ['/'] (Text.trim (trimmed.drop 13)) with
    | some (source, eventType) =>
      if source.trim.isEmpty || eventType.trim.isEmpty then .error systemEventFormat
      else .ok (.onSystemEvent source.trim eventType.trim [])
    | none => .error systemEventFormat
  else if "webhook:".toList.isPrefixOf lower then
    let path := Text.trim (trimmed.drop 8)
    if path.isEmpty then
      .error "webhook cadence requires a path after 'webhook:', e.g. 'webhook:github'".toList
    else .ok (.webhook path none)
  else if 5 ≤ (splitWhitespace lower).length then .ok (.cron s.trim timezone)
  else .error ("unrecognized cadence '".toList ++ s ++ ("'. Use 'manual', a cron expression " ++
      "(e.g. '0 9 * * *'), 'event:<channel>:<pattern>' (e.g. 'event:telegram:.*'), or " ++
      "'webhook:<path>'").toList)
where
  eventFormat : Text := ("event cadence requires 'event:<channel>:<pattern>', e.g. " ++
      "'event:telegram:.*' to match all messages on the telegram channel").toList
  systemEventFormat : Text := ("system_event cadence requires " ++
      "'system_event:<source>/<event_type>', e.g. 'system_event:self-improvement/thread_completed'").toList

/-- Filters, secrets and zones are lost. -/
def cadenceToRoundTripString : MissionCadence → Text
  | .cron expression _ => expression
  | .onEvent eventPattern channel =>
    "event:".toList ++ channel.getD ['*'] ++ [':'] ++ eventPattern
  | .onSystemEvent source eventType _ => "system_event:".toList ++ source ++ ['/'] ++ eventType
  | .webhook path _ => "webhook:".toList ++ path
  | .manual => "manual".toList

def parseRoutineRequest (libs : Libraries) (params : Json) : MissionCadence :=
  let request := params.get "request".toList
  let field (name : String) : Option Text :=
    ((request.bind fun r => r.get name.toList).bind Json.asStr)
  let kind := (field "kind").getD "manual".toList
  if kind == "cron".toList then
    .cron ((field "schedule").getD "0 0 * * * *".toList)
      ((field "timezone").bind (ValidTimezone.parse libs))
  else if kind == "message_event".toList then
    .onEvent ((field "pattern").getD []) (field "channel")
  else if kind == "system_event".toList then
    .onSystemEvent ((field "source").getD []) ((field "event_type").getD [])
      (((request.bind fun r => r.get "filters".toList).bind Json.asObject).getD [])
  else if kind == "webhook".toList then
    .webhook ((field "path").getD []) (field "secret")
  else .manual

end IronClaw.Missions
