import Mathlib.Data.List.Sort
import IronClaw.Foundation.Text

/-!
# The leak detector

Content is searched for secrets. An automaton looks for the literal prefixes of the patterns, and a
pattern is tried if it finds the prefix, or an overlapping one.
-/

namespace IronClaw.Safety

open Foundation (Text)

/-- The regular expressions: where a pattern matches in a content. -/
structure Regexes where
  findIter : Text → Text → List (Nat × Nat)

def Regexes.isMatch (regexes : Regexes) (regex content : Text) : Bool :=
  !(regexes.findIter regex content).isEmpty

inductive LeakAction where
  | block
  | redact
  | warn
deriving DecidableEq

inductive LeakSeverity where
  | low
  | medium
  | high
  | critical
deriving DecidableEq

structure LeakPattern where
  name : Text
  regex : Text
  severity : LeakSeverity
  action : LeakAction
deriving DecidableEq

structure LeakMatch where
  patternName : Text
  severity : LeakSeverity
  action : LeakAction
  start : Nat
  stop : Nat
  maskedPreview : Text
deriving DecidableEq

structure LeakScanResult where
  found : List LeakMatch
  shouldBlock : Bool
  redactedContent : Option Text

namespace LeakDetector

def patterns : List LeakPattern :=
  [⟨"openai_api_key".toList,
      "sk-(?:proj-)?[a-zA-Z0-9]\x7b20,\x7d(?:T3BlbkFJ[a-zA-Z0-9_-]*)?".toList, .critical, .block⟩,
    ⟨"anthropic_api_key".toList, "sk-ant-api[a-zA-Z0-9_-]\x7b90,\x7d".toList, .critical, .block⟩,
    ⟨"aws_access_key".toList, "AKIA[0-9A-Z]\x7b16\x7d".toList, .critical, .block⟩,
    ⟨"github_token".toList, "gh[pousr]_[A-Za-z0-9_]\x7b36,\x7d".toList, .critical, .block⟩,
    ⟨"github_fine_grained_pat".toList,
      "github_pat_[a-zA-Z0-9]\x7b22\x7d_[a-zA-Z0-9]\x7b59\x7d".toList, .critical, .block⟩,
    ⟨"stripe_api_key".toList, "sk_(?:live|test)_[a-zA-Z0-9]\x7b24,\x7d".toList, .critical, .block⟩,
    ⟨"nearai_session".toList, "sess_[a-zA-Z0-9]\x7b32,\x7d".toList, .critical, .block⟩,
    ⟨"pem_private_key".toList, "-----BEGIN\\s+(?:RSA\\s+)?PRIVATE\\s+KEY-----".toList,
      .critical, .block⟩,
    ⟨"ssh_private_key".toList, "-----BEGIN\\s+(?:OPENSSH|EC|DSA)\\s+PRIVATE\\s+KEY-----".toList,
      .critical, .block⟩,
    ⟨"google_api_key".toList, "AIza[0-9A-Za-z_-]\x7b35\x7d".toList, .high, .block⟩,
    ⟨"slack_token".toList, "xox[baprs]-[0-9a-zA-Z-]\x7b10,\x7d".toList, .high, .block⟩,
    ⟨"twilio_api_key".toList, "SK[a-fA-F0-9]\x7b32\x7d".toList, .high, .block⟩,
    ⟨"sendgrid_api_key".toList,
      "SG\\.[a-zA-Z0-9_-]\x7b22\x7d\\.[a-zA-Z0-9_-]\x7b43\x7d".toList, .high, .block⟩,
    ⟨"bearer_token".toList, "Bearer\\s+[a-zA-Z0-9_-]\x7b20,\x7d".toList, .high, .redact⟩,
    ⟨"auth_header".toList,
      "(?i)authorization:\\s*[a-zA-Z]+\\s+[a-zA-Z0-9_-]\x7b20,\x7d".toList, .high, .redact⟩,
    ⟨"openrouter_api_key".toList, "\\bsk-or-v1-[a-fA-F0-9]\x7b40,\x7d".toList, .critical, .block⟩,
    ⟨"anthropic_oauth_token".toList,
      "\\bsk-ant-oat\\d\x7b2\x7d-[a-zA-Z0-9_-]\x7b50,\x7d".toList, .critical, .block⟩,
    ⟨"telegram_bot_token".toList,
      "\\b\\d\x7b8,12\x7d:AA[A-Za-z0-9_-]\x7b30,\x7d\\b".toList, .critical, .block⟩,
    ⟨"groq_api_key".toList, "\\bgsk_[A-Za-z0-9]\x7b30,\x7d".toList, .critical, .block⟩,
    ⟨"high_entropy_hex".toList, "\\b[a-fA-F0-9]\x7b64\x7d\\b".toList, .medium, .warn⟩]

def isRegexSpecial (c : Char) : Bool := "[(.*+?\x7b|^$\\".toList.contains c

def extractLiteralPrefix (regex : Text) : Option Text :=
  let literal := regex.takeWhile fun c => !isRegexSpecial c
  if 3 ≤ Text.byteLength literal then some literal else none

def knownPrefixes : List (Text × Nat) :=
  patterns.zipIdx.filterMap fun (pattern, idx) =>
    (extractLiteralPrefix pattern.regex).map fun literal => (literal, idx)

def longestText : List Text → Option Text
  | [] => none
  | s :: rest =>
    match longestText rest with
    | none => some s
    | some t => if t.length ≤ s.length then some s else some t

def endingPrefixes (seen : Text) : List Text :=
  (knownPrefixes.map Prod.fst).filter fun literal => literal.reverse.isPrefixOf seen

/-- The prefixes that the automaton finds: the longest ending at a place. `seen` is read since,
backwards. -/
def findPrefixes (seen : Text) : Text → List Text
  | [] => []
  | c :: s =>
    match longestText (endingPrefixes (c :: seen)) with
    | some literal => literal :: findPrefixes [] s
    | none => findPrefixes (c :: seen) s

def overlaps (s t : Text) : Bool := s.isPrefixOf t || t.isPrefixOf s

def pushNew (indices : List Nat) (idx : Nat) : List Nat :=
  if indices.contains idx then indices else indices ++ [idx]

/-- The patterns to try: those with a prefix that overlaps a found one, and those without. -/
def candidateIndices (content : Text) : List Nat :=
  let prefixed := (findPrefixes [] content).flatMap fun found =>
    (knownPrefixes.filter fun known => overlaps known.1 found).map Prod.snd
  let unprefixed := (List.range patterns.length).filter fun idx =>
    !(knownPrefixes.any fun known => known.2 == idx)
  (prefixed ++ unprefixed).foldl pushNew []

/-- The first and last four characters of a secret, the middle masked. The length is that in bytes.
-/
def maskSecret (secret : Text) : Text :=
  let len := Text.byteLength secret
  if len ≤ 8 then List.replicate len '*'
  else secret.take 4 ++ List.replicate (min (len - 8) 8) '*' ++ secret.drop (len - 4)

def slice (content : Text) (start stop : Nat) : Text := (content.take stop).drop start

/-- Replace ranges of the content. A range that starts inside the one before is replaced once
more. -/
def applyRedactionsFrom (content : Text) (lastEnd : Nat) : List (Nat × Nat) → Text
  | [] => content.drop lastEnd
  | (start, stop) :: ranges =>
    slice content lastEnd start ++ "[REDACTED]".toList ++ applyRedactionsFrom content stop ranges

def applyRedactions (content : Text) (ranges : List (Nat × Nat)) : Text :=
  applyRedactionsFrom content 0 ranges

variable (regexes : Regexes)

def patternMatches (content : Text) (pattern : LeakPattern) : List LeakMatch :=
  (regexes.findIter pattern.regex content).map fun (start, stop) =>
    ⟨pattern.name, pattern.severity, pattern.action, start, stop,
      maskSecret (slice content start stop)⟩

def rawMatches (content : Text) : List LeakMatch :=
  ((candidateIndices content).filterMap fun idx => patterns[idx]?).flatMap
    (patternMatches regexes content)

def scan (content : Text) : LeakScanResult :=
  let raw := rawMatches regexes content
  let ranges := ((raw.filter fun m => m.action == .redact).map fun m =>
    (m.start, m.stop)).insertionSort fun r r' => r.1 ≤ r'.1
  { found := raw.insertionSort fun m m' => m.start ≤ m'.start
    shouldBlock := raw.any fun m => m.action == .block
    redactedContent := if ranges.isEmpty then none else some (applyRedactions content ranges) }

/-- The name of the pattern that blocked a content, and the masked match. -/
structure LeakDetectionError where
  pattern : Text
  preview : Text
deriving DecidableEq

def LeakDetectionError.text (e : LeakDetectionError) : Text :=
  "Secret leak blocked: pattern '".toList ++ e.pattern ++ "' matched '".toList ++
    e.preview ++ ['\'']

def scanAndClean (content : Text) : Except LeakDetectionError Text :=
  let result := scan regexes content
  if result.shouldBlock then
    match result.found.find? fun m => m.action == .block with
    | some m => .error ⟨m.patternName, m.maskedPreview⟩
    | none => .error ⟨[], []⟩
  else .ok (result.redactedContent.getD content)

def flagged (content : Text) : List Text :=
  ((scan regexes content).found.filter fun m => m.action != .warn).map fun m =>
    slice content m.start m.stop

variable {regexes}

example : knownPrefixes.map Prod.fst =
    ["sk-", "sk-ant-api", "AKIA", "github_pat_", "sk_", "sess_", "-----BEGIN", "-----BEGIN", "AIza",
      "xox", "Bearer"].map String.toList := by
  decide

end LeakDetector

end IronClaw.Safety
