import Mathlib.Data.List.Sort
import IronClaw.Foundation.Text

/-!
# The sanitizer

Content from outside is searched for fixed phrases, in any ASCII case, and by regular expressions;
critical findings have it escaped. The automaton reports the longest match as soon as one ends, and
starts afresh behind it.
-/

namespace IronClaw.Safety

open Foundation (Text)

inductive Severity where
  | low
  | medium
  | high
  | critical
deriving DecidableEq

def Severity.rank : Severity → Nat
  | low => 0
  | medium => 1
  | high => 2
  | critical => 3

instance : LE Severity := ⟨fun a b => a.rank ≤ b.rank⟩

instance (a b : Severity) : Decidable (a ≤ b) := inferInstanceAs (Decidable (a.rank ≤ b.rank))

structure InjectionWarning where
  pattern : Text
  severity : Severity
  start : Nat
  stop : Nat
  description : String
deriving DecidableEq

namespace Sanitizer

structure PatternInfo where
  pattern : Text
  severity : Severity
  description : String
deriving DecidableEq

def patterns : List PatternInfo :=
  [⟨"ignore previous".toList, .high, "Attempt to override previous instructions"⟩,
    ⟨"ignore all previous".toList, .critical, "Attempt to override all previous instructions"⟩,
    ⟨"disregard".toList, .medium, "Potential instruction override"⟩,
    ⟨"forget everything".toList, .high, "Attempt to reset context"⟩,
    ⟨"you are now".toList, .high, "Attempt to change assistant role"⟩,
    ⟨"act as".toList, .medium, "Potential role manipulation"⟩,
    ⟨"pretend to be".toList, .medium, "Potential role manipulation"⟩,
    ⟨"system:".toList, .critical, "Attempt to inject system message"⟩,
    ⟨"assistant:".toList, .high, "Attempt to inject assistant response"⟩,
    ⟨"user:".toList, .high, "Attempt to inject user message"⟩,
    ⟨"<|".toList, .critical, "Potential special token injection"⟩,
    ⟨"|>".toList, .critical, "Potential special token injection"⟩,
    ⟨"[INST]".toList, .critical, "Potential instruction token injection"⟩,
    ⟨"[/INST]".toList, .critical, "Potential instruction token injection"⟩,
    ⟨"new instructions".toList, .high, "Attempt to provide new instructions"⟩,
    ⟨"updated instructions".toList, .high, "Attempt to update instructions"⟩,
    ⟨"```system".toList, .high, "Potential code block instruction injection"⟩,
    ⟨"```bash\nsudo".toList, .medium, "Potential dangerous command injection"⟩]

/-- The phrase is what the text read so far ends with. The text is given backwards. -/
def endsWithPattern (seen : Text) (info : PatternInfo) : Bool :=
  (Text.toAsciiLowercase info.pattern).reverse.isPrefixOf (Text.toAsciiLowercase seen)

def longest : List PatternInfo → Option PatternInfo
  | [] => none
  | info :: infos =>
    match longest infos with
    | none => some info
    | some other =>
      if other.pattern.length ≤ info.pattern.length then some info else some other

/-- The findings of the automaton. `seen` is read since the last match, backwards. -/
def findPatterns (seen : Text) (offset : Nat) : Text → List InjectionWarning
  | [] => []
  | c :: s =>
    let offset := offset + c.utf8Size
    match longest (patterns.filter (endsWithPattern (c :: seen))) with
    | some info =>
      ⟨info.pattern, info.severity, offset - Text.byteLength info.pattern, offset,
        info.description⟩ :: findPatterns [] offset s
    | none => findPatterns (c :: seen) offset s

/-- A regular expression, as the number of characters it matches at the head of a text. -/
structure RegexPattern where
  matchLength : Text → Option Nat
  name : Text
  severity : Severity
  description : String

def longS : Char := Char.ofNat 0x17F

def kelvinSign : Char := Char.ofNat 0x212A

/-- A lower-case letter matches a character without regard to case. -/
def matchesFolded (letter c : Char) : Bool :=
  c.toLower == letter || (letter == 's' && c == longS) || (letter == 'k' && c == kelvinSign)

def stripWord : Text → Text → Option Text
  | [], s => some s
  | _ :: _, [] => none
  | letter :: word, c :: s => if matchesFolded letter c then stripWord word s else none

/-- A word, white space, and an opening parenthesis. -/
def callLength (word : Text) (s : Text) : Option Nat :=
  match stripWord word s with
  | none => none
  | some rest =>
    match rest.dropWhile Text.isWhitespace with
    | '(' :: after => some (s.length - after.length)
    | _ => none

def isPayload (c : Char) : Bool :=
  c.isAlphanum || c == '+' || c == '/' || c == '=' || c == longS || c == kelvinSign

/-- The word, separators, and at least fifty payload characters. -/
def base64Length (s : Text) : Option Nat :=
  match stripWord "base64".toList s with
  | none => none
  | some rest =>
    let isSeparator := fun c => c == ':' || Text.isWhitespace c
    let payload := rest.dropWhile isSeparator
    let after := payload.dropWhile isPayload
    if payload.length < rest.length ∧ 50 ≤ payload.length - after.length then
      some (s.length - after.length)
    else none

def nullLength : Text → Option Nat
  | c :: _ => if c.toNat = 0 then some 1 else none
  | [] => none

def regexPatterns : List RegexPattern :=
  [⟨base64Length, "base64_payload".toList, .medium, "Potential encoded payload"⟩,
    ⟨callLength "eval".toList, "eval_call".toList, .high, "Potential code evaluation attempt"⟩,
    ⟨callLength "exec".toList, "exec_call".toList, .high, "Potential code execution attempt"⟩,
    ⟨nullLength, "null_byte".toList, .critical, "Null byte injection attempt"⟩]

/-- The findings of an expression; `skip` counts the characters still inside the last one. -/
def findRegex (pattern : RegexPattern) (offset skip : Nat) : Text → List InjectionWarning
  | [] => []
  | c :: s =>
    let next := offset + c.utf8Size
    match skip with
    | skip + 1 => findRegex pattern next skip s
    | 0 =>
      match pattern.matchLength (c :: s) with
      | some (n + 1) =>
        ⟨pattern.name, pattern.severity, offset, offset + Text.byteLength ((c :: s).take (n + 1)),
          pattern.description⟩ :: findRegex pattern next n s
      | _ => findRegex pattern next 0 s

def findings (content : Text) : List InjectionWarning :=
  findPatterns [] 0 content ++ regexPatterns.flatMap fun p => findRegex p 0 0 content

def stripCarriageReturn (line : Text) : Text :=
  if line.getLast? = some '\r' then line.dropLast else line

def lines (s : Text) : List Text :=
  let pieces := Text.splitOn '\n' s
  -- what follows the last line end is a line if it is not empty
  pieces.dropLast.map stripCarriageReturn ++ pieces.getLast?.toList.filter fun line => !line.isEmpty

def escapeContent (content : Text) : Text :=
  let escaped := Text.replaceAll "<|".toList "\\<|".toList content
  let escaped := Text.replaceAll "|>".toList "|\\>".toList escaped
  let escaped := Text.replaceAll "[INST]".toList "\\[INST]".toList escaped
  let escaped := Text.replaceAll "[/INST]".toList "\\[/INST]".toList escaped
  let escaped := escaped.filter fun c => c.toNat != 0
  Text.joinWith ['\n'] <| (lines escaped).map fun line =>
    let trimmed := Text.toAsciiLowercase (Text.trimStartMatches Text.isWhitespace line)
    if "system:".toList.isPrefixOf trimmed || "user:".toList.isPrefixOf trimmed ||
        "assistant:".toList.isPrefixOf trimmed then
      "[ESCAPED] ".toList ++ line
    else line

structure SanitizedOutput where
  content : Text
  warnings : List InjectionWarning
  wasModified : Bool

/-- The warnings are sorted by severity. -/
def sanitize (content : Text) : SanitizedOutput :=
  let warnings := (findings content).insertionSort fun a b => b.severity ≤ a.severity
  if warnings.any fun w => w.severity == .critical then ⟨escapeContent content, warnings, true⟩
  else ⟨content, warnings, false⟩

def detect (content : Text) : List InjectionWarning := (sanitize content).warnings

theorem detect_eq (content : Text) :
    detect content = (findings content).insertionSort fun a b => b.severity ≤ a.severity := by
  rw [detect, sanitize]
  split <;> rfl

@[simp] theorem detect_nil : detect [] = [] := rfl

example : detect "Ignore previous: eval (".toList =
    [⟨"ignore previous".toList, .high, 0, 15, "Attempt to override previous instructions"⟩,
      ⟨"eval_call".toList, .high, 17, 23, "Potential code evaluation attempt"⟩] := by
  decide

end Sanitizer

end IronClaw.Safety
