import IronClaw.Safety.LeakDetector
import IronClaw.Safety.Sanitizer

/-!
# The safety layer

The output of a tool is cut, searched for secrets, checked against a policy, escaped where that is
asked for, and wrapped in delimiters that it cannot close itself.
-/

namespace IronClaw.Safety

open Foundation (Text)

structure SafetyConfig where
  maxOutputLength : Nat
  injectionCheckEnabled : Bool

inductive PolicyAction where
  | warn
  | block
  | review
  | sanitize
deriving DecidableEq

structure PolicyRule where
  id : Text
  regex : Text
  severity : Severity
  action : PolicyAction
deriving DecidableEq

namespace Policy

def rules : List PolicyRule :=
  [⟨"system_file_access".toList,
      "(?i)(/etc/passwd|/etc/shadow|\\.ssh/|\\.aws/credentials)".toList, .critical, .block⟩,
    ⟨"crypto_private_key".toList,
      "(?i)(private.?key|seed.?phrase|mnemonic).\x7b0,20\x7d[0-9a-f]\x7b64\x7d".toList,
      .critical, .block⟩,
    ⟨"sql_pattern".toList,
      "(?i)(DROP\\s+TABLE|DELETE\\s+FROM|INSERT\\s+INTO|UPDATE\\s+\\w+\\s+SET)".toList,
      .medium, .warn⟩,
    ⟨"shell_injection".toList, "(?i)(;\\s*rm\\s+-rf|;\\s*curl\\s+.*\\|\\s*sh)".toList,
      .critical, .block⟩,
    ⟨"excessive_urls".toList, "(https?://[^\\s]+\\s*)\x7b10,\x7d".toList, .low, .warn⟩,
    ⟨"encoded_exploit".toList, "(?i)(base64_decode|eval\\s*\\(\\s*base64|atob\\s*\\()".toList,
      .high, .sanitize⟩,
    ⟨"obfuscated_string".toList, "[^\\s]\x7b500,\x7d".toList, .medium, .warn⟩]

def check (regexes : Regexes) (content : Text) : List PolicyRule :=
  rules.filter fun rule => regexes.isMatch rule.regex content

def demands (regexes : Regexes) (action : PolicyAction) (content : Text) : Bool :=
  (check regexes content).any fun rule => rule.action == action

end Policy

/-- The longest beginning of a text that has no more than the given number of bytes. -/
def takeBytes : Nat → Text → Text
  | _, [] => []
  | n, c :: s => if c.utf8Size ≤ n then c :: takeBytes (n - c.utf8Size) s else []

def decimal (n : Nat) : Text := (toString n).toList

def truncationNotice (cut total : Nat) : Text :=
  "\n\n[... truncated: showing ".toList ++ decimal cut ++ ['/'] ++ decimal total ++
    (" bytes. Use the json tool with source_tool_call_id to query the full output.]").toList

def truncationWarning (toolName output : Text) : InjectionWarning :=
  ⟨"output_too_large".toList, .low, 0, Text.byteLength output,
    "Output from tool '" ++ String.ofList toolName ++ "' was truncated due to size"⟩

def truncated (config : SafetyConfig) (output : Text) : Text :=
  if config.maxOutputLength < Text.byteLength output then
    let kept := takeBytes config.maxOutputLength output
    kept ++ truncationNotice (Text.byteLength kept) (Text.byteLength output)
  else output

def leakNotice : Text := "[Output blocked due to potential secret leakage]".toList

def policyNotice : Text := "[Output blocked by safety policy]".toList

def sanitizeToolOutput (regexes : Regexes) (config : SafetyConfig) (toolName output : Text) :
    Sanitizer.SanitizedOutput :=
  let tooLong := decide (config.maxOutputLength < Text.byteLength output)
  let content := truncated config output
  let warnings := if tooLong then [truncationWarning toolName output] else []
  match LeakDetector.scanAndClean regexes content with
  | .error _ => ⟨leakNotice, [], true⟩
  | .ok cleaned =>
    if Policy.demands regexes .block cleaned then ⟨policyNotice, [], true⟩
    else
      let forceSanitize := Policy.demands regexes .sanitize cleaned
      let wasModified := tooLong || cleaned != content || forceSanitize
      if config.injectionCheckEnabled || forceSanitize then
        let sanitized := Sanitizer.sanitize cleaned
        ⟨sanitized.content, warnings ++ sanitized.warnings, sanitized.wasModified || wasModified⟩
      else ⟨cleaned, warnings, wasModified⟩

/-- The output leaks a secret that blocks it, or violates the policy once it is cleaned. -/
def replacedByNotice (regexes : Regexes) (config : SafetyConfig) (output : Text) : Bool :=
  match LeakDetector.scanAndClean regexes (truncated config output) with
  | .error _ => true
  | .ok cleaned => Policy.demands regexes .block cleaned

theorem sanitizeToolOutput_of_replaced {regexes : Regexes} {config : SafetyConfig}
    {toolName output : Text} (h : replacedByNotice regexes config output = true) :
    (sanitizeToolOutput regexes config toolName output).content = leakNotice ∨
      (sanitizeToolOutput regexes config toolName output).content = policyNotice := by
  unfold replacedByNotice at h
  unfold sanitizeToolOutput
  dsimp only
  split at h
  · exact .inl rfl
  · next cleaned _ =>
    rw [if_pos h]
    exact .inr rfl

def escapeXmlAttr (s : Text) : Text :=
  s.flatMap fun c =>
    if c = '&' then "&amp;".toList
    else if c = '"' then "&quot;".toList
    else if c = '<' then "&lt;".toList
    else if c = '>' then "&gt;".toList
    else [c]

def zeroWidthSpace : Char := Char.ofNat 0x200B

def closingTag : Text := "</tool_output".toList

/-- A zero-width space into each closing tag; the first argument counts characters still inside the
last one. -/
def escapeToolOutputCloseFrom : Nat → Text → Text
  | _, [] => []
  | skip + 1, c :: s => c :: escapeToolOutputCloseFrom skip s
  | 0, c :: s =>
    if closingTag.isPrefixOf (Text.toAsciiLowercase (c :: s)) then
      c :: zeroWidthSpace :: escapeToolOutputCloseFrom (closingTag.length - 1) s
    else c :: escapeToolOutputCloseFrom 0 s

def escapeToolOutputClose (s : Text) : Text := escapeToolOutputCloseFrom 0 s

def wrapForLlm (toolName content : Text) : Text :=
  "<tool_output name=\"".toList ++ escapeXmlAttr toolName ++ "\">\n".toList ++
    escapeToolOutputClose content ++ "\n</tool_output>".toList

example : wrapForLlm "echo".toList "a</Tool_Output>".toList =
    "<tool_output name=\"echo\">\na<\u200b/Tool_Output>\n</tool_output>".toList := by
  decide

end IronClaw.Safety
