/-!
# What tools have in common
-/

namespace IronClaw.Tools

inductive ApprovalRequirement where
  | never
  | unlessAutoApproved
  | always
deriving DecidableEq

inductive ToolError where
  | invalidParameters (reason : String)
  | executionFailed (reason : String)
  | notAuthorized (reason : String)
deriving DecidableEq

def ToolError.toString : ToolError → String
  | invalidParameters reason => "Invalid parameters: " ++ reason
  | executionFailed reason => "Execution failed: " ++ reason
  | notAuthorized reason => "Not authorized: " ++ reason

end IronClaw.Tools
