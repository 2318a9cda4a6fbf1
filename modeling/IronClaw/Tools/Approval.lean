import IronClaw.Foundation.Text
import IronClaw.Tools.Tool

/-!
# Approval without a user

A job runs without a user who could be asked. Its approval context lists the tools that it may
use although every invocation of them requires an approval.
-/

namespace IronClaw.Tools

open Foundation (Text)

def ApprovalRequirement.isRequired : ApprovalRequirement → Bool
  | never => false
  | unlessAutoApproved | always => true

inductive ApprovalContext where
  | autonomous (allowedTools : List Text)
deriving DecidableEq

namespace ApprovalContext

/-- Whether a tool invocation is blocked. Autonomous execution implies auto-approval. -/
def isBlocked (toolName : Text) (requirement : ApprovalRequirement) : ApprovalContext → Bool
  | autonomous allowedTools =>
    match requirement with
    | .never => false
    | .unlessAutoApproved => false
    | .always => !allowedTools.contains toolName

def isBlockedOrDefault (context : Option ApprovalContext) (toolName : Text)
    (requirement : ApprovalRequirement) : Bool :=
  match context with
  | some ctx => ctx.isBlocked toolName requirement
  | none => requirement.isRequired

end ApprovalContext

end IronClaw.Tools
