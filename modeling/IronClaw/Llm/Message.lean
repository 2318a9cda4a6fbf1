import IronClaw.Foundation.Json

/-!
# Messages to a model
-/

namespace IronClaw.Llm

open Foundation (Json Text)

structure ToolCall where
  id : Text
  name : Text
  arguments : Json
  reasoning : Option Text

/-- A message of a conversation. The model's calls come with the text it gives. -/
inductive ChatMessage where
  | system (content : Text)
  | user (content : Text)
  | assistant (content : Text)
  | assistantWithToolCalls (content : Option Text) (toolCalls : List ToolCall)
  | toolResult (toolCallId name content : Text)

inductive Role where
  | system
  | user
  | assistant
  | tool
deriving DecidableEq

def ChatMessage.role : ChatMessage → Role
  | system _ => .system
  | user _ => .user
  | assistant _ => .assistant
  | assistantWithToolCalls _ _ => .assistant
  | toolResult _ _ _ => .tool

section Role

variable (content : Text)

@[simp] theorem ChatMessage.role_system : (system content).role = .system := rfl

@[simp] theorem ChatMessage.role_user : (user content).role = .user := rfl

@[simp] theorem ChatMessage.role_assistant : (assistant content).role = .assistant := rfl

@[simp] theorem ChatMessage.role_assistantWithToolCalls (content : Option Text)
    (toolCalls : List ToolCall) : (assistantWithToolCalls content toolCalls).role = .assistant :=
  rfl

@[simp] theorem ChatMessage.role_toolResult (toolCallId name : Text) :
    (toolResult toolCallId name content).role = .tool := rfl

end Role

def ChatMessage.resultOf : ChatMessage → Option Text
  | toolResult toolCallId _ _ => some toolCallId
  | _ => none

theorem ChatMessage.resultOf_eq_none_iff {m : ChatMessage} :
    m.resultOf = none ↔ m.role ≠ .tool := by
  cases m <;> simp [resultOf]

end IronClaw.Llm
