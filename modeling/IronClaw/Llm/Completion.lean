import IronClaw.Foundation.JsonText

/-!
# Completion requests

A request and its messages. Strings are their UTF-8 bytes, arguments of a tool call a JSON value
with a writer of its own. Missing fields and empty lists are left out.
-/

namespace IronClaw.Llm.Completion

open Foundation
open Foundation.Json (writeString writeArray EndsValue selfDelimiting_writeString
  selfDelimiting_writeArray)
open List (append_assoc append_cancel_left append_cancel_left_eq)

inductive Role where
  | system
  | user
  | assistant
  | tool
deriving DecidableEq

structure ImageUrl where
  url : Bytes
  detail : Option Bytes
deriving DecidableEq

inductive ContentPart where
  | text (text : Bytes)
  | imageUrl (imageUrl : ImageUrl)
deriving DecidableEq

structure ToolCall (V : Type) where
  id : Bytes
  name : Bytes
  arguments : V
  reasoning : Option Bytes
deriving DecidableEq

structure ChatMessage (V : Type) where
  role : Role
  content : Bytes
  contentParts : List ContentPart
  toolCallId : Option Bytes
  name : Option Bytes
  toolCalls : Option (List (ToolCall V))
deriving DecidableEq

structure CompletionRequest (V : Type) where
  messages : List (ChatMessage V)
  maxTokens : Option UInt32
  temperature : Option UInt32
  stopSequences : Option (List Bytes)
deriving DecidableEq

def Role.toBytes : Role → Bytes
  | system => ascii "system"
  | user => ascii "user"
  | assistant => ascii "assistant"
  | tool => ascii "tool"

def writeImageUrl (i : ImageUrl) : Bytes :=
  ascii "\x7b\"url\":" ++ (writeString i.url ++
    (writeOptional (ascii ",\"detail\":") writeString i.detail ++ ascii "\x7d"))

def writePart : ContentPart → Bytes
  | .text text => ascii "\x7b\"type\":\"text\",\"text\":" ++ (writeString text ++ ascii "\x7d")
  | .imageUrl imageUrl =>
    ascii "\x7b\"type\":\"image_url\",\"image_url\":" ++ (writeImageUrl imageUrl ++ ascii "\x7d")

def unlessEmpty {α : Type} : List α → Option (List α)
  | [] => none
  | a :: as => some (a :: as)

section Writer

variable {V : Type} (writeValue : V → Bytes)

def writeToolCall (c : ToolCall V) : Bytes :=
  ascii "\x7b\"id\":" ++ (writeString c.id ++ (ascii ",\"name\":" ++ (writeString c.name ++
    (ascii ",\"arguments\":" ++ (writeValue c.arguments ++
      (writeOptional (ascii ",\"reasoning\":") writeString c.reasoning ++ ascii "\x7d"))))))

def writeMessage (m : ChatMessage V) : Bytes :=
  ascii "\x7b\"role\":" ++ (writeString m.role.toBytes ++
    (ascii ",\"content\":" ++ (writeString m.content ++
      (writeOptional (ascii ",\"content_parts\":") (writeArray writePart)
          (unlessEmpty m.contentParts) ++
        (writeOptional (ascii ",\"tool_call_id\":") writeString m.toolCallId ++
          (writeOptional (ascii ",\"name\":") writeString m.name ++
            (writeOptional (ascii ",\"tool_calls\":") (writeArray (writeToolCall writeValue))
                m.toolCalls ++ ascii "\x7d")))))))

def writeMessages : List (ChatMessage V) → Bytes := writeArray (writeMessage writeValue)

end Writer

theorem Role.toBytes_injective : Function.Injective Role.toBytes := by
  intro r r' h
  cases r <;> cases r' <;> first | rfl | (revert h; decide +kernel)

theorem unlessEmpty_injective {α : Type} :
    Function.Injective (unlessEmpty : List α → Option (List α)) := by
  rintro (_ | ⟨a, as⟩) (_ | ⟨b, bs⟩) h
  · rfl
  · cases h
  · cases h
  · exact Option.some.inj h

theorem selfDelimiting_writeImageUrl : SelfDelimiting writeImageUrl := by
  rintro ⟨url, detail⟩ ⟨url', detail'⟩ s t heq
  simp only [writeImageUrl, append_assoc, append_cancel_left_eq] at heq
  obtain ⟨rfl, hdetail⟩ := selfDelimiting_writeString _ _ _ _ heq
  have hclash : Clash (ascii ",\"detail\":") (ascii "\x7d") := by decide +kernel
  obtain ⟨rfl, hend⟩ := selfDelimiting_writeString.optional _ _ _ _ _
    (hclash.not_prefix_append s) (hclash.not_prefix_append t) hdetail
  exact ⟨rfl, append_cancel_left hend⟩

theorem selfDelimiting_writePart : SelfDelimiting writePart := by
  have hclash : Clash (ascii "\x7b\"type\":\"text\",\"text\":")
      (ascii "\x7b\"type\":\"image_url\",\"image_url\":") := by decide +kernel
  rintro (text | url) (text' | url') s t heq
  · simp only [writePart, append_assoc, append_cancel_left_eq] at heq
    obtain ⟨rfl, hend⟩ := selfDelimiting_writeString _ _ _ _ heq
    exact ⟨rfl, append_cancel_left hend⟩
  · simp only [writePart, append_assoc] at heq
    exact absurd heq (hclash.append_ne _ _)
  · simp only [writePart, append_assoc] at heq
    exact absurd heq.symm (hclash.append_ne _ _)
  · simp only [writePart, append_assoc, append_cancel_left_eq] at heq
    obtain ⟨rfl, hend⟩ := selfDelimiting_writeImageUrl _ _ _ _ heq
    exact ⟨rfl, append_cancel_left hend⟩

section Reader

variable {V : Type} {writeValue : V → Bytes}

theorem selfDelimiting_writeToolCall (h : ReadableBefore EndsValue writeValue) :
    SelfDelimiting (writeToolCall writeValue) := by
  rintro ⟨id, name, arguments, reasoning⟩ ⟨id', name', arguments', reasoning'⟩ s t heq
  simp only [writeToolCall, append_assoc, append_cancel_left_eq] at heq
  obtain ⟨rfl, hname⟩ := selfDelimiting_writeString _ _ _ _ heq
  obtain ⟨rfl, harguments⟩ :=
    selfDelimiting_writeString _ _ _ _ (append_cancel_left hname)
  -- a comma or a bracket comes behind the arguments
  have hends : ∀ (o : Option Bytes) (s : Bytes), EndsValue
      (writeOptional (ascii ",\"reasoning\":") writeString o ++ (ascii "\x7d" ++ s)) := by
    rintro (_ | reasoning) s
    · exact .inr (.inr rfl)
    · exact .inl rfl
  obtain ⟨rfl, hreasoning⟩ := h _ _ _ _ (hends _ _) (hends _ _)
    (append_cancel_left harguments)
  have hclash : Clash (ascii ",\"reasoning\":") (ascii "\x7d") := by decide +kernel
  obtain ⟨rfl, hend⟩ := selfDelimiting_writeString.optional _ _ _ _ _
    (hclash.not_prefix_append s) (hclash.not_prefix_append t) hreasoning
  exact ⟨rfl, append_cancel_left hend⟩

theorem selfDelimiting_writeMessage (h : ReadableBefore EndsValue writeValue) :
    SelfDelimiting (writeMessage writeValue) := by
  have hparts : SelfDelimiting (writeArray writePart) :=
    selfDelimiting_writeArray selfDelimiting_writePart.readableBefore fun part s t heq => by
      cases part <;> cases (List.cons.inj heq).1
  have hcalls : SelfDelimiting (writeArray (writeToolCall writeValue)) :=
    selfDelimiting_writeArray (selfDelimiting_writeToolCall h).readableBefore fun call s t heq => by
      cases (List.cons.inj heq).1
  rintro ⟨role, content, parts, callId, name, calls⟩
    ⟨role', content', parts', callId', name', calls'⟩ s t heq
  simp only [writeMessage, append_assoc, append_cancel_left_eq] at heq
  obtain ⟨hrole, hcontent⟩ := selfDelimiting_writeString _ _ _ _ heq
  obtain rfl : role = role' := Role.toBytes_injective hrole
  obtain ⟨rfl, hoptional⟩ :=
    selfDelimiting_writeString _ _ _ _ (append_cancel_left hcontent)
  -- no optional field begins like another one behind it, or like the closing bracket
  have hclash₁ : ∀ l ∈ [ascii ",\"tool_call_id\":", ascii ",\"name\":", ascii ",\"tool_calls\":",
      ascii "\x7d"], Clash (ascii ",\"content_parts\":") l := by decide +kernel
  have hclash₂ : ∀ l ∈ [ascii ",\"name\":", ascii ",\"tool_calls\":", ascii "\x7d"],
      Clash (ascii ",\"tool_call_id\":") l := by decide +kernel
  have hclash₃ : ∀ l ∈ [ascii ",\"tool_calls\":", ascii "\x7d"],
      Clash (ascii ",\"name\":") l := by decide +kernel
  have hclash₄ : Clash (ascii ",\"tool_calls\":") (ascii "\x7d") := by decide +kernel
  simp only [List.forall_mem_cons, List.not_mem_nil, false_implies, implies_true, and_true]
    at hclash₁ hclash₂ hclash₃
  obtain ⟨hid₁, hname₁, hcalls₁, hend₁⟩ := hclash₁
  obtain ⟨hname₂, hcalls₂, hend₂⟩ := hclash₂
  obtain ⟨hcalls₃, hend₃⟩ := hclash₃
  obtain ⟨hparts', hids⟩ := hparts.optional _ _ _ _ _
    (not_prefix_writeOptional hid₁ (not_prefix_writeOptional hname₁
      (not_prefix_writeOptional hcalls₁ (hend₁.not_prefix_append s) _) _) _)
    (not_prefix_writeOptional hid₁ (not_prefix_writeOptional hname₁
      (not_prefix_writeOptional hcalls₁ (hend₁.not_prefix_append t) _) _) _) hoptional
  obtain rfl : parts = parts' := unlessEmpty_injective hparts'
  obtain ⟨rfl, hnames⟩ := selfDelimiting_writeString.optional _ _ _ _ _
    (not_prefix_writeOptional hname₂
      (not_prefix_writeOptional hcalls₂ (hend₂.not_prefix_append s) _) _)
    (not_prefix_writeOptional hname₂
      (not_prefix_writeOptional hcalls₂ (hend₂.not_prefix_append t) _) _) hids
  obtain ⟨rfl, hcalls'⟩ := selfDelimiting_writeString.optional _ _ _ _ _
    (not_prefix_writeOptional hcalls₃ (hend₃.not_prefix_append s) _)
    (not_prefix_writeOptional hcalls₃ (hend₃.not_prefix_append t) _) hnames
  obtain ⟨rfl, hend⟩ := hcalls.optional _ _ _ _ _
    (hclash₄.not_prefix_append s) (hclash₄.not_prefix_append t) hcalls'
  exact ⟨rfl, append_cancel_left hend⟩

/-- **The messages can be read** from what is hashed of them, whatever follows. -/
theorem selfDelimiting_writeMessages (h : ReadableBefore EndsValue writeValue) :
    SelfDelimiting (writeMessages writeValue) :=
  selfDelimiting_writeArray (selfDelimiting_writeMessage h).readableBefore fun m s t heq => by
    cases (List.cons.inj heq).1

end Reader

end IronClaw.Llm.Completion
