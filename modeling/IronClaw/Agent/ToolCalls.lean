import IronClaw.Agent.GeneratedImages
import IronClaw.Foundation.Log
import IronClaw.Tools.Execution

/-!
# The tool calls of a chat

The dispatcher checks the calls of a message up to the first that the user must approve, executes
what it let through, and adds the results. After an approval the calls behind go through phases of
their own.
-/

namespace IronClaw.Agent

open Foundation (Json Text mem_takeWhile_iff)
open Hooks (HookRegistry JsonCodec ToolCallEvent redactParams restoreSensitive)
open Llm (ChatMessage ToolCall)
open Tools (CallError Invocation RegisteredTool ToolHost ToolRun executeToolWithSafety)

/-- How texts of tools are cleaned and wrapped for the model. -/
structure SafetyLayer where
  sanitizeToolOutput : Text → Text → Text
  wrapForLlm : Text → Text → Text

/-- A chat: its agent, its message, and how the execution of each call ends. -/
structure Chat where
  host : ToolHost
  codec : JsonCodec
  hooks : HookRegistry
  safety : SafetyLayer
  showDuration : Nat → Text
  /-- The canonical name of an extension, if the text is a name of one. -/
  extensionName : Text → Option Text
  sanitizeAuthUrl : Option Text → Option Text
  autoApproveTools : Bool
  userId : Text
  channel : Text
  metadata : Json
  ends : ToolCall → Json → ToolRun

namespace Chat

variable (chat : Chat)

def isSharedRelay : Bool :=
  "-relay".toList.isSuffixOf chat.channel &&
    !((chat.metadata.get "event_type".toList).bind Json.asStr == some "direct_message".toList)

/-- Ask the hooks about a call: the text of a rejection, or the arguments to go on with. -/
def beforeToolCall (call : ToolCall) : Except Text Json :=
  let sensitive := ((chat.host.tools.get call.name).map fun tool =>
    tool.spec.sensitiveParams).getD []
  let event : ToolCallEvent :=
    ⟨call.name, redactParams call.arguments sensitive, chat.userId, "chat".toList⟩
  match chat.hooks.run chat.codec event with
  | .error (.rejected reason) => .error ("Tool call rejected by hook: ".toList ++ reason)
  | .error e => .error ("Tool call blocked by hook policy: ".toList ++ e.text)
  | .ok (.continue (some newParams)) =>
    match chat.codec.parse newParams with
    | some parsed => .ok (restoreSensitive call.arguments sensitive parsed)
    | none => .ok call.arguments
  | .ok _ => .ok call.arguments

def executeChatTool (call : ToolCall) : Invocation :=
  executeToolWithSafety chat.host (chat.ends call) call.name call.arguments

def processToolResult (name : Text) (result : Except Text Text) : Text :=
  let rawContent :=
    match result with
    | .ok output => output
    | .error e => "Tool '".toList ++ name ++ "' failed: ".toList ++ e
  chat.safety.wrapForLlm name (chat.safety.sanitizeToolOutput name rawContent)

def resultContent (call : ToolCall) (result : Except CallError Text) : Text :=
  chat.processToolResult call.name (result.mapError fun e => e.text chat.showDuration)

def imageResult (call : ToolCall) (result : Except CallError Text) :
    Option GeneratedImageSentinel :=
  match result with
  | .ok output =>
    if call.name = "image_generate".toList ∨ call.name = "image_edit".toList then
      GeneratedImageSentinel.fromOutput chat.codec output
    else none
  | .error _ => none

def dispatchedResult (call : ToolCall) (result : Except CallError Text) : ChatMessage :=
  match chat.imageResult call result with
  | some sentinel => .toolResult call.id call.name (chat.processToolResult call.name
      (.ok (sentinel.summaryMessage chat.codec)))
  | none => .toolResult call.id call.name (chat.resultContent call result)

def resumedResult (call : ToolCall) (result : Except CallError Text) : ChatMessage :=
  .toolResult call.id call.name (chat.resultContent call result)

end Chat

structure ParsedAuthData where
  extensionName : Option Text
  instructions : Option Text
  authUrl : Option Text
  setupUrl : Option Text
  awaitingToken : Bool
deriving DecidableEq

namespace Chat

variable (chat : Chat)

def parseAuthResult (result : Except CallError Text) : ParsedAuthData :=
  let parsed := result.toOption.bind chat.codec.parse
  let text := fun (key : String) => (parsed.bind (Json.get key.toList)).bind Json.asStr
  { extensionName := (text "name").bind chat.extensionName
    instructions := text "instructions"
    authUrl := chat.sanitizeAuthUrl (text "auth_url")
    setupUrl := chat.sanitizeAuthUrl (text "setup_url")
    awaitingToken :=
      ((parsed.bind (Json.get "awaiting_token".toList)).bind Json.asBool).getD false }

def extractAuthPrompt (name : Text) (result : Except CallError Text) : Option ParsedAuthData :=
  if name = "tool_auth".toList ∨ name = "tool_activate".toList then
    let authData := chat.parseAuthResult result
    if authData.extensionName.isSome &&
        (authData.awaitingToken || authData.authUrl.isSome || authData.setupUrl.isSome) then
      some authData
    else none
  else none

def captureAuthPrompt (selected : Option ParsedAuthData) (name : Text)
    (result : Except CallError Text) : Option ParsedAuthData :=
  selected.orElse fun _ => chat.extractAuthPrompt name result

/-- A prompt that was kept with a pending approval. Its extension name is checked again. -/
def restoreSelectedAuthPrompt (pending : Option ParsedAuthData) : Option ParsedAuthData :=
  pending.bind fun prompt => (prompt.extensionName.bind chat.extensionName).map fun name =>
    { prompt with extensionName := some name }

end Chat

def needsApproval (autoApproved : List Text) (tool : RegisteredTool) (name : Text)
    (params : Json) : Bool :=
  match tool.requiresApproval params with
  | .never => false
  | .unlessAutoApproved => !autoApproved.contains name
  | .always => true

/-- The user must be asked about a call, as its arguments are. -/
def Chat.NeedsApproval (chat : Chat) (autoApproved : List Text) (call : ToolCall) : Prop :=
  ∃ tool, chat.host.tools.get call.name = some tool ∧
    needsApproval autoApproved tool call.name call.arguments = true

/-- What the dispatcher decides about a call that the hooks let pass. -/
inductive Decision where
  | run
  | deny (message : Text)
  | ask (allowAlways : Bool)

/-- Where other people read the channel, nobody is asked. -/
def Chat.decide (chat : Chat) (autoApproved : List Text) (call : ToolCall) : Decision :=
  if chat.autoApproveTools then .run
  else
    match chat.host.tools.get call.name with
    | none => .run
    | some tool =>
      if needsApproval autoApproved tool call.name call.arguments then
        if chat.isSharedRelay then
          .deny ("Tool '".toList ++ call.name ++
            "' requires approval and cannot run in shared channels. ".toList ++
            "Ask the user to message me directly (DM) to use this tool.".toList)
        else .ask (tool.requiresApproval call.arguments != .always)
      else .run

inductive PreflightOutcome where
  | rejected (error : Text)
  | runnable

structure ApprovalNeeded where
  call : ToolCall
  allowAlways : Bool
  deferred : List ToolCall

structure Preflight where
  settled : List (ToolCall × PreflightOutcome)
  approval : Option ApprovalNeeded

def Preflight.cons (entry : ToolCall × PreflightOutcome) (p : Preflight) : Preflight :=
  { p with settled := entry :: p.settled }

inductive Checked where
  | settled (entry : ToolCall × PreflightOutcome)
  | paused (call : ToolCall) (allowAlways : Bool)

def Chat.check (chat : Chat) (autoApproved : List Text) (original : ToolCall) : Checked :=
  match chat.beforeToolCall original with
  | .error message => .settled (original, .rejected message)
  | .ok arguments =>
    let call := { original with arguments }
    match chat.decide autoApproved call with
    | .run => .settled (call, .runnable)
    | .deny message => .settled (call, .rejected message)
    | .ask allowAlways => .paused call allowAlways

/-- Phase 1: hooks and approval, one call after the other. -/
def preflight (chat : Chat) (autoApproved : List Text) : List ToolCall → Preflight
  | [] => ⟨[], none⟩
  | original :: rest =>
    match chat.check autoApproved original with
    | .settled entry => (preflight chat autoApproved rest).cons entry
    | .paused call allowAlways => ⟨[], some ⟨call, allowAlways, rest⟩⟩

structure Ran where
  call : ToolCall
  invocation : Invocation

structure Batch where
  ran : List Ran
  rejected : List ToolCall
  messages : List ChatMessage
  authPrompt : Option ParsedAuthData

def Batch.start (authPrompt : Option ParsedAuthData) : Batch := ⟨[], [], [], authPrompt⟩

/-- Phases 2 and 3 for one call: a result is added, with a rejection or with the end of a run. -/
def Batch.settle (chat : Chat) (b : Batch) : ToolCall × PreflightOutcome → Batch
  | (call, .rejected error) =>
    { b with
      rejected := b.rejected ++ [call]
      messages := b.messages ++ [.toolResult call.id call.name
        (chat.processToolResult call.name (.error error))] }
  | (call, .runnable) =>
    let invocation := chat.executeChatTool call
    { b with
      ran := b.ran ++ [⟨call, invocation⟩]
      messages := b.messages ++ [chat.dispatchedResult call invocation.result]
      authPrompt := chat.captureAuthPrompt b.authPrompt call.name invocation.result }

def postflight (chat : Chat) (b : Batch) (settled : List (ToolCall × PreflightOutcome)) : Batch :=
  settled.foldl (Batch.settle chat) b

structure PendingApproval where
  call : ToolCall
  allowAlways : Bool
  contextMessages : List ChatMessage
  deferredToolCalls : List ToolCall
  selectedAuthPrompt : Option ParsedAuthData

/-- How the calls of a message end: with a pause, waiting for a token, or with another call of the
model. -/
inductive LoopOutcome where
  | needApproval (pending : PendingApproval)
  | authPending
  | goOn

/-- What follows when the calls are settled. Approval pauses take precedence over prompts. -/
def loopOutcome (messages : List ChatMessage) (b : Batch) (approval : Option ApprovalNeeded) :
    LoopOutcome :=
  match approval with
  | some needed =>
    .needApproval ⟨needed.call, needed.allowAlways, messages ++ b.messages, needed.deferred,
      b.authPrompt⟩
  | none =>
    match b.authPrompt with
    | some prompt => if prompt.awaitingToken then .authPending else .goOn
    | none => .goOn

def executeToolCalls (chat : Chat) (autoApproved : List Text) (messages : List ChatMessage)
    (calls : List ToolCall) : Batch × LoopOutcome :=
  let p := preflight chat autoApproved calls
  let b := postflight chat (.start none) p.settled
  (b, loopOutcome messages b p.approval)

def Chat.checkDeferred (chat : Chat) (autoApproved : List Text) (call : ToolCall) : Option Bool :=
  match chat.host.tools.get call.name with
  | some tool =>
    if !chat.autoApproveTools && needsApproval autoApproved tool call.name call.arguments then
      some (tool.requiresApproval call.arguments != .always)
    else none
  | none => none

def preflightDeferred (chat : Chat) (autoApproved : List Text) :
    List ToolCall → List ToolCall × Option ApprovalNeeded
  | [] => ([], none)
  | call :: rest =>
    match chat.checkDeferred autoApproved call with
    | some allowAlways => ([], some ⟨call, allowAlways, rest⟩)
    | none =>
      let r := preflightDeferred chat autoApproved rest
      (call :: r.1, r.2)

def Batch.resume (chat : Chat) (b : Batch) (call : ToolCall) : Batch :=
  let invocation := chat.executeChatTool call
  { b with
    ran := b.ran ++ [⟨call, invocation⟩]
    messages := b.messages ++ [chat.resumedResult call invocation.result]
    authPrompt := chat.captureAuthPrompt b.authPrompt call.name invocation.result }

/-- The user approves: run the call, and those after it up to the next one to approve. -/
def processApproval (chat : Chat) (autoApproved : List Text) (pending : PendingApproval) :
    Batch × LoopOutcome :=
  let start := Batch.start (chat.restoreSelectedAuthPrompt pending.selectedAuthPrompt)
  let r := preflightDeferred chat autoApproved pending.deferredToolCalls
  let b := (pending.call :: r.1).foldl (Batch.resume chat) start
  (b, loopOutcome pending.contextMessages b r.2)

section Phases

variable {chat : Chat} {autoApproved : List Text}

theorem preflight_cases (chat : Chat) (autoApproved : List Text) (calls : List ToolCall) :
    (∃ entries, calls.map (chat.check autoApproved) = entries.map .settled ∧
      preflight chat autoApproved calls = ⟨entries, none⟩) ∨
    ∃ front original back entries call allowAlways, calls = front ++ original :: back ∧
      front.map (chat.check autoApproved) = entries.map .settled ∧
      chat.check autoApproved original = .paused call allowAlways ∧
      preflight chat autoApproved calls = ⟨entries, some ⟨call, allowAlways, back⟩⟩ := by
  induction calls with
  | nil => exact .inl ⟨[], rfl, rfl⟩
  | cons original rest ih =>
    cases h : chat.check autoApproved original with
    | paused call allowAlways =>
      exact .inr ⟨[], original, rest, [], call, allowAlways, rfl, rfl, h, by
        simp only [preflight, h]⟩
    | settled entry =>
      have hcons : preflight chat autoApproved (original :: rest) =
          (preflight chat autoApproved rest).cons entry := by
        simp only [preflight, h]
      rcases ih with ⟨entries, hmap, hpre⟩ | ⟨front, paused, back, entries, call, allowAlways, rfl,
        hmap, hpaused, hpre⟩
      · refine .inl ⟨entry :: entries, ?_, ?_⟩
        · simp [h, hmap]
        · rw [hcons, hpre]
          rfl
      · refine .inr ⟨original :: front, paused, back, entry :: entries, call, allowAlways, rfl, ?_,
          hpaused, ?_⟩
        · simp [h, hmap]
        · rw [hcons, hpre]
          rfl

def Checked.entry : Checked → Option (ToolCall × PreflightOutcome)
  | settled entry => some entry
  | paused _ _ => none

theorem settled_preflight (calls : List ToolCall) : (preflight chat autoApproved calls).settled =
      (calls.takeWhile fun d => (chat.check autoApproved d).entry.isSome).filterMap
        fun d => (chat.check autoApproved d).entry := by
  induction calls with
  | nil => rfl
  | cons first rest ih =>
    cases h : chat.check autoApproved first <;>
      simp [preflight, h, Checked.entry, Preflight.cons, ih]

theorem mem_settled_preflight {calls : List ToolCall} {entry : ToolCall × PreflightOutcome} :
    entry ∈ (preflight chat autoApproved calls).settled ↔
      ∃ front original back, calls = front ++ original :: back ∧
        (∀ d ∈ front, (chat.check autoApproved d).entry.isSome = true) ∧
        (chat.check autoApproved original).entry = some entry := by
  rw [settled_preflight, List.mem_filterMap]
  constructor
  · rintro ⟨original, hmem, hentry⟩
    obtain ⟨front, back, hsplit, hfront, -⟩ := mem_takeWhile_iff.mp hmem
    exact ⟨front, original, back, hsplit, hfront, hentry⟩
  · rintro ⟨front, original, back, hsplit, hfront, hentry⟩
    exact ⟨original, mem_takeWhile_iff.mpr ⟨front, back, hsplit, hfront, by rw [hentry]; rfl⟩,
      hentry⟩

theorem mem_preflightDeferred {calls : List ToolCall} {call : ToolCall} :
    call ∈ (preflightDeferred chat autoApproved calls).1 ↔
      ∃ front back, calls = front ++ call :: back ∧
        (∀ d ∈ front, chat.checkDeferred autoApproved d = none) ∧
        chat.checkDeferred autoApproved call = none := by
  have htake : (preflightDeferred chat autoApproved calls).1 =
      calls.takeWhile fun d => (chat.checkDeferred autoApproved d).isNone := by
    induction calls with
    | nil => rfl
    | cons first rest ih =>
      cases h : chat.checkDeferred autoApproved first <;> simp [preflightDeferred, h, ih]
  rw [htake, mem_takeWhile_iff]
  simp only [Option.isNone_iff_eq_none]

theorem preflightDeferred_cases (chat : Chat) (autoApproved : List Text) (calls : List ToolCall) :
    ((∀ d ∈ calls, chat.checkDeferred autoApproved d = none) ∧
      preflightDeferred chat autoApproved calls = (calls, none)) ∨
    ∃ front call back allowAlways, calls = front ++ call :: back ∧
      (∀ d ∈ front, chat.checkDeferred autoApproved d = none) ∧
      chat.checkDeferred autoApproved call = some allowAlways ∧
      preflightDeferred chat autoApproved calls = (front, some ⟨call, allowAlways, back⟩) := by
  induction calls with
  | nil => exact .inl ⟨by simp, rfl⟩
  | cons first rest ih =>
    cases h : chat.checkDeferred autoApproved first with
    | some allowAlways =>
      exact .inr ⟨[], first, rest, allowAlways, rfl, by simp, h, by
        simp only [preflightDeferred, h]⟩
    | none =>
      rcases ih with ⟨hnone, hpre⟩ | ⟨front, call, back, allowAlways, rfl, hfront, hcall, hpre⟩
      · refine .inl ⟨?_, ?_⟩
        · simpa [h] using hnone
        · simp only [preflightDeferred, h, hpre]
      · refine .inr ⟨first :: front, call, back, allowAlways, rfl, ?_, hcall, ?_⟩
        · simpa [h] using hfront
        · simp only [preflightDeferred, h, hpre]

def Chat.ranOf (chat : Chat) : ToolCall × PreflightOutcome → List Ran
  | (_, .rejected _) => []
  | (call, .runnable) => [⟨call, chat.executeChatTool call⟩]

def rejectedOf : ToolCall × PreflightOutcome → List ToolCall
  | (call, .rejected _) => [call]
  | (_, .runnable) => []

def Chat.resultOf (chat : Chat) : ToolCall × PreflightOutcome → ChatMessage
  | (call, .rejected error) =>
    .toolResult call.id call.name (chat.processToolResult call.name (.error error))
  | (call, .runnable) => chat.dispatchedResult call (chat.executeChatTool call).result

theorem postflight_append (chat : Chat) (b : Batch) (settled : List (ToolCall × PreflightOutcome)) :
    (postflight chat b settled).ran = b.ran ++ settled.flatMap chat.ranOf ∧
      (postflight chat b settled).rejected = b.rejected ++ settled.flatMap rejectedOf ∧
      (postflight chat b settled).messages = b.messages ++ settled.map chat.resultOf := by
  induction settled generalizing b with
  | nil => simp [postflight]
  | cons entry rest ih =>
    obtain ⟨hran, hrejected, hmessages⟩ := ih (b.settle chat entry)
    have hstep : postflight chat b (entry :: rest) = postflight chat (b.settle chat entry) rest :=
      rfl
    rw [hstep, hran, hrejected, hmessages]
    obtain ⟨call, error | -⟩ := entry <;>
      simp [Batch.settle, Chat.ranOf, rejectedOf, Chat.resultOf]

theorem resume_append (chat : Chat) (b : Batch) (calls : List ToolCall) :
    (calls.foldl (Batch.resume chat) b).ran =
        b.ran ++ calls.map (fun call => ⟨call, chat.executeChatTool call⟩) ∧
      (calls.foldl (Batch.resume chat) b).rejected = b.rejected ∧
      (calls.foldl (Batch.resume chat) b).messages = b.messages ++
        calls.map (fun call => chat.resumedResult call (chat.executeChatTool call).result) := by
  induction calls generalizing b with
  | nil => simp
  | cons call rest ih =>
    obtain ⟨hran, hrejected, hmessages⟩ := ih (b.resume chat call)
    rw [List.foldl_cons, hran, hrejected, hmessages]
    simp [Batch.resume]

end Phases

end IronClaw.Agent
