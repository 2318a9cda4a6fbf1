import IronClaw.Engine.Lease
import IronClaw.Engine.Policy

/-!
# Executing batches of action calls

A batch is checked call by call, and what passes runs afterwards, in any order. A call passes when
it is callable, a lease covers it, the policy allows it and a use is consumed. One that needs
approval ends the batch before.
-/

namespace IronClaw.Engine

open Foundation (Text)

variable {J : Type}

structure ActionCall (J : Type) where
  id : String
  actionName : Text
  parameters : J

structure TimedCall (J : Type) extends ActionCall J where
  findClock : LeaseManager.Clock
  evaluateTime : Time
  consumeClock : LeaseManager.Clock

inductive ResumeKind where
  | approval (allowAlways : Bool)
  | authentication (credentialName instructions : String) (authUrl : Option String)
  | external (callbackId : String)
deriving DecidableEq

structure GatePause (J : Type) where
  gateName : String
  actionName : Text
  callId : String
  parameters : J
  resumeKind : ResumeKind
  resumeOutput : Option J
  pausedLease : Option CapabilityLease

/-- The output of a result: an executor's own, or one of the texts reported here. -/
inductive Output (J : Type) where
  | value (output : J)
  | error (text : String)
  | gatePaused (pause : GatePause J)

structure ActionResult (J : Type) where
  callId : String
  actionName : Text
  output : Output J
  isError : Bool

/-- How the effect executor's run of one action ends. -/
inductive ExecOutcome (J : Type) where
  | ok (result : ActionResult J)
  | gatePaused (pause : GatePause J)
  | error (text : String)
  | panicked

inductive Refusal where
  | notCallable
  | noLease
  | denied (reason : String)
  | consumeFailed (e : EngineError)

inductive Verdict where
  | refused (reason : Refusal)
  | needsApproval
  | allowed

def findAction (inline : List ActionDef) (name : Text) : Option ActionDef :=
  inline.find? fun action => action.matchesName name

/-- Check a call. Without an inventory no definition is found, and the policy is not asked. -/
def vetCall (inventory : Option (List ActionDef)) (policy : PolicyEngine)
    (capabilityPolicies : List PolicyRule) (threadId : ThreadId) (m : LeaseManager)
    (call : TimedCall J) : Verdict :=
  let actionDef := findAction (inventory.getD []) call.actionName
  if inventory.isSome && actionDef.isNone then .refused .notCallable
  else
    match m.findLeaseForAction call.findClock threadId call.actionName with
    | none => .refused .noLease
    | some lease =>
      match actionDef with
      | none => .allowed
      | some actionDef =>
        match policy.evaluate call.evaluateTime actionDef lease capabilityPolicies with
        | .deny reason => .refused (.denied reason)
        | .requireApproval _ => .needsApproval
        | .allow => .allowed

inductive PreflightOutcome where
  | runnable (lease : CapabilityLease)
  | error (reason : Refusal)

inductive PreflightEnd (J : Type) where
  | complete
  | needApproval (call : ActionCall J)
  | failed (e : EngineError)

/-- Check the calls in turn. -/
def preflight (abort : Bool) (inventory : Option (List ActionDef)) (policy : PolicyEngine)
    (capabilityPolicies : List PolicyRule) (threadId : ThreadId) :
    List (TimedCall J) → LeaseManager → List PreflightOutcome × PreflightEnd J × LeaseManager
  | [], m => ([], .complete, m)
  | call :: calls, m =>
    match vetCall inventory policy capabilityPolicies threadId m call with
    | .refused reason =>
      let rest := preflight abort inventory policy capabilityPolicies threadId calls m
      (.error reason :: rest.1, rest.2)
    | .needsApproval => ([], .needApproval call.toActionCall, m)
    | .allowed =>
      match m.findAndConsume call.consumeClock threadId call.actionName with
      | (.ok lease, m') =>
        let rest := preflight abort inventory policy capabilityPolicies threadId calls m'
        (.runnable lease :: rest.1, rest.2)
      | (.error e, m') =>
        if abort then ([], .failed e, m')
        else
          let rest := preflight abort inventory policy capabilityPolicies threadId calls m'
          (.error (.consumeFailed e) :: rest.1, rest.2)

/-- A call handed to the effect executor: its place, the name it is passed under, its lease. -/
structure HandedOver (J : Type) where
  index : Nat
  call : ActionCall J
  actionName : Text
  lease : CapabilityLease

/-- The calls that passed preflight, under the names given by `nameFor`. -/
def admitted (nameFor : ActionCall J → Text) (calls : List (TimedCall J))
    (outcomes : List PreflightOutcome) : List (HandedOver J) :=
  (calls.zip outcomes).zipIdx.filterMap fun x =>
    match x.1.2 with
    | .runnable lease =>
      some ⟨x.2, x.1.1.toActionCall, nameFor x.1.1.toActionCall, lease⟩
    | .error _ => none

theorem mem_admitted {nameFor : ActionCall J → Text} {calls : List (TimedCall J)}
    {outcomes : List PreflightOutcome} {h : HandedOver J} : h ∈ admitted nameFor calls outcomes ↔
      ∃ call, calls[h.index]? = some call ∧ outcomes[h.index]? = some (.runnable h.lease) ∧
        call.toActionCall = h.call ∧ nameFor h.call = h.actionName := by
  simp only [admitted, List.mem_filterMap, Prod.exists, List.mem_zipIdx_iff_getElem?,
    List.getElem?_zip_eq_some]
  constructor
  · rintro ⟨call, outcome, i, ⟨hcall, hout⟩, hh⟩
    cases outcome with
    | error reason => cases hh
    | runnable lease =>
      cases hh
      exact ⟨call, hcall, hout, rfl, rfl⟩
  · rintro ⟨call, hcall, hout, hc, hname⟩
    refine ⟨call, .runnable h.lease, h.index, ⟨hcall, hout⟩, ?_⟩
    simp only [hc, hname]

/-- The order in which the running calls come back. -/
structure Schedule (J : Type) where
  order : List (HandedOver J) → List (HandedOver J)
  perm : ∀ l, (order l).Perm l

/-- Refund the lease of each call whose outcome asks for it, as the calls come back. -/
def settle (needsRefund : HandedOver J → Bool) (order : List (HandedOver J)) (m : LeaseManager) :
    LeaseManager :=
  order.foldl (fun m h => if needsRefund h then m.refundUse h.lease.id else m) m

/-- What a batch did: its reply, the calls it handed over, and the leases after it. -/
structure Batch (J R : Type) where
  reply : R
  handedOver : List (HandedOver J)
  leases : LeaseManager

def structuredRefusal (actionName : Text) : Refusal → String
  | .notCallable =>
    "action '" ++ String.ofList actionName ++ "' is not callable in this execution context"
  | .noLease => "no active lease covers action '" ++ String.ofList actionName ++ "'"
  | .denied reason => "denied: " ++ reason
  | .consumeFailed e => e.toString

def structuredError (call : ActionCall J) (reason : Refusal) : ActionResult J where
  callId := call.id
  actionName := call.actionName
  output := .error (structuredRefusal call.actionName reason)
  isError := true

def classifyExecResult (call : ActionCall J) : ExecOutcome J → Option (ActionResult J)
  | .ok result => some { result with callId := call.id }
  | .gatePaused pause => some ⟨call.id, call.actionName, .gatePaused pause, true⟩
  | .error text => some ⟨call.id, call.actionName, .error text, true⟩
  | .panicked => none

def interruptedCallNeedsRefund : ExecOutcome J → Bool
  | .gatePaused _ => true
  | _ => false

structure ActionBatchResult (J : Type) where
  results : List (ActionResult J)
  needApproval : Option (GatePause J)

/-- How a batch ends: with results, an error, or the panic of a call that runs alone. -/
inductive BatchReply (J : Type) where
  | ok (result : ActionBatchResult J)
  | error (e : EngineError)
  | panicked

def approvalPause (call : ActionCall J) : GatePause J where
  gateName := "approval"
  actionName := call.actionName
  callId := call.id
  parameters := call.parameters
  resumeKind := .approval true
  resumeOutput := none
  pausedLease := none

/-- The interrupt of a gate that fired during a call, with the call's own parameters. -/
def interruptOf (call : ActionCall J) (pause : GatePause J) : GatePause J :=
  { pause with parameters := call.parameters }

def slotResults (outcome : Nat → ExecOutcome J) (calls : List (TimedCall J))
    (outcomes : List PreflightOutcome) : List (Option (ActionResult J)) :=
  (calls.zip outcomes).zipIdx.map fun x =>
    match x.1.2 with
    | .error reason => some (structuredError x.1.1.toActionCall reason)
    | .runnable _ => classifyExecResult x.1.1.toActionCall (outcome x.2)

def firstInterrupt (outcome : Nat → ExecOutcome J) (calls : List (TimedCall J))
    (outcomes : List PreflightOutcome) : Option (GatePause J) :=
  (calls.zip outcomes).zipIdx.findSome? fun x =>
    match x.1.2, outcome x.2 with
    | .runnable _, .gatePaused pause => some (interruptOf x.1.1.toActionCall pause)
    | _, _ => none

def executeActionCalls (inventory : Except EngineError (List ActionDef)) (policy : PolicyEngine)
    (capabilityPolicies : List PolicyRule) (threadId : ThreadId) (outcome : Nat → ExecOutcome J)
    (schedule : Schedule J) (calls : List (TimedCall J)) (m : LeaseManager) :
    Batch J (BatchReply J) :=
  match inventory with
  | .error e => ⟨.error e, [], m⟩
  | .ok inline =>
    match preflight true (some inline) policy capabilityPolicies threadId calls m with
    | (_, .failed e, m') => ⟨.error e, [], m'⟩
    | (outcomes, .needApproval call, m') =>
      -- the error results so far are kept, the admitted calls are not run
      let results := (calls.zip outcomes).filterMap fun x =>
        match x.2 with
        | .error reason => some (structuredError x.1.toActionCall reason)
        | .runnable _ => none
      ⟨.ok ⟨results, some (approvalPause call)⟩, [], m'⟩
    | (outcomes, .complete, m') =>
      let runnable := admitted ActionCall.actionName calls outcomes
      let needsRefund := fun h : HandedOver J => interruptedCallNeedsRefund (outcome h.index)
      let m'' := settle needsRefund (schedule.order runnable) m'
      let reply : BatchReply J :=
        match runnable, runnable.map fun h => outcome h.index with
        -- a call that runs alone is not a task of its own
        | [_], [.panicked] => .panicked
        | _, _ => .ok ⟨(slotResults outcome calls outcomes).filterMap fun slot => slot,
            firstInterrupt outcome calls outcomes⟩
      ⟨reply, runnable, m''⟩

def orchestratorRefusal (actionName : Text) : Refusal → String
  | .notCallable =>
    "action '" ++ String.ofList actionName ++ "' is not callable in this execution context"
  | .noLease => "No lease for action '" ++ String.ofList actionName ++ "'"
  | .denied reason => "Denied: " ++ reason
  | .consumeFailed e =>
    "lease consumption failed for action '" ++ String.ofList actionName ++ "': " ++ e.toString

inductive ResultJson (J : Type) where
  | error (text : String)
  | executed (actionName : Text) (output : Output J) (isError : Bool)
  | gatePaused (pause : GatePause J)
  | null

def canonicalName (inventory : Option (List ActionDef)) (call : ActionCall J) : Text :=
  match findAction (inventory.getD []) call.actionName with
  | some actionDef => actionDef.name
  | none => call.actionName

/-- The result of one action. A gate's own action name and call id are replaced. -/
def executeSingleAction (actionName : Text) (callId : String) :
    ExecOutcome J → Option (ResultJson J)
  | .ok result => some (.executed result.actionName result.output result.isError)
  | .gatePaused pause =>
    some (.gatePaused { pause with actionName := actionName, callId := callId })
  | .error text => some (.error text)
  | .panicked => none

def interruptedResultNeedsRefund : Option (ResultJson J) → Bool
  | some (.gatePaused _) => true
  | _ => false

inductive HandlerReply (R : Type) where
  | return (value : R)
  | panicked

def handleExecuteActionsParallel (inventory : Except EngineError (List ActionDef))
    (policy : PolicyEngine) (threadId : ThreadId) (outcome : Nat → ExecOutcome J)
    (schedule : Schedule J) (calls : List (TimedCall J)) (m : LeaseManager) :
    Batch J (HandlerReply (List (ResultJson J))) :=
  -- a failed lookup leaves the inventory empty
  let inventory := inventory.toOption
  match preflight false inventory policy [] threadId calls m with
  | (outcomes, .complete, m') =>
    let runnable := admitted (canonicalName inventory) calls outcomes
    let result := fun (i : Nat) (call : ActionCall J) =>
      executeSingleAction (canonicalName inventory call) call.id (outcome i)
    let needsRefund := fun h : HandedOver J =>
      interruptedResultNeedsRefund (result h.index h.call)
    let m'' := settle needsRefund (schedule.order runnable) m'
    let results := (calls.zip outcomes).zipIdx.map fun x =>
      match x.1.2 with
      | .error reason => .error (orchestratorRefusal x.1.1.actionName reason)
      | .runnable _ => (result x.2 x.1.1.toActionCall).getD (.error "execution slot empty")
    let reply : HandlerReply (List (ResultJson J)) :=
      match runnable, runnable.map fun h => outcome h.index with
      | [_], [.panicked] => .panicked
      | _, _ => .return results
    ⟨reply, runnable, m''⟩
  | (outcomes, .needApproval call, m') =>
    let results := (calls.zip outcomes).map fun x =>
      match x.2 with
      | .error reason => .error (orchestratorRefusal x.1.actionName reason)
      | .runnable _ => .null
    let paused := results ++ [.gatePaused (approvalPause call)]
    -- the calls that were not reached are padded
    ⟨.return (paused ++ List.replicate (calls.length - paused.length) .null), [], m'⟩
  -- failed consumptions do not end this preflight
  | (_, .failed _, m') => ⟨.return [], [], m'⟩

def handleExecuteAction (inventory : Except EngineError (List ActionDef)) (policy : PolicyEngine)
    (threadId : ThreadId) (outcome : ExecOutcome J) (call : TimedCall J) (m : LeaseManager) :
    Batch J (HandlerReply (ResultJson J)) :=
  let inventory := inventory.toOption
  match vetCall inventory policy [] threadId m call with
  | .refused reason => ⟨.return (.error (orchestratorRefusal call.actionName reason)), [], m⟩
  | .needsApproval => ⟨.return (.gatePaused (approvalPause call.toActionCall)), [], m⟩
  | .allowed =>
    match m.findAndConsume call.consumeClock threadId call.actionName with
    | (.error e, m') =>
      ⟨.return (.error (orchestratorRefusal call.actionName (.consumeFailed e))), [], m'⟩
    | (.ok lease, m') =>
      let name := canonicalName inventory call.toActionCall
      let handed : HandedOver J := ⟨0, call.toActionCall, name, lease⟩
      match outcome with
      | .ok result =>
        ⟨.return (.executed result.actionName result.output result.isError), [handed], m'⟩
      -- the gate is reported under the called name
      | .gatePaused pause =>
        ⟨.return (.gatePaused { pause with actionName := call.actionName, callId := call.id }),
          [handed], m'.refundUse lease.id⟩
      | .error text => ⟨.return (.error text), [handed], m'⟩
      | .panicked => ⟨.panicked, [handed], m'⟩

end IronClaw.Engine
