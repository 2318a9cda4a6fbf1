import IronClaw.Bridge.Adapter
import IronClaw.Foundation.Run

/-!
# Approvals of one user

The tools approved for good are in one set, for all users and as they were spelled. That is right as
long as it agrees with the user's approvals about the name that a tool is looked up under.
-/

namespace IronClaw.Bridge

open Foundation (Text Json Effect Along)
open Tools (ApprovalRequirement RegisteredTool ToolRegistry)

def NeverPaused {σ α : Type} (x : Effect σ BridgeError α) : Prop :=
  ∀ s e, (Effect.exec x s).1 = .error e → e.pausedForApproval = false

section NeverPaused

variable {σ α β : Type}

theorem NeverPaused.pure (a : α) : NeverPaused (pure a : Effect σ BridgeError α) :=
  nofun

theorem NeverPaused.throw {e : BridgeError} (h : e.pausedForApproval = false) :
    NeverPaused (throw e : Effect σ BridgeError α) :=
  fun _ e' he => by cases he; exact h

theorem NeverPaused.ofExcept {r : Except BridgeError α}
    (h : ∀ e, r = .error e → e.pausedForApproval = false) :
    NeverPaused (Effect.ofExcept r : Effect σ BridgeError α) := by
  cases r with
  | ok a => exact .pure a
  | error e => exact .throw (h e rfl)

theorem NeverPaused.bind {x : Effect σ BridgeError α} {f : α → Effect σ BridgeError β}
    (hx : NeverPaused x) (hf : ∀ a, NeverPaused (f a)) : NeverPaused (x >>= f) := by
  intro s e he
  rw [Effect.exec_bind] at he
  rcases h : Effect.exec x s with ⟨r, s'⟩
  rw [h] at he
  cases r with
  | error e' =>
    cases he
    exact hx s e (by rw [h])
  | ok a => exact hf a s' e he

end NeverPaused

/-- The computation neither executes a tool, nor touches approvals, nor waits for one. -/
structure Quiet {α : Type} (x : AdapterOp α) : Prop where
  executed : ∀ s, (Effect.exec x s).2.executed = s.executed
  autoApproved : ∀ s, (Effect.exec x s).2.autoApproved = s.autoApproved
  neverPaused : NeverPaused x

section Quiet

variable {α β : Type}

theorem Quiet.ofExcept {r : Except BridgeError α}
    (h : ∀ e, r = .error e → e.pausedForApproval = false) :
    Quiet (Effect.ofExcept r : AdapterOp α) :=
  ⟨fun s => by rw [Effect.exec_ofExcept], fun s => by rw [Effect.exec_ofExcept], .ofExcept h⟩

theorem Quiet.pure (a : α) : Quiet (pure a : AdapterOp α) :=
  ⟨fun _ => rfl, fun _ => rfl, .pure a⟩

theorem Quiet.throw {e : BridgeError} (h : e.pausedForApproval = false) :
    Quiet (throw e : AdapterOp α) :=
  ⟨fun _ => rfl, fun _ => rfl, .throw h⟩

theorem Quiet.modify {f : AdapterState → AdapterState} (hexec : ∀ s, (f s).executed = s.executed)
    (happroved : ∀ s, (f s).autoApproved = s.autoApproved) : Quiet (modify f : AdapterOp PUnit) :=
  ⟨hexec, happroved, nofun⟩

theorem Quiet.bind {x : AdapterOp α} {f : α → AdapterOp β} (hx : Quiet x)
    (hf : ∀ a, Quiet (f a)) : Quiet (x >>= f) where
  executed s := Effect.rel_exec_bind (R := fun s s' => s'.executed = s.executed)
    (by intro a b c h h'; exact h'.trans h) (hx.executed s) fun a s' _ => (hf a).executed s'
  autoApproved s := Effect.rel_exec_bind (R := fun s s' => s'.autoApproved = s.autoApproved)
    (by intro a b c h h'; exact h'.trans h) (hx.autoApproved s) fun a s' _ => (hf a).autoApproved s'
  neverPaused := hx.neverPaused.bind fun a => (hf a).neverPaused

theorem Quiet.get_bind {f : AdapterState → AdapterOp β} (hf : ∀ s, Quiet (f s)) :
    Quiet (get >>= f) :=
  ⟨fun s => (hf s).executed s, fun s => (hf s).autoApproved s, fun s => (hf s).neverPaused s⟩

theorem Quiet.lift {ε : Type} {wrap : ε → BridgeError} {x : Effect Missions.MissionSystem ε α}
    (h : ∀ s e, (Effect.exec x s).1 = .error e → (wrap e).pausedForApproval = false) :
    Quiet (Bridge.lift wrap x) := by
  refine ⟨fun _ => rfl, fun _ => rfl, fun s e he => ?_⟩
  rw [exec_lift] at he
  cases hx : (Effect.exec x s.missions).1 with
  | ok a =>
    rw [hx] at he
    cases he
  | error e' =>
    rw [hx] at he
    cases he
    exact h s.missions e' hx

end Quiet

section Steps

variable (config : AdapterConfig) (call : ActionCall)

theorem quiet_countCall : Quiet countCall := by
  refine .get_bind fun s => .bind (.modify (fun _ => rfl) fun _ => rfl) fun _ => ?_
  unfold Effect.require
  split
  · exact .pure ()
  · exact .throw rfl

variable (lookupName : Text)

theorem quiet_ensureToolNotDisabled :
    Quiet (Effect.ofExcept (ensureToolNotDisabled call lookupName) : AdapterOp Unit) := by
  refine .ofExcept fun e he => ?_
  unfold ensureToolNotDisabled at he
  split_ifs at he
  cases he
  rfl

theorem quiet_checkRateLimit (tool : Option RegisteredTool) :
    Quiet (checkRateLimit call lookupName tool) := by
  unfold checkRateLimit
  cases tool.bind RegisteredTool.rateLimitConfig with
  | none => exact .pure ()
  | some limits =>
    refine .get_bind fun s => .bind (.modify (fun _ => rfl) fun _ => rfl) fun _ => ?_
    split
    · exact .pure ()
    · exact .throw rfl

theorem quiet_checkActionAuth :
    Quiet (Effect.ofExcept (checkActionAuth config call lookupName) : AdapterOp Unit) := by
  refine .ofExcept fun e he => ?_
  unfold checkActionAuth at he
  split_ifs at he
  cases hcred : call.env.missingCredential lookupName with
  | none =>
    rw [hcred] at he
    cases he
  | some cred =>
    rw [hcred] at he
    cases he
    rfl

theorem quiet_checkProvider (tool : Option RegisteredTool) :
    Quiet (Effect.ofExcept (checkProvider config call tool) : AdapterOp Unit) := by
  refine .ofExcept fun e he => ?_
  unfold checkProvider at he
  cases hprovider : tool.bind RegisteredTool.providerExtension with
  | none =>
    rw [hprovider] at he
    cases he
  | some provider =>
    simp only [hprovider] at he
    split_ifs at he
    cases hready : call.env.providerReadiness provider <;> rw [hready] at he <;> cases he <;> rfl

theorem quiet_checkHooks (tool : Option RegisteredTool) :
    Quiet (Effect.ofExcept (checkHooks config call lookupName tool) : AdapterOp Unit) := by
  refine .ofExcept fun e he => ?_
  unfold checkHooks at he
  split at he <;> cases he <;> rfl

theorem quiet_rejectV1Tools : Quiet (Effect.ofExcept (rejectV1Tools call) : AdapterOp Unit) := by
  refine .ofExcept fun e he => ?_
  unfold rejectV1Tools at he
  split_ifs at he <;> cases he <;> rfl

theorem quiet_routeLatent : Quiet (routeLatent config call) := by
  unfold routeLatent
  cases call.latent with
  | none => exact .pure _
  | some outcome =>
    refine .bind (.modify (fun _ => rfl) fun _ => rfl) fun _ => .ofExcept fun e he => ?_
    unfold latentResult at he
    split at he <;> cases he <;> rfl

theorem quiet_missionRoute {route : AdapterOp Missions.ActionResult}
    (h : missionRoute config call = some route) : Quiet route := by
  unfold missionRoute at h
  split_ifs at h
  obtain ⟨op, -, rfl⟩ := Option.map_eq_some_iff.mp h
  exact .lift fun _ _ _ => rfl

theorem pausedForApproval_extensionOutcome {executed : ExecutedCall} {output : Json}
    {e : BridgeError}
    (h : extensionOutcome config.libs call.env.execution executed output = .paused e) :
    e.pausedForApproval = false := by
  unfold extensionOutcome at h
  split at h
  · next e' hgate =>
    cases h
    split_ifs at hgate
    unfold authGateFromExtensionResult at hgate
    split at hgate
    · split_ifs at hgate
      cases hgate
      rfl
    · cases hgate
  · split_ifs at h
    unfold installOutcome at h
    split at h
    · cases h
    · split at h <;> cases h
      rfl

theorem neverPaused_spliceProject (executed : ExecutedCall) (output : Json) :
    NeverPaused (spliceProject config.manager.libs call.env.execution executed config.hasMissions
      output) := by
  unfold spliceProject
  split
  · refine .bind ?_ fun _ => .pure _
    intro s e he
    rw [ensureProject, Effect.exec_bind_ok (Effect.exec_get s)] at he
    split at he <;> cases he
  · exact .pure _

theorem quiet_respond (executed : ExecutedCall) (gotten : Except ToolFailure Text) :
    Quiet (lift id (respond config.libs config.manager.libs call.env.execution executed
      config.hasMissions gotten)) := by
  refine .lift ?_
  change NeverPaused _
  cases gotten with
  | error failure =>
    refine .ofExcept fun e he => ?_
    unfold respondError at he
    dsimp only at he
    split at he <;> cases he
    rfl
  | ok raw =>
    rw [respond, respondOk]
    cases hout : extensionOutcome config.libs call.env.execution executed
      (outputValue config.libs executed raw) with
    | paused e => exact .throw (pausedForApproval_extensionOutcome config call hout)
    | enriched output => exact .pure _
    | unchanged =>
      refine .bind (.ofExcept fun e he => ?_) fun _ =>
        .bind (neverPaused_spliceProject config call executed _) fun _ => .pure _
      unfold syncSkillInstallResult at he
      split_ifs at he
      split at he
      · next skillName _ =>
        cases hsync : call.env.execution.syncSkill skillName with
        | ok _ =>
          rw [hsync] at he
          cases he
        | error cause =>
          rw [hsync] at he
          cases he
          cases cause <;> rfl
      · cases he

def ActionCall.target : ToolRegistry × Text :=
  if call.canonicalName = toolInfoName then (call.env.tools, call.lookupName)
  else
    match call.latent with
    | some ⟨.ok (.retryRegisteredAction resolvedAction), _, tools⟩ => (tools, resolvedAction)
    | _ => (call.env.tools, call.lookupName)

def ActionCall.targetTool : Option RegisteredTool := call.target.1.get call.target.2

def ActionCall.requirement : Option ApprovalRequirement :=
  call.targetTool.map fun tool =>
    effectiveRequirement call.env call.target.2 tool call.parameters
      (call.canonicalName != toolInfoName)

def approval (autoApproved : Finset Text) : Except BridgeError Unit :=
  enforceToolApproval config call autoApproved call.target.2 call.targetTool
    (call.canonicalName != toolInfoName)

/-- What is executed is the call's target and was approved. A call that waits was not. -/
structure Guarded (s : AdapterState) (r : Except BridgeError Missions.ActionResult × AdapterState) :
    Prop where
  autoApproved : r.2.autoApproved = s.autoApproved
  executed : r.2.executed = s.executed ∨
    (r.2.executed = s.executed ++ [executedCall call call.target.2] ∧
      approval config call s.autoApproved = .ok ())
  paused : ∀ e, r.1 = .error e → e.pausedForApproval = true →
    approval config call s.autoApproved = .error e

theorem Quiet.guarded {x : AdapterOp Missions.ActionResult} (h : Quiet x) (s : AdapterState) :
    Guarded config call s (Effect.exec x s) :=
  ⟨h.autoApproved s, .inl (h.executed s), fun e he hp => by
    rw [h.neverPaused s e he] at hp
    cases hp⟩

theorem Quiet.bind_guarded {α : Type} {x : AdapterOp α} {f : α → AdapterOp Missions.ActionResult}
    {s : AdapterState} (hx : Quiet x)
    (hf : ∀ a s', Effect.exec x s = (.ok a, s') → Guarded config call s' (Effect.exec (f a) s')) :
    Guarded config call s (Effect.exec (x >>= f) s) := by
  have hexec := hx.executed s
  have happroved := hx.autoApproved s
  rcases h : Effect.exec x s with ⟨r, s'⟩
  rw [h] at hexec happroved
  cases r with
  | error e =>
    rw [Effect.exec_bind_error h]
    refine ⟨happroved, .inl hexec, fun e' he hp => ?_⟩
    cases he
    have hquiet := hx.neverPaused s e (by rw [h])
    rw [hquiet] at hp
    cases hp
  | ok a =>
    rw [Effect.exec_bind_ok h]
    obtain ⟨happroved', hexec', hpaused'⟩ := hf a s' h
    dsimp only at hexec happroved
    rw [hexec, happroved] at hexec'
    rw [happroved] at happroved' hpaused'
    exact ⟨happroved', hexec', hpaused'⟩

theorem guarded_enforceToolApproval {f : Unit → AdapterOp Missions.ActionResult} {s : AdapterState}
    (hf : approval config call s.autoApproved = .ok () →
      Guarded config call s (Effect.exec (f ()) s)) : Guarded config call s (Effect.exec
      (Effect.ofExcept (approval config call s.autoApproved) >>= f) s) := by
  cases h : approval config call s.autoApproved with
  | ok u => exact hf h
  | error e => exact ⟨rfl, .inl rfl, fun e' he _ => by cases he; exact h⟩

theorem guarded_toolInfoRoute (h : call.canonicalName = toolInfoName) (s : AdapterState) :
    Guarded config call s (Effect.exec (toolInfoRoute config call) s) := by
  have htarget : call.target = (call.env.tools, call.lookupName) := if_pos h
  have happroval : enforceToolApproval config call s.autoApproved call.lookupName
      (call.env.tools.get call.lookupName) false = approval config call s.autoApproved := by
    rw [approval, ActionCall.targetTool, htarget, h]
    rfl
  rw [toolInfoRoute, Effect.exec_bind_ok (Effect.exec_get s)]
  refine (quiet_ensureToolNotDisabled call call.lookupName).bind_guarded config call
    fun _ s' hs => ?_
  rw [Effect.exec_ofExcept] at hs
  obtain rfl : s = s' := congrArg Prod.snd hs
  rw [happroval]
  exact guarded_enforceToolApproval config call fun _ => (Quiet.pure _).guarded config call s

theorem guarded_executeTool {s : AdapterState} (h : approval config call s.autoApproved = .ok ()) :
    Guarded config call s
      (Effect.exec (executeTool config call call.targetTool call.target.2) s) := by
  rw [executeTool, Effect.exec_bind_ok (Effect.exec_modify _ s)]
  have hquiet := quiet_respond config call (executedCall call call.target.2)
    (runTool config.libs call.env.execution call.targetTool (executedCall call call.target.2))
  refine ⟨hquiet.autoApproved _, ?_, fun e he hp => ?_⟩
  · rw [hquiet.executed]
    dsimp only
    split_ifs
    · exact .inr ⟨rfl, h⟩
    · exact .inl rfl
  · rw [hquiet.neverPaused _ e he] at hp
    cases hp

theorem guarded_admit (h : call.canonicalName ≠ toolInfoName) (s : AdapterState) :
    Guarded config call s (Effect.exec (do
      admitCall config call call.targetTool call.target.2
      executeTool config call call.targetTool call.target.2) s) := by
  have hinclude : (call.canonicalName != toolInfoName) = true := by simpa using h
  simp only [admitCall, bind_assoc]
  refine (quiet_ensureToolNotDisabled call _).bind_guarded config call fun _ _ _ => ?_
  refine (quiet_checkRateLimit call _ _).bind_guarded config call fun _ _ _ => ?_
  refine (quiet_checkActionAuth config call _).bind_guarded config call fun _ _ _ => ?_
  refine (quiet_checkProvider config call _).bind_guarded config call fun _ s' _ => ?_
  rw [Effect.exec_bind_ok (Effect.exec_get s'), ← hinclude]
  refine guarded_enforceToolApproval config call fun happroved => ?_
  -- a hook may still block the call, and does not change what was decided
  refine (quiet_checkHooks config call _ _).bind_guarded config call fun _ s'' hs => ?_
  rw [Effect.exec_ofExcept] at hs
  obtain rfl : s' = s'' := congrArg Prod.snd hs
  exact guarded_executeTool config call happroved

theorem target_of_routeLatent {s s' : AdapterState} {tools : ToolRegistry} {name : Text}
    (h : call.canonicalName ≠ toolInfoName)
    (hs : Effect.exec (routeLatent config call) s = (.ok (.lookup tools name), s')) :
    call.target = (tools, name) := by
  rw [ActionCall.target, if_neg h]
  unfold routeLatent at hs
  cases hlatent : call.latent with
  | none =>
    rw [hlatent] at hs
    cases hs
    rfl
  | some outcome =>
    simp only [hlatent] at hs
    rw [Effect.exec_bind_ok (Effect.exec_modify _ s), Effect.exec_ofExcept] at hs
    have hresult : latentResult config call outcome = .ok (.lookup tools name) :=
      congrArg Prod.fst hs
    obtain ⟨execution, activated, tools'⟩ := outcome
    unfold latentResult at hresult
    split at hresult <;> cases hresult
    next hexec =>
      dsimp only at hexec
      rw [hexec]

theorem guarded_toolRoute (h : call.canonicalName ≠ toolInfoName) (s : AdapterState) :
    Guarded config call s (Effect.exec (toolRoute config call) s) := by
  rw [toolRoute]
  refine (quiet_rejectV1Tools call).bind_guarded config call fun _ s' _ => ?_
  refine (quiet_routeLatent config call).bind_guarded config call fun routed s'' hs => ?_
  cases routed with
  | finished result => exact (Quiet.pure result).guarded config call s''
  | lookup tools name =>
    have htarget := target_of_routeLatent config call h hs
    have hguarded := guarded_admit config call h s''
    rw [ActionCall.targetTool, htarget] at hguarded
    exact hguarded

theorem guarded_executeActionInternal (s : AdapterState) :
    Guarded config call s (Effect.exec (executeActionInternal config call) s) := by
  rw [executeActionInternal]
  refine quiet_countCall.bind_guarded config call fun _ s' _ => ?_
  rw [route]
  cases hroute : missionRoute config call with
  | some route => exact (quiet_missionRoute config call hroute).guarded config call s'
  | none =>
    dsimp only
    split_ifs with h
    · exact guarded_toolInfoRoute config call h s'
    · exact guarded_toolRoute config call h s'

end Steps

/-- The adapter, and the approvals in force: which user has approved which tool. -/
structure Session where
  adapter : AdapterState
  approvals : Finset (Text × Text)

/-- What happens to an adapter. Approvals are given and taken back for a user. -/
inductive AdapterEvent where
  | execute (call : ActionCall)
  | autoApprove (userId toolName : Text)
  | revoke (userId toolName : Text)

def approvalKey (userId toolName : Text) : Text × Text := (userId, Tools.canonicalToolName toolName)

variable (config : AdapterConfig)

def step (s : Session) : AdapterEvent → Option Session
  | .execute call =>
    some { s with adapter := (Effect.exec (executeActionInternal config call) s.adapter).2 }
  | .autoApprove userId toolName =>
    some { adapter := { s.adapter with autoApproved := insert toolName s.adapter.autoApproved }
           approvals := insert (approvalKey userId toolName) s.approvals }
  | .revoke userId toolName =>
    some { adapter := { s.adapter with autoApproved := s.adapter.autoApproved.erase toolName }
           approvals := s.approvals.erase (approvalKey userId toolName) }

def ApprovedByUser (s : Session) (call : ActionCall) : Prop :=
  approvalKey call.ctx.userId call.target.2 ∈ s.approvals

/-- The call may be executed: its tool requires no approval, or one counts for its user. -/
def Entitled (s : Session) (call : ActionCall) : Prop :=
  match call.requirement with
  | none => True
  | some .never => True
  | some .always => call.approvalAlreadyGranted = true
  | some .unlessAutoApproved =>
    call.approvalAlreadyGranted = true ∨ config.autoApproveTools = true ∨
      (call.env.permissions.resolvePermission call.target.2).effective = .alwaysAllow ∨
      ApprovedByUser s call

/-- A tool is executed only if it is meant and its user entitled to it, and then without waiting. -/
structure PersonalCall (s : Session) (call : ActionCall) : Prop where
  executed : ∀ s', step config s (.execute call) = some s' →
    s'.adapter.executed = s.adapter.executed ∨
      (s'.adapter.executed = s.adapter.executed ++ [executedCall call call.target.2] ∧
        Entitled config s call)
  notPaused : Entitled config s call → ∀ e,
    (Effect.exec (executeActionInternal config call) s.adapter).1 = .error e →
      e.pausedForApproval = false

def Personal (s : Session) : AdapterEvent → Prop
  | .execute call => PersonalCall config s call
  | _ => True

/-- Only an approval for good can let the call be executed. -/
def NeedsStickyApproval (call : ActionCall) : Prop :=
  call.requirement = some .unlessAutoApproved ∧ call.approvalAlreadyGranted = false ∧
    config.autoApproveTools = false ∧
    (call.env.permissions.resolvePermission call.target.2).effective ≠ .alwaysAllow

/-- Where it matters, the shared set and the user's own approvals agree about the tool. -/
def ApprovalsAgree (s : Session) : AdapterEvent → Prop
  | .execute call => NeedsStickyApproval config call →
    (call.target.2 ∈ s.adapter.autoApproved ↔ ApprovedByUser s call)
  | _ => True

section Personal

variable {config} {s : Session} {call : ActionCall}

theorem approval_eq_ok_iff_gate {req : ApprovalRequirement} (h : call.requirement = some req)
    (autoApproved : Finset Text) : approval config call autoApproved = .ok () ↔
      approvalGate config call autoApproved call.target.2 req = none := by
  obtain ⟨tool, htool, rfl⟩ := Option.map_eq_some_iff.mp h
  unfold approval enforceToolApproval
  rw [htool]
  dsimp only
  split
  · next hgate => simp [hgate]
  · next allowAlways hgate => simp [hgate]

theorem approval_eq_ok_iff (h : ApprovalsAgree config s (.execute call)) :
    approval config call s.adapter.autoApproved = .ok () ↔ Entitled config s call := by
  cases hreq : call.requirement with
  | none =>
    have htool : call.targetTool = none := Option.map_eq_none_iff.mp hreq
    simp [approval, enforceToolApproval, htool, Entitled, hreq]
  | some req =>
    rw [approval_eq_ok_iff_gate hreq, Entitled, hreq]
    cases req with
    | never => simp [approvalGate]
    | always => simp [approvalGate]
    | unlessAutoApproved =>
      have hagree := fun hgranted hglobal heffective => h ⟨hreq, hgranted, hglobal, heffective⟩
      simp only [approvalGate, ite_eq_left_iff, Option.some_ne_none, imp_false, not_not,
        Bool.or_eq_true, decide_eq_true_eq, beq_iff_eq]
      by_cases hgranted : call.approvalAlreadyGranted = true
      · simp [hgranted]
      by_cases hglobal : config.autoApproveTools = true
      · simp [hglobal]
      by_cases heffective :
        (call.env.permissions.resolvePermission call.target.2).effective = .alwaysAllow
      · simp [heffective]
      -- nothing is left but the approvals for good
      rw [hagree (by simpa using hgranted) (by simpa using hglobal) heffective]
      simp [hgranted, hglobal, heffective]

/-- **Approvals are personal** where the shared set and the user's own approvals agree. -/
theorem personal_of_agree {events : List AdapterEvent}
    (h : Along (step config) (ApprovalsAgree config) s events) :
    Along (step config) (Personal config) s events := by
  refine h.mono fun s e he => ?_
  cases e with
  | autoApprove userId toolName => trivial
  | revoke userId toolName => trivial
  | execute call =>
    have hguarded := guarded_executeActionInternal config call s.adapter
    refine ⟨fun s' hs => ?_, fun hentitled e hresult => ?_⟩
    · cases hs
      refine hguarded.executed.imp_right fun hexec => ⟨hexec.1, ?_⟩
      exact (approval_eq_ok_iff he).mp hexec.2
    · by_contra hpaused
      have hstopped := hguarded.paused e hresult (by simpa using hpaused)
      rw [(approval_eq_ok_iff he).mpr hentitled] at hstopped
      cases hstopped

end Personal

def AdapterEvent.about (userId : Text) (names : Set Text) : AdapterEvent → Prop
  | .execute call => call.ctx.userId = userId ∧ call.target.2 ∈ names
  | .autoApprove userId' toolName => userId' = userId ∧ toolName ∈ names
  | .revoke userId' toolName => userId' = userId ∧ toolName ∈ names

/-- The shared set has the names of the tools that one user has approved. -/
structure Synced (userId : Text) (names : Set Text) (s : Session) : Prop where
  subset : ∀ name ∈ s.adapter.autoApproved, name ∈ names
  mem_iff : ∀ name ∈ names, name ∈ s.adapter.autoApproved ↔ approvalKey userId name ∈ s.approvals

section OneUser

variable {config} {userId : Text} {names : Set Text} {s s' : Session} {e : AdapterEvent}

theorem approvalKey_inj (hnames : Set.InjOn Tools.canonicalToolName names) {name name' : Text}
    (h : name ∈ names) (h' : name' ∈ names) :
    approvalKey userId name = approvalKey userId name' ↔ name = name' := by
  constructor
  · exact fun heq => hnames h h' (congrArg Prod.snd heq)
  · rintro rfl
    rfl

theorem Synced.step (hnames : Set.InjOn Tools.canonicalToolName names)
    (hs : Synced userId names s) (he : e.about userId names)
    (hstep : step config s e = some s') : Synced userId names s' := by
  cases e with
  | execute call =>
    cases hstep
    have happroved := (guarded_executeActionInternal config call s.adapter).autoApproved
    exact ⟨by rw [happroved]; exact hs.subset, by rw [happroved]; exact hs.mem_iff⟩
  | autoApprove userId' toolName =>
    obtain ⟨rfl, htool⟩ := he
    cases hstep
    refine ⟨fun name hname => ?_, fun name hname => ?_⟩
    · rcases Finset.mem_insert.mp hname with rfl | hold
      · exact htool
      · exact hs.subset name hold
    · rw [Finset.mem_insert, Finset.mem_insert, hs.mem_iff name hname,
        approvalKey_inj hnames hname htool]
  | revoke userId' toolName =>
    obtain ⟨rfl, htool⟩ := he
    cases hstep
    refine ⟨fun name hname => hs.subset name (Finset.mem_of_mem_erase hname), fun name hname => ?_⟩
    rw [Finset.mem_erase, Finset.mem_erase, hs.mem_iff name hname, Ne, Ne,
      approvalKey_inj hnames hname htool]

theorem approvalsAgree_of_oneUser (hnames : Set.InjOn Tools.canonicalToolName names)
    {events : List AdapterEvent} (hevents : ∀ e ∈ events, e.about userId names)
    (hs : Synced userId names s) : Along (step config) (ApprovalsAgree config) s events := by
  induction events generalizing s with
  | nil => trivial
  | cons e events ih =>
    have he := hevents e List.mem_cons_self
    refine ⟨?_, fun s' hstep => ih (fun e' he' => hevents e' (List.mem_cons_of_mem e he'))
      (hs.step hnames he hstep)⟩
    cases e with
    | autoApprove userId' toolName => trivial
    | revoke userId' toolName => trivial
    | execute call =>
      intro _
      obtain ⟨rfl, htool⟩ := he
      exact hs.mem_iff call.target.2 htool

end OneUser

def askingTool (name : Text) : RegisteredTool :=
  ⟨⟨name, [], id⟩, fun _ => .unlessAutoApproved, none, none⟩

def sampleAdapterEnv (registered : Text) : AdapterEnv where
  execution := sampleExecution
  missions := ⟨0, 0, 0, 1, 1, fun _ _ => .error (.other [])⟩
  now := 0
  tools := AList.insert registered (askingTool registered) ∅
  permissions := ⟨∅⟩
  latent := none
  missingCredential _ := none
  providerReadiness _ := .ready
  extensions := none

def sampleActionCall (userId registered : Text) : ActionCall where
  actionName := registered
  parameters := .obj []
  lease := ⟨1, 1, "tools".toList, .all, none, none, none, false⟩
  ctx := ⟨⟨.foreground, 1, userId, none, none, none, none⟩, "t".toList, none, none⟩
  approvalAlreadyGranted := false
  env := sampleAdapterEnv registered

def emptySession : Session := ⟨⟨∅, 0, ∅, ⟨.empty, [], ∅, ∅, ∅, ∅⟩, [], []⟩, ∅⟩

/-- A user approves a tool under its name, uses it, and takes the approval back. -/
theorem personal_of_own_approval : Along (step sampleAdapter) (Personal sampleAdapter) emptySession
      [.autoApprove "alice".toList "fetch".toList,
        .execute (sampleActionCall "alice".toList "fetch".toList),
        .revoke "alice".toList "fetch".toList,
        .execute (sampleActionCall "alice".toList "fetch".toList)] := by
  have hsynced : Synced "alice".toList {"fetch".toList} emptySession := by
    refine ⟨fun name hname => ?_, fun name _ => ?_⟩
    · simp [emptySession] at hname
    · simp [emptySession]
  refine personal_of_agree (approvalsAgree_of_oneUser (Set.injOn_singleton ..) ?_ hsynced)
  have htarget : (sampleActionCall "alice".toList "fetch".toList).target.2 = "fetch".toList := by
    decide
  intro e he
  simp only [List.mem_cons, List.not_mem_nil, or_false] at he
  rcases he with rfl | rfl | rfl | rfl
  · exact ⟨rfl, rfl⟩
  · exact ⟨rfl, htarget⟩
  · exact ⟨rfl, rfl⟩
  · exact ⟨rfl, htarget⟩

/-- An approval of Alice lets Bob use the tool, but not Alice under the other spelling. -/
theorem approvals_shared_and_spelled :
    ¬ Along (step sampleAdapter) (Personal sampleAdapter) emptySession
        [.autoApprove "alice".toList "fetch".toList,
          .execute (sampleActionCall "bob".toList "fetch".toList)] ∧
      ¬ Along (step sampleAdapter) (Personal sampleAdapter) emptySession
        [.autoApprove "alice".toList "web-fetch".toList,
          .execute (sampleActionCall "alice".toList "web_fetch".toList)] := by
  constructor
  · rintro ⟨-, h⟩
    obtain ⟨h, -⟩ := h _ rfl
    rcases h.executed _ rfl with hsame | ⟨-, hentitled⟩
    · have hlength := congrArg List.length hsame
      revert hlength
      decide
    · have hreq : (sampleActionCall "bob".toList "fetch".toList).requirement =
          some .unlessAutoApproved := by decide
      rw [Entitled, hreq] at hentitled
      rcases hentitled with h | h | h | h
      · cases h
      · cases h
      · revert h
        decide
      · revert h
        unfold ApprovedByUser
        decide
  · rintro ⟨-, h⟩
    obtain ⟨h, -⟩ := h _ rfl
    have hreq : (sampleActionCall "alice".toList "web_fetch".toList).requirement =
        some .unlessAutoApproved := by decide
    have hpaused := h.notPaused
      (by rw [Entitled, hreq]; exact .inr (.inr (.inr (by unfold ApprovedByUser; decide)))) _ rfl
    revert hpaused
    decide

end IronClaw.Bridge
