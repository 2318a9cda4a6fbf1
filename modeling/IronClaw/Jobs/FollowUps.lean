import IronClaw.Jobs.Endings

/-!
# Follow-up messages

A follow-up message gets into the context when the channel of the worker is emptied. A plan takes
one at a time. A check of the signals takes them all and keeps the first.
-/

namespace IronClaw.Jobs

open Context (JobChange JobContext Time)
open Foundation (Along Text Throughout run throughout_iff_along)
open List (append_nil length_append mem_append)

namespace JobHost

variable (h : JobHost)

def pending : List Text := h.channel.filterMap WorkerMessage.userText?

def isOpen : Bool := h.stop == .notCalled && !stopsLoop h.context.state

end JobHost

/-- Accepted messages reach the context once, in order, and each call has those of earlier
iterations. -/
structure FollowsUp (h : JobHost) : Prop where
  inOrder : h.heard ++ h.pending = h.sent.map Prod.fst
  inTime : ∀ call ∈ h.calls, ∀ (j : Nat) (message : Text × Nat), h.sent[j]? = some message →
    message.2 + 1 < call.1 → j < call.2

/-- Follow-up messages reach the job, unless it is stopped or ends. -/
def Reaches (h : JobHost) : Prop := h.isOpen = true → FollowsUp h

def Position.isChecking : Position → Bool
  | checking _ => true
  | _ => false

/-- A check of the signals of an open job finds one message at most. -/
def OneAtATime (h : JobHost) : HostEvent → Prop
  | .work _ _ => h.isOpen = true → h.position.isChecking = true → h.pending.length ≤ 1
  | _ => True

variable {cfg : WorkerConfig} {now : Time} {h h' : JobHost}

inductive Listens (h h' : JobHost) : Prop where
  /-- The first messages may come into the context. -/
  | steady (moved : List Text) (hpos : h.position.isChecking = false)
      (hiterations : h'.iterations = h.iterations) (hcalls : h'.calls = h.calls)
      (hheard : h'.heard = h.heard ++ moved) (hpending : h.pending = moved ++ h'.pending)
      (hchannel : h'.channel ⊆ h.channel)
  | called (hpos : h.position.isChecking = false) (hiterations : h'.iterations = h.iterations)
      (hcalls : h'.calls = h.calls ++ [(h.iterations, h.heard.length)])
      (hheard : h'.heard = h.heard) (hchannel : h'.channel = h.channel)
  /-- Only the first message comes into the context, and the channel is empty. -/
  | checked (hpos : h.position.isChecking = true) (hiterations : h'.iterations = h.iterations + 1)
      (hcalls : h'.calls = h.calls) (hheard : h'.heard = h.heard ++ h.pending.take 1)
      (hchannel : h'.channel = []) (hstate : h'.context.state = h.context.state)

theorem listens_of_same (hpos : h.position.isChecking = false)
    (hiterations : h'.iterations = h.iterations) (hcalls : h'.calls = h.calls)
    (hheard : h'.heard = h.heard) (hchannel : h'.channel = h.channel) : Listens h h' :=
  .steady [] hpos hiterations hcalls (by rw [hheard, append_nil])
    (by rw [JobHost.pending, JobHost.pending, hchannel, List.nil_append])
    (hchannel ▸ List.Subset.refl _)

variable (channel : List WorkerMessage)

theorem findSome?_userText? : channel.findSome? WorkerMessage.userText? =
      (channel.filterMap WorkerMessage.userText?).head? := by
  induction channel with
  | nil => rfl
  | cons message channel ih =>
    cases message with
    | userMessage content => rfl
    | start | stop | ping => exact ih

theorem pending_drainForPlan : channel.filterMap WorkerMessage.userText? =
      ((drainForPlan channel).2.bind WorkerMessage.userText?).toList ++
        (drainForPlan channel).1.filterMap WorkerMessage.userText? := by
  induction channel with
  | nil => rfl
  | cons message channel ih =>
    cases message with
    | start | ping => exact ih
    | stop | userMessage content => rfl

theorem drainForPlan_subset : (drainForPlan channel).1 ⊆ channel := by
  induction channel with
  | nil => exact List.Subset.refl _
  | cons message channel ih =>
    cases message with
    | start | ping => exact List.subset_cons_of_subset _ ih
    | stop | userMessage content => exact List.subset_cons_self _ _

theorem listens_checkSignals {iteration : Nat} (hpos : h.position = .checking iteration)
    (hstop : .stop ∉ h.channel) : Listens h (h.checkSignals iteration) := by
  have hcheck : h.position.isChecking = true := by rw [hpos]; rfl
  have hcontains : h.channel.contains .stop = false := by simpa using hstop
  unfold JobHost.checkSignals
  rw [hcontains, findSome?_userText?]
  cases hpending : h.channel.filterMap WorkerMessage.userText? with
  | nil =>
    refine .checked hcheck rfl rfl ?_ rfl rfl
    show h.heard = h.heard ++ (h.channel.filterMap WorkerMessage.userText?).take 1
    rw [hpending, List.take_nil, append_nil]
  | cons content rest =>
    refine .checked hcheck rfl rfl ?_ rfl rfl
    show h.heard ++ [content] = h.heard ++ (h.channel.filterMap WorkerMessage.userText?).take 1
    rw [hpending]
    rfl

theorem listens_nextAction {actions : List Llm.ToolCall} (hpos : h.position = .plan actions) :
    Listens h (h.nextAction actions) := by
  have hcheck : h.position.isChecking = false := by rw [hpos]; rfl
  cases actions with
  | nil => exact listens_of_same hcheck rfl rfl rfl rfl
  | cons action rest =>
    have hdrain := pending_drainForPlan h.channel
    have hsubset := drainForPlan_subset h.channel
    unfold JobHost.nextAction
    dsimp only
    cases hmessage : (drainForPlan h.channel).2 with
    | none =>
      rw [hmessage] at hdrain
      exact .steady [] hcheck rfl rfl (append_nil _).symm hdrain hsubset
    | some message =>
      rw [hmessage] at hdrain
      cases message with
      | userMessage content => exact .steady [content] hcheck rfl rfl rfl hdrain hsubset
      | start | stop | ping =>
        exact .steady [] hcheck rfl rfl (append_nil _).symm hdrain hsubset

theorem listens_callLlm {iteration : Nat} (hpos : h.position = .calling iteration)
    (outcome : CallOutcome) : Listens h (h.callLlm iteration outcome) := by
  have hcheck : h.position.isChecking = false := by rw [hpos]; rfl
  cases outcome with
  | responded response tokens =>
    rw [callLlm_responded]
    rcases countTokens_cases (h := { h.logCall with rateLimits := 0 }) tokens iteration
      response with ⟨-, heq⟩ | ⟨position, heq, -⟩ <;> rw [heq] <;>
      exact .called hcheck rfl rfl rfl rfl
  | selected first rest => exact .called hcheck rfl rfl rfl rfl
  | rateLimited => exact .called hcheck rfl rfl rfl rfl
  | emptyResponse => exact .called hcheck rfl rfl rfl rfl
  | failed => exact .called hcheck rfl rfl rfl rfl

theorem Works.listens (hw : Works cfg now h h')
    (hwaiting : h.position = .waiting → ∃ rest, h.channel = .start :: rest)
    (hstop : .stop ∉ h.channel) : Listens h h' := by
  cases hw with
  | waitForStart hpos hs =>
    obtain ⟨rest, hchannel⟩ := hwaiting hpos
    rw [JobHost.waitForStart, hchannel] at hs
    cases hs
    refine .steady [] (by rw [hpos]; rfl) rfl rfl (append_nil _).symm ?_ ?_
    · rw [JobHost.pending, hchannel]
      rfl
    · rw [hchannel]
      exact List.subset_cons_self _ _
  | createPlan plan hpos =>
    unfold JobHost.createPlan
    split_ifs
    · exact .called (by rw [hpos]; rfl) rfl rfl rfl rfl
    · exact listens_of_same (by rw [hpos]; rfl) rfl rfl rfl rfl
  | nextAction actions hpos => exact listens_nextAction hpos
  | stepAction batch rest i env hpos hs =>
    obtain ⟨task, executed, rfl, -⟩ := stepTool_cases hs
    exact listens_of_same (by rw [hpos]; rfl) rfl rfl rfl rfl
  | stepTool iteration batch i env hpos hs =>
    obtain ⟨task, executed, rfl, -⟩ := stepTool_cases hs
    exact listens_of_same (by rw [hpos]; rfl) rfl rfl rfl rfl
  | assess complete hpos => exact .called (by rw [hpos]; rfl) rfl rfl rfl rfl
  | checkSignals iteration hpos => exact listens_checkSignals hpos hstop
  | callLlm iteration outcome hpos => exact listens_callLlm hpos outcome
  | handleText iteration text reading hpos =>
    have hcheck : h.position.isChecking = false := by rw [hpos]; rfl
    cases reading with
    | nudge => exact listens_of_same hcheck rfl rfl rfl rfl
    | fail reason => exact listens_of_same hcheck rfl rfl rfl rfl
    | accept =>
      unfold JobHost.handleText
      split_ifs <;> exact listens_of_same hcheck rfl rfl rfl rfl
  | mark change onOk onError hpos =>
    obtain ⟨position, writes, heq, -⟩ := mark_eq cfg now h change onOk onError
    rw [heq]
    exact listens_of_same (by rw [hpos]; rfl) rfl rfl rfl rfl
  | wrapUp hpos =>
    unfold JobHost.wrapUp
    split_ifs <;> exact listens_of_same (by rw [hpos]; rfl) rfl rfl rfl rfl
  | _ =>
    rename_i hpos
    exact listens_of_same (by rw [hpos]; rfl) rfl rfl rfl rfl

theorem Works.stop_sent (hw : Works cfg now h h') : h'.stop = h.stop ∧ h'.sent = h.sent := by
  rcases hw.quiet_or_mark with hquiet | ⟨change, onOk, onError, -, rfl⟩
  · exact ⟨hquiet.outside.stop, hquiet.outside.sent⟩
  · obtain ⟨position, writes, heq, -⟩ := mark_eq cfg now h change onOk onError
    rw [heq]
    exact ⟨rfl, rfl⟩

/-- While no stop is called, waiting messages are of this iteration, and no call was made later. -/
structure Relay (h : JobHost) : Prop where
  proper : h.position.isProper = true
  waiting : h.position = .waiting → ∃ rest, h.channel = .start :: rest
  noStop : .stop ∉ h.channel
  calls : ∀ call ∈ h.calls, call.1 ≤ h.iterations
  recent : ∀ (j : Nat) (message : Text × Nat), h.sent[j]? = some message →
    h.sent.length ≤ j + h.pending.length → h.iterations ≤ message.2

theorem relay_works (hr : Relay h) (hw : Works cfg now h h') : Relay h' := by
  have hstarted := hw.isStarted hr.proper
  have hsent := hw.stop_sent.2
  refine ⟨Position.isProper_of_isStarted hstarted, fun hpos => ?_, ?_, ?_, ?_⟩
  · rw [hpos] at hstarted
    cases hstarted
  · cases hw.listens hr.waiting hr.noStop with
    | steady moved hpos hiterations hcalls hheard hpending hchannel =>
      exact fun hstop => hr.noStop (hchannel hstop)
    | called hpos hiterations hcalls hheard hchannel =>
      rw [hchannel]
      exact hr.noStop
    | checked hpos hiterations hcalls hheard hchannel hstate =>
      rw [hchannel]
      exact List.not_mem_nil
  · cases hw.listens hr.waiting hr.noStop with
    | steady moved hpos hiterations hcalls hheard hpending hchannel =>
      rw [hiterations, hcalls]
      exact hr.calls
    | called hpos hiterations hcalls hheard hchannel =>
      rw [hiterations, hcalls]
      intro call hcall
      rcases mem_append.mp hcall with hold | hnew
      · exact hr.calls call hold
      · rw [List.mem_singleton.mp hnew]
    | checked hpos hiterations hcalls hheard hchannel hstate =>
      rw [hiterations, hcalls]
      exact fun call hcall => Nat.le_succ_of_le (hr.calls call hcall)
  · rw [hsent]
    intro j message hget hlast
    have hlt : j < h.sent.length := (List.getElem?_eq_some_iff.mp hget).1
    cases hw.listens hr.waiting hr.noStop with
    | steady moved hpos hiterations hcalls hheard hpending hchannel =>
      rw [hiterations]
      refine hr.recent j message hget ?_
      rw [hpending, length_append]
      omega
    | called hpos hiterations hcalls hheard hchannel =>
      rw [hiterations]
      rw [JobHost.pending, hchannel] at hlast
      exact hr.recent j message hget hlast
    | checked hpos hiterations hcalls hheard hchannel hstate =>
      -- nothing waits after a check
      rw [JobHost.pending, hchannel, List.filterMap_nil, List.length_nil] at hlast
      omega

theorem relay_of_same (hr : Relay h) (hstarted : h'.position = h.position ∨
    h'.position.isStarted = true) (hchannel : h'.channel = h.channel) (hsent : h'.sent = h.sent)
    (hcalls : h'.calls = h.calls) (hiterations : h'.iterations = h.iterations) : Relay h' where
  proper := by
    rcases hstarted with heq | hstarted
    · rw [heq]
      exact hr.proper
    · exact Position.isProper_of_isStarted hstarted
  waiting hpos := by
    rcases hstarted with heq | hstarted
    · rw [hchannel]
      exact hr.waiting (heq ▸ hpos)
    · rw [hpos] at hstarted
      cases hstarted
  noStop := by rw [hchannel]; exact hr.noStop
  calls := by rw [hcalls, hiterations]; exact hr.calls
  recent := by rw [hsent, hiterations, JobHost.pending, hchannel]; exact hr.recent

theorem getElem?_concat_cases {α : Type*} {l : List α} {a b : α} {j : Nat}
    (h : (l ++ [a])[j]? = some b) : l[j]? = some b ∨ j = l.length ∧ b = a := by
  rcases Nat.lt_or_ge j l.length with hlt | hge
  · rw [List.getElem?_append_left hlt] at h
    exact .inl h
  · rw [List.getElem?_append_right hge, List.getElem?_singleton] at h
    split_ifs at h with hzero
    cases h
    exact .inr ⟨by omega, rfl⟩

theorem relay_sendMessage (hr : Relay h) (content : Text) : Relay { h with
    channel := h.channel ++ [.userMessage content]
    sent := h.sent ++ [(content, h.iterations)] } := by
  refine ⟨hr.proper, fun hpos => ?_, ?_, hr.calls, fun j message hget hlast => ?_⟩
  · obtain ⟨rest, hchannel⟩ := hr.waiting hpos
    exact ⟨rest ++ [.userMessage content], by rw [hchannel]; rfl⟩
  · rw [mem_append, not_or]
    exact ⟨hr.noStop, by simp⟩
  · rcases getElem?_concat_cases hget with hold | ⟨-, rfl⟩
    · refine hr.recent j message hold ?_
      simp only [JobHost.pending, List.filterMap_append, length_append] at hlast
      have hone : ([WorkerMessage.userMessage content].filterMap WorkerMessage.userText?).length =
        1 := rfl
      rw [hone, List.length_singleton] at hlast
      show h.sent.length ≤ j + h.pending.length
      rw [JobHost.pending]
      omega
    · exact Nat.le_refl _

theorem stop_of_stops (hstops : Stops cfg now h h') : h'.stop ≠ .notCalled := by
  cases hstops <;> simp

variable {e : HostEvent}

theorem relay_hostStep (hr : h.stop = .notCalled → Relay h) (hstep : hostStep cfg h e = some h')
    (hstop : h'.stop = .notCalled) : Relay h' := by
  cases happens_of_hostStep hstep with
  | work now e hw =>
    rw [hw.stop_sent.1] at hstop
    exact relay_works (hr hstop) hw
  | timeOut => exact relay_of_same (hr hstop) (.inr rfl) rfl rfl rfl rfl
  | die => exact relay_of_same (hr hstop) (.inr rfl) rfl rfl rfl rfl
  | stop now hstops => exact absurd hstop (stop_of_stops hstops)
  | sendMessage content => exact relay_sendMessage (hr hstop) content
  | cleanUp | change | land => exact relay_of_same (hr hstop) (.inl rfl) rfl rfl rfl rfl

theorem followsUp_of_same (hf : FollowsUp h) (hheard : h'.heard = h.heard)
    (hchannel : h'.channel = h.channel) (hsent : h'.sent = h.sent) (hcalls : h'.calls = h.calls) :
    FollowsUp h' where
  inOrder := by rw [hheard, hsent, JobHost.pending, hchannel]; exact hf.inOrder
  inTime := by rw [hcalls, hsent]; exact hf.inTime

theorem inTime_called (hr : Relay h) (hf : FollowsUp h) {j : Nat} {message : Text × Nat}
    (hget : h.sent[j]? = some message) (hlater : message.2 + 1 < h.iterations) :
    j < h.heard.length := by
  by_contra hnot
  have hlength := congrArg List.length hf.inOrder
  rw [length_append, List.length_map] at hlength
  have hrecent := hr.recent j message hget (by omega)
  omega

theorem followsUp_works (hr : Relay h) (hf : FollowsUp h) (hw : Works cfg now h h')
    (hpos : h.position.isChecking = false) : FollowsUp h' := by
  have hsent := hw.stop_sent.2
  cases hw.listens hr.waiting hr.noStop with
  | steady moved _ hiterations hcalls hheard hpending hchannel =>
    refine ⟨?_, by rw [hcalls, hsent]; exact hf.inTime⟩
    rw [hheard, hsent, List.append_assoc, ← hpending]
    exact hf.inOrder
  | called _ hiterations hcalls hheard hchannel =>
    refine ⟨?_, fun call hcall j message hget hlater => ?_⟩
    · rw [hheard, hsent, JobHost.pending, hchannel]
      exact hf.inOrder
    · rw [hsent] at hget
      rw [hcalls] at hcall
      rcases mem_append.mp hcall with hold | hnew
      · exact hf.inTime call hold j message hget hlater
      · rw [List.mem_singleton.mp hnew] at hlater ⊢
        exact inTime_called hr hf hget hlater
  | checked hcheck =>
    rw [hpos] at hcheck
    cases hcheck

theorem followsUp_check (hr : Relay h) (hf : FollowsUp h) (hw : Works cfg now h h')
    (hpos : h.position.isChecking = true) :
    h'.context.state = h.context.state ∧ (FollowsUp h' ↔ h.pending.length ≤ 1) := by
  have hsent := hw.stop_sent.2
  cases hw.listens hr.waiting hr.noStop with
  | checked _ hiterations hcalls hheard hchannel hstate =>
    have hpending : h'.pending = [] := by
      rw [JobHost.pending, hchannel]
      rfl
    refine ⟨hstate, fun hfollows => ?_, fun hone => ⟨?_, by rw [hcalls, hsent]; exact hf.inTime⟩⟩
    · have horder := hfollows.inOrder
      rw [hheard, hsent, ← hf.inOrder, hpending, append_nil,
        List.append_cancel_left_eq] at horder
      have hlength := congrArg List.length horder
      rw [List.length_take] at hlength
      omega
    · rw [hheard, hsent, hpending, append_nil, List.take_of_length_le hone]
      exact hf.inOrder
  | steady _ hnot =>
    rw [hpos] at hnot
    cases hnot
  | called hnot =>
    rw [hpos] at hnot
    cases hnot

theorem followsUp_sendMessage (hr : Relay h) (hf : FollowsUp h) (content : Text) :
    FollowsUp { h with
      channel := h.channel ++ [.userMessage content]
      sent := h.sent ++ [(content, h.iterations)] } := by
  refine ⟨?_, fun call hcall j message hget hlater => ?_⟩
  · show h.heard ++ (h.channel ++ [WorkerMessage.userMessage content]).filterMap _ =
      (h.sent ++ [(content, h.iterations)]).map Prod.fst
    rw [List.filterMap_append, ← List.append_assoc, List.map_append]
    exact congrArg (· ++ [content]) hf.inOrder
  · rcases getElem?_concat_cases hget with hold | ⟨-, rfl⟩
    · exact hf.inTime call hcall j message hold hlater
    · -- the calls that were made are not later
      have hcalls : call.1 ≤ h.iterations := hr.calls call hcall
      dsimp only at hlater
      omega

theorem stopsLoop_apply {change : JobChange} {context : JobContext}
    (hstops : stopsLoop context.state = true) :
    stopsLoop (change.apply now context).2.state = true := by
  rcases change.apply_cases now context with hsame | hcan
  · rw [hsame]
    exact hstops
  · revert hstops hcan
    generalize (change.apply now context).2.state = next
    cases context.state <;> cases next <;> decide

theorem isOpen_iff : h.isOpen = true ↔ h.stop = .notCalled ∧ stopsLoop h.context.state = false := by
  simp [JobHost.isOpen]

theorem isOpen_of_same (hopen : h'.isOpen = true) (hstop : h'.stop = h.stop)
    (hstops : stopsLoop h.context.state = true → stopsLoop h'.context.state = true) :
    h.isOpen = true := by
  obtain ⟨hnot, hstate⟩ := isOpen_iff.mp hopen
  refine isOpen_iff.mpr ⟨hstop ▸ hnot, Bool.eq_false_iff.mpr fun hends => ?_⟩
  rw [hstops hends] at hstate
  cases hstate

theorem isOpen_of_hostStep (hstep : hostStep cfg h e = some h') (hopen : h'.isOpen = true) :
    h.isOpen = true := by
  cases happens_of_hostStep hstep with
  | work now e hw =>
    refine isOpen_of_same hopen hw.stop_sent.1 fun hstops => ?_
    rcases hw.quiet_or_mark with hquiet | ⟨change, onOk, onError, -, rfl⟩
    · rw [hquiet.state]
      exact hstops
    · obtain ⟨position, writes, heq, -⟩ := mark_eq cfg now h change onOk onError
      rw [heq]
      exact stopsLoop_apply hstops
  | stop now hstops => exact absurd (isOpen_iff.mp hopen).1 (stop_of_stops hstops)
  | change now change => exact isOpen_of_same hopen rfl stopsLoop_apply
  | timeOut | die | sendMessage | cleanUp | land => exact hopen

theorem reaches_hostStep (hr : h.stop = .notCalled → Relay h) (hreaches : Reaches h)
    (hstep : hostStep cfg h e = some h') : Reaches h' ↔ OneAtATime h e := by
  cases hopen : h.isOpen with
  | false =>
    have hclosed : h'.isOpen = true → False := fun hopen' => by
      rw [isOpen_of_hostStep hstep hopen'] at hopen
      cases hopen
    refine iff_of_true (fun hopen' => absurd hopen' hclosed) ?_
    cases e with
    | work now e =>
      intro hopen'
      rw [hopen] at hopen'
      cases hopen'
    | _ => trivial
  | true =>
    have hrelay : Relay h := hr (isOpen_iff.mp hopen).1
    have hf : FollowsUp h := hreaches hopen
    cases happens_of_hostStep hstep with
    | work now e hw =>
      cases hpos : h.position.isChecking with
      | false =>
        refine iff_of_true (fun _ => followsUp_works hrelay hf hw hpos) fun _ hcheck => ?_
        rw [hpos] at hcheck
        cases hcheck
      | true =>
        obtain ⟨hstate, hiff⟩ := followsUp_check hrelay hf hw hpos
        have hopen' : h'.isOpen = true := by
          rw [isOpen_iff, hw.stop_sent.1, hstate]
          exact isOpen_iff.mp hopen
        constructor
        · exact fun hreaches' _ _ => hiff.mp (hreaches' hopen')
        · exact fun hone _ => hiff.mpr (hone hopen hpos)
    | stop now hstops =>
      refine iff_of_true (fun hopen' => ?_) trivial
      exact absurd (isOpen_iff.mp hopen').1 (stop_of_stops hstops)
    | sendMessage content =>
      exact iff_of_true (fun _ => followsUp_sendMessage hrelay hf content) trivial
    | timeOut | die | cleanUp | change | land =>
      exact iff_of_true (fun _ => followsUp_of_same hf rfl rfl rfl rfl) trivial

theorem relay_start (context : JobContext) : Relay (.start context) where
  proper := rfl
  waiting _ := ⟨[], rfl⟩
  noStop := by simp [JobHost.start]
  calls := by simp [JobHost.start]
  recent := by simp [JobHost.start]

/-- **Follow-up messages reach the job** exactly if each check of the signals finds one at most,
until it ends. -/
theorem reaches_iff_oneAtATime {cfg : WorkerConfig} {context : JobContext}
    {events : List HostEvent} {h : JobHost}
    (hrun : run (hostStep cfg) (.start context) events = some h) :
    Throughout (hostStep cfg) Reaches (.start context) events ↔
      Along (hostStep cfg) OneAtATime (.start context) events := by
  have hrelay : ∀ s e s', (s.stop = .notCalled → Relay s) → hostStep cfg s e = some s' →
      s'.stop = .notCalled → Relay s' := fun s e s' hr hstep => relay_hostStep hr hstep
  have hreaches : ∀ s e s', (s.stop = .notCalled → Relay s) → Reaches s →
      hostStep cfg s e = some s' → (Reaches s' ↔ OneAtATime s e) :=
    fun s e s' hr hs hstep => reaches_hostStep hr hs hstep
  refine throughout_iff_along hrelay hreaches (fun _ => relay_start context) (fun _ => ?_) hrun
  exact ⟨rfl, by simp [JobHost.start]⟩

def nudgedIteration : List HostEvent :=
  [.work 0 (.called (.responded (.text "working".toList) 0)), .work 0 (.read .nudge)]

def separateMessages : List HostEvent :=
  untilCheck ++ [.sendMessage "first".toList, .work 0 .proceed, .sendMessage "second".toList] ++
    nudgedIteration ++ [.work 0 .proceed] ++ nudgedIteration

instance (h : JobHost) (e : HostEvent) : Decidable (OneAtATime h e) :=
  match e with
  | .work _ _ => inferInstanceAs (Decidable (_ → _))
  | .timeOut | .die | .stop _ | .sendMessage _ | .cleanUp | .change _ _ | .land _ => isTrue trivial

theorem separateMessages_reach :
    ∃ h, run (hostStep sampleWorker) (.start sampleJob) separateMessages = some h ∧
      h.heard = ["first".toList, "second".toList] ∧ h.calls = [(1, 1), (2, 2)] ∧ Reaches h ∧
      Throughout (hostStep sampleWorker) Reaches (.start sampleJob) separateMessages := by
  obtain ⟨h, hrun⟩ : ∃ h,
      run (hostStep sampleWorker) (.start sampleJob) separateMessages = some h := ⟨_, rfl⟩
  have hreach := (reaches_iff_oneAtATime hrun).mpr (by decide +kernel)
  have hend := hreach separateMessages (List.prefix_refl _) h hrun
  cases hrun
  exact ⟨_, rfl, rfl, rfl, hend, hreach⟩

def messagesAtOnce : List HostEvent :=
  untilCheck ++ [.sendMessage "first".toList, .sendMessage "second".toList, .work 0 .proceed] ++
    nudgedIteration ++ [.work 0 .proceed, .work 0 .proceed] ++ nudgedIteration ++
    [.work 0 .proceed, .work 0 .proceed] ++ nudgedIteration

/-- The second of two messages is lost, though the job goes on for two more iterations. -/
theorem second_lost : ∃ h, run (hostStep sampleWorker) (.start sampleJob) messagesAtOnce = some h ∧
      h.sent = [("first".toList, 0), ("second".toList, 0)] ∧ h.channel = [] ∧
      h.heard = ["first".toList] ∧ h.calls = [(1, 1), (2, 1), (3, 1)] ∧ ¬ Reaches h := by
  refine ⟨_, rfl, rfl, rfl, rfl, rfl, fun h => ?_⟩
  have horder := (h rfl).inOrder
  revert horder
  decide

end IronClaw.Jobs
