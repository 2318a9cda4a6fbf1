import IronClaw.Missions.Restart

/-!
# The rate of fires, and events that were seen before

The manager logs when missions were fired, and when an event with a key last passed. The longest
windows become negative when converted: nothing is within them.
-/

namespace IronClaw.Missions

open Foundation (Text Json HashMap Effect Along run run_invariant)
open Interleaving (HostConfig)

/-- A number of 64 bits, read as a signed one. -/
def asI64 (n : Nat) : Int := if n < 2 ^ 63 then n else n - 2 ^ 64

/-- The longest duration in seconds, and in milliseconds, that the library has. -/
def maxSeconds : Int := 9223372036854775

def maxMillis : Int := 9223372036854775807

/-- `Duration::seconds`, which panics out of its range. -/
def durationSeconds (secs : Int) : Option Int :=
  if -maxSeconds ≤ secs ∧ secs ≤ maxSeconds then some (secs * second) else none

structure FireRateLimit where
  maxFires : Nat
  windowSecs : Nat
  windowNanos : Nat

namespace FireRateLimit

variable (limit : FireRateLimit)

def length : Int := limit.windowSecs * second + limit.windowNanos

/-- What a check takes for the window: `Duration::from_std`, or else its seconds. -/
def window : Option Int :=
  if limit.length ≤ maxMillis * 1000000 then some limit.length
  else durationSeconds (asI64 limit.windowSecs)

end FireRateLimit

/-- Whether an event was seen within the window, and the table afterwards. -/
def dedupEvent? (now : Instant) (table : HashMap (MissionId × Text) Instant)
    (key : MissionId × Text) (windowSecs : Nat) :
    Option (Bool × HashMap (MissionId × Text) Instant) :=
  if windowSecs = 0 then some (false, table)
  else (durationSeconds (asI64 windowSecs)).map fun window =>
    if (table.lookup key).any fun last => now - last < window then (true, table)
    else (false, table.insert key now)

structure Pass where
  key : MissionId × Text
  windowSecs : Nat
  time : Instant

/-- The manager, the recorded fires, the passed events, and the last clock reading. -/
structure Watched where
  host : MissionHost
  fires : List (Text × Instant)
  passes : List Pass
  clock : Instant

/-- A trigger comes to a mission, or anything else is changed. -/
inductive WatchedEvent where
  | visit (trigger : Trigger) (id : MissionId) (dedupNow : Instant) (env : CallEnv)
  | other (change : MissionSystem → MissionSystem)

def MissionSystem.fireLog (s : MissionSystem) (userId : Text) : List Instant :=
  (s.userFireLog.lookup userId).getD []

namespace Watched

def firesOf (s : Watched) (userId : Text) : List Instant :=
  (s.fires.filter fun fire => fire.1 = userId).map Prod.snd

def start (system : MissionSystem) (clock : Instant) : Watched :=
  ⟨⟨{ system with userFireLog := ∅ }, ∅⟩, [], [], clock⟩

variable (config : HostConfig) (limit : FireRateLimit)

/-- A fire. Where the window cannot be converted it panics, before it looks at the log. -/
def fire (trigger : Trigger) (m : Mission) (env : CallEnv) (s : Watched) : Watched :=
  limit.window.elim s fun window =>
    let manager := { config.manager with maxFires := limit.maxFires, window := window }
    let r := (Manager.fireMission manager env m.id (trigger.firesFor m) trigger.payload).exec
      s.host.system
    { s with
      host := { s.host with system := r.2 }
      fires := s.fires ++ (r.1.toOption.join.map fun _ => (m.userId, env.recordInstant)).toList
      clock := env.recordInstant }

def visit (trigger : Trigger) (id : MissionId) (dedupNow : Instant) (env : CallEnv) (s : Watched) :
    Watched :=
  match s.host.system.store.loadMission id with
  | none => s
  | some m =>
    if !trigger.selects config.events m then s
    else
      let key := (m.id, config.events.payloadDedupKey trigger.payload)
      match dedupEvent? dedupNow s.host.dedupTable key m.dedupWindowSecs with
      | some (false, table) =>
        fire config limit trigger m env { s with
          host := { s.host with dedupTable := table }
          passes := if m.dedupWindowSecs = 0 then s.passes
            else s.passes ++ [⟨key, m.dedupWindowSecs, dedupNow⟩]
          clock := dedupNow }
      | _ => { s with clock := dedupNow }

def step (s : Watched) : WatchedEvent → Option Watched
  | .visit trigger id dedupNow env =>
    if trigger.isTick = false ∧ s.clock ≤ dedupNow ∧ dedupNow ≤ env.now ∧
        env.now ≤ env.recordInstant then
      some (s.visit config limit trigger id dedupNow env)
    else none
  | .other change =>
    some { s with host.system :=
      { change s.host.system with userFireLog := s.host.system.userFireLog } }

end Watched

/-- No stretch as long as the window has more fires than the limit, and only recorded fires count.
An event that passes comes at least its window after those before. -/
structure Watched.Lawful (limit : FireRateLimit) (s : Watched) : Prop where
  rate : ∀ userId start,
    (s.firesOf userId).countP (fun t => start ≤ t ∧ t ≤ start + limit.length) ≤ limit.maxFires
  counted : ∀ userId, s.host.system.fireLog userId <:+ s.firesOf userId
  dedup : s.passes.Pairwise fun p q =>
    p.key = q.key → q.windowSecs * second ≤ q.time - p.time

/-- No window wraps around to one that the library has. -/
def Watched.InRange (limit : FireRateLimit) (s : Watched) : WatchedEvent → Prop
  | .visit _ id _ _ =>
    (limit.length ≤ maxMillis * 1000000 ∨
      maxSeconds < limit.windowSecs ∧ limit.windowSecs + maxSeconds < 2 ^ 64) ∧
    ∀ m ∈ s.host.system.store.loadMission id, m.dedupWindowSecs + maxSeconds < 2 ^ 64
  | .other _ => True

instance (limit : FireRateLimit) (s : Watched) (e : WatchedEvent) :
    Decidable (s.InRange limit e) := by
  cases e <;> unfold Watched.InRange <;> infer_instance

theorem of_durationSeconds_asI64 {secs : Nat} {window : Int} (h : secs + maxSeconds < 2 ^ 64)
    (hwindow : durationSeconds (asI64 secs) = some window) :
    window = secs * second ∧ secs ≤ maxSeconds := by
  simp only [durationSeconds, asI64, maxSeconds] at h hwindow ⊢
  split_ifs at hwindow with hsigned hfits
  · cases hwindow
    exact ⟨rfl, hfits.2⟩
  · omega

namespace Manager

variable {config : ManagerConfig} {env : CallEnv} {s : MissionSystem} {m : Mission} {userId : Text}
  {triggerPayload : Option Json}

/-- A fire may forget what has left the window, and logs a thread if there is room behind that. -/
def Logs (config : ManagerConfig) (env : CallEnv) (owner : Text) (s : MissionSystem)
    (r : Except EngineError (Option ThreadId) × MissionSystem) : Prop :=
  let left := (s.fireLog owner).dropWhile fun t => t < env.now - config.window
  (r.1.toOption.join = none ∧ ((∀ u, r.2.fireLog u = s.fireLog u) ∨
    ∀ u, r.2.fireLog u = if u = owner then left else s.fireLog u)) ∨
  ((∃ tid, r.1.toOption.join = some tid) ∧ left.length < config.maxFires ∧
    ∀ u, r.2.fireLog u = if u = owner then left ++ [env.recordInstant] else s.fireLog u)

theorem fireLog_insert (logs : HashMap Text (List Instant)) (owner u : Text)
    (fires : List Instant) :
    MissionSystem.fireLog { s with userFireLog := logs.insert owner fires } u =
      if u = owner then fires else MissionSystem.fireLog { s with userFireLog := logs } u := by
  simp only [MissionSystem.fireLog, HashMap.lookup_insert]
  split_ifs <;> rfl

theorem logs_tryFire :
    Logs config env m.userId s ((tryFire config env m userId triggerPayload).exec s) := by
  rw [tryFire, Effect.exec_bind, Effect.exec_get]
  dsimp only
  split_ifs with hguards
  · exact .inl ⟨rfl, .inl fun u => rfl⟩
  · have hrate : (checkUserRate config env m.userId).exec s =
        (.ok (withinRate config env s.userFireLog m.userId),
          ((checkUserRate config env m.userId).exec s).2) := rfl
    rw [Effect.exec_bind_ok hrate]
    split_ifs with hheld
    · exact .inl ⟨rfl, .inr fun u => fireLog_insert ..⟩
    · rw [spawnThread, Effect.exec_bind, Effect.exec_ofExcept]
      rcases env.spawn m userId with e | ⟨tid, thread⟩
      · exact .inl ⟨rfl, .inr fun u => fireLog_insert ..⟩
      · simp only [Bool.or_eq_true, Bool.not_eq_true', not_or, Bool.not_eq_false] at hheld
        refine .inr ⟨⟨tid, rfl⟩, of_decide_eq_true hheld.1, fun u => ?_⟩
        have hleft (u : Text) := fireLog_insert (s := s) s.userFireLog m.userId u
          ((s.fireLog m.userId).dropWhile fun t => t < env.now - config.window)
        refine (fireLog_insert ..).trans (if_ctx_congr Iff.rfl (fun _ => ?_) fun hu => ?_)
        · exact congrArg (· ++ [env.recordInstant]) ((hleft m.userId).trans (if_pos rfl))
        · exact (hleft u).trans (if_neg hu)

theorem logs_fireMission (hm : s.store.loadMission m.id = some m) : Logs config env m.userId s
      ((fireMission config env m.id userId triggerPayload).exec s) := by
  by_cases hallowed : (m.isShared || m.isOwnedBy userId) = true
  · rw [fireMission, Effect.exec_bind_ok (exec_loadAllowed_of_isSome hm hallowed)]
    split_ifs with hmay
    · exact .inl ⟨rfl, .inl fun u => rfl⟩
    · obtain ⟨store, hreset⟩ := exec_resetThreadsToday
      rw [Effect.exec_bind_ok hreset, ← userId_countedToday]
      exact logs_tryFire (s := { s with store := store })
  · rw [exec_fireMission_of_refused hm (Bool.eq_false_of_not_eq_true hallowed)]
    exact .inl ⟨rfl, .inl fun u => rfl⟩

end Manager

namespace Watched

section Lawful

variable {config : HostConfig} {limit : FireRateLimit} {s s' : Watched}

theorem length_of_window {window : Int} (h : limit.length ≤ maxMillis * 1000000 ∨
      maxSeconds < limit.windowSecs ∧ limit.windowSecs + maxSeconds < 2 ^ 64)
    (hwindow : limit.window = some window) : window = limit.length := by
  rw [FireRateLimit.window] at hwindow
  split_ifs at hwindow with hfits
  · exact (Option.some.inj hwindow).symm
  · obtain ⟨hlong, hmax⟩ := h.resolve_left hfits
    exact absurd (of_durationSeconds_asI64 hmax hwindow).2 (not_le.mpr hlong)

/-- A user's recorded fires, and those still logged: the others have left the window. -/
structure Rated (limit : FireRateLimit) (clock : Int) (fires logged : List Int) : Prop where
  rate : ∀ start,
    fires.countP (fun t => start ≤ t ∧ t ≤ start + limit.length) ≤ limit.maxFires
  counted : ∃ gone, fires = gone ++ logged ∧ ∀ t ∈ gone, t < clock - limit.length

variable {clock now t : Int} {fires logged : List Int}

theorem Rated.mono (h : Rated limit clock fires logged) (hnow : clock ≤ now) :
    Rated limit now fires logged := by
  obtain ⟨hrate, gone, heq, hgone⟩ := h
  refine ⟨hrate, gone, heq, fun t ht => ?_⟩
  have := hgone t ht
  omega

theorem Rated.expire (h : Rated limit now fires logged) :
    Rated limit now fires (logged.dropWhile fun t => t < now - limit.length) := by
  obtain ⟨hrate, gone, heq, hgone⟩ := h
  refine ⟨hrate, gone ++ logged.takeWhile fun t => t < now - limit.length, ?_, fun t ht => ?_⟩
  · rw [heq, List.append_assoc, List.takeWhile_append_dropWhile]
  · rcases List.mem_append.mp ht with ht | ht
    · exact hgone t ht
    · simpa using List.mem_takeWhile_imp ht

theorem Rated.record (h : Rated limit now fires logged) (hroom : logged.length < limit.maxFires)
    (hnow : now ≤ t) : Rated limit t (fires ++ [t]) (logged ++ [t]) := by
  obtain ⟨hrate, gone, rfl, hgone⟩ := h
  refine ⟨fun start => ?_, gone, List.append_assoc .., fun t' ht' => ?_⟩
  · rw [List.countP_append, List.countP_singleton]
    split_ifs with hin
    · -- what has left the window before `t` is in no window with `t`
      have hnone : gone.countP (fun t => start ≤ t ∧ t ≤ start + limit.length) = 0 := by
        refine List.countP_eq_zero.mpr fun t' ht' hstart => ?_
        have := hgone t' ht'
        simp only [decide_eq_true_eq] at hin hstart
        omega
      have hle := List.countP_le_length (l := logged)
        (p := fun t => start ≤ t ∧ t ≤ start + limit.length)
      rw [List.countP_append, hnone]
      omega
    · exact hrate start
  · have := hgone t' ht'
    omega

structure Inv (limit : FireRateLimit) (s : Watched) : Prop where
  rated : ∀ userId, Rated limit s.clock (s.firesOf userId) (s.host.system.fireLog userId)
  passed : ∀ p ∈ s.passes, ∃ last ∈ s.host.dedupTable.lookup p.key, p.time ≤ last ∧ last ≤ s.clock
  dedup : s.passes.Pairwise fun p q => p.key = q.key → q.windowSecs * second ≤ q.time - p.time

theorem Inv.mono (h : Inv limit s) (hnow : s.clock ≤ now) : Inv limit { s with clock := now } where
  rated := fun userId => (h.rated userId).mono hnow
  passed := fun p hp => by
    obtain ⟨last, hlast, hle, hclock⟩ := h.passed p hp
    exact ⟨last, hlast, hle, hclock.trans hnow⟩
  dedup := h.dedup

/-- **An event passes** its window, and what is kept for it is replaced. -/
theorem Inv.pass {key : MissionId × Text} {secs : Nat} {table : HashMap (MissionId × Text) Instant}
    (h : Inv limit s) (hnow : s.clock ≤ now) (hsecs : secs + maxSeconds < 2 ^ 64)
    (hpass : dedupEvent? now s.host.dedupTable key secs = some (false, table)) :
    Inv limit { s with
      host := { s.host with dedupTable := table }
      passes := if secs = 0 then s.passes else s.passes ++ [⟨key, secs, now⟩]
      clock := now } := by
  rw [dedupEvent?] at hpass
  split_ifs at hpass with hzero
  · cases hpass
    simpa only [hzero, if_true] using h.mono hnow
  · obtain ⟨window, hwindow, heq⟩ := Option.map_eq_some_iff.mp hpass
    obtain ⟨rfl, -⟩ := of_durationSeconds_asI64 hsecs hwindow
    split_ifs at heq with hseen
    · cases heq
    · cases heq
      rw [if_neg hzero]
      refine ⟨fun userId => (h.rated userId).mono hnow, fun p hp => ?_, ?_⟩
      · simp only [HashMap.lookup_insert, Option.mem_def]
        split_ifs with hkey
        · refine ⟨now, rfl, ?_, le_rfl⟩
          rcases List.mem_append.mp hp with hp | hp
          · obtain ⟨last, -, hle, hclock⟩ := h.passed p hp
            exact (hle.trans hclock).trans hnow
          · rw [List.mem_singleton.mp hp]
        · rcases List.mem_append.mp hp with hp | hp
          · obtain ⟨last, hlast, hle, hclock⟩ := h.passed p hp
            exact ⟨last, hlast, hle, hclock.trans hnow⟩
          · rw [List.mem_singleton.mp hp] at hkey
            exact absurd rfl hkey
      · refine List.pairwise_append.mpr ⟨h.dedup, List.pairwise_singleton _ _, ?_⟩
        rintro p hp q hq hkey
        rw [List.mem_singleton.mp hq] at hkey ⊢
        obtain ⟨last, hlast, hle, -⟩ := h.passed p hp
        rw [hkey, Option.mem_def] at hlast
        rw [hlast, Option.any_some, decide_eq_true_eq, not_lt] at hseen
        exact hseen.trans (Int.sub_le_sub_left hle now)

theorem Inv.log {manager : ManagerConfig} {env : CallEnv} {owner : Text}
    {r : Except EngineError (Option ThreadId) × MissionSystem} (h : Inv limit s)
    (hlogs : Manager.Logs manager env owner s.host.system r)
    (hmax : manager.maxFires = limit.maxFires) (hwindow : manager.window = limit.length)
    (hnow : s.clock ≤ env.now) (hrecord : env.now ≤ env.recordInstant) :
    Inv limit { s with
      host := { s.host with system := r.2 }
      fires := s.fires ++ (r.1.toOption.join.map fun _ => (owner, env.recordInstant)).toList
      clock := env.recordInstant } := by
  have hrated (u : Text) := (h.rated u).mono hnow
  refine ⟨fun u => ?_, (h.mono (hnow.trans hrecord)).passed, h.dedup⟩
  simp only [Manager.Logs, hmax, hwindow] at hlogs
  simp only [firesOf, List.filter_append, List.map_append]
  rcases hlogs with ⟨hnone, hlog⟩ | ⟨⟨tid, hsome⟩, hroom, hlog⟩
  · rw [hnone]
    simp only [Option.map_none, Option.toList_none, List.filter_nil, List.map_nil, List.append_nil]
    rcases hlog with hlog | hlog <;> rw [hlog]
    · exact (hrated u).mono hrecord
    · split_ifs with hu
      · exact hu ▸ (hrated u).expire.mono hrecord
      · exact (hrated u).mono hrecord
  · rw [hlog, hsome]
    split_ifs with hu
    · subst hu
      simpa [firesOf] using (hrated u).expire.record hroom hrecord
    · simpa [firesOf, Ne.symm hu] using (hrated u).mono hrecord

theorem Inv.step {e : WatchedEvent} (h : Inv limit s) (hrange : s.InRange limit e)
    (hstep : s.step config limit e = some s') : Inv limit s' := by
  cases e with
  | other change =>
    cases hstep
    exact ⟨h.rated, h.passed, h.dedup⟩
  | visit trigger id dedupNow env =>
    rw [Watched.step] at hstep
    split_ifs at hstep with hclock
    cases hstep
    obtain ⟨-, hdedup, hnow, hrecord⟩ := hclock
    rw [visit]
    cases hm : s.host.system.store.loadMission id with
    | none => exact h
    | some m =>
      have hid := MissionStore.id_of_loadMission hm
      dsimp only
      by_cases hselects : (!trigger.selects config.events m) = true
      · rwa [if_pos hselects]
      · rw [if_neg hselects]
        split
        · rename_i table hpass
          have hpassed := h.pass hdedup (hrange.2 m hm) hpass
          rw [fire]
          cases hwindow : limit.window with
          | none => exact hpassed
          | some window =>
            refine hpassed.log (Manager.logs_fireMission ?_) rfl
              (length_of_window hrange.1 hwindow) hnow hrecord
            rwa [hid]
        · exact h.mono hdedup

/-- **The rate of fires is bounded, and an event passes once in a window**, in every run without a
negative window. -/
theorem lawful_of_inRange {system : MissionSystem} {clock : Instant} {events : List WatchedEvent}
    (hrange : Along (step config limit) (InRange limit) (start system clock) events)
    (hrun : run (step config limit) (start system clock) events = some s) : s.Lawful limit := by
  have h : Inv limit s := by
    refine run_invariant (I := Inv limit) (fun s e s' h hc hstep => h.step hc hstep) ?_ hrange hrun
    exact ⟨fun userId => ⟨fun start => Nat.zero_le _, [], rfl, nofun⟩, nofun, .nil⟩
  refine ⟨fun userId => (h.rated userId).rate, fun userId => ?_, h.dedup⟩
  obtain ⟨gone, heq, -⟩ := (h.rated userId).counted
  exact ⟨gone, heq.symm⟩

end Lawful

/-- A mission without guardrails that fires on a webhook, and skips what it has seen. -/
def hooked (dedupWindowSecs : Nat) : MissionSystem :=
  (Interleaving.sampleSystem { Interleaving.sampleMission (.webhook ['p'] none) with
    cooldownSecs := 0, maxConcurrent := 0, maxThreadsPerDay := 0
    dedupWindowSecs := dedupWindowSecs }).host.system

def called (now : Instant) (tid : ThreadId) : WatchedEvent :=
  .visit hook 1 now (Interleaving.sampleEnv now tid none).toCallEnv

theorem lawful_called :
    ∃ s, run (step Interleaving.sampleConfig ⟨1, 1, 0⟩) (start (hooked 1) 0)
        [called 0 1, called (2 * second) 2] = some s ∧ s.fires.length = 2 ∧
      s.Lawful ⟨1, 1, 0⟩ := by
  have hrange : Along (step Interleaving.sampleConfig ⟨1, 1, 0⟩) (InRange ⟨1, 1, 0⟩)
      (start (hooked 1) 0) [called 0 1, called (2 * second) 2] := by decide +kernel
  exact ⟨_, rfl, rfl, lawful_of_inRange hrange rfl⟩

/-- With the longest window, an event passes twice, or two fires succeed at once. -/
theorem not_lawful_of_wrapped :
    (∃ s, run (step Interleaving.sampleConfig ⟨10, 3600, 0⟩) (start (hooked (2 ^ 64 - 1)) 0)
      [called 0 1, called 0 2] = some s ∧ ¬ s.Lawful ⟨10, 3600, 0⟩) ∧
    ∃ s, run (step Interleaving.sampleConfig ⟨1, 2 ^ 64 - 1, 0⟩) (start (hooked 0) 0)
      [called 0 1, called 0 2] = some s ∧ ¬ s.Lawful ⟨1, 2 ^ 64 - 1, 0⟩ :=
  ⟨⟨_, rfl, fun h => absurd h.dedup (by decide)⟩,
    ⟨_, rfl, fun h => absurd (h.rate Interleaving.sampleUser 0) (by decide)⟩⟩

end Watched

end IronClaw.Missions
