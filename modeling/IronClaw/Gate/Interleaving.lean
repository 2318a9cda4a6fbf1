import IronClaw.Foundation.Run
import IronClaw.Gate.Store

/-!
# Concurrent calls to the gate store

A call has its critical section on the maps, the writes outside the lock, and its return. The
process may stop between any two of these, and rebuilds the maps from what is persisted.
-/

namespace IronClaw.Gate

open Foundation (Write)

/-- A call that has left its critical section, with what it still has to persist. -/
inductive InFlight where
  | insert (gate : PendingGate) (saved : Bool)
  | takeVerified (key : PendingGateKey) (gate : PendingGate) (removed : Bool)
  | discard (key : PendingGateKey) (removed : Bool)
  | discardForThread (keys : List PendingGateKey) (gates : List PendingGate)
  | expireStale (keys : List PendingGateKey) (count : Nat)
deriving DecidableEq

namespace InFlight

/-- The persistence calls still to be made, in order. -/
def todo : InFlight → List (Write PendingGateKey PendingGate)
  | insert gate saved => if saved then [] else [.put gate.key gate]
  | takeVerified key _ removed => if removed then [] else [.del key]
  | discard key removed => if removed then [] else [.del key]
  | discardForThread keys _ => keys.map .del
  | expireStale keys _ => keys.map .del

def advance : InFlight → InFlight
  | insert gate _ => insert gate true
  | takeVerified key gate _ => takeVerified key gate true
  | discard key _ => discard key true
  | discardForThread keys gates => discardForThread keys.tail gates
  | expireStale keys count => expireStale keys.tail count

theorem todo_advance (c : InFlight) : c.advance.todo = c.todo.tail := by
  cases c with
  | insert gate saved => cases saved <;> rfl
  | takeVerified key gate removed => cases removed <;> rfl
  | discard key removed => cases removed <;> rfl
  | discardForThread keys gates => exact List.map_tail
  | expireStale keys count => exact List.map_tail

def Inserts (c : InFlight) (r : Uuid) : Prop := ∃ gate saved, c = insert gate saved ∧
    gate.requestId = r

/-- The call inserts the gate of a request id and has not persisted it yet. -/
def Saves (c : InFlight) (r : Uuid) : Prop := ∃ gate, c = insert gate false ∧ gate.requestId = r

def Takes (c : InFlight) (r : Uuid) : Prop :=
  ∃ key gate removed, c = takeVerified key gate removed ∧ gate.requestId = r

variable {c : InFlight} {r : Uuid}

theorem Saves.inserts (h : c.Saves r) : c.Inserts r := by
  obtain ⟨gate, rfl, hr⟩ := h
  exact ⟨gate, false, rfl, hr⟩

theorem inserts_advance : c.advance.Inserts r ↔ c.Inserts r := by
  cases c <;> simp [advance, Inserts]

theorem takes_advance : c.advance.Takes r ↔ c.Takes r := by
  cases c <;> simp [advance, Takes]

theorem not_saves_advance : ¬ c.advance.Saves r := by
  cases c <;> simp [advance, Saves]

theorem put_mem_todo {k : PendingGateKey} {gate : PendingGate} :
    Write.put k gate ∈ c.todo ↔ c = insert gate false ∧ k = gate.key := by
  cases c with
  | insert g saved =>
    cases saved
    · simp only [todo, Bool.false_eq_true, if_false, List.mem_singleton, Write.put.injEq,
        insert.injEq, and_true]
      grind
    · simp [todo]
  | takeVerified key g removed => cases removed <;> simp [todo]
  | discard key removed => cases removed <;> simp [todo]
  | discardForThread keys gates => simp [todo]
  | expireStale keys count => simp [todo]

end InFlight

/-- What callers learn, and how gates enter and leave the maps. -/
inductive Event where
  /-- A gate entered the maps under its key. -/
  | inserted (requestId : Uuid) (key : PendingGateKey)
  | taken (requestId : Uuid)
  | discarded (requestId : Uuid)
  | expired (requestId : Uuid)
  /-- A call returned `Ok`. -/
  | insertOk (requestId : Uuid)
  | takeOk (requestId : Uuid)
deriving DecidableEq

/-- The event of a call's return, where it tells the caller about a gate. -/
def InFlight.reply : InFlight → List Event
  | insert gate _ => [.insertOk gate.requestId]
  | takeVerified _ gate _ => [.takeOk gate.requestId]
  | _ => []

/-- The store, the persisted gates, the calls in flight in order, and the events, newest first. -/
structure System where
  inner : StoreInner
  file : PendingGateFile
  inFlight : List InFlight
  trace : List Event

namespace System

def init : System := ⟨.new, .new, [], []⟩

def outstanding (s : System) : List (Write PendingGateKey PendingGate) :=
  s.inFlight.flatMap InFlight.todo

end System

inductive Action where
  | insert (gate : PendingGate)
  | takeVerified (now : Time) (key : PendingGateKey) (requestId : Uuid) (channel : String)
  | discard (key : PendingGateKey)
  | discardForThread (threadId : ThreadId)
  | expireStale (clock : PendingGateKey → Time)
  /-- The next persistence call of the `i`-th call in flight. -/
  | persist (i : Nat)
  | reply (i : Nat)
  | restart (clock : PendingGateKey → Time)

/-- One step. A critical section that fails returns its error at once. -/
def step (s : System) : Action → Option System
  | .insert gate =>
    if s.trace.any (fun e => match e with | .inserted r _ => r == gate.requestId | _ => false) then
      none
    else match s.inner.insert gate with
      | .error _ => some s
      | .ok inner => some { s with
          inner := inner
          inFlight := s.inFlight ++ [.insert gate false]
          trace := .inserted gate.requestId gate.key :: s.trace }
  | .takeVerified now key requestId channel =>
    match s.inner.takeVerified now key requestId channel with
    | (.ok gate, inner) => some { s with
        inner := inner
        inFlight := s.inFlight ++ [.takeVerified key gate false]
        trace := .taken gate.requestId :: s.trace }
    -- the expired gate leaves the maps, the persisted one stays
    | (.error .expired, inner) =>
      some { s with inner := inner, trace := .expired requestId :: s.trace }
    | (.error _, inner) => some { s with inner := inner }
  | .discard key =>
    match s.inner.discard key with
    | .error _ => some s
    | .ok (gate, inner) => some { s with
        inner := inner
        inFlight := s.inFlight ++ [.discard key false]
        trace := .discarded gate.requestId :: s.trace }
  | .discardForThread threadId =>
    let removed := s.inner.discardForThread threadId
    some { s with
      inner := removed.2
      inFlight := s.inFlight ++ [.discardForThread (s.inner.keysOfThread threadId) removed.1]
      trace := removed.1.map (fun gate => .discarded gate.requestId) ++ s.trace }
  | .expireStale clock =>
    let removed := s.inner.expireStale clock
    some { s with
      inner := removed.2
      inFlight := s.inFlight ++
        [.expireStale (s.inner.expiredKeys clock) (s.inner.expiredKeys clock).length]
      trace := removed.1.map (fun gate => .expired gate.requestId) ++ s.trace }
  | .persist i =>
    match s.inFlight[i]? with
    | none => none
    | some c =>
      match c.todo with
      | [] => none
      | w :: _ => some { s with
          file := s.file.write w
          inFlight := s.inFlight.set i c.advance }
  | .reply i =>
    match s.inFlight[i]? with
    | none => none
    | some c =>
      match c.todo with
      | [] => some { s with
          inFlight := s.inFlight.eraseIdx i
          trace := c.reply ++ s.trace }
      | _ :: _ => none
  | .restart clock =>
    some {
      inner := .restore clock s.file.gates .new
      file := s.file
      inFlight := []
      trace := (s.file.expired clock).map (fun gate => .expired gate.requestId) ++ s.trace }

/-- A write is **in order** when no earlier call still has a write to the key to make. -/
def System.InOrder (s : System) : Action → Prop
  | .persist i => ∀ c, s.inFlight[i]? = some c → ∀ w ∈ c.todo.head?,
      ∀ d ∈ s.inFlight.take i, ∀ v ∈ d.todo, v.key ≠ w.key
  | _ => True

def Left (trace : List Event) (r : Uuid) : Prop :=
  .taken r ∈ trace ∨ .discarded r ∈ trace ∨ .expired r ∈ trace

theorem Left.append {trace : List Event} {r : Uuid} (h : Left trace r) (es : List Event) :
    Left (es ++ trace) r := by
  simp only [Left, List.mem_append] at h ⊢
  tauto

def Event.IsDeparture : Event → Prop
  | .taken _ | .discarded _ | .expired _ => True
  | _ => False

inductive Transition : System → System → Prop where
  | skip (s : System) : Transition s s
  | enter (s : System) (gate : PendingGate)
      (hfresh : ∀ k, .inserted gate.requestId k ∉ s.trace)
      (hnone : s.inner.byKey.lookup gate.key = none) :
      Transition s
        { s with
          inner := s.inner.put gate
          inFlight := s.inFlight ++ [.insert gate false]
          trace := .inserted gate.requestId gate.key :: s.trace }
  | remove (s : System) (keys : List PendingGateKey) (inner : StoreInner) (c : InFlight)
      (es : List Event)
      (hlookup : ∀ k, inner.byKey.lookup k = if k ∈ keys then none else s.inner.byKey.lookup k)
      (htodo : c.todo = keys.map .del)
      (hinserts : ∀ r, ¬ c.Inserts r)
      (htakes : ∀ key gate removed, c = .takeVerified key gate removed →
        removed = false ∧ key ∈ keys ∧ s.inner.byKey.lookup key = some gate)
      (hes : ∀ e ∈ es, e.IsDeparture)
      (hleft : ∀ k ∈ keys, ∀ gate, s.inner.byKey.lookup k = some gate →
        Left es gate.requestId) :
      Transition s
        { s with inner := inner, inFlight := s.inFlight ++ [c], trace := es ++ s.trace }
  | lapse (s : System) (key : PendingGateKey) (gate : PendingGate)
      (hsome : s.inner.byKey.lookup key = some gate) :
      Transition s
        { s with
          inner := s.inner.removeKey key
          trace := .expired gate.requestId :: s.trace }
  | write (s : System) (pre post : List InFlight) (c : InFlight)
      (w : Write PendingGateKey PendingGate) (ws : List (Write PendingGateKey PendingGate))
      (hsplit : s.inFlight = pre ++ c :: post) (htodo : c.todo = w :: ws)
      (horder : ∀ d ∈ pre, ∀ v ∈ d.todo, v.key ≠ w.key) :
      Transition s { s with file := s.file.write w, inFlight := pre ++ c.advance :: post }
  | return (s : System) (pre post : List InFlight) (c : InFlight)
      (hsplit : s.inFlight = pre ++ c :: post) (htodo : c.todo = []) :
      Transition s { s with inFlight := pre ++ post, trace := c.reply ++ s.trace }
  | restart (s : System) (clock : PendingGateKey → Time) :
      Transition s
        { inner := .restore clock s.file.gates .new
          file := s.file
          inFlight := []
          trace := (s.file.expired clock).map (fun gate => .expired gate.requestId) ++ s.trace }

theorem split_of_getElem? {α : Type*} {l : List α} {i : Nat} {a : α} (h : l[i]? = some a) :
    l = l.take i ++ a :: l.drop (i + 1) := by
  obtain ⟨hi, rfl⟩ := List.getElem?_eq_some_iff.mp h
  rw [← List.drop_eq_getElem_cons hi, List.take_append_drop]

theorem step_transition {s s' : System} {a : Action} (ho : s.InOrder a)
    (h : step s a = some s') : Transition s s' := by
  cases a with
  | insert gate =>
    simp only [step] at h
    split_ifs at h with hfresh
    have hfresh' : ∀ k, .inserted gate.requestId k ∉ s.trace := by
      intro k hk
      exact hfresh (List.any_eq_true.mpr ⟨_, hk, by simp⟩)
    split at h
    · cases h
      exact .skip s
    · next inner hins =>
      cases h
      obtain ⟨hnone, rfl⟩ := StoreInner.insert_ok hins
      exact .enter s gate hfresh' hnone
  | takeVerified now key requestId channel =>
    simp only [step] at h
    split at h
    · next gate inner htake =>
      cases h
      obtain ⟨hsome, -, -, -, rfl⟩ := StoreInner.takeVerified_ok htake
      refine .remove s [key] _ (.takeVerified key gate false) [.taken gate.requestId] ?_ rfl ?_ ?_
        ?_ ?_
      · simp [StoreInner.lookup_removeKey]
      · simp [InFlight.Inserts]
      · rintro _ _ _ ⟨⟩
        exact ⟨rfl, by simp, hsome⟩
      · simp [Event.IsDeparture]
      · simp [Left, hsome]
    · next inner htake =>
      cases h
      rcases StoreInner.takeVerified_error htake with ⟨hne, -⟩ | ⟨-, rfl, gate, hsome, rfl⟩
      · exact absurd rfl hne
      · -- an expired gate leaves the maps, and nothing is written for it
        exact .lapse s key gate hsome
    · next e inner hne htake =>
      cases h
      rcases StoreInner.takeVerified_error htake with ⟨-, rfl⟩ | ⟨rfl, -, -⟩
      · exact .skip s
      · exact absurd rfl hne
  | discard key =>
    simp only [step] at h
    split at h
    · cases h
      exact .skip s
    · next gate inner hdiscard =>
      cases h
      obtain ⟨hsome, rfl⟩ := StoreInner.discard_ok hdiscard
      refine .remove s [key] _ (.discard key false) [.discarded gate.requestId] ?_ rfl ?_ ?_ ?_ ?_
      · simp [StoreInner.lookup_removeKey]
      · simp [InFlight.Inserts]
      · rintro _ _ _ ⟨⟩
      · simp [Event.IsDeparture]
      · simp [Left, hsome]
  | discardForThread threadId =>
    cases h
    refine .remove s _ _ (.discardForThread _ _) _ (StoreInner.lookup_removeKeys _ _)
      rfl ?_ ?_ ?_ ?_
    · simp [InFlight.Inserts]
    · rintro _ _ _ ⟨⟩
    · simp [Event.IsDeparture]
    · -- every gate that goes has its event
      intro k hk gate hsome
      have hkey := s.inner.keyed k gate hsome
      refine .inr (.inl (List.mem_map.mpr ⟨gate, ?_, rfl⟩))
      exact StoreInner.mem_removeKeys.mpr ⟨hkey ▸ hk, hkey ▸ hsome⟩
  | expireStale clock =>
    cases h
    refine .remove s _ _ (.expireStale _ _) _ (StoreInner.lookup_removeKeys _ _) rfl ?_ ?_ ?_ ?_
    · simp [InFlight.Inserts]
    · rintro _ _ _ ⟨⟩
    · simp [Event.IsDeparture]
    · intro k hk gate hsome
      have hkey := s.inner.keyed k gate hsome
      refine .inr (.inr (List.mem_map.mpr ⟨gate, ?_, rfl⟩))
      exact StoreInner.mem_removeKeys.mpr ⟨hkey ▸ hk, hkey ▸ hsome⟩
  | persist i =>
    simp only [step] at h
    split at h
    · cases h
    · next c hc =>
      split at h
      · cases h
      · next w ws htodo =>
        cases h
        have hset : s.inFlight.set i c.advance =
            s.inFlight.take i ++ c.advance :: s.inFlight.drop (i + 1) := by
          rw [List.set_eq_take_append_cons_drop, if_pos (List.getElem?_eq_some_iff.mp hc).1]
        rw [hset]
        exact .write s _ _ c w ws (split_of_getElem? hc) htodo
          (ho c hc w (by rw [htodo]; rfl))
  | reply i =>
    simp only [step] at h
    split at h
    · cases h
    · next c hc =>
      split at h
      · next htodo =>
        cases h
        rw [List.eraseIdx_eq_take_drop_succ]
        exact .return s _ _ c (split_of_getElem? hc) htodo
      · cases h
  | restart clock =>
    cases h
    exact .restart s clock

end IronClaw.Gate
