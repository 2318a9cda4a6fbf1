import IronClaw.Sessions.Sharing

/-!
# What names resolve to

A name is looked up, a thread created and the name stored, with the locks released in between. All
is well as long as each write finds what the look before has found.
-/

namespace IronClaw.Sessions

open Agent (Uuid)
open Foundation (Along HashMap Pool Text run run_invariant)
open List (mem_append mem_cons mem_cons_self)

def SessionHost.StandsIn (h : SessionHost) (key : ThreadKey) (s : SessionId) (thread : Uuid) :
    Prop :=
  h.sessions.lookup key.userId = some s ∧
    (∃ m, h.threadMap.lookup key = some m ∧ m.thread = thread) ∧ thread ∈ (h.objects s).threads

def SessionHost.StandsFor (h : SessionHost) (key : ThreadKey) (thread : Uuid) : Prop :=
  ∃ s, h.StandsIn key s thread

/-- An answer that was asked for and given between two removals of the session of its user. -/
def Answer.Within (x : Answer) (n : Nat) : Prop := x.askedIn = n ∧ x.answeredIn = n

structure Sound (h : SessionHost) : Prop where
  stable : ∀ x ∈ h.answers, ∀ y ∈ h.answers, ∀ n, x.key = y.key → x.Within n → y.Within n →
    x.session = y.session ∧ x.thread = y.thread
  injective : ∀ key ∈ h.resolved, ∀ key' ∈ h.resolved, key ≠ key' → ∀ m m',
    h.threadMap.lookup key = some m → h.threadMap.lookup key' = some m' → m.thread ≠ m'.thread
  kept : h.lost = []
  idle : ∀ r ∈ h.removals, r.lastActiveAt < r.cutoff
  clean : ∀ key m, h.threadMap.lookup key = some m → m.session ∉ h.cleaned

/-- The name a call is about to store, its thread and session, and whether by `resolve_thread`. -/
def SessionTask.stores (uuids : UuidText) (h : SessionHost) :
    SessionTask → Option (ThreadKey × Uuid × SessionId × Bool)
  | adopting c s id => if h.isMapped id then none else some (c.key, id, s, true)
  | storing c s id => some (c.key, id, s, true)
  | registering userId channel id s =>
    some (⟨userId, channel, some (uuids.render id)⟩, id, s, false)
  | _ => none

/-- A name may be stored: it stands for nothing else, shares no thread with a name of
`resolve_thread`, and has its session. -/
structure MayStore (h : SessionHost) (key : ThreadKey) (thread : Uuid) (s : SessionId)
    (resolves : Bool) : Prop where
  free : ∀ other, h.StandsFor key other → other = thread
  unshared : resolves ∨ key ∈ h.resolved → ∀ other ∈ h.resolved, other ≠ key →
    ∀ m, h.threadMap.lookup other = some m → m.thread ≠ thread
  present : s ∉ h.cleaned

/-- A call's write finds what was looked at: the name may be stored, and what is removed is idle or
stands for nothing. -/
structure SessionTask.Orderly (uuids : UuidText) (h : SessionHost) (t : SessionTask) : Prop where
  store : ∀ key thread s resolves, t.stores uuids h = some (key, thread, s, resolves) →
    MayStore h key thread s resolves
  install : ∀ c s thread, t = .installingUndo c s thread → h.hasLiveUndo thread = false
  remove : ∀ cutoff stale threads, t = .removing cutoff stale threads → ∀ userId ∈ stale, ∀ s,
    h.sessions.lookup userId = some s → (h.objects s).lastActiveAt < cutoff
  clean : ∀ stale threads removed, t = .cleaning stale threads removed →
    ∀ key : ThreadKey, key.userId ∈ stale → ∀ thread, ¬ h.StandsFor key thread
  drop : ∀ threads, t = .dropping threads → ∀ thread ∈ threads, h.hasLiveUndo thread = false

def Orderly (uuids : UuidText) (p : SessionPool) (a : SessionAction) : Prop :=
  ∀ i t, a = .advance i .go → p.tasks[i]? = some t → t.Orderly uuids p.shared

def SessionHost.Owned (h : SessionHost) (userId : Text) (s : SessionId) : Prop :=
  s < h.nextSession ∧ (h.objects s).userId = userId

/-- A session that a call has got is the user's, and the current one unless removed since. -/
structure SessionHost.Got (h : SessionHost) (c : ResolveCall) (s : SessionId) : Prop where
  owned : h.Owned c.userId s
  current : h.removalsOf c.userId = c.askedIn → h.sessions.lookup c.userId = some s

def SessionTask.Knows (h : SessionHost) : SessionTask → Prop
  | gettingSession c | creatingSession c => c.askedIn ≤ h.removalsOf c.userId
  | lookingUp c s | adoptChecking c s _ | choosing c s | creating c s _ =>
    c.askedIn ≤ h.removalsOf c.userId ∧ h.Got c s
  | adopting c s id | storing c s id =>
    c.askedIn ≤ h.removalsOf c.userId ∧ h.Got c s ∧ id ∈ (h.objects s).threads
  | ensuringUndo c s id | installingUndo c s id =>
    c.askedIn ≤ h.removalsOf c.userId ∧ h.Got c s ∧
      (h.removalsOf c.userId = c.askedIn → h.StandsIn c.key s id)
  | registering userId _ _ s | registeringUndo userId _ s | tracking userId s => h.Owned userId s
  | cleaning stale _ removed => ∀ s ∈ removed, ∃ userId ∈ stale, h.Owned userId s
  | _ => True

structure Kept (h : SessionHost) : Prop where
  sessions : ∀ userId s, h.sessions.lookup userId = some s → h.Owned userId s
  names : ∀ key m, h.threadMap.lookup key = some m → h.Owned key.userId m.session
  answers : ∀ x ∈ h.answers, x.askedIn ≤ x.answeredIn ∧
    x.answeredIn ≤ h.removalsOf x.key.userId ∧
    (x.Within (h.removalsOf x.key.userId) → h.StandsIn x.key x.session x.thread)

/-- Sessions grow, and a name stands for what it did until the user's session is removed. -/
structure Extends (h h' : SessionHost) : Prop where
  created : h.nextSession ≤ h'.nextSession
  objects : ∀ s < h.nextSession, (h'.objects s).userId = (h.objects s).userId ∧
    (h.objects s).threads ⊆ (h'.objects s).threads
  removals : ∀ userId, h.removalsOf userId ≤ h'.removalsOf userId
  sessions : ∀ userId s, h.sessions.lookup userId = some s →
    h'.removalsOf userId = h.removalsOf userId → h'.sessions.lookup userId = some s
  names : ∀ key s thread, h.StandsIn key s thread →
    h'.removalsOf key.userId = h.removalsOf key.userId → h'.StandsIn key s thread

/-- Steps that leave the names alone, and all that has been noted but the removals. -/
structure SameNames (h h' : SessionHost) : Prop where
  threadMap : h'.threadMap = h.threadMap
  resolved : h'.resolved = h.resolved
  cleaned : h'.cleaned = h.cleaned
  lost : h'.lost = h.lost
  answers : h'.answers = h.answers

inductive HostStep (uuids : UuidText) (h : SessionHost) : SessionTask → SessionHost → Prop where
  | idle (t : SessionTask) (scanners : Nat) : HostStep uuids h t { h with scanners }
  | created (c : ResolveCall) :
      HostStep uuids h (.creatingSession c) (h.createSession c.userId).1
  | answered (c : ResolveCall) (s : SessionId) (m : Mapping)
      (hm : h.threadMap.lookup c.key = some m) (hmem : m.thread ∈ (h.objects s).threads) :
      HostStep uuids h (.lookingUp c s) (h.answer c s m.thread)
  | resolved (t : SessionTask) (key : ThreadKey) (id : Uuid) (s : SessionId)
      (ht : t.stores uuids h = some (key, id, s, true)) :
      HostStep uuids h t ((h.storeKey key id s).noteResolved key)
  | registered (t : SessionTask) (key : ThreadKey) (id : Uuid) (s : SessionId)
      (ht : t.stores uuids h = some (key, id, s, false)) :
      HostStep uuids h t (h.storeKey key id s)
  | ensured (t : SessionTask) (id : Uuid) : HostStep uuids h t (h.ensureUndo id)
  | adopted (c : ResolveCall) (s : SessionId) (id : Uuid) :
      HostStep uuids h (.ensuringUndo c s id) ((h.ensureUndo id).answer c s id)
  | grown (c : ResolveCall) (s : SessionId) (id : Uuid) :
      HostStep uuids h (.creating c s (some id)) (h.createThreadWithId s id)
  | installed (c : ResolveCall) (s : SessionId) (id : Uuid) :
      HostStep uuids h (.installingUndo c s id) ((h.installUndo id).answer c s id)
  | tracked (userId : Text) (s : SessionId) :
      HostStep uuids h (.tracking userId s) (h.trackSession userId s)
  | removed (cutoff : Time) (stale : List Text) (threads : List Uuid) :
      HostStep uuids h (.removing cutoff stale threads) (h.removeSessions cutoff stale)
  | forgotten (stale : List Text) (threads : List Uuid) (removed : List SessionId) :
      HostStep uuids h (.cleaning stale threads removed) (h.forgetNames stale removed)
  | dropped (threads : List Uuid) : HostStep uuids h (.dropping threads) (h.dropUndo threads)

section Frames

variable {uuids : UuidText} {h h' : SessionHost} {t : SessionTask}

variable {userId : Text} {s : SessionId}

theorem SessionHost.Owned.extend (hs : h.Owned userId s) (hext : Extends h h') :
    h'.Owned userId s :=
  ⟨hs.1.trans_le hext.created, (hext.objects s hs.1).1.trans hs.2⟩

theorem removalsOf_eq_of_extends (hext : Extends h h') {n : Nat} (hn : n ≤ h.removalsOf userId)
    (h' : h'.removalsOf userId = n) : h.removalsOf userId = n := by
  have := hext.removals userId
  omega

variable {c : ResolveCall}

theorem SessionHost.Got.extend (hn : c.askedIn ≤ h.removalsOf c.userId) (hgot : h.Got c s)
    (hext : Extends h h') : h'.Got c s where
  owned := hgot.owned.extend hext
  current := by
    intro hc
    have hbefore := removalsOf_eq_of_extends hext hn hc
    exact hext.sessions c.userId s (hgot.current hbefore) (hc.trans hbefore.symm)

theorem SessionTask.Knows.extend (hknows : t.Knows h) (hext : Extends h h') : t.Knows h' := by
  have hle := hext.removals
  cases t with
  | gettingSession c => exact Nat.le_trans hknows (hle _)
  | creatingSession c => exact Nat.le_trans hknows (hle _)
  | lookingUp c s => exact ⟨hknows.1.trans (hle _), hknows.2.extend hknows.1 hext⟩
  | adoptChecking c s id => exact ⟨hknows.1.trans (hle _), hknows.2.extend hknows.1 hext⟩
  | choosing c s => exact ⟨hknows.1.trans (hle _), hknows.2.extend hknows.1 hext⟩
  | creating c s id => exact ⟨hknows.1.trans (hle _), hknows.2.extend hknows.1 hext⟩
  | adopting c s id =>
    obtain ⟨hn, hgot, hmem⟩ := hknows
    exact ⟨hn.trans (hle _), hgot.extend hn hext, (hext.objects s hgot.owned.1).2 hmem⟩
  | storing c s id =>
    obtain ⟨hn, hgot, hmem⟩ := hknows
    exact ⟨hn.trans (hle _), hgot.extend hn hext, (hext.objects s hgot.owned.1).2 hmem⟩
  | ensuringUndo c s id =>
    obtain ⟨hn, hgot, hstands⟩ := hknows
    refine ⟨hn.trans (hle _), hgot.extend hn hext, fun hc => ?_⟩
    have hbefore := removalsOf_eq_of_extends hext hn hc
    exact hext.names c.key s id (hstands hbefore) (hc.trans hbefore.symm)
  | installingUndo c s id =>
    obtain ⟨hn, hgot, hstands⟩ := hknows
    refine ⟨hn.trans (hle _), hgot.extend hn hext, fun hc => ?_⟩
    have hbefore := removalsOf_eq_of_extends hext hn hc
    exact hext.names c.key s id (hstands hbefore) (hc.trans hbefore.symm)
  | registering userId channel id s => exact SessionHost.Owned.extend hknows hext
  | registeringUndo userId id s => exact SessionHost.Owned.extend hknows hext
  | tracking userId s => exact SessionHost.Owned.extend hknows hext
  | cleaning stale threads removed =>
    intro s hs
    obtain ⟨userId, hstale, howned⟩ := hknows s hs
    exact ⟨userId, hstale, howned.extend hext⟩
  | _ => trivial

theorem Extends.trans {h'' : SessionHost} (h₁ : Extends h h') (h₂ : Extends h' h'') :
    Extends h h'' := by
  -- a session that is not removed in the end was not removed in between
  have hbetween : ∀ userId, h''.removalsOf userId = h.removalsOf userId →
      h'.removalsOf userId = h.removalsOf userId ∧
        h''.removalsOf userId = h'.removalsOf userId := by
    intro userId heq
    have hfirst := h₁.removals userId
    have hsecond := h₂.removals userId
    omega
  refine ⟨h₁.created.trans h₂.created, fun s hs => ?_, fun userId => ?_, ?_, ?_⟩
  · obtain ⟨huser, hthreads⟩ := h₁.objects s hs
    obtain ⟨huser', hthreads'⟩ := h₂.objects s (hs.trans_le h₁.created)
    exact ⟨huser'.trans huser, fun _ hmem => hthreads' (hthreads hmem)⟩
  · exact (h₁.removals userId).trans (h₂.removals userId)
  · intro userId s hs heq
    obtain ⟨hfirst, hsecond⟩ := hbetween userId heq
    exact h₂.sessions userId s (h₁.sessions userId s hs hfirst) hsecond
  · intro key s thread hstands heq
    obtain ⟨hfirst, hsecond⟩ := hbetween key.userId heq
    exact h₂.names key s thread (h₁.names key s thread hstands hfirst) hsecond

theorem SameNames.trans {h'' : SessionHost} (h₁ : SameNames h h') (h₂ : SameNames h' h'') :
    SameNames h h'' :=
  ⟨h₂.threadMap.trans h₁.threadMap, h₂.resolved.trans h₁.resolved, h₂.cleaned.trans h₁.cleaned,
    h₂.lost.trans h₁.lost, h₂.answers.trans h₁.answers⟩

theorem Extends.of_same (hsessions : h'.sessions = h.sessions) (hobjects : h'.objects = h.objects)
    (hnext : h'.nextSession = h.nextSession) (hmap : h'.threadMap = h.threadMap)
    (hremovals : h'.removals = h.removals) : Extends h h' := by
  have hcount : ∀ userId, h'.removalsOf userId = h.removalsOf userId := by
    intro userId
    rw [SessionHost.removalsOf, hremovals, SessionHost.removalsOf]
  refine ⟨hnext.ge, fun s _ => ?_, fun userId => (hcount userId).ge, ?_, ?_⟩
  · rw [hobjects]
    exact ⟨rfl, List.Subset.refl _⟩
  · intro userId s hs _
    rw [hsessions]
    exact hs
  · rintro key s thread ⟨hs, hm, hmem⟩ _
    rw [SessionHost.StandsIn, hsessions, hmap, hobjects]
    exact ⟨hs, hm, hmem⟩

theorem extends_modify (s : SessionId) {f : SharedSession → SharedSession}
    (hf : ∀ o, (f o).userId = o.userId ∧ o.threads ⊆ (f o).threads) : Extends h (h.modify s f) := by
  have hobjects : ∀ s', ((h.modify s f).objects s').userId = (h.objects s').userId ∧
      (h.objects s').threads ⊆ ((h.modify s f).objects s').threads := by
    intro s'
    by_cases hs : s' = s
    · subst hs
      simpa [SessionHost.modify] using hf (h.objects s')
    · simp [SessionHost.modify, hs]
  refine ⟨Nat.le_refl _, fun s' _ => hobjects s', fun _ => Nat.le_refl _, fun _ _ hs _ => hs, ?_⟩
  rintro key s' thread ⟨hs, hm, hmem⟩ _
  exact ⟨hs, hm, (hobjects s').2 hmem⟩

theorem extends_addThread (s : SessionId) (thread : Uuid) : Extends h (h.addThread s thread) := by
  refine extends_modify s fun o => ⟨rfl, ?_⟩
  show o.threads ⊆ if thread ∈ o.threads then o.threads else thread :: o.threads
  split_ifs
  · exact List.Subset.refl _
  · exact List.subset_cons_self _ _

theorem mem_addThread (s : SessionId) (thread : Uuid) :
    thread ∈ ((h.addThread s thread).objects s).threads := by
  simp only [SessionHost.addThread, SessionHost.modify, Function.update_self]
  split_ifs with hmem
  · exact hmem
  · exact mem_cons_self

theorem extends_insert (hkept : Kept h) (hnone : h.sessions.lookup userId = none)
    (hcreated : h.nextSession ≤ h'.nextSession)
    (hsessions : h'.sessions = h.sessions.insert userId s)
    (hobjects : ∀ s < h.nextSession, h'.objects s = h.objects s) (hmap : h'.threadMap = h.threadMap)
    (hremovals : h'.removals = h.removals) : Extends h h' := by
  have hlookup : ∀ userId' s', h.sessions.lookup userId' = some s' →
      h'.sessions.lookup userId' = some s' := by
    intro userId' s' hs'
    rw [hsessions, HashMap.lookup_insert, if_neg, hs']
    rintro rfl
    rw [hnone] at hs'
    cases hs'
  refine ⟨hcreated, fun s' hs' => ?_, fun _ => ?_,
    fun userId' s' hs' _ => hlookup userId' s' hs', ?_⟩
  · rw [hobjects s' hs']
    exact ⟨rfl, List.Subset.refl _⟩
  · rw [SessionHost.removalsOf, SessionHost.removalsOf, hremovals]
  · rintro key s' thread ⟨hs', hm, hmem⟩ _
    refine ⟨hlookup key.userId s' hs', ?_, ?_⟩
    · rw [hmap]
      exact hm
    · rw [hobjects s' (hkept.sessions _ _ hs').1]
      exact hmem

variable {key : ThreadKey} {thread : Uuid}

theorem extends_storeKey (s : SessionId) (hfree : ∀ other, h.StandsFor key other → other = thread) :
    Extends h (h.storeKey key thread s) := by
  refine ⟨Nat.le_refl _, fun _ _ => ⟨rfl, List.Subset.refl _⟩, fun _ => Nat.le_refl _,
    fun _ _ hs _ => hs, ?_⟩
  rintro key' s' thread' hstands _
  obtain ⟨hs', ⟨m, hm, hthread⟩, hmem⟩ := hstands
  refine ⟨hs', ?_, hmem⟩
  rw [SessionHost.storeKey, HashMap.lookup_insert]
  split_ifs with hkey
  · subst hkey
    exact ⟨_, rfl, (hfree thread' ⟨s', hs', ⟨m, hm, hthread⟩, hmem⟩).symm⟩
  · exact ⟨m, hm, hthread⟩

variable (cutoff : Time)

theorem removalsOf_removeSession (userId userId' : Text) :
    (h.removeSession cutoff userId).removalsOf userId' = h.removalsOf userId' +
      if userId' = userId ∧ (h.sessions.lookup userId).isSome then 1 else 0 := by
  rw [SessionHost.removeSession]
  split
  · next hnone => simp [hnone]
  · next s hs =>
    by_cases huser : userId' = userId
    · simp [SessionHost.removalsOf, hs, huser]
    · simp [SessionHost.removalsOf, huser, Ne.symm huser]

theorem extends_removeSession (userId : Text) : Extends h (h.removeSession cutoff userId) := by
  have hlookup : ∀ userId' s', h.sessions.lookup userId' = some s' →
      (h.removeSession cutoff userId).removalsOf userId' = h.removalsOf userId' →
      (h.removeSession cutoff userId).sessions.lookup userId' = some s' := by
    intro userId' s' hs' heq
    rw [removalsOf_removeSession] at heq
    have hne : userId' ≠ userId := by
      rintro rfl
      simp [hs'] at heq
    rw [SessionHost.removeSession]
    split
    · exact hs'
    · rw [HashMap.lookup_erase, if_neg hne, hs']
  have hobjects : (h.removeSession cutoff userId).objects = h.objects ∧
      (h.removeSession cutoff userId).nextSession = h.nextSession ∧
      (h.removeSession cutoff userId).threadMap = h.threadMap := by
    rw [SessionHost.removeSession]
    split <;> exact ⟨rfl, rfl, rfl⟩
  refine ⟨hobjects.2.1.ge, fun s _ => ?_, fun userId' => ?_, hlookup, ?_⟩
  · rw [hobjects.1]
    exact ⟨rfl, List.Subset.refl _⟩
  · rw [removalsOf_removeSession]
    exact Nat.le_add_right _ _
  · rintro key s thread ⟨hs, hm, hmem⟩ heq
    refine ⟨hlookup key.userId s hs heq, ?_, ?_⟩
    · rw [hobjects.2.2]
      exact hm
    · rw [hobjects.1]
      exact hmem

theorem extends_removeSessions (users : List Text) : Extends h (h.removeSessions cutoff users) := by
  induction users generalizing h with
  | nil => exact .of_same rfl rfl rfl rfl rfl
  | cons userId users ih => exact (extends_removeSession cutoff userId).trans ih

variable {users : List Text}

theorem extends_forgetNames (removed : List SessionId)
    (hclean : ∀ key : ThreadKey, key.userId ∈ users → ∀ thread, ¬ h.StandsFor key thread) :
    Extends h (h.forgetNames users removed) := by
  refine ⟨Nat.le_refl _, fun _ _ => ⟨rfl, List.Subset.refl _⟩, fun _ => Nat.le_refl _,
    fun _ _ hs _ => hs, ?_⟩
  rintro key s thread ⟨hs, ⟨m, hm, hthread⟩, hmem⟩ _
  refine ⟨hs, ⟨m, ?_, hthread⟩, hmem⟩
  have hkept : key.userId ∉ users := fun huser =>
    hclean key huser thread ⟨s, hs, ⟨m, hm, hthread⟩, hmem⟩
  simp [SessionHost.forgetNames, HashMap.lookup_retain, hm, hkept]

theorem Kept.extend (hkept : Kept h) (hext : Extends h h')
    (hsessions : ∀ userId s, h'.sessions.lookup userId = some s →
      h.sessions.lookup userId = some s ∨ h'.Owned userId s)
    (hnames : ∀ key m, h'.threadMap.lookup key = some m →
      h.threadMap.lookup key = some m ∨ h'.Owned key.userId m.session)
    (hanswers : ∀ x ∈ h'.answers, x ∈ h.answers ∨ x.askedIn ≤ x.answeredIn ∧
      x.answeredIn ≤ h'.removalsOf x.key.userId ∧
      (x.Within (h'.removalsOf x.key.userId) → h'.StandsIn x.key x.session x.thread)) :
    Kept h' where
  sessions := by
    intro userId s hs
    rcases hsessions userId s hs with hold | hnew
    · exact (hkept.sessions userId s hold).extend hext
    · exact hnew
  names := by
    intro key m hm
    rcases hnames key m hm with hold | hnew
    · exact (hkept.names key m hold).extend hext
    · exact hnew
  answers := by
    intro x hx
    rcases hanswers x hx with hold | hnew
    · obtain ⟨hasked, hanswered, hstands⟩ := hkept.answers x hold
      refine ⟨hasked, hanswered.trans (hext.removals _), fun hwithin => ?_⟩
      have hbefore := removalsOf_eq_of_extends hext hanswered hwithin.2.symm
      refine hext.names _ _ _ (hstands ⟨?_, hbefore.symm⟩) ?_
      · rw [hbefore, ← hwithin.2] at *
        exact hwithin.1
      · rw [hbefore]
        exact hwithin.2.symm
    · exact hnew

theorem stable_of_kept (hkept : Kept h')
    (hold : ∀ x ∈ h.answers, ∀ y ∈ h.answers, ∀ n, x.key = y.key → x.Within n → y.Within n →
      x.session = y.session ∧ x.thread = y.thread)
    (hnew : ∀ x ∈ h'.answers, x ∈ h.answers ∨ x.answeredIn = h'.removalsOf x.key.userId) :
    ∀ x ∈ h'.answers, ∀ y ∈ h'.answers, ∀ n, x.key = y.key → x.Within n → y.Within n →
      x.session = y.session ∧ x.thread = y.thread := by
  intro x hx y hy n hkey hxn hyn
  have hcurrent : n = h'.removalsOf x.key.userId → x.session = y.session ∧ x.thread = y.thread := by
    rintro rfl
    obtain ⟨hs, ⟨m, hm, hthread⟩, -⟩ := (hkept.answers x hx).2.2 hxn
    rw [hkey] at hs hm hyn
    obtain ⟨hs', ⟨m', hm', hthread'⟩, -⟩ := (hkept.answers y hy).2.2 hyn
    rw [hm] at hm'
    cases hm'
    exact ⟨Option.some.inj (hs.symm.trans hs'), hthread.symm.trans hthread'⟩
  rcases hnew x hx with hxold | hxnew
  · rcases hnew y hy with hyold | hynew
    · exact hold x hxold y hyold n hkey hxn hyn
    · exact hcurrent (by rw [hkey, ← hynew, hyn.2])
  · exact hcurrent (by rw [← hxnew, hxn.2])

variable {ts : List SessionTask} {event : SessionTurn}

theorem hostStep_of_goNext (hgo : SessionTask.goNext uuids h t = some (h', ts)) :
    HostStep uuids h t h' := by
  cases t with
  | gettingSession c =>
    simp only [SessionTask.goNext] at hgo
    split at hgo <;> cases hgo <;> exact .idle _ _
  | creatingSession c =>
    simp only [SessionTask.goNext] at hgo
    split_ifs at hgo
    cases hgo
    exact .created c
  | lookingUp c s =>
    obtain ⟨rfl, -⟩ := Prod.ext_iff.mp (Option.some.inj hgo)
    unfold SessionTask.lookUp
    split
    · next m hm =>
      obtain ⟨hm, hmem⟩ := Option.filter_eq_some_iff.mp hm
      exact .answered c s m hm (by simpa using hmem)
    · dsimp only
      generalize (if c.externalThreadId.isSome then _ else none : Option Uuid) = adoptable
      cases adoptable <;> exact .idle _ _
  | adopting c s id =>
    simp only [SessionTask.goNext] at hgo
    split_ifs at hgo with hmapped <;> cases hgo
    · exact .idle _ _
    · exact .resolved _ _ _ _ (by simp [SessionTask.stores, hmapped])
  | creating c s safeExtUuid =>
    cases safeExtUuid with
    | none => cases hgo
    | some id =>
      cases hgo
      exact .grown c s id
  | storing c s id => cases hgo; exact .resolved _ _ _ _ rfl
  | registering userId channel id s => cases hgo; exact .registered _ _ _ _ rfl
  | ensuringUndo c s id => cases hgo; exact .adopted c s id
  | installingUndo c s id => cases hgo; exact .installed c s id
  | registeringUndo userId id s => cases hgo; exact .ensured _ id
  | addingUndo id => cases hgo; exact .ensured _ id
  | tracking userId s =>
    simp only [SessionTask.goNext] at hgo
    split_ifs at hgo
    cases hgo
    exact .tracked userId s
  | scanning cutoff rest stale => cases rest <;> cases hgo <;> exact .idle _ _
  | collecting cutoff stale rest threads => cases rest <;> cases hgo <;> exact .idle _ _
  | removing cutoff stale threads =>
    simp only [SessionTask.goNext] at hgo
    split_ifs at hgo
    cases hgo
    exact .removed cutoff stale threads
  | cleaning stale threads removed => cases hgo; exact .forgotten stale threads removed
  | dropping threads => cases hgo; exact .dropped threads
  | _ => cases hgo; exact .idle _ _

theorem next_cases (hnext : SessionTask.next uuids event h t = some (h', ts)) :
    (event = .go ∧ SessionTask.goNext uuids h t = some (h', ts)) ∨
    (h' = h ∧ ∃ u, ts = [u] ∧ ∀ g, u.Knows g) ∨
    ∃ c s id, t = .creating c s none ∧ h' = h.addThread s id ∧ ts = [.storing c s id] := by
  unfold SessionTask.next at hnext
  split at hnext
  · exact .inl ⟨rfl, hnext⟩
  · cases hnext
    exact .inr (.inl ⟨rfl, _, rfl, fun _ => trivial⟩)
  · cases hnext
    exact .inr (.inl ⟨rfl, _, rfl, fun _ => trivial⟩)
  · split_ifs at hnext
    cases hnext
    exact .inr (.inr ⟨_, _, _, rfl, rfl, rfl⟩)
  · cases hnext

variable {id : Uuid}

theorem owned_of_stores (hknows : t.Knows h) {resolves : Bool}
    (ht : t.stores uuids h = some (key, id, s, resolves)) : h.Owned key.userId s := by
  cases t with
  | adopting c s id =>
    simp only [SessionTask.stores] at ht
    split_ifs at ht
    cases ht
    exact hknows.2.1.owned
  | storing c s id =>
    cases ht
    exact hknows.2.1.owned
  | registering userId channel id s =>
    cases ht
    exact hknows
  | _ => cases ht

theorem extends_createSession (hkept : Kept h) (userId : Text) :
    Extends h (h.createSession userId).1 := by
  rw [SessionHost.createSession]
  split
  · exact .of_same rfl rfl rfl rfl rfl
  · next hnone =>
    refine extends_insert hkept hnone (Nat.le_succ _) rfl (fun s hs => ?_) rfl rfl
    exact Function.update_of_ne (Nat.ne_of_lt hs) _ _

theorem extends_trackSession (hkept : Kept h) (userId : Text) (s : SessionId) :
    Extends h (h.trackSession userId s) := by
  rw [SessionHost.trackSession]
  split
  · exact .of_same rfl rfl rfl rfl rfl
  · next hnone => exact extends_insert hkept hnone (Nat.le_refl _) rfl (fun _ _ => rfl) rfl rfl

theorem extends_createThreadWithId (s : SessionId) (id : Uuid) :
    Extends h (h.createThreadWithId s id) := by
  rw [SessionHost.createThreadWithId]
  split_ifs
  · exact .of_same rfl rfl rfl rfl rfl
  · exact extends_addThread s id

theorem ensureUndo_same (id : Uuid) : SameNames h (h.ensureUndo id) ∧
    (h.ensureUndo id).sessions = h.sessions ∧ (h.ensureUndo id).objects = h.objects ∧
    (h.ensureUndo id).nextSession = h.nextSession ∧ (h.ensureUndo id).removals = h.removals := by
  rw [SessionHost.ensureUndo]
  split <;> exact ⟨⟨rfl, rfl, rfl, rfl, rfl⟩, rfl, rfl, rfl, rfl⟩

theorem extends_ensureUndo (id : Uuid) : Extends h (h.ensureUndo id) := by
  obtain ⟨hsame, hs, ho, hn, hr⟩ := ensureUndo_same (h := h) id
  exact .of_same hs ho hn hsame.threadMap hr

theorem extends_of_hostStep (hkept : Kept h) (horderly : t.Orderly uuids h)
    (hstep : HostStep uuids h t h') : Extends h h' := by
  cases hstep with
  | idle => exact .of_same rfl rfl rfl rfl rfl
  | created c => exact extends_createSession hkept c.userId
  | answered c s m hm hmem => exact .of_same rfl rfl rfl rfl rfl
  | resolved _ key id s ht =>
    exact (extends_storeKey s (horderly.store key id s true ht).free).trans
      (.of_same rfl rfl rfl rfl rfl)
  | registered _ key id s ht => exact extends_storeKey s (horderly.store key id s false ht).free
  | ensured _ id => exact extends_ensureUndo id
  | adopted c s id => exact (extends_ensureUndo id).trans (.of_same rfl rfl rfl rfl rfl)
  | grown c s id => exact extends_createThreadWithId s id
  | installed c s id => exact .of_same rfl rfl rfl rfl rfl
  | tracked userId s => exact extends_trackSession hkept userId s
  | removed cutoff stale threads => exact extends_removeSessions cutoff stale
  | forgotten stale threads removed =>
    exact extends_forgetNames removed (horderly.clean stale threads removed rfl)
  | dropped threads => exact .of_same rfl rfl rfl rfl rfl

theorem lookup_removeSession {cutoff : Time} {userId userId' : Text}
    (hs : (h.removeSession cutoff userId).sessions.lookup userId' = some s) :
    h.sessions.lookup userId' = some s := by
  rw [SessionHost.removeSession] at hs
  split at hs
  · exact hs
  · rw [HashMap.lookup_erase] at hs
    split_ifs at hs
    exact hs

theorem removeSession_same (userId : Text) : SameNames h (h.removeSession cutoff userId) ∧
      (h.removeSession cutoff userId).objects = h.objects := by
  rw [SessionHost.removeSession]
  split <;> exact ⟨⟨rfl, rfl, rfl, rfl, rfl⟩, rfl⟩

theorem removeSessions_same (users : List Text) : SameNames h (h.removeSessions cutoff users) ∧
    ∀ userId s, (h.removeSessions cutoff users).sessions.lookup userId = some s →
      h.sessions.lookup userId = some s := by
  induction users generalizing h with
  | nil => exact ⟨⟨rfl, rfl, rfl, rfl, rfl⟩, fun _ _ hs => hs⟩
  | cons userId users ih =>
    obtain ⟨hfirst, -⟩ := removeSession_same (h := h) cutoff userId
    obtain ⟨hrest, hs⟩ := ih (h := h.removeSession cutoff userId)
    exact ⟨hfirst.trans hrest, fun userId' s hl => lookup_removeSession (hs userId' s hl)⟩

theorem idle_of_removeSessions {cutoff : Time}
    (hidle : ∀ userId ∈ users, ∀ s, h.sessions.lookup userId = some s →
      (h.objects s).lastActiveAt < cutoff) (hold : ∀ r ∈ h.removals, r.lastActiveAt < r.cutoff) :
    ∀ r ∈ (h.removeSessions cutoff users).removals, r.lastActiveAt < r.cutoff := by
  induction users generalizing h with
  | nil => exact hold
  | cons userId users ih =>
    refine ih (h := h.removeSession cutoff userId) (fun userId' hmem s hs => ?_) fun r hr => ?_
    · rw [(removeSession_same cutoff userId).2]
      exact hidle userId' (List.mem_cons_of_mem _ hmem) s (lookup_removeSession hs)
    · rw [SessionHost.removeSession] at hr
      split at hr
      · exact hold r hr
      · next s hs =>
        rcases mem_cons.mp hr with rfl | hr
        · exact hidle userId mem_cons_self s hs
        · exact hold r hr

theorem lookup_createSession (userId : Text) :
    (h.createSession userId).1.sessions.lookup userId = some (h.createSession userId).2 := by
  rw [SessionHost.createSession]
  split
  · next s hs => exact hs
  · rw [HashMap.lookup_insert, if_pos rfl]

theorem owned_createSession {userId userId' : Text}
    (hs : (h.createSession userId).1.sessions.lookup userId' = some s) :
    h.sessions.lookup userId' = some s ∨ (h.createSession userId).1.Owned userId' s := by
  unfold SessionHost.createSession at hs ⊢
  split at hs
  · exact .inl hs
  · next hnone =>
    rw [HashMap.lookup_insert] at hs
    split_ifs at hs with huser
    · cases hs
      simp [SessionHost.Owned, huser]
    · exact .inl hs

theorem createSession_same (userId : Text) :
    SameNames h (h.createSession userId).1 ∧ (h.createSession userId).1.removals = h.removals := by
  rw [SessionHost.createSession]
  split <;> exact ⟨⟨rfl, rfl, rfl, rfl, rfl⟩, rfl⟩

theorem trackSession_same (userId : Text) (s : SessionId) :
    SameNames h (h.trackSession userId s) ∧ (h.trackSession userId s).removals = h.removals := by
  rw [SessionHost.trackSession]
  split <;> exact ⟨⟨rfl, rfl, rfl, rfl, rfl⟩, rfl⟩

theorem createThreadWithId_same (s : SessionId) (id : Uuid) :
    SameNames h (h.createThreadWithId s id) ∧ (h.createThreadWithId s id).sessions = h.sessions ∧
    (h.createThreadWithId s id).removals = h.removals := by
  rw [SessionHost.createThreadWithId]
  split_ifs <;> exact ⟨⟨rfl, rfl, rfl, rfl, rfl⟩, rfl, rfl⟩

theorem mem_createThreadWithId (s : SessionId) (id : Uuid) :
    id ∈ ((h.createThreadWithId s id).objects s).threads := by
  rw [SessionHost.createThreadWithId]
  split_ifs with hmem
  · exact hmem
  · exact mem_addThread s id

theorem Kept.of_sameNames (hkept : Kept h) (hext : Extends h h') (hsame : SameNames h h')
    (hsessions : ∀ userId s, h'.sessions.lookup userId = some s →
      h.sessions.lookup userId = some s ∨ h'.Owned userId s) : Kept h' := by
  refine hkept.extend hext hsessions (fun key m hm => .inl ?_) fun x hx => .inl ?_
  · rw [← hsame.threadMap]
    exact hm
  · rw [← hsame.answers]
    exact hx

theorem kept_storeKey (hkept : Kept h) (howned : h.Owned key.userId s)
    (hext : Extends h (h.storeKey key id s)) : Kept (h.storeKey key id s) := by
  refine hkept.extend hext (fun _ _ => .inl) (fun key' m hm => ?_) fun _ => .inl
  rw [SessionHost.storeKey, HashMap.lookup_insert] at hm
  split_ifs at hm with hkey
  · cases hm
    subst hkey
    exact .inr (howned.extend hext)
  · exact .inl hm

theorem kept_answer (hkept : Kept h) (hasked : c.askedIn ≤ h.removalsOf c.userId)
    (hstands : h.removalsOf c.userId = c.askedIn → h.StandsIn c.key s thread) :
    Kept (h.answer c s thread) := by
  refine hkept.extend (.of_same rfl rfl rfl rfl rfl) (fun _ _ => .inl) (fun _ _ => .inl) ?_
  intro x hx
  rcases mem_cons.mp hx with rfl | hx
  · exact .inr ⟨hasked, Nat.le_refl _, fun hwithin => hstands hwithin.1.symm⟩
  · exact .inl hx

theorem kept_ensureUndo (hkept : Kept h) (id : Uuid) : Kept (h.ensureUndo id) := by
  obtain ⟨hsame, hs, -⟩ := ensureUndo_same (h := h) id
  refine hkept.of_sameNames (extends_ensureUndo id) hsame fun userId s hl => .inl ?_
  rw [← hs]
  exact hl

theorem kept_trackSession (hkept : Kept h) (howned : h.Owned userId s) :
    Kept (h.trackSession userId s) := by
  have hext := extends_trackSession hkept userId s
  refine hkept.of_sameNames hext (trackSession_same userId s).1 fun userId' s' hs => ?_
  unfold SessionHost.trackSession at hs
  split at hs
  · exact .inl hs
  · rw [HashMap.lookup_insert] at hs
    split_ifs at hs with huser
    · cases hs
      subst huser
      exact .inr (howned.extend hext)
    · exact .inl hs

theorem kept_of_hostStep (hkept : Kept h) (hknows : t.Knows h) (horderly : t.Orderly uuids h)
    (hstep : HostStep uuids h t h') : Kept h' := by
  have hext := extends_of_hostStep hkept horderly hstep
  cases hstep with
  | idle => exact hkept.of_sameNames hext ⟨rfl, rfl, rfl, rfl, rfl⟩ fun _ _ => .inl
  | created c =>
    exact hkept.of_sameNames hext (createSession_same c.userId).1 fun _ _ => owned_createSession
  | answered c s m hm hmem =>
    exact kept_answer hkept hknows.1 fun hc => ⟨hknows.2.current hc, ⟨m, hm, rfl⟩, hmem⟩
  | resolved _ key id s ht =>
    have hstore := extends_storeKey s (horderly.store key id s true ht).free
    have hstored := kept_storeKey hkept (owned_of_stores hknows ht) hstore
    exact hstored.extend (.of_same rfl rfl rfl rfl rfl) (fun _ _ => .inl) (fun _ _ => .inl)
      fun _ => .inl
  | registered _ key id s ht => exact kept_storeKey hkept (owned_of_stores hknows ht) hext
  | ensured _ id => exact kept_ensureUndo hkept id
  | adopted c s id =>
    have hknows' := hknows.extend (extends_ensureUndo id)
    exact kept_answer (kept_ensureUndo hkept id) hknows'.1 hknows'.2.2
  | grown c s id =>
    obtain ⟨hsame, hs, -⟩ := createThreadWithId_same (h := h) s id
    refine hkept.of_sameNames hext hsame fun userId s' hl => .inl ?_
    rw [← hs]
    exact hl
  | installed c s id =>
    have hext' : Extends h (h.installUndo id) := .of_same rfl rfl rfl rfl rfl
    have hinstalled : Kept (h.installUndo id) :=
      hkept.extend hext' (fun _ _ => .inl) (fun _ _ => .inl) fun _ => .inl
    exact kept_answer hinstalled hknows.1 hknows.2.2
  | tracked userId s => exact kept_trackSession hkept hknows
  | removed cutoff stale threads =>
    obtain ⟨hsame, hs⟩ := removeSessions_same (h := h) cutoff stale
    exact hkept.of_sameNames hext hsame fun userId s hl => .inl (hs userId s hl)
  | forgotten stale threads removed =>
    refine hkept.extend hext (fun _ _ => .inl) (fun key m hm => .inl ?_) fun _ => .inl
    rw [SessionHost.forgetNames, HashMap.lookup_retain] at hm
    exact (Option.filter_eq_some_iff.mp hm).1
  | dropped threads => exact hkept.extend hext (fun _ _ => .inl) (fun _ _ => .inl) fun _ => .inl

theorem SessionHost.Got.standsIn (hgot : h.Got c s) (hmem : id ∈ (h.objects s).threads)
    (hc : h.removalsOf c.userId = c.askedIn) : (h.storeKey c.key id s).StandsIn c.key s id := by
  refine ⟨hgot.current hc, ⟨⟨id, s⟩, ?_, rfl⟩, hmem⟩
  rw [SessionHost.storeKey, HashMap.lookup_insert, if_pos rfl]

theorem knows_of_goNext (hkept : Kept h) (hkept' : Kept h') (hext : Extends h h')
    (hknows : t.Knows h) (hgo : SessionTask.goNext uuids h t = some (h', ts)) :
    ∀ u ∈ ts, u.Knows h' := by
  have hknows' := hknows.extend hext
  -- no task becomes more than one
  suffices hone : ts = [] ∨ ∃ u, ts = [u] ∧ u.Knows h' by
    rcases hone with rfl | ⟨u, rfl, hu⟩
    · simp
    · simpa using hu
  cases t with
  | gettingSession c =>
    simp only [SessionTask.goNext] at hgo
    split at hgo
    · next s hs =>
      cases hgo
      exact .inr ⟨_, rfl, hknows, hkept.sessions _ _ hs, fun _ => hs⟩
    · cases hgo
      exact .inr ⟨_, rfl, hknows⟩
  | creatingSession c =>
    simp only [SessionTask.goNext] at hgo
    split_ifs at hgo
    cases hgo
    have hs := lookup_createSession (h := h) c.userId
    exact .inr ⟨_, rfl, hknows', hkept'.sessions _ _ hs, fun _ => hs⟩
  | lookingUp c s =>
    obtain ⟨rfl, rfl⟩ := Prod.ext_iff.mp (Option.some.inj hgo)
    unfold SessionTask.lookUp at hknows' ⊢
    split
    · exact .inl rfl
    · dsimp only
      generalize (if c.externalThreadId.isSome then _ else none : Option Uuid) = adoptable
      cases adoptable <;> exact .inr ⟨_, rfl, hknows⟩
  | adoptChecking c s id =>
    cases hgo
    refine .inr ⟨_, rfl, ?_⟩
    split_ifs with hmem
    · exact ⟨hknows.1, hknows.2, hmem⟩
    · exact hknows
  | adopting c s id =>
    simp only [SessionTask.goNext] at hgo
    split_ifs at hgo
    · cases hgo
      exact .inr ⟨_, rfl, hknows.1, hknows.2.1⟩
    · cases hgo
      refine .inr ⟨_, rfl, hknows'.1, hknows'.2.1, fun hc => ?_⟩
      exact hknows.2.1.standsIn hknows.2.2 hc
  | choosing c s => cases hgo; exact .inr ⟨_, rfl, hknows⟩
  | creating c s safeExtUuid =>
    cases safeExtUuid with
    | none => cases hgo
    | some id =>
      cases hgo
      exact .inr ⟨_, rfl, hknows'.1, hknows'.2, mem_createThreadWithId s id⟩
  | storing c s id =>
    cases hgo
    refine .inr ⟨_, rfl, hknows'.1, hknows'.2.1, fun hc => ?_⟩
    exact hknows.2.1.standsIn hknows.2.2 hc
  | registering userId channel id s => cases hgo; exact .inr ⟨_, rfl, hknows'⟩
  | registeringUndo userId id s => cases hgo; exact .inr ⟨_, rfl, hknows'⟩
  | ensuringUndo c s id => cases hgo; exact .inl rfl
  | installingUndo c s id => cases hgo; exact .inl rfl
  | tracking userId s =>
    simp only [SessionTask.goNext] at hgo
    split_ifs at hgo
    cases hgo
    exact .inl rfl
  | findingUndo id =>
    cases hgo
    split_ifs
    · exact .inl rfl
    · exact .inr ⟨_, rfl, trivial⟩
  | addingUndo id => cases hgo; exact .inl rfl
  | pruning cutoff => cases hgo; exact .inr ⟨_, rfl, trivial⟩
  | scanning cutoff rest stale =>
    cases rest with
    | nil =>
      cases hgo
      split_ifs
      · exact .inl rfl
      · exact .inr ⟨_, rfl, trivial⟩
    | cons e rest => cases hgo; exact .inr ⟨_, rfl, trivial⟩
  | rescanning cutoff stale => cases hgo; exact .inr ⟨_, rfl, trivial⟩
  | collecting cutoff stale rest threads =>
    cases rest <;> cases hgo <;> exact .inr ⟨_, rfl, trivial⟩
  | removing cutoff stale threads =>
    simp only [SessionTask.goNext] at hgo
    split_ifs at hgo
    cases hgo
    refine .inr ⟨_, rfl, fun s hs => ?_⟩
    obtain ⟨userId, hstale, hl⟩ := List.mem_filterMap.mp hs
    exact ⟨userId, hstale, (hkept.sessions _ _ hl).extend hext⟩
  | cleaning stale threads removed => cases hgo; exact .inr ⟨_, rfl, trivial⟩
  | dropping threads => cases hgo; exact .inl rfl

theorem Sound.of_sameNames (hsound : Sound h) (hkept' : Kept h') (hsame : SameNames h h')
    (hidle : ∀ r ∈ h'.removals, r.lastActiveAt < r.cutoff) : Sound h' where
  stable := by
    refine stable_of_kept hkept' hsound.stable fun x hx => .inl ?_
    rw [← hsame.answers]
    exact hx
  injective := by
    rw [hsame.resolved, hsame.threadMap]
    exact hsound.injective
  kept := hsame.lost.trans hsound.kept
  idle := hidle
  clean := by
    rw [hsame.threadMap, hsame.cleaned]
    exact hsound.clean

theorem sound_storeKey (hsound : Sound h) (hkept' : Kept (h.storeKey key id s)) {resolves : Bool}
    (hmay : MayStore h key id s resolves) : Sound (h.storeKey key id s) where
  stable := stable_of_kept hkept' hsound.stable fun _ => .inl
  injective := by
    intro key₁ hk₁ key₂ hk₂ hne m₁ m₂ hm₁ hm₂
    rw [SessionHost.storeKey, HashMap.lookup_insert] at hm₁ hm₂
    split_ifs at hm₁ hm₂ with h₁ h₂ h₂
    · exact absurd (h₁.trans h₂.symm) hne
    · cases hm₁
      subst h₁
      exact (hmay.unshared (.inr hk₁) key₂ hk₂ (Ne.symm hne) m₂ hm₂).symm
    · cases hm₂
      subst h₂
      exact hmay.unshared (.inr hk₂) key₁ hk₁ hne m₁ hm₁
    · exact hsound.injective key₁ hk₁ key₂ hk₂ hne m₁ m₂ hm₁ hm₂
  kept := hsound.kept
  idle := hsound.idle
  clean := by
    intro key' m hm
    rw [SessionHost.storeKey, HashMap.lookup_insert] at hm
    split_ifs at hm
    · cases hm
      exact hmay.present
    · exact hsound.clean key' m hm

theorem sound_noteResolved (hsound : Sound h) (hm : h.threadMap.lookup key = some ⟨id, s⟩)
    (hunshared : ∀ other ∈ h.resolved, other ≠ key →
      ∀ m, h.threadMap.lookup other = some m → m.thread ≠ id) :
    Sound (h.noteResolved key) where
  stable := hsound.stable
  injective := by
    intro key₁ hk₁ key₂ hk₂ hne m₁ m₂ hm₁ hm₂
    rcases mem_cons.mp hk₁ with rfl | hold₁
    · rcases mem_cons.mp hk₂ with rfl | hold₂
      · exact absurd rfl hne
      · rw [Option.some.inj (hm₁.symm.trans hm)]
        exact (hunshared key₂ hold₂ (Ne.symm hne) m₂ hm₂).symm
    · rcases mem_cons.mp hk₂ with rfl | hold₂
      · rw [Option.some.inj (hm₂.symm.trans hm)]
        exact hunshared key₁ hold₁ hne m₁ hm₁
      · exact hsound.injective key₁ hold₁ key₂ hold₂ hne m₁ m₂ hm₁ hm₂
  kept := hsound.kept
  idle := hsound.idle
  clean := hsound.clean

theorem sound_answer (hsound : Sound h) (c : ResolveCall) (hkept' : Kept (h.answer c s thread)) :
    Sound (h.answer c s thread) where
  stable := by
    refine stable_of_kept hkept' hsound.stable fun x hx => ?_
    rcases mem_cons.mp hx with rfl | hx
    · exact .inr rfl
    · exact .inl hx
  injective := hsound.injective
  kept := hsound.kept
  idle := hsound.idle
  clean := hsound.clean

theorem sound_forgetNames (hsound : Sound h) (hkept : Kept h) {removed : List SessionId}
    (hkept' : Kept (h.forgetNames users removed))
    (howned : ∀ s ∈ removed, ∃ userId ∈ users, h.Owned userId s) :
    Sound (h.forgetNames users removed) := by
  have hsame : ∀ key m, (h.forgetNames users removed).threadMap.lookup key = some m →
      h.threadMap.lookup key = some m ∧ key.userId ∉ users := by
    intro key m hm
    rw [SessionHost.forgetNames, HashMap.lookup_retain] at hm
    obtain ⟨hm, huser⟩ := Option.filter_eq_some_iff.mp hm
    exact ⟨hm, by simpa using huser⟩
  refine ⟨stable_of_kept hkept' hsound.stable fun _ => .inl, ?_, hsound.kept, hsound.idle, ?_⟩
  · intro key₁ hk₁ key₂ hk₂ hne m₁ m₂ hm₁ hm₂
    exact hsound.injective key₁ hk₁ key₂ hk₂ hne m₁ m₂ (hsame key₁ m₁ hm₁).1 (hsame key₂ m₂ hm₂).1
  · intro key m hm hcleaned
    obtain ⟨hm, huser⟩ := hsame key m hm
    rcases mem_append.mp hcleaned with hremoved | hcleaned
    · -- a removed session belongs to a user whose names are all gone
      obtain ⟨userId, hmem, -, hown⟩ := howned m.session hremoved
      rw [(hkept.names key m hm).2] at hown
      exact huser (hown ▸ hmem)
    · exact hsound.clean key m hm hcleaned

theorem sound_of_hostStep (hsound : Sound h) (hkept : Kept h) (hknows : t.Knows h)
    (horderly : t.Orderly uuids h) (hstep : HostStep uuids h t h') : Sound h' := by
  have hkept' := kept_of_hostStep hkept hknows horderly hstep
  cases hstep with
  | idle => exact hsound.of_sameNames hkept' ⟨rfl, rfl, rfl, rfl, rfl⟩ hsound.idle
  | created c =>
    obtain ⟨hsame, hremovals⟩ := createSession_same (h := h) c.userId
    exact hsound.of_sameNames hkept' hsame (hremovals ▸ hsound.idle)
  | answered c s m hm hmem => exact sound_answer hsound c hkept'
  | resolved _ key id s ht =>
    have hmay := horderly.store key id s true ht
    have hstored := kept_storeKey hkept (owned_of_stores hknows ht) (extends_storeKey s hmay.free)
    have hm : (h.storeKey key id s).threadMap.lookup key = some ⟨id, s⟩ := by
      rw [SessionHost.storeKey, HashMap.lookup_insert, if_pos rfl]
    have hsound' := sound_storeKey hsound hstored hmay
    refine sound_noteResolved hsound' hm fun other hother hne m hm => ?_
    · rw [SessionHost.storeKey, HashMap.lookup_insert, if_neg hne] at hm
      exact hmay.unshared (.inl rfl) other hother hne m hm
  | registered _ key id s ht =>
    exact sound_storeKey hsound hkept' (horderly.store key id s false ht)
  | ensured _ id =>
    obtain ⟨hsame, -, -, -, hremovals⟩ := ensureUndo_same (h := h) id
    exact hsound.of_sameNames hkept' hsame (hremovals ▸ hsound.idle)
  | adopted c s id =>
    obtain ⟨hsame, -, -, -, hremovals⟩ := ensureUndo_same (h := h) id
    have hensured := hsound.of_sameNames (kept_ensureUndo hkept id) hsame (hremovals ▸ hsound.idle)
    exact sound_answer hensured c hkept'
  | grown c s id =>
    obtain ⟨hsame, -, hremovals⟩ := createThreadWithId_same (h := h) s id
    exact hsound.of_sameNames hkept' hsame (hremovals ▸ hsound.idle)
  | installed c s id =>
    have hinstalled : Sound (h.installUndo id) := by
      refine ⟨hsound.stable, hsound.injective, ?_, hsound.idle, hsound.clean⟩
      simp [SessionHost.installUndo, horderly.install c s id rfl, hsound.kept]
    exact sound_answer hinstalled c hkept'
  | tracked userId s =>
    obtain ⟨hsame, hremovals⟩ := trackSession_same (h := h) userId s
    exact hsound.of_sameNames hkept' hsame (hremovals ▸ hsound.idle)
  | removed cutoff stale threads =>
    have hidle := idle_of_removeSessions (horderly.remove cutoff stale threads rfl) hsound.idle
    exact hsound.of_sameNames hkept' (removeSessions_same cutoff stale).1 hidle
  | forgotten stale threads removed => exact sound_forgetNames hsound hkept hkept' hknows
  | dropped threads =>
    refine ⟨hsound.stable, hsound.injective, ?_, hsound.idle, hsound.clean⟩
    have hnone : threads.filter h.hasLiveUndo = [] := by
      rw [List.filter_eq_nil_iff]
      intro thread hmem
      simp [horderly.drop threads rfl thread hmem]
    simp [SessionHost.dropUndo, hnone, hsound.kept]

end Frames

structure Steady (p : SessionPool) : Prop where
  kept : Kept p.shared
  knows : ∀ t ∈ p.tasks, t.Knows p.shared
  sound : Sound p.shared

section Runs

variable {uuids : UuidText} {p p' : SessionPool}

theorem steady_start : Steady ⟨.start, []⟩ := by
  refine ⟨⟨?_, ?_, ?_⟩, ?_, ⟨?_, ?_, ?_, ?_, ?_⟩⟩ <;> simp [SessionHost.start]

theorem Steady.start (hp : Steady p) {t : SessionTask} (ht : t.Knows p.shared) :
    Steady (p.start t) := by
  refine ⟨hp.kept, fun u hu => ?_, hp.sound⟩
  rcases mem_append.mp hu with hu | hu
  · exact hp.knows u hu
  · rwa [List.mem_singleton.mp hu]

theorem Steady.change (hp : Steady p) {h' : SessionHost} (hext : Extends p.shared h')
    (hsame : SameNames p.shared h') (hsessions : h'.sessions = p.shared.sessions)
    (hremovals : h'.removals = p.shared.removals) : Steady { p with shared := h' } := by
  have hkept : Kept h' := hp.kept.of_sameNames hext hsame fun _ _ hs => .inl (hsessions ▸ hs)
  exact ⟨hkept, fun t ht => (hp.knows t ht).extend hext,
    hp.sound.of_sameNames hkept hsame (hremovals ▸ hp.sound.idle)⟩

theorem Steady.replace {front ts back : List SessionTask} {t : SessionTask} {h' : SessionHost}
    (hp : Steady p) (htasks : p.tasks = front ++ t :: back) (hext : Extends p.shared h')
    (hkept : Kept h') (hts : ∀ u ∈ ts, u.Knows h') (hsound : Sound h') :
    Steady ⟨h', front ++ ts ++ back⟩ := by
  refine ⟨hkept, fun u hu => ?_, hsound⟩
  rcases mem_append.mp hu with hu | hback
  · rcases mem_append.mp hu with hfront | hnew
    · exact (hp.knows u (by simp [htasks, hfront])).extend hext
    · exact hts u hnew
  · exact (hp.knows u (by simp [htasks, hback])).extend hext

theorem steady_advance {i : Nat} {event : SessionTurn} (hp : Steady p)
    (horderly : Orderly uuids p (.advance i event))
    (hstep : p.advance (SessionTask.next uuids) i event = some p') : Steady p' := by
  obtain ⟨front, t, back, h', ts, htasks, rfl, hnext, rfl⟩ := Pool.advance_eq_some_iff.mp hstep
  have hknows := hp.knows t (by simp [htasks])
  rcases next_cases hnext with ⟨rfl, hgo⟩ | ⟨rfl, u, rfl, hu⟩ | ⟨c, s, id, rfl, rfl, rfl⟩
  · have horder := horderly front.length t rfl (by simp [htasks])
    have hhost := hostStep_of_goNext hgo
    have hext := extends_of_hostStep hp.kept horder hhost
    have hkept := kept_of_hostStep hp.kept hknows horder hhost
    exact hp.replace htasks hext hkept (knows_of_goNext hp.kept hkept hext hknows hgo)
      (sound_of_hostStep hp.sound hp.kept hknows horder hhost)
  · refine hp.replace htasks (.of_same rfl rfl rfl rfl rfl) hp.kept ?_ hp.sound
    simp [hu]
  · have hext := extends_addThread (h := p.shared) s id
    have hsame : SameNames p.shared (p.shared.addThread s id) := ⟨rfl, rfl, rfl, rfl, rfl⟩
    have hchanged := hp.change hext hsame rfl rfl
    refine hp.replace htasks hext hchanged.kept ?_ hchanged.sound
    have hknows' := hknows.extend hext
    simpa using ⟨hknows'.1, hknows'.2, mem_addThread s id⟩

theorem steady_poolStep (a : SessionAction) (hp : Steady p) (horderly : Orderly uuids p a)
    (hstep : poolStep uuids p a = some p') : Steady p' := by
  cases a with
  | resolveThread userId channel externalThreadId parsedUuid =>
    cases hstep
    exact hp.start (Nat.le_refl _)
  | registerThread userId channel thread s =>
    simp only [poolStep] at hstep
    split_ifs at hstep with howned
    cases hstep
    exact hp.start howned
  | getUndoManager thread =>
    cases hstep
    exact hp.start trivial
  | pruneStaleSessions maxIdle =>
    cases hstep
    exact hp.start trivial
  | touch s =>
    cases hstep
    refine hp.change (extends_modify s fun o => ?_) ⟨rfl, rfl, rfl, rfl, rfl⟩ rfl rfl
    exact ⟨rfl, List.Subset.refl _⟩
  | addThread s thread =>
    cases hstep
    exact hp.change (extends_addThread s thread) ⟨rfl, rfl, rfl, rfl, rfl⟩ rfl rfl
  | clock now =>
    simp only [poolStep] at hstep
    split_ifs at hstep
    cases hstep
    exact hp.change (.of_same rfl rfl rfl rfl rfl) ⟨rfl, rfl, rfl, rfl, rfl⟩ rfl rfl
  | advance i event => exact steady_advance hp horderly hstep

end Runs

def sampleUuids : UuidText where
  render id := "00000000-0000-4000-8000-".toList ++ List.replicate id '1'
  parse text :=
    let id := text.length - 24
    if text = "00000000-0000-4000-8000-".toList ++ List.replicate id '1' then some id else none
  parse_render id := by simp

def chatMessage : SessionAction :=
  .resolveThread "user1".toList "telegram".toList (some "tg-42".toList) none

def uuidMessage (channel : Text) : SessionAction :=
  .resolveThread "user1".toList channel (some (sampleUuids.render 12)) none

def firstMessage : List SessionAction :=
  [chatMessage, .advance 0 .go, .advance 0 .go, .advance 0 .go, .advance 0 .go,
    .advance 0 (.fresh 12), .advance 0 .go, .advance 0 .go]

def findIdle : List SessionAction :=
  [.clock 100, .pruneStaleSessions 10, .advance 0 .go, .advance 0 .go, .advance 0 .go,
    .advance 0 .go, .advance 0 .go, .advance 0 .go]

def removeIdle : List SessionAction := [.advance 0 .go, .advance 0 .go, .advance 0 .go]

def messagesThenPrune : List SessionAction :=
  firstMessage ++ [chatMessage, .advance 0 .go, .advance 0 .go] ++ findIdle ++ removeIdle

/-- Two first messages of a chat. Both are looked up before either is stored. -/
def twoFirstMessages : List SessionAction :=
  [chatMessage, chatMessage, .advance 0 .go, .advance 0 .go, .advance 1 .go,
    .advance 0 .go, .advance 1 .go, .advance 0 .go, .advance 1 .go,
    .advance 0 (.fresh 12), .advance 1 (.fresh 13), .advance 0 .go, .advance 1 .go,
    .advance 0 .go, .advance 0 .go]

/-- Two channels name one UUID. Both look it up before either stores its name. -/
def twoChannels : List SessionAction :=
  [uuidMessage "gateway".toList, uuidMessage "repl".toList,
    .advance 0 .go, .advance 0 .go, .advance 1 .go, .advance 0 .go, .advance 1 .go,
    .advance 0 .go, .advance 1 .go, .advance 0 .go, .advance 1 .go,
    .advance 0 .go, .advance 1 .go, .advance 0 .go, .advance 1 .go, .advance 0 .go, .advance 0 .go]

def usedMeanwhile : List SessionAction :=
  firstMessage ++ findIdle ++ [.touch 0] ++ removeIdle

theorem orderly_of_ne_go {a : SessionAction} {p : SessionPool} (h : ∀ i, a ≠ .advance i .go) :
    Orderly sampleUuids p a :=
  fun i _ heq _ => absurd heq (h i)

theorem orderly_of_task {i : Nat} {p : SessionPool} {t : SessionTask} (ht : p.tasks[i]? = some t)
    (horderly : t.Orderly sampleUuids p.shared) : Orderly sampleUuids p (.advance i .go) := by
  rintro _ t' ⟨⟩ ht'
  rw [ht] at ht'
  cases ht'
  exact horderly

end IronClaw.Sessions
