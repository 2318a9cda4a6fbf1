import IronClaw.Foundation.Interleaving
import IronClaw.Foundation.Lru
import IronClaw.Llm.CacheKey

/-!
# The response cache

A request is looked up under the lock. If there is no entry, the provider inside is asked without
it, and its answer stored: expired entries go, then the ones least recently used, and the new entry
dates from when the call began. Calls take turns at these points.
-/

namespace IronClaw.Llm.ResponseCache

open Foundation

abbrev Instant := Nat

structure ResponseCacheConfig where
  ttl : Nat
  maxEntries : Nat

structure Answer (V R : Type) where
  query : CacheQuery V
  response : R
  answeredAt : Instant

structure CacheEntry (V R : Type) where
  response : Answer V R
  createdAt : Instant
  lastAccessed : Instant

structure Serving (V R : Type) where
  query : CacheQuery V
  response : Answer V R
  servedAt : Instant

/-- The cache, with logs of what the provider inside answered and of what was served. -/
structure CachedProvider (V R κ : Type) where
  clock : Instant
  cache : HashMap κ (CacheEntry V R)
  answered : List (Answer V R)
  served : List (Serving V R)

/-- A call that waits for the provider inside, or for the lock to store what that answered. -/
structure PendingCall (V R : Type) where
  query : CacheQuery V
  now : Instant
  result : Option (Answer V R)

section Operations

variable {V R κ : Type} [DecidableEq κ] (config : ResponseCacheConfig) (key : CacheQuery V → κ)

def CacheEntry.isFresh (now : Instant) (e : CacheEntry V R) : Bool :=
  decide (now - e.createdAt < config.ttl)

/-- Serve a call from the cache, or leave it. -/
def lookupEntry (q : CacheQuery V) (s : CachedProvider V R κ) :
    CachedProvider V R κ × List (PendingCall V R) :=
  match s.cache.lookup (key q) with
  | some e =>
    if e.isFresh config s.clock then
      ({ s with
          cache := HashMap.adjust s.cache (key q) fun e => { e with lastAccessed := s.clock }
          served := s.served ++ [⟨q, e.response, s.clock⟩] }, [])
    else ({ s with cache := s.cache.erase (key q) }, [⟨q, s.clock, none⟩])
  | none => (s, [⟨q, s.clock, none⟩])

def storeAnswer (q : CacheQuery V) (now : Instant) (a : Answer V R)
    (s : CachedProvider V R κ) : CachedProvider V R κ :=
  let cache := HashMap.retain s.cache fun _ e => e.isFresh config now
  let cache := HashMap.evict (fun e => e.lastAccessed) config.maxEntries cache
  { s with cache := cache.insert (key q) ⟨a, now, now⟩ }

inductive CallEvent (R : Type) where
  | answer (response : R)
  /-- It fails, and so does the call. -/
  | fail
  | store

def nextCall : CallEvent R → CachedProvider V R κ → PendingCall V R →
    Option (CachedProvider V R κ × List (PendingCall V R))
  | .answer response, s, ⟨q, now, none⟩ =>
    let a : Answer V R := ⟨q, response, s.clock⟩
    some ({ s with answered := s.answered ++ [a] }, [⟨q, now, some a⟩])
  | .fail, s, ⟨_, _, none⟩ => some (s, [])
  | .store, s, ⟨q, now, some a⟩ => some (storeAnswer config key q now a s, [])
  | _, _, _ => none

inductive CacheAction (V R : Type) where
  | wait (time : Nat)
  | complete (q : CacheQuery V)
  | proceed (i : Nat) (event : CallEvent R)
  | clear

def cacheStep (p : Pool (CachedProvider V R κ) (PendingCall V R)) :
    CacheAction V R → Option (Pool (CachedProvider V R κ) (PendingCall V R))
  | .wait time => some { p with shared := { p.shared with clock := p.shared.clock + time } }
  | .complete q =>
    let r := lookupEntry config key q p.shared
    some ⟨r.1, p.tasks ++ r.2⟩
  | .proceed i event => p.advance (nextCall config key) i event
  | .clear => some { p with shared := { p.shared with cache := ∅ } }

def cacheStart (clock : Instant) : Pool (CachedProvider V R κ) (PendingCall V R) :=
  ⟨⟨clock, ∅, [], []⟩, []⟩

end Operations

section Transparency

variable {V R κ : Type} [DecidableEq κ] (config : ResponseCacheConfig) (key : CacheQuery V → κ)

structure Serving.Right (s : CachedProvider V R κ) (v : Serving V R) : Prop where
  answered : v.response ∈ s.answered
  query : v.response.query = v.query
  before : v.response.answeredAt ≤ v.servedAt
  within : v.servedAt - v.response.answeredAt < config.ttl

/-- Everything served from the cache is right, and the cache is not too large. -/
def Transparent (p : Pool (CachedProvider V R κ) (PendingCall V R)) : Prop :=
  (∀ v ∈ p.shared.served, v.Right config p.shared) ∧ HashMap.size p.shared.cache ≤ config.maxEntries

/-- A call does not find the fresh entry of a confusable request, and what is stored may be. -/
def FitStep (writeValue : V → Bytes) (p : Pool (CachedProvider V R κ) (PendingCall V R)) :
    CacheAction V R → Prop
  | .complete q => ∀ e, p.shared.cache.lookup (key q) = some e →
      e.isFresh config p.shared.clock = true → ¬ Confusable writeValue e.response.query q
  | .proceed _ .store => config.maxEntries ≠ 0
  | _ => True

end Transparency

section Invariant

variable {V R κ : Type} [DecidableEq κ] {config : ResponseCacheConfig} {key : CacheQuery V → κ}
  {s s' : CachedProvider V R κ} {p p' : Pool (CachedProvider V R κ) (PendingCall V R)}

def AnsweredSince (s : CachedProvider V R κ) (since : Instant) (a : Answer V R) : Prop :=
  a ∈ s.answered ∧ since ≤ a.answeredAt ∧ a.answeredAt ≤ s.clock

/-- Entries stand under the keys of requests that they answered, since calls began. -/
def CacheInv (key : CacheQuery V → κ) (s : CachedProvider V R κ) : Prop :=
  ∀ k e, s.cache.lookup k = some e →
    key e.response.query = k ∧ AnsweredSince s e.createdAt e.response

def CallInv (s : CachedProvider V R κ) (c : PendingCall V R) : Prop :=
  c.now ≤ s.clock ∧ ∀ a, c.result = some a → a.query = c.query ∧ AnsweredSince s c.now a

/-- The clock does not go back, and no answer is forgotten. -/
structure Later (s s' : CachedProvider V R κ) : Prop where
  clock : s.clock ≤ s'.clock
  answered : ∀ a ∈ s.answered, a ∈ s'.answered

theorem AnsweredSince.later {since : Instant} {a : Answer V R} (h : AnsweredSince s since a)
    (hlater : Later s s') : AnsweredSince s' since a :=
  ⟨hlater.answered a h.1, h.2.1, h.2.2.trans hlater.clock⟩

variable {c : PendingCall V R}

theorem CallInv.later (h : CallInv s c) (hlater : Later s s') : CallInv s' c :=
  ⟨h.1.trans hlater.clock, fun a ha => ⟨(h.2 a ha).1, (h.2 a ha).2.later hlater⟩⟩

theorem CacheInv.later (h : CacheInv key s) (hlater : Later s s')
    (hcache : ∀ k e, s'.cache.lookup k = some e → s.cache.lookup k = some e) :
    CacheInv key s' := fun k e he =>
  ⟨(h k e (hcache k e he)).1, (h k e (hcache k e he)).2.later hlater⟩

theorem lookupEntry_cases (config : ResponseCacheConfig) (key : CacheQuery V → κ)
    (q : CacheQuery V) (s : CachedProvider V R κ) :
    (∃ e, s.cache.lookup (key q) = some e ∧ e.isFresh config s.clock = true ∧
      lookupEntry config key q s = ({ s with
        cache := HashMap.adjust s.cache (key q) fun e => { e with lastAccessed := s.clock }
        served := s.served ++ [⟨q, e.response, s.clock⟩] }, [])) ∨
    (∀ e, s.cache.lookup (key q) = some e → e.isFresh config s.clock = false) ∧
      ∃ cache : HashMap κ (CacheEntry V R),
        (∀ k e, cache.lookup k = some e → s.cache.lookup k = some e) ∧
        HashMap.size cache ≤ HashMap.size s.cache ∧
        lookupEntry config key q s = ({ s with cache := cache }, [⟨q, s.clock, none⟩]) := by
  rw [lookupEntry]
  cases hlookup : s.cache.lookup (key q) with
  | none =>
    exact .inr ⟨fun _ he => absurd he (Option.some_ne_none _).symm, s.cache, fun _ _ h => h,
      le_rfl, rfl⟩
  | some e =>
    by_cases hfresh : e.isFresh config s.clock = true
    · exact .inl ⟨e, rfl, hfresh, if_pos hfresh⟩
    · refine .inr ⟨fun e' he' => ?_, s.cache.erase (key q), fun k e' he' => ?_,
        HashMap.size_erase_le _ _, if_neg hfresh⟩
      · cases he'
        simpa using hfresh
      · rw [HashMap.lookup_erase] at he'
        split_ifs at he'
        exact he'

theorem cacheInv_lookupEntry (h : CacheInv key s) (q : CacheQuery V) :
    CacheInv key (lookupEntry config key q s).1 := by
  rcases lookupEntry_cases config key q s with
    ⟨e, he, -, heq⟩ | ⟨-, cache, hcache, -, heq⟩
  · rw [heq]
    intro k e' he'
    simp only [HashMap.lookup_adjust] at he'
    split_ifs at he' with hk
    · rw [hk, he] at he'
      cases he'
      rw [hk]
      exact h (key q) e he
    · exact h k e' he'
  · rw [heq]
    exact fun k e he => h k e (hcache k e he)

variable (q : CacheQuery V)

theorem later_lookupEntry : Later s (lookupEntry config key q s).1 := by
  rcases lookupEntry_cases config key q s with ⟨e, -, -, heq⟩ | ⟨-, cache, -, -, heq⟩ <;> rw [heq]
  · exact ⟨le_rfl, fun _ ha => ha⟩
  · exact ⟨le_rfl, fun _ ha => ha⟩

theorem callInv_lookupEntry :
    ∀ c ∈ (lookupEntry config key q s).2, CallInv (lookupEntry config key q s).1 c := by
  rcases lookupEntry_cases config key q s with ⟨e, -, -, heq⟩ | ⟨-, cache, -, -, heq⟩ <;> rw [heq]
  · exact fun c hc => absurd hc List.not_mem_nil
  · intro c hc
    rw [List.mem_singleton.mp hc]
    exact ⟨le_rfl, fun a ha => absurd ha (Option.some_ne_none a).symm⟩

theorem cacheInv_storeAnswer (h : CacheInv key s) {q : CacheQuery V} {now : Instant}
    {a : Answer V R} (hquery : a.query = q) (hsince : AnsweredSince s now a) :
    CacheInv key (storeAnswer config key q now a s) := by
  intro k e he
  simp only [storeAnswer, HashMap.lookup_insert] at he
  split_ifs at he with hk
  · cases he
    exact ⟨by rw [hk, hquery], hsince⟩
  · have hretained := HashMap.lookup_of_lookup_evict he
    rw [HashMap.lookup_retain, Option.filter_eq_some_iff] at hretained
    exact h k e hretained.1

theorem size_storeAnswer_le_iff (now : Instant) (a : Answer V R) :
    HashMap.size (storeAnswer config key q now a s).cache ≤ config.maxEntries ↔
      config.maxEntries ≠ 0 := by
  constructor
  · intro hle hzero
    rw [hzero] at hle
    exact Nat.not_succ_le_zero _
      (Nat.le_trans (HashMap.size_insert_pos _ (key q) ⟨a, now, now⟩) hle)
  · intro hne
    refine Nat.le_trans (HashMap.size_insert_le _ _ _) ?_
    exact Nat.succ_le_of_lt (HashMap.size_evict_lt (Nat.pos_of_ne_zero hne) _)

def Known (key : CacheQuery V → κ) (p : Pool (CachedProvider V R κ) (PendingCall V R)) : Prop :=
  p.Holds (CacheInv key) CallInv fun _ _ => True

variable {event : CallEvent R} {cs : List (PendingCall V R)}

theorem later_nextCall (h : nextCall config key event s c = some (s', cs)) : Later s s' := by
  obtain ⟨q, now, _ | a⟩ := c <;> cases event <;> cases h
  · exact ⟨le_rfl, fun a ha => List.mem_append_left _ ha⟩
  · exact ⟨le_rfl, fun a ha => ha⟩
  · exact ⟨le_rfl, fun a ha => ha⟩

theorem cacheInv_nextCall (h : nextCall config key event s c = some (s', cs))
    (hcache : CacheInv key s) (hc : CallInv s c) : CacheInv key s' := by
  have hlater := later_nextCall h
  obtain ⟨q, now, _ | a⟩ := c <;> cases event <;> cases h
  · exact hcache.later hlater fun _ _ he => he
  · exact hcache
  · exact cacheInv_storeAnswer hcache (hc.2 a rfl).1 (hc.2 a rfl).2

theorem callInv_nextCall (h : nextCall config key event s c = some (s', cs)) (hc : CallInv s c) :
    ∀ c' ∈ cs, CallInv s' c' := by
  obtain ⟨q, now, _ | a⟩ := c <;> cases event <;> cases h
  · intro c' hc'
    rw [List.mem_singleton.mp hc']
    refine ⟨hc.1, fun a ha => ?_⟩
    cases ha
    exact ⟨rfl, List.mem_append_right _ (List.mem_singleton_self _), hc.1, le_rfl⟩
  · exact fun c' hc' => absurd hc' List.not_mem_nil
  · exact fun c' hc' => absurd hc' List.not_mem_nil

theorem known_cacheStep {a : CacheAction V R} (h : Known key p)
    (hs : cacheStep config key p a = some p') : Known key p' := by
  cases a with
  | wait time =>
    cases hs
    have hlater : Later p.shared { p.shared with clock := p.shared.clock + time } :=
      ⟨Nat.le_add_right _ _, fun _ ha => ha⟩
    exact ⟨h.shared.later hlater fun _ _ he => he, fun c hc => (h.tasks c hc).later hlater, h.apart⟩
  | complete q =>
    cases hs
    exact Pool.Holds.extend h (cacheInv_lookupEntry h.shared q)
      (fun _ _ hc => hc.later (later_lookupEntry q)) (callInv_lookupEntry q)
      (fun _ _ _ _ => trivial) (List.pairwise_of_forall_mem_list fun _ _ _ _ => trivial)
  | proceed i event =>
    obtain ⟨front, c, back, s', cs, htasks, rfl, hnext, rfl⟩ := Pool.advance_eq_some_iff.mp hs
    have hc : CallInv p.shared c := h.tasks c (by simp [htasks])
    exact Pool.Holds.replace h (fun _ _ _ => trivial) htasks (cacheInv_nextCall hnext h.shared hc)
      (callInv_nextCall hnext hc) (fun _ _ hu _ => hu.later (later_nextCall hnext))
      (fun _ _ _ _ _ => trivial) (List.pairwise_of_forall_mem_list fun _ _ _ _ => trivial)
  | clear =>
    cases hs
    exact ⟨fun _ _ he => absurd he (Option.some_ne_none _).symm, h.tasks, h.apart⟩

theorem known_cacheStart (clock : Instant) :
    Known key (cacheStart clock : Pool (CachedProvider V R κ) (PendingCall V R)) :=
  Pool.Holds.empty fun _ _ he => absurd he (Option.some_ne_none _).symm

omit [DecidableEq κ] in
theorem Serving.Right.later {v : Serving V R} (h : v.Right config s) (hlater : Later s s') :
    v.Right config s' :=
  ⟨hlater.answered _ h.answered, h.query, h.before, h.within⟩

theorem Transparent.of_quiet (h : Transparent config p) (hlater : Later p.shared p'.shared)
    (hserved : p'.shared.served = p.shared.served)
    (hsize : HashMap.size p'.shared.cache ≤ HashMap.size p.shared.cache) :
    Transparent config p' := by
  refine ⟨fun v hv => (h.1 v ?_).later hlater, hsize.trans h.2⟩
  rwa [← hserved]

omit [DecidableEq κ] in
theorem right_iff {q : CacheQuery V} {e : CacheEntry V R}
    (hsince : AnsweredSince s e.createdAt e.response) (hfresh : e.isFresh config s.clock = true) :
    Serving.Right config s ⟨q, e.response, s.clock⟩ ↔ e.response.query = q := by
  refine ⟨fun h => h.query, fun hquery => ⟨hsince.1, hquery, hsince.2.2, ?_⟩⟩
  have hage : s.clock - e.createdAt < config.ttl := of_decide_eq_true hfresh
  exact Nat.lt_of_le_of_lt (Nat.sub_le_sub_left hsince.2.1 s.clock) hage

theorem transparent_lookupEntry_iff {writeValue : V → Bytes}
    (htold : ∀ q q', (key q = key q' → q = q') ↔ ¬ Confusable writeValue q q')
    (hinv : CacheInv key p.shared) (h : Transparent config p) (q : CacheQuery V)
    {tasks : List (PendingCall V R)} :
    Transparent config ⟨(lookupEntry config key q p.shared).1, tasks⟩ ↔
      FitStep config key writeValue p (.complete q) := by
  rcases lookupEntry_cases config key q p.shared with
    ⟨e, he, hfresh, heq⟩ | ⟨hexpired, cache, -, hsize, heq⟩
  · obtain ⟨hkey, hsince⟩ := hinv (key q) e he
    -- the keys agree, so the requests are equal if they are not confusable
    have hequal : e.response.query = q ↔ ¬ Confusable writeValue e.response.query q := by
      rw [← htold]
      exact ⟨fun hq _ => hq, fun hq => hq hkey⟩
    rw [heq]
    constructor
    · intro htrans e' he' _
      rw [he] at he'
      cases he'
      have hright := htrans.1 ⟨q, e.response, p.shared.clock⟩
        (List.mem_append_right _ (List.mem_singleton_self _))
      exact hequal.mp hright.query
    · intro hfit
      have hquery : e.response.query = q := hequal.mpr (hfit e he hfresh)
      refine ⟨fun v hv => ?_, ?_⟩
      · rcases List.mem_append.mp hv with hv | hv
        · exact (h.1 v hv).later ⟨le_rfl, fun _ ha => ha⟩
        · rw [List.mem_singleton.mp hv]
          exact ((right_iff hsince hfresh).mpr hquery).later ⟨le_rfl, fun _ ha => ha⟩
      · simpa using h.2
  · rw [heq]
    refine ⟨fun _ e he hfresh => ?_, fun _ => h.of_quiet ⟨le_rfl, fun _ ha => ha⟩ rfl hsize⟩
    rw [hexpired e he] at hfresh
    cases hfresh

theorem transparent_cacheStep_iff {writeValue : V → Bytes}
    (htold : ∀ q q', (key q = key q' → q = q') ↔ ¬ Confusable writeValue q q')
    {a : CacheAction V R} (hknown : Known key p) (h : Transparent config p)
    (hs : cacheStep config key p a = some p') :
    Transparent config p' ↔ FitStep config key writeValue p a := by
  cases a with
  | wait time =>
    cases hs
    refine iff_of_true (h.of_quiet ⟨Nat.le_add_right _ _, fun _ ha => ha⟩ rfl le_rfl) ?_
    trivial
  | complete q =>
    cases hs
    exact transparent_lookupEntry_iff htold hknown.shared h q
  | proceed i event =>
    obtain ⟨front, c, back, s', cs, -, rfl, hnext, rfl⟩ := Pool.advance_eq_some_iff.mp hs
    have hlater := later_nextCall hnext
    obtain ⟨q, now, _ | a⟩ := c <;> cases event <;> cases hnext
    · exact iff_of_true (h.of_quiet hlater rfl le_rfl) trivial
    · exact iff_of_true (h.of_quiet hlater rfl le_rfl) trivial
    · refine ⟨fun htrans => (size_storeAnswer_le_iff q now a).mp htrans.2, fun hfit => ?_⟩
      exact ⟨fun v hv => (h.1 v hv).later hlater, (size_storeAnswer_le_iff q now a).mpr hfit⟩
  | clear =>
    cases hs
    refine iff_of_true (h.of_quiet ⟨le_rfl, fun _ ha => ha⟩ rfl (Nat.zero_le _)) ?_
    trivial

/-- **The response cache is transparent** exactly if no call finds a fresh entry of a confusable
request, and none stores what may not be. -/
theorem transparent_iff {writeValue : V → Bytes} {digest : Bytes → κ}
    (hvalue : ReadableBefore Json.EndsValue writeValue) (hdigest : Function.Injective digest) :
    (∀ q q' : CacheQuery V,
      (cacheKey writeValue digest q = cacheKey writeValue digest q' → q = q') ↔
        ¬ Confusable writeValue q q') ∧
    ∀ (config : ResponseCacheConfig) (clock : Instant) (as : List (CacheAction V R))
      (p : Pool (CachedProvider V R κ) (PendingCall V R)),
      run (cacheStep config (cacheKey writeValue digest)) (cacheStart clock) as = some p →
      (Throughout (cacheStep config (cacheKey writeValue digest)) (Transparent config)
          (cacheStart clock) as ↔ Along (cacheStep config (cacheKey writeValue digest))
          (FitStep config (cacheKey writeValue digest) writeValue) (cacheStart clock) as) := by
  have htold := toldApart_iff hvalue hdigest
  refine ⟨htold, fun config clock as p hrun => ?_⟩
  refine throughout_iff_along (fun _ _ _ hknown hs => known_cacheStep hknown hs)
    (fun _ _ _ hknown h hs => transparent_cacheStep_iff htold hknown h hs)
    (known_cacheStart clock) ?_ hrun
  exact ⟨fun v hv => absurd hv List.not_mem_nil, Nat.zero_le _⟩

end Invariant

def writeBool (b : Bool) : Bytes := if b then ascii "true" else ascii "false"

theorem readableBefore_writeBool : ReadableBefore Json.EndsValue writeBool := by
  have hclash : Clash (ascii "true") (ascii "false") := by decide +kernel
  rintro (_ | _) (_ | _) s t - - heq
  · exact ⟨rfl, List.append_cancel_left heq⟩
  · exact absurd heq.symm (hclash.append_ne t s)
  · exact absurd heq (hclash.append_ne s t)
  · exact ⟨rfl, List.append_cancel_left heq⟩

def plainKey : CacheQuery Bool → Bytes := cacheKey writeBool id

def stopQuery (stops : Option (List String)) : CacheQuery Bool :=
  ⟨ascii "m", [⟨.user, ascii "hello", [], none, none, none⟩], none, none,
    stops.map fun stops => stops.map ascii⟩

def repeatedCalls (q q' : CacheQuery Bool) : List (CacheAction Bool Nat) :=
  [.complete q, .proceed 0 (.answer 7), .wait 5, .proceed 0 .store, .complete q']

def FindsOwn (p : Pool (CachedProvider Bool Nat Bytes) (PendingCall Bool Nat)) :
    CacheAction Bool Nat → Prop
  | .complete q => ∀ e ∈ p.shared.cache.lookup (plainKey q), e.response.query = q
  | _ => True

instance (p : Pool (CachedProvider Bool Nat Bytes) (PendingCall Bool Nat))
    (a : CacheAction Bool Nat) : Decidable (FindsOwn p a) :=
  match a with
  | .complete _ => inferInstanceAs (Decidable (∀ _ ∈ _, _))
  | .wait _ | .proceed .. | .clear => inferInstanceAs (Decidable True)

theorem transparent_repeatedCalls :
    (run (cacheStep ⟨60, 1⟩ plainKey) (cacheStart 0)
        (repeatedCalls (stopQuery none) (stopQuery none))).map
      (fun p => p.shared.served.map fun v => v.response.response) = some [7] ∧
    Throughout (cacheStep ⟨60, 1⟩ plainKey) (Transparent ⟨60, 1⟩) (cacheStart 0)
      (repeatedCalls (stopQuery none) (stopQuery none)) := by
  have htransparent := transparent_iff (R := Nat) readableBefore_writeBool Function.injective_id
  have hserved : (run (cacheStep ⟨60, 1⟩ plainKey) (cacheStart 0)
      (repeatedCalls (stopQuery none) (stopQuery none))).map
        (fun p => p.shared.served.map fun v => v.response.response) = some [7] := by
    decide +kernel
  obtain ⟨p, hrun, -⟩ := Option.map_eq_some_iff.mp hserved
  refine ⟨hserved, (htransparent.2 ⟨60, 1⟩ 0 _ p hrun).mpr ?_⟩
  have hown : Along (cacheStep ⟨60, 1⟩ plainKey) FindsOwn (cacheStart 0)
      (repeatedCalls (stopQuery none) (stopQuery none)) := by decide +kernel
  refine hown.mono fun p a hfinds => ?_
  cases a with
  | complete q =>
    intro e he _
    rw [hfinds e he]
    exact (htransparent.1 q q).mp fun _ => rfl
  | proceed i event => cases event <;> simp [FitStep]
  | wait time => trivial
  | clear => trivial

/-- Different requests with one key: in stop sequences, a token limit, and a model name. -/
def confusedPairs : List (CacheQuery Bool × CacheQuery Bool) :=
  [(stopQuery none, stopQuery (some [])),
    (stopQuery (some ["a\x00b"]), stopQuery (some ["a", "b"])),
    (stopQuery (some ["ab||x"]),
      ⟨ascii "m", (stopQuery none).request.messages, some 1650556028, none, some [ascii "x"]⟩),
    (⟨ascii "m", [], none, none, some [ascii "x|[]|||"]⟩,
      ⟨ascii "m|[]|||x", [], none, none, some [[]]⟩)]

/-- The key does not tell these requests apart, and a cache for no entries has one. -/
theorem responseCache_not_transparent :
    (∀ q ∈ confusedPairs, plainKey q.1 = plainKey q.2 ∧ q.1 ≠ q.2) ∧
    (∀ q ∈ confusedPairs, ¬ Throughout (cacheStep ⟨60, 10⟩ plainKey) (Transparent ⟨60, 10⟩)
      (cacheStart 0) (repeatedCalls q.1 q.2)) ∧
    ¬ Throughout (cacheStep ⟨60, 0⟩ plainKey) (Transparent ⟨60, 0⟩) (cacheStart 0)
      (repeatedCalls (stopQuery none) (stopQuery none)) := by
  refine ⟨by decide +kernel, fun q hq h => ?_, fun h => ?_⟩
  · have hserved : ∀ q ∈ confusedPairs, (run (cacheStep ⟨60, 10⟩ plainKey) (cacheStart 0)
        (repeatedCalls q.1 q.2)).map (fun p => p.shared.served.all fun v =>
          decide (v.response.query = v.query)) = some false := by decide +kernel
    obtain ⟨p, hrun, hwrong⟩ := Option.map_eq_some_iff.mp (hserved q hq)
    obtain ⟨hright, -⟩ := h _ List.prefix_rfl p hrun
    rw [List.all_eq_false] at hwrong
    obtain ⟨v, hv, hne⟩ := hwrong
    exact hne (decide_eq_true (hright v hv).query)
  · have hsize : (run (cacheStep ⟨60, 0⟩ plainKey) (cacheStart 0)
        (repeatedCalls (stopQuery none) (stopQuery none))).map (fun p =>
          HashMap.size p.shared.cache) = some 1 := by decide +kernel
    obtain ⟨p, hrun, hone⟩ := Option.map_eq_some_iff.mp hsize
    obtain ⟨-, hle⟩ := h _ List.prefix_rfl p hrun
    rw [hone] at hle
    exact absurd hle (by decide)

end IronClaw.Llm.ResponseCache
