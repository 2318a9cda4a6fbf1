import IronClaw.Foundation.Interleaving
import IronClaw.Foundation.JsonText
import IronClaw.Foundation.LruCache

/-!
# The embedding cache

A provider with a cache looks texts up under the lock. Those not there are sent to the provider
inside, without the lock, and what that answers is stored. A batch is split by places. Calls take
turns at these points.
-/

namespace IronClaw.Memory.Embedding

open Foundation
open List (length_cons map_cons map_drop mem_append mem_cons mem_singleton)

abbrev CallId := Nat

inductive EmbeddingError where
  | httpError (reason : String)
  | invalidResponse (reason : String)
  | rateLimited (retryAfter : Option Nat)
  | authFailed
  | textTooLong (length max : Nat)
deriving DecidableEq

structure EmbeddingCacheConfig where
  maxEntries : Nat

/-- The provider inside: its model, and the embeddings of texts that have one. -/
structure Provider (V : Type) where
  modelName : Bytes
  embed : Bytes → Option V

structure Stored (V : Type) where
  embedding : V
  storedBy : CallId

structure Returned (V : Type) where
  call : CallId
  texts : List Bytes
  result : Except EmbeddingError (List V)

structure CachedEmbeddingProvider (V κ : Type) where
  cache : LruCache κ (Stored V)
  nextCall : CallId
  returned : List (Returned V)

/-- A call that waits for the provider inside, or for the lock to store what that answered. -/
inductive Pending (V : Type) where
  | embed (call : CallId) (text : Bytes)
  | embedStore (call : CallId) (text : Bytes) (embedding : V)
  | batch (call : CallId) (texts : List Bytes) (results : List (Option V))
      (missIndices : List Nat)
  | batchStore (call : CallId) (texts : List Bytes) (results : List (Option V))
      (missIndices : List Nat) (newEmbeddings : List V)

def Pending.call {V : Type} : Pending V → CallId
  | embed call _ => call
  | embedStore call _ _ => call
  | batch call _ _ _ => call
  | batchStore call _ _ _ _ => call

section Operations

variable {V κ : Type} [DecidableEq κ] (digest : Bytes → κ) (inner : Provider V)

def cacheKey (text : Bytes) : κ := digest (inner.modelName ++ 0 :: text)

def Provider.Answers (texts : List Bytes) (values : List V) : Prop :=
  values.length = texts.length → values.map some = texts.map inner.embed

instance [DecidableEq V] (texts : List Bytes) (values : List V) :
    Decidable (inner.Answers texts values) :=
  inferInstanceAs (Decidable (_ → _))

def CachedEmbeddingProvider.return (s : CachedEmbeddingProvider V κ) (call : CallId)
    (texts : List Bytes) (result : Except EmbeddingError (List V)) : CachedEmbeddingProvider V κ :=
  { s with returned := s.returned ++ [⟨call, texts, result⟩] }

def CachedEmbeddingProvider.enter (s : CachedEmbeddingProvider V κ)
    (cache : LruCache κ (Stored V)) : CachedEmbeddingProvider V κ :=
  { s with cache := cache, nextCall := s.nextCall + 1 }

def beginEmbed (text : Bytes) (s : CachedEmbeddingProvider V κ) :
    CachedEmbeddingProvider V κ × List (Pending V) :=
  match s.cache.get (cacheKey digest inner text) with
  | some (e, cache) => ((s.enter cache).return s.nextCall [text] (.ok [e.embedding]), [])
  | none => (s.enter s.cache, [.embed s.nextCall text])

def storeOne (call : CallId) (text : Bytes) (embedding : V) (cache : LruCache κ (Stored V)) :
    LruCache κ (Stored V) :=
  match cache.get (cacheKey digest inner text) with
  | some (_, cache) => cache
  | none => cache.push (cacheKey digest inner text) ⟨embedding, call⟩

/-- Look up keys from the given place on: the slots, the places of misses, and the cache. -/
def probeFrom : Nat → List κ → LruCache κ (Stored V) →
    List (Option V) × List Nat × LruCache κ (Stored V)
  | _, [], cache => ([], [], cache)
  | i, key :: keys, cache =>
    match cache.get key with
    | some (e, cache) =>
      let r := probeFrom (i + 1) keys cache
      (some e.embedding :: r.1, r.2.1, r.2.2)
    | none =>
      let r := probeFrom (i + 1) keys cache
      (none :: r.1, i :: r.2.1, r.2.2)

def textsAt (texts : List Bytes) (indices : List Nat) : List Bytes :=
  indices.filterMap fun i => texts[i]?

def storeAt (call : CallId) (texts : List Bytes) (cache : LruCache κ (Stored V))
    (p : Nat × V) : LruCache κ (Stored V) :=
  match texts[p.1]? with
  | some text => cache.push (cacheKey digest inner text) ⟨p.2, call⟩
  | none => cache

/-- Store the last embeddings, no more than the cache can take. -/
def storeNew (call : CallId) (texts : List Bytes) (missIndices : List Nat) (newEmbeddings : List V)
    (cache : LruCache κ (Stored V)) : LruCache κ (Stored V) :=
  let skip := missIndices.length - cache.cap
  ((missIndices.drop skip).zip (newEmbeddings.drop skip)).foldl (storeAt digest inner call texts)
    cache

def fill (results : List (Option V)) (pairs : List (Nat × V)) : List (Option V) :=
  pairs.foldl (fun results p => results.set p.1 (some p.2)) results

def slotResult (i : Nat) : Option V → Except EmbeddingError V
  | some v => .ok v
  | none => .error (.invalidResponse ("embedding slot " ++ toString i ++ " was not populated"))

/-- The embeddings in all slots, the first of which has the given place. -/
def collectFrom : Nat → List (Option V) → Except EmbeddingError (List V)
  | _, [] => .ok []
  | i, slot :: slots => do
    let v ← slotResult i slot
    let vs ← collectFrom (i + 1) slots
    .ok (v :: vs)

/-- Begin `embed_batch`: return what is cached if that is all, or ask for the rest. -/
def beginBatch (texts : List Bytes) (s : CachedEmbeddingProvider V κ) :
    CachedEmbeddingProvider V κ × List (Pending V) :=
  if texts.isEmpty then ((s.enter s.cache).return s.nextCall texts (.ok []), [])
  else
    let (results, missIndices, cache) :=
      probeFrom 0 (texts.map (cacheKey digest inner)) s.cache
    if missIndices.isEmpty then
      ((s.enter cache).return s.nextCall texts (collectFrom 0 results), [])
    else (s.enter cache, [.batch s.nextCall texts results missIndices])

def wrongCount (returned expected : Nat) : EmbeddingError :=
  .invalidResponse ("embed_batch returned " ++ toString returned ++ " embeddings, expected " ++
    toString expected)

inductive CallEvent (V : Type) where
  | answer (values : List V)
  | fail (e : EmbeddingError)
  | store

def nextCall [DecidableEq V] : CallEvent V → CachedEmbeddingProvider V κ → Pending V →
    Option (CachedEmbeddingProvider V κ × List (Pending V))
  | .answer [v], s, .embed call text =>
    if inner.Answers [text] [v] then some (s, [.embedStore call text v]) else none
  | .fail e, s, .embed call text => some (s.return call [text] (.error e), [])
  | .store, s, .embedStore call text v =>
    some ({ s with cache := storeOne digest inner call text v s.cache }.return call [text]
      (.ok [v]), [])
  | .answer values, s, .batch call texts results missIndices =>
    if inner.Answers (textsAt texts missIndices) values then
      if values.length ≠ missIndices.length then
        some (s.return call texts (.error (wrongCount values.length missIndices.length)), [])
      else some (s, [.batchStore call texts results missIndices values])
    else none
  | .fail e, s, .batch call texts _ _ => some (s.return call texts (.error e), [])
  | .store, s, .batchStore call texts results missIndices values =>
    some ({ s with cache := storeNew digest inner call texts missIndices values s.cache }.return
      call texts (collectFrom 0 (fill results (missIndices.zip values))), [])
  | _, _, _ => none

inductive EmbeddingAction (V : Type) where
  | embed (text : Bytes)
  | embedBatch (texts : List Bytes)
  | proceed (i : Nat) (event : CallEvent V)
  | clear

def embeddingStep [DecidableEq V] (p : Pool (CachedEmbeddingProvider V κ) (Pending V)) :
    EmbeddingAction V → Option (Pool (CachedEmbeddingProvider V κ) (Pending V))
  | .embed text =>
    let r := beginEmbed digest inner text p.shared
    some ⟨r.1, p.tasks ++ r.2⟩
  | .embedBatch texts =>
    let r := beginBatch digest inner texts p.shared
    some ⟨r.1, p.tasks ++ r.2⟩
  | .proceed i event => p.advance (nextCall digest inner) i event
  | .clear => some { p with shared := { p.shared with cache := .empty p.shared.cache.cap } }

def embeddingStart (config : EmbeddingCacheConfig) :
    Pool (CachedEmbeddingProvider V κ) (Pending V) :=
  ⟨⟨.empty (max config.maxEntries 1), 0, []⟩, []⟩

/-- A call that succeeds returns every embedding in order; a failed one stores nothing; the bound is
kept. -/
structure Transparent (config : EmbeddingCacheConfig) (s : CachedEmbeddingProvider V κ) :
    Prop where
  right : ∀ r ∈ s.returned, ∀ values, r.result = .ok values →
    values.map some = r.texts.map inner.embed
  notStored : ∀ r ∈ s.returned, ∀ e, r.result = .error e →
    ∀ entry ∈ s.cache.entries, entry.2.storedBy ≠ r.call
  bounded : s.cache.entries.length ≤ max 1 config.maxEntries

end Operations

section Entries

variable {V κ : Type} [DecidableEq κ] {digest : Bytes → κ} {inner : Provider V}
  {cache cache' : LruCache κ (Stored V)}

def EntryRight (digest : Bytes → κ) (inner : Provider V) (e : κ × Stored V) : Prop :=
  ∃ text, e.1 = cacheKey digest inner text ∧ inner.embed text = some e.2.embedding

def EntriesRight (digest : Bytes → κ) (inner : Provider V) (cache : LruCache κ (Stored V)) : Prop :=
  ∀ e ∈ cache.entries, EntryRight digest inner e

omit [DecidableEq κ] in
theorem cacheKey_injective (hdigest : Function.Injective digest) :
    Function.Injective (cacheKey digest inner) := by
  intro text text' heq
  exact (List.cons.inj (List.append_cancel_left (hdigest heq))).2

variable {text : Bytes}

theorem embed_of_get (hdigest : Function.Injective digest) (h : EntriesRight digest inner cache)
    {e : Stored V} (hget : cache.get (cacheKey digest inner text) = some (e, cache')) :
    inner.embed text = some e.embedding := by
  obtain ⟨hmem, -, -⟩ := LruCache.mem_of_get hget
  obtain ⟨text', hkey, hembed⟩ := h _ hmem
  rwa [cacheKey_injective hdigest hkey]

/-- A cache with the same entries, in another order. -/
structure Reordered (cache cache' : LruCache κ (Stored V)) : Prop where
  cap : cache'.cap = cache.cap
  mem : ∀ e, e ∈ cache'.entries ↔ e ∈ cache.entries

omit [DecidableEq κ] in
theorem Reordered.refl (cache : LruCache κ (Stored V)) : Reordered cache cache :=
  ⟨rfl, fun _ => Iff.rfl⟩

omit [DecidableEq κ] in
theorem Reordered.entriesRight (hcache : Reordered cache cache')
    (h : EntriesRight digest inner cache) : EntriesRight digest inner cache' :=
  fun e he => h e ((hcache.mem e).mp he)

theorem reordered_of_get {k : κ} {e : Stored V} (h : cache.get k = some (e, cache')) :
    Reordered cache cache' := by
  obtain ⟨-, hcap, hmem⟩ := LruCache.mem_of_get h
  exact ⟨hcap, hmem⟩

/-- A call adds entries of its own, and keeps the capacity. -/
structure Extended (digest : Bytes → κ) (inner : Provider V) (call : CallId)
    (cache cache' : LruCache κ (Stored V)) : Prop where
  cap : cache'.cap = cache.cap
  mem : ∀ e ∈ cache'.entries,
    e ∈ cache.entries ∨ EntryRight digest inner e ∧ e.2.storedBy = call

omit [DecidableEq κ] in
theorem Reordered.extended (h : Reordered cache cache') (call : CallId) :
    Extended digest inner call cache cache' :=
  ⟨h.cap, fun e he => .inl ((h.mem e).mp he)⟩

variable {call : CallId}

theorem extended_push {v : V} (hv : inner.embed text = some v) :
    Extended digest inner call cache
      (cache.push (cacheKey digest inner text) ⟨v, call⟩) where
  cap := rfl
  mem := fun e he => by
    rcases LruCache.mem_push he with rfl | he
    · exact .inr ⟨⟨text, rfl, hv⟩, rfl⟩
    · exact .inl he

omit [DecidableEq κ] in
theorem Extended.trans {cache'' : LruCache κ (Stored V)}
    (h : Extended digest inner call cache cache') (h' : Extended digest inner call cache' cache'') :
    Extended digest inner call cache cache'' where
  cap := h'.cap.trans h.cap
  mem := fun e he => by
    rcases h'.mem e he with he | he
    · exact h.mem e he
    · exact .inr he

theorem extended_storeOne {v : V} (hv : inner.embed text = some v) :
    Extended digest inner call cache (storeOne digest inner call text v cache) := by
  rw [storeOne]
  split
  · next hget => exact (reordered_of_get hget).extended call
  · exact extended_push hv

end Entries

section Slots

variable {V κ : Type} [DecidableEq κ] {digest : Bytes → κ} {inner : Provider V}
  {texts : List Bytes} {results : List (Option V)} {misses : List Nat}

/-- From place `i` on, a slot holds the embedding of its text, or is among the misses. -/
structure OpenFrom (inner : Provider V) (i : Nat) (texts : List Bytes) (results : List (Option V))
    (misses : List Nat) : Prop where
  length : results.length = texts.length
  right : ∀ (j : Nat) (v : V), results[j]? = some (some v) →
    ∃ text, texts[j]? = some text ∧ inner.embed text = some v
  missed : ∀ j : Nat, results[j]? = some none → i + j ∈ misses
  inRange : ∀ j ∈ misses, j < i + texts.length

variable {text : Bytes}

theorem OpenFrom.cons {i : Nat} (h : OpenFrom inner (i + 1) texts results misses) {slot : Option V}
    {misses' : List Nat} (hslot : ∀ v, slot = some v → inner.embed text = some v)
    (hmisses : ∀ j, j ∈ misses' ↔ j ∈ misses ∨ slot = none ∧ j = i) :
    OpenFrom inner i (text :: texts) (slot :: results) misses' where
  length := congrArg Nat.succ h.length
  right := fun j v hj => by
    cases j with
    | zero => exact ⟨text, rfl, hslot v (Option.some.inj hj)⟩
    | succ j => exact h.right j v hj
  missed := fun j hj => by
    rw [hmisses]
    cases j with
    | zero => exact .inr ⟨Option.some.inj hj, rfl⟩
    | succ j =>
      left
      have hmem := h.missed j hj
      rwa [Nat.add_right_comm] at hmem
  inRange := fun j hj => by
    rw [length_cons]
    rcases (hmisses j).mp hj with hj | ⟨-, rfl⟩
    · have hlt := h.inRange j hj
      omega
    · omega

theorem openFrom_probeFrom (hdigest : Function.Injective digest) (texts : List Bytes) (i : Nat)
    {cache : LruCache κ (Stored V)} (h : EntriesRight digest inner cache) :
    OpenFrom inner i texts (probeFrom i (texts.map (cacheKey digest inner)) cache).1
        (probeFrom i (texts.map (cacheKey digest inner)) cache).2.1 ∧
      Reordered cache (probeFrom i (texts.map (cacheKey digest inner)) cache).2.2 := by
  induction texts generalizing i cache with
  | nil => exact ⟨⟨rfl, nofun, nofun, nofun⟩, .refl cache⟩
  | cons text texts ih =>
    rw [map_cons, probeFrom]
    split
    · -- a hit: the entry moves to the front
      next e cache' hget =>
      have hreordered := reordered_of_get hget
      obtain ⟨hopen, hrest⟩ := ih (i + 1) (hreordered.entriesRight h)
      refine ⟨hopen.cons (fun v hv => ?_) fun j => by simp, hrest.cap.trans hreordered.cap,
        fun e => (hrest.mem e).trans (hreordered.mem e)⟩
      cases hv
      exact embed_of_get hdigest h hget
    · -- a miss: its place is noted
      obtain ⟨hopen, hrest⟩ := ih (i + 1) h
      exact ⟨hopen.cons nofun fun j => by simp [or_comm], hrest⟩

theorem OpenFrom.set {i : Nat} {v : V} (h : OpenFrom inner 0 texts results (i :: misses))
    (htext : texts[i]? = some text) (hv : inner.embed text = some v) :
    OpenFrom inner 0 texts (results.set i (some v)) misses where
  length := by rw [List.length_set, h.length]
  right := fun j v' hj => by
    by_cases hij : i = j
    · subst hij
      rw [List.getElem?_set_self'] at hj
      obtain ⟨_, -, heq⟩ := Option.map_eq_some_iff.mp hj
      cases heq
      exact ⟨text, htext, hv⟩
    · rw [List.getElem?_set_ne hij] at hj
      exact h.right j v' hj
  missed := fun j hj => by
    by_cases hij : i = j
    · subst hij
      rw [List.getElem?_set_self'] at hj
      obtain ⟨_, -, heq⟩ := Option.map_eq_some_iff.mp hj
      cases heq
    · rw [List.getElem?_set_ne hij] at hj
      rcases mem_cons.mp (h.missed j hj) with heq | hmem
      · exact absurd (heq.symm.trans (Nat.zero_add j)) hij
      · exact hmem
  inRange := fun j hj => h.inRange j (List.mem_cons_of_mem i hj)

theorem textsAt_cons {i : Nat} (htext : texts[i]? = some text) :
    textsAt texts (i :: misses) = text :: textsAt texts misses := by
  rw [textsAt, List.filterMap_cons_some htext, textsAt]

theorem length_textsAt (h : ∀ i ∈ misses, i < texts.length) :
    (textsAt texts misses).length = misses.length := by
  induction misses with
  | nil => rfl
  | cons i misses ih =>
    obtain ⟨hi, hmisses⟩ := List.forall_mem_cons.mp h
    rw [textsAt_cons (List.getElem?_eq_getElem hi), length_cons, ih hmisses, length_cons]

variable {values : List V}

theorem OpenFrom.fill (h : OpenFrom inner 0 texts results misses)
    (hvalues : values.map some = (textsAt texts misses).map inner.embed) :
    OpenFrom inner 0 texts (fill results (misses.zip values)) [] := by
  induction misses generalizing results values with
  | nil => exact h
  | cons i misses ih =>
    have hi : i < texts.length := by simpa using h.inRange i List.mem_cons_self
    have htext := List.getElem?_eq_getElem hi
    rw [textsAt_cons htext] at hvalues
    cases values with
    | nil => cases hvalues
    | cons v values =>
      obtain ⟨hv, hvalues⟩ := List.cons.inj hvalues
      exact ih (h.set htext hv.symm) hvalues

theorem collectFrom_map_some (i : Nat) (values : List V) :
    collectFrom i (values.map some) = .ok values := by
  induction values generalizing i with
  | nil => rfl
  | cons v values ih =>
    rw [map_cons, collectFrom, ih]
    rfl

theorem exists_map_some (h : none ∉ results) : ∃ values : List V, results = values.map some := by
  induction results with
  | nil => exact ⟨[], rfl⟩
  | cons slot results ih =>
    rw [mem_cons, not_or] at h
    obtain ⟨values, rfl⟩ := ih h.2
    obtain ⟨v, rfl⟩ := Option.ne_none_iff_exists'.mp (Ne.symm h.1)
    exact ⟨v :: values, rfl⟩

/-- **No slot stays empty**: without misses the results are the embeddings of the texts. -/
theorem OpenFrom.collect (h : OpenFrom inner 0 texts results []) :
    ∃ values, collectFrom 0 results = .ok values ∧ values.map some = texts.map inner.embed := by
  have hslots : results = texts.map inner.embed := by
    refine List.ext_getElem? fun j => ?_
    rw [List.getElem?_map]
    cases hj : results[j]? with
    | none =>
      rw [List.getElem?_eq_none_iff, h.length] at hj
      rw [List.getElem?_eq_none hj, Option.map_none]
    | some slot =>
      cases slot with
      | none => exact absurd (h.missed j hj) List.not_mem_nil
      | some v =>
        obtain ⟨text, htext, hv⟩ := h.right j v hj
        rw [htext, Option.map_some, hv]
  have hfull : none ∉ results := by
    intro hnone
    obtain ⟨j, hj⟩ := List.getElem?_of_mem hnone
    exact absurd (h.missed j hj) List.not_mem_nil
  obtain ⟨values, rfl⟩ := exists_map_some hfull
  exact ⟨values, collectFrom_map_some 0 values, hslots⟩

theorem extended_foldl_storeAt {call : CallId} {cache : LruCache κ (Stored V)}
    (hrange : ∀ i ∈ misses, i < texts.length)
    (hvalues : values.map some = (textsAt texts misses).map inner.embed) :
    Extended digest inner call cache
      ((misses.zip values).foldl (storeAt digest inner call texts) cache) := by
  induction misses generalizing values cache with
  | nil => exact (Reordered.refl cache).extended call
  | cons i misses ih =>
    obtain ⟨hi, hrange⟩ := List.forall_mem_cons.mp hrange
    have htext := List.getElem?_eq_getElem hi
    rw [textsAt_cons htext] at hvalues
    cases values with
    | nil => cases hvalues
    | cons v values =>
      obtain ⟨hv, hvalues⟩ := List.cons.inj hvalues
      rw [List.zip_cons_cons, List.foldl_cons, storeAt, htext]
      exact (extended_push hv.symm).trans (ih hrange hvalues)

theorem textsAt_drop (n : Nat) (h : ∀ i ∈ misses, i < texts.length) :
    textsAt texts (misses.drop n) = (textsAt texts misses).drop n := by
  induction misses generalizing n with
  | nil => simp [textsAt]
  | cons i misses ih =>
    obtain ⟨hi, hmisses⟩ := List.forall_mem_cons.mp h
    cases n with
    | zero => rfl
    | succ n =>
      rw [List.drop_succ_cons, ih n hmisses, textsAt_cons (List.getElem?_eq_getElem hi),
        List.drop_succ_cons]

theorem extended_storeNew {call : CallId} {cache : LruCache κ (Stored V)}
    (hrange : ∀ i ∈ misses, i < texts.length)
    (hvalues : values.map some = (textsAt texts misses).map inner.embed) :
    Extended digest inner call cache (storeNew digest inner call texts misses values cache) := by
  refine extended_foldl_storeAt (fun i hi => hrange i (List.mem_of_mem_drop hi)) ?_
  rw [map_drop, hvalues, textsAt_drop _ hrange, map_drop]

end Slots

section Calls

variable {V κ : Type} [DecidableEq κ] {digest : Bytes → κ} {inner : Provider V}
  {config : EmbeddingCacheConfig} {s s' : CachedEmbeddingProvider V κ} {t : Pending V}

/-- Entries hold embeddings, and were stored by calls that succeeded. -/
structure Sound (digest : Bytes → κ) (inner : Provider V) (config : EmbeddingCacheConfig)
    (s : CachedEmbeddingProvider V κ) : Prop where
  entries : EntriesRight digest inner s.cache
  right : ∀ r ∈ s.returned, ∀ values, r.result = .ok values →
    values.map some = r.texts.map inner.embed
  stored : ∀ e ∈ s.cache.entries, ∃ r ∈ s.returned, r.call = e.2.storedBy ∧
    ∃ values, r.result = .ok values
  begun : ∀ r ∈ s.returned, r.call < s.nextCall
  distinct : (s.returned.map Returned.call).Nodup
  cap : s.cache.cap = max config.maxEntries 1

def Pending.Holds (inner : Provider V) : Pending V → Prop
  | embed _ _ => True
  | embedStore _ text v => inner.embed text = some v
  | batch _ texts results misses => OpenFrom inner 0 texts results misses
  | batchStore _ texts results misses values =>
    OpenFrom inner 0 texts results misses ∧
      values.map some = (textsAt texts misses).map inner.embed

/-- A call under way has begun, and has not ended. -/
structure Pending.Sound (inner : Provider V) (s : CachedEmbeddingProvider V κ) (t : Pending V) :
    Prop where
  holds : t.Holds inner
  begun : t.call < s.nextCall
  notEnded : ∀ r ∈ s.returned, r.call ≠ t.call

def Known (digest : Bytes → κ) (inner : Provider V) (config : EmbeddingCacheConfig)
    (p : Pool (CachedEmbeddingProvider V κ) (Pending V)) : Prop :=
  p.Holds (Sound digest inner config) (Pending.Sound inner) fun t u => t.call ≠ u.call

theorem Sound.return (h : Sound digest inner config s) {call : CallId} {texts : List Bytes}
    (result : Except EmbeddingError (List V)) {cache : LruCache κ (Stored V)}
    (hcall : call < s.nextCall) (hopen : ∀ r ∈ s.returned, r.call ≠ call)
    (hcache : Extended digest inner call s.cache cache)
    (hstored : Reordered s.cache cache ∨ ∃ values, result = .ok values)
    (hright : ∀ values, result = .ok values → values.map some = texts.map inner.embed) :
    Sound digest inner config ({ s with cache := cache }.return call texts result) where
  entries := fun e he => by
    rcases hcache.mem e he with hmem | ⟨hentry, -⟩
    · exact h.entries e hmem
    · exact hentry
  right := fun r hr => by
    rcases mem_append.mp hr with hr | hr
    · exact h.right r hr
    · rw [mem_singleton.mp hr]
      exact hright
  stored := fun e he => by
    have hold : e ∈ s.cache.entries → ∃ r ∈ s.returned ++ [⟨call, texts, result⟩],
        r.call = e.2.storedBy ∧ ∃ values, r.result = .ok values := by
      intro hmem
      obtain ⟨r, hr, hby⟩ := h.stored e hmem
      exact ⟨r, List.mem_append_left _ hr, hby⟩
    rcases hcache.mem e he with hmem | ⟨-, hby⟩
    · exact hold hmem
    · rcases hstored with hreordered | hok
      · exact hold ((hreordered.mem e).mp he)
      · exact ⟨⟨call, texts, result⟩, List.mem_append_right _ (List.mem_singleton_self _),
          hby.symm, hok⟩
  begun := fun r hr => by
    rcases mem_append.mp hr with hr | hr
    · exact h.begun r hr
    · rw [mem_singleton.mp hr]
      exact hcall
  distinct := by
    have hnew : call ∉ s.returned.map Returned.call := by
      intro hmem
      obtain ⟨r, hr, heq⟩ := List.mem_map.mp hmem
      exact hopen r hr heq
    rw [CachedEmbeddingProvider.return, List.map_append]
    exact h.distinct.append (List.nodup_singleton call) (List.disjoint_singleton.mpr hnew)
  cap := hcache.cap.trans h.cap

theorem Sound.enter (h : Sound digest inner config s) {cache : LruCache κ (Stored V)}
    (hcache : Reordered s.cache cache) : Sound digest inner config (s.enter cache) where
  entries := hcache.entriesRight h.entries
  right := h.right
  stored := fun e he => h.stored e ((hcache.mem e).mp he)
  begun := fun r hr => Nat.lt_succ_of_lt (h.begun r hr)
  distinct := h.distinct
  cap := hcache.cap.trans h.cap

theorem nextCall_cases [DecidableEq V] {event : CallEvent V} {ts : List (Pending V)}
    (h : nextCall digest inner event s t = some (s', ts)) (ht : t.Holds inner) :
    (∃ t', t'.call = t.call ∧ t'.Holds inner ∧ ts = [t'] ∧ s' = s) ∨
    ∃ cache texts result, Extended digest inner t.call s.cache cache ∧
      (Reordered s.cache cache ∨ ∃ values, result = .ok values) ∧
      (∀ values, result = .ok values → values.map some = texts.map inner.embed) ∧
      ts = [] ∧ s' = { s with cache := cache }.return t.call texts result := by
  have hsame : Reordered s.cache s.cache := .refl s.cache
  rw [nextCall.eq_def] at h
  split at h
  · -- an answer for one text
    next v call text =>
    split_ifs at h with hanswers
    cases h
    have hembed : inner.embed text = some v := (List.cons.inj (hanswers rfl)).1.symm
    exact .inl ⟨.embedStore call text v, rfl, hembed, rfl, rfl⟩
  · -- a failure
    next e call text =>
    cases h
    exact .inr ⟨s.cache, [text], .error e, hsame.extended _, .inl hsame, nofun, rfl, rfl⟩
  · -- the embedding of one text is stored
    next call text v =>
    cases h
    refine .inr ⟨_, _, _, extended_storeOne ht, .inr ⟨_, rfl⟩, ?_, rfl, rfl⟩
    intro values hvalues
    cases hvalues
    exact congrArg (fun o => [o]) (Eq.symm ht)
  · -- an answer for a batch, of the wrong length or with the embeddings
    next values call texts results misses =>
    split_ifs at h with hanswers hcount
    · cases h
      exact .inr ⟨s.cache, texts, .error _, hsame.extended _, .inl hsame, nofun, rfl, rfl⟩
    · cases h
      have hlength : values.length = (textsAt texts misses).length := by
        rw [length_textsAt fun i hi => by simpa using ht.inRange i hi]
        exact not_not.mp hcount
      exact .inl ⟨.batchStore call texts results misses values, rfl, ⟨ht, hanswers hlength⟩, rfl,
        rfl⟩
  · -- a failure
    next e call texts results misses =>
    cases h
    exact .inr ⟨s.cache, texts, .error e, hsame.extended _, .inl hsame, nofun, rfl, rfl⟩
  · -- the embeddings of a batch are stored
    next call texts results misses values =>
    cases h
    obtain ⟨hopen, hvalues⟩ := ht
    obtain ⟨all, hall, hright⟩ := (hopen.fill hvalues).collect
    rw [hall]
    refine .inr ⟨_, _, _, extended_storeNew (fun i hi => by simpa using hopen.inRange i hi) hvalues,
      .inr ⟨_, rfl⟩, ?_, rfl, rfl⟩
    intro values' heq
    cases heq
    exact hright
  · cases h

/-- The two ways a call begins: it ends at once, or waits for the provider inside. -/
def Begins (inner : Provider V) (s : CachedEmbeddingProvider V κ)
    (r : CachedEmbeddingProvider V κ × List (Pending V)) : Prop :=
  ∃ cache, Reordered s.cache cache ∧
    ((∃ texts values, values.map some = texts.map inner.embed ∧
        r = ((s.enter cache).return s.nextCall texts (.ok values), [])) ∨
      ∃ t : Pending V, t.call = s.nextCall ∧ t.Holds inner ∧ r = (s.enter cache, [t]))

theorem begins_beginEmbed (hdigest : Function.Injective digest)
    (h : EntriesRight digest inner s.cache) (text : Bytes) :
    Begins inner s (beginEmbed digest inner text s) := by
  rw [beginEmbed]
  split
  · next e cache hget =>
    refine ⟨cache, reordered_of_get hget, .inl ⟨[text], [e.embedding], ?_, rfl⟩⟩
    exact congrArg (fun o => [o]) (embed_of_get hdigest h hget).symm
  · exact ⟨s.cache, .refl s.cache, .inr ⟨.embed s.nextCall text, rfl, trivial, rfl⟩⟩

theorem begins_beginBatch (hdigest : Function.Injective digest)
    (h : EntriesRight digest inner s.cache) (texts : List Bytes) :
    Begins inner s (beginBatch digest inner texts s) := by
  rw [beginBatch]
  split_ifs with hempty
  · refine ⟨s.cache, .refl s.cache, .inl ⟨texts, [], ?_, rfl⟩⟩
    rw [List.isEmpty_iff.mp hempty]
    rfl
  · obtain ⟨hopen, hreordered⟩ := openFrom_probeFrom hdigest texts 0 h
    dsimp only
    split_ifs with hnone
    · rw [List.isEmpty_iff.mp hnone] at hopen
      obtain ⟨values, hvalues, hright⟩ := hopen.collect
      rw [hvalues]
      exact ⟨_, hreordered, .inl ⟨texts, values, hright, rfl⟩⟩
    · exact ⟨_, hreordered, .inr ⟨.batch s.nextCall texts _ _, rfl, hopen, rfl⟩⟩

section Runs

variable {p p' : Pool (CachedEmbeddingProvider V κ) (Pending V)}

theorem Known.begin (h : Known digest inner config p)
    {r : CachedEmbeddingProvider V κ × List (Pending V)} (hbegins : Begins inner p.shared r) :
    Known digest inner config ⟨r.1, p.tasks ++ r.2⟩ := by
  obtain ⟨cache, hcache, hr⟩ := hbegins
  have hentered := h.shared.enter hcache
  have hopen : ∀ r ∈ (p.shared.enter cache).returned, r.call ≠ p.shared.nextCall :=
    fun r hr => Nat.ne_of_lt (h.shared.begun r hr)
  rcases hr with ⟨texts, values, hvalues, rfl⟩ | ⟨t, hcall, hholds, rfl⟩
  · -- it has ended
    have hreturned := hentered.return (.ok values) (Nat.lt_succ_self _) hopen
      ((Reordered.refl _).extended _) (.inr ⟨values, rfl⟩) fun _ heq => by
        cases heq
        exact hvalues
    refine Pool.Holds.extend h hreturned (fun u _ hu => ⟨hu.holds, Nat.lt_succ_of_lt hu.begun, ?_⟩)
      nofun nofun List.Pairwise.nil
    intro r hr
    rcases mem_append.mp hr with hr | hr
    · exact hu.notEnded r hr
    · rw [mem_singleton.mp hr]
      exact (Nat.ne_of_lt hu.begun).symm
  · -- it waits
    refine Pool.Holds.extend h hentered
      (fun u _ hu => ⟨hu.holds, Nat.lt_succ_of_lt hu.begun, hu.notEnded⟩) ?_ ?_
      (List.pairwise_singleton _ _)
    · intro u hu
      rw [mem_singleton.mp hu]
      refine ⟨hholds, ?_, fun r hr => ?_⟩
      · rw [hcall]
        exact Nat.lt_succ_self _
      · rw [hcall]
        exact hopen r hr
    · intro u hu t' ht'
      rw [mem_singleton.mp ht', hcall]
      exact Nat.ne_of_lt (h.tasks u hu).begun

theorem Known.proceed [DecidableEq V] (h : Known digest inner config p) {i : Nat}
    {event : CallEvent V} (hs : p.advance (nextCall digest inner) i event = some p') :
    Known digest inner config p' := by
  obtain ⟨front, t, back, s', ts, htasks, -, hnext, rfl⟩ := Pool.advance_eq_some_iff.mp hs
  have ht : t.Sound inner p.shared := h.tasks t (by simp [htasks])
  have hsymm : ∀ u v : Pending V, u.call ≠ v.call → v.call ≠ u.call := fun _ _ hne => hne.symm
  rcases nextCall_cases hnext ht.holds with
    ⟨t', hcall, hholds, rfl, rfl⟩ | ⟨cache, texts, result, hcache, hstored, hright, rfl, rfl⟩
  · -- it goes on waiting
    refine Pool.Holds.replace h hsymm htasks h.shared ?_ (fun _ _ hu _ => hu) ?_
      (List.pairwise_singleton _ _)
    · intro u hu
      rw [mem_singleton.mp hu]
      exact ⟨hholds, hcall ▸ ht.begun, hcall ▸ ht.notEnded⟩
    · intro u _ hne t'' ht''
      rw [mem_singleton.mp ht'', hcall]
      exact hne
  · -- it ends
    refine Pool.Holds.replace h hsymm htasks
      (h.shared.return _ ht.begun ht.notEnded hcache hstored hright) nofun ?_
      nofun List.Pairwise.nil
    intro u _ hu hne
    refine ⟨hu.holds, hu.begun, fun r hr => ?_⟩
    rcases mem_append.mp hr with hr | hr
    · exact hu.notEnded r hr
    · rw [mem_singleton.mp hr]
      exact hne

theorem known_embeddingStep [DecidableEq V] (hdigest : Function.Injective digest)
    {a : EmbeddingAction V} (h : Known digest inner config p)
    (hs : embeddingStep digest inner p a = some p') : Known digest inner config p' := by
  cases a with
  | embed text =>
    cases hs
    exact h.begin (begins_beginEmbed hdigest h.shared.entries text)
  | embedBatch texts =>
    cases hs
    exact h.begin (begins_beginBatch hdigest h.shared.entries texts)
  | proceed i event => exact h.proceed hs
  | clear =>
    cases hs
    exact ⟨⟨nofun, h.shared.right, nofun, h.shared.begun, h.shared.distinct, h.shared.cap⟩,
      fun t ht => ⟨(h.tasks t ht).holds, (h.tasks t ht).begun, (h.tasks t ht).notEnded⟩, h.apart⟩

theorem known_embeddingStart : Known digest inner config (embeddingStart config) :=
  Pool.Holds.empty ⟨nofun, nofun, nofun, nofun, List.nodup_nil, rfl⟩

omit [DecidableEq κ] in
theorem Sound.transparent (h : Sound digest inner config s) : Transparent inner config s where
  right := h.right
  notStored := by
    intro r hr e herror entry hentry hby
    -- the call that stored the entry succeeded, and calls have different numbers
    obtain ⟨r', hr', hcall, values, hok⟩ := h.stored entry hentry
    have heq : r = r' := List.inj_on_of_nodup_map h.distinct hr hr' (hby.symm.trans hcall.symm)
    rw [heq, hok] at herror
    cases herror
  bounded := by
    rw [Nat.max_comm, ← h.cap]
    exact s.cache.bounded

/-- **The embedding cache is transparent** in every run, if the hash tells texts apart. -/
theorem transparent_of_run [DecidableEq V] {digest : Bytes → κ}
    (hdigest : Function.Injective digest) (inner : Provider V) (config : EmbeddingCacheConfig)
    (as : List (EmbeddingAction V)) (p : Pool (CachedEmbeddingProvider V κ) (Pending V))
    (hrun : run (embeddingStep digest inner) (embeddingStart config) as = some p) :
    Transparent inner config p.shared := by
  have hknown : Known digest inner config p :=
    run_invariant (C := fun _ _ => True) (fun _ _ _ h _ hs => known_embeddingStep hdigest h hs)
      known_embeddingStart (Along.of_forall_mem (fun _ _ _ => trivial) _) hrun
  exact hknown.shared.transparent

end Runs

end Calls

def lengthProvider : Provider Nat where
  modelName := ascii "m"
  embed text := if text.isEmpty then none else some text.length

/-- A text is embedded, and then twice in a batch larger than the cache, while another batch fails.
-/
def sampleCalls : List (EmbeddingAction Nat) :=
  [.embed (ascii "bb"), .proceed 0 (.answer [2]), .proceed 0 .store,
    .embedBatch [ascii "ccc", ascii "bb", ascii "a", ascii "ccc"],
    .embedBatch [ascii "bb", ascii ""], .proceed 1 (.fail .authFailed),
    .proceed 0 (.answer [3, 1, 3]), .proceed 0 .store]

theorem transparent_sampleCalls :
    ∃ p, run (embeddingStep (κ := Bytes) id lengthProvider) (embeddingStart ⟨2⟩) sampleCalls =
        some p ∧
      (p.shared.returned.map fun r => r.result.toOption) =
        [some [2], none, some [3, 2, 1, 3]] ∧
      Transparent lengthProvider ⟨2⟩ p.shared := by
  have hreturned : (run (embeddingStep (κ := Bytes) id lengthProvider) (embeddingStart ⟨2⟩)
      sampleCalls).map (fun p => p.shared.returned.map fun r => r.result.toOption) =
        some [some [2], none, some [3, 2, 1, 3]] := by decide +kernel
  obtain ⟨p, hrun, hresults⟩ := Option.map_eq_some_iff.mp hreturned
  exact ⟨p, hrun, hresults,
    transparent_of_run Function.injective_id lengthProvider ⟨2⟩ sampleCalls p hrun⟩

end IronClaw.Memory.Embedding
