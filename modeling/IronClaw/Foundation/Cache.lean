import Mathlib.Order.MinMax
import IronClaw.Foundation.Interleaving
import Mathlib.Data.List.AList

/-!
# A cache in front of files

Each entry of a map has a file. A call changes an entry under the lock of the map, and writes the
file later. Entries are evicted; a load reads the file. Calls take turns at these points, and a
restart ends them.
-/

namespace IronClaw.Foundation

open List (foldl_append mem_singleton prefix_rfl)
open Function (update_of_ne)

/-- A map and its files: for each the file at the start, its changes, and how many are completed. -/
structure Cache {K : Type} (V C : K → Type) where
  memory : AList V
  files : AList V
  initial : AList V
  given : ∀ k, List (C k)
  completed : K → Nat

namespace Cache

variable {K ε : Type} [DecidableEq K] {V C : K → Type}

section Model

variable (apply : ∀ k, C k → Option (V k) → Option (V k)) (reload : AList V → AList V)

def after (s : Cache V C) (k : K) (n : Nat) : Option (V k) :=
  ((s.given k).take n).foldl (fun v c => apply k c v) (s.initial.lookup k)

def intended (s : Cache V C) (k : K) : Option (V k) := s.after apply k (s.given k).length

def note (s : Cache V C) (k : K) (c : C k) : Cache V C :=
  { s with given := Function.update s.given k (s.given k ++ [c]) }

def complete (s : Cache V C) (k : K) (n : Nat) : Cache V C :=
  { s with completed := Function.update s.completed k (max (s.completed k) n) }

/-- What a call does next, where it is neither a load nor a write that follows a change. -/
inductive Move (V C : K → Type) (ε : Type) where
  | change (k : K) (c : C k)
  | evict (select : ε → AList V → List K)
  | remove (k : K)

/-- A call under way. A change has its number, a load the number completed before. -/
inductive Task (V C : K → Type) (ε : Type) where
  | moves (rest : List (Move V C ε))
  | writing (k : K) (v : V k) (number : Nat) (rest : List (Move V C ε))
  | finding (k : K) (seen : Nat)
  | reading (k : K) (seen : Nat)
  | inserting (k : K) (seen : Nat) (v : V k)
  | loaded (k : K) (seen : Nat) (answer : Option (V k))

/-- The next step of a call. A load that has answered stays. -/
def next (e : ε) (s : Cache V C) : Task V C ε → Option (Cache V C × List (Task V C ε))
  | .moves [] => some (s, [])
  | .moves (.change k c :: rest) =>
    match apply k c (s.memory.lookup k) with
    | some v =>
      some ({ s.note k c with memory := s.memory.insert k v },
        [.writing k v ((s.given k).length + 1) rest])
    | none => some ((s.note k c).complete k ((s.given k).length + 1), [.moves rest])
  | .moves (.evict select :: rest) =>
    some (s, [.moves ((select e s.memory).map .remove ++ rest)])
  | .moves (.remove k :: rest) => some ({ s with memory := s.memory.erase k }, [.moves rest])
  | .writing k v number rest =>
    some (({ s with files := s.files.insert k v }).complete k number, [.moves rest])
  | .finding k seen =>
    match s.memory.lookup k with
    | some v => some (s, [.loaded k seen (some v)])
    | none => some (s, [.reading k seen])
  | .reading k seen =>
    match s.files.lookup k with
    | some v => some (s, [.inserting k seen v])
    | none => some (s, [.loaded k seen none])
  | .inserting k seen v =>
    some ({ s with memory := s.memory.insert k v }, [.loaded k seen (some v)])
  | .loaded .. => none

inductive Action (V C : K → Type) (ε : Type) where
  | run (moves : List (Move V C ε))
  | load (k : K)
  | advance (i : Nat) (e : ε)
  | restart

def restarted (s : Cache V C) : Cache V C := ⟨reload s.files, s.files, s.files, fun _ =>
    [], fun _ => 0⟩

def step (p : Pool (Cache V C) (Task V C ε)) : Action V C ε → Option (Pool (Cache V C) (Task V C ε))
  | .run moves => some (p.start (.moves moves))
  | .load k => some (p.start (.finding k (p.shared.completed k)))
  | .advance i e => p.advance (next apply) i e
  | .restart => some ⟨p.shared.restarted reload, []⟩

/-- What some of the changes make of an entry, at least the first `n` of them. -/
def Recent (s : Cache V C) (k : K) (n : Nat) (v : Option (V k)) : Prop :=
  ∃ m, n ≤ m ∧ m ≤ (s.given k).length ∧ s.after apply k m = v

/-- A change does to the entry in the map what it should; none is written after a later one, unless
the file is recent; a load puts back what should be there. -/
def OrderlyTask (s : Cache V C) : Task V C ε → Prop
  | .moves (.change k c :: _) =>
    apply k c (s.memory.lookup k) = apply k c (s.intended apply k)
  | .writing k v number _ =>
    s.completed k ≤ number ∨ s.Recent apply k (s.completed k) (some v)
  | .inserting k _ v => s.intended apply k = some v
  | _ => True

def Orderly (p : Pool (Cache V C) (Task V C ε)) : Action V C ε → Prop
  | .advance i _ => ∀ t, p.tasks[i]? = some t → p.shared.OrderlyTask apply t
  | _ => True

end Model

variable {apply : ∀ k, C k → Option (V k) → Option (V k)} {reload : AList V → AList V}
  {s s' : Cache V C} {k : K} {m n : Nat} {v : Option (V k)}

/-- More changes are given, and more are completed. -/
structure Grows (s s' : Cache V C) : Prop where
  initial : s'.initial = s.initial
  given : ∀ k, s.given k <+: s'.given k
  completed : ∀ k, s.completed k ≤ s'.completed k

theorem Grows.refl (s : Cache V C) : Grows s s := ⟨rfl, fun _ => prefix_rfl, fun _ => le_rfl⟩

theorem Grows.trans {s'' : Cache V C} (h : Grows s s') (h' : Grows s' s'') : Grows s s'' where
  initial := h'.initial.trans h.initial
  given k := (h.given k).trans (h'.given k)
  completed k := (h.completed k).trans (h'.completed k)

theorem grows_note (s : Cache V C) (k : K) (c : C k) : Grows s (s.note k c) where
  initial := rfl
  given k' := by
    by_cases h : k' = k
    · subst h
      simp [note]
    · simp [note, update_of_ne h]
  completed _ := le_rfl

theorem grows_complete (s : Cache V C) (k : K) (n : Nat) : Grows s (s.complete k n) where
  initial := rfl
  given _ := prefix_rfl
  completed k' := by
    by_cases h : k' = k
    · subst h
      simp [complete]
    · simp [complete, update_of_ne h]

theorem Grows.after (h : Grows s s') (hn : n ≤ (s.given k).length) :
    s'.after apply k n = s.after apply k n := by
  obtain ⟨more, hmore⟩ := h.given k
  rw [Cache.after, Cache.after, h.initial, ← hmore, List.take_append_of_le_length hn]

theorem Grows.recent (h : Grows s s') (hrecent : s.Recent apply k n v) : s'.Recent apply k n v := by
  obtain ⟨m, hm, hlength, rfl⟩ := hrecent
  exact ⟨m, hm, hlength.trans (h.given k).length_le, h.after hlength⟩

theorem Recent.mono (h : s.Recent apply k n v) (hm : m ≤ n) : s.Recent apply k m v := by
  obtain ⟨j, hj, hlength, hv⟩ := h
  exact ⟨j, hm.trans hj, hlength, hv⟩

theorem recent_intended (hn : n ≤ (s.given k).length) :
    s.Recent apply k n (s.intended apply k) := ⟨_, hn, le_rfl, rfl⟩

@[simp] theorem given_note_self (s : Cache V C) (k : K) (c : C k) :
    (s.note k c).given k = s.given k ++ [c] := by simp [note]

theorem after_note (s : Cache V C) (k : K) (c : C k) :
    (s.note k c).after apply k ((s.given k).length + 1) = apply k c (s.intended apply k) := by
  rw [after, given_note_self, List.take_of_length_le (by simp), foldl_append]
  rw [intended, after, List.take_length]
  rfl

theorem intended_note (s : Cache V C) (k : K) (c : C k) :
    (s.note k c).intended apply k = apply k c (s.intended apply k) := by
  rw [intended, given_note_self, List.length_append, List.length_singleton]
  exact after_note s k c

theorem intended_note_of_ne (s : Cache V C) {k k' : K} (h : k' ≠ k) (c : C k) :
    (s.note k c).intended apply k' = s.intended apply k' := by
  simp [intended, after, note, update_of_ne h]

theorem after_eq_none (hsome : ∀ k c v, (apply k c (some v)).isSome) (h : s.after apply k n = none)
    (hm : m ≤ n) : s.after apply k m = none := by
  by_contra hne
  obtain ⟨v, hv⟩ := Option.ne_none_iff_exists'.mp hne
  have hkept : ∀ (cs : List (C k)) (v : V k),
      (cs.foldl (fun v c => apply k c v) (some v)).isSome := by
    intro cs
    induction cs with
    | nil => exact fun v => rfl
    | cons c cs ih =>
      intro v
      obtain ⟨v', hv'⟩ := Option.isSome_iff_exists.mp (hsome k c v)
      rw [List.foldl_cons, hv']
      exact ih v'
  have hsplit : (s.given k).take n = (s.given k).take m ++ ((s.given k).drop m).take (n - m) := by
    conv_lhs => rw [← Nat.add_sub_cancel' hm, List.take_add]
  rw [after] at h hv
  rw [hsplit, foldl_append, hv] at h
  have hisSome := hkept (((s.given k).drop m).take (n - m)) v
  rw [h] at hisSome
  cases hisSome

structure Sound (apply : ∀ k, C k → Option (V k) → Option (V k)) (s : Cache V C) : Prop where
  memory : ∀ k v, s.memory.lookup k = some v → s.intended apply k = some v
  files : ∀ k, s.Recent apply k (s.completed k) (s.files.lookup k)

def Justified (apply : ∀ k, C k → Option (V k) → Option (V k)) (s : Cache V C) : Task V C ε → Prop
  | .moves _ => True
  | .writing k v number _ => number ≤ (s.given k).length ∧ s.after apply k number = some v
  | .finding k seen => seen ≤ s.completed k
  | .reading k seen => seen ≤ s.completed k
  | .inserting k seen v => s.Recent apply k seen (some v)
  | .loaded k seen answer => s.Recent apply k seen answer

variable {t : Task V C ε}

theorem Grows.justified (h : Grows s s') (ht : s.Justified apply t) : s'.Justified apply t := by
  cases t with
  | moves rest => trivial
  | writing k v number rest =>
    exact ⟨ht.1.trans (h.given k).length_le, (h.after ht.1).trans ht.2⟩
  | finding k seen => exact Nat.le_trans ht (h.completed k)
  | reading k seen => exact Nat.le_trans ht (h.completed k)
  | inserting k seen v => exact h.recent ht
  | loaded k seen answer => exact h.recent ht

theorem Sound.completed_le (h : Sound apply s) (k : K) : s.completed k ≤ (s.given k).length := by
  obtain ⟨m, hm, hlength, -⟩ := h.files k
  exact hm.trans hlength

theorem Sound.withMemory (h : Sound apply s) {memory : AList V}
    (hmemory : ∀ k v, memory.lookup k = some v → s.intended apply k = some v) :
    Sound apply { s with memory := memory } := ⟨hmemory, h.files⟩

theorem Sound.changed (h : Sound apply s) {c : C k} {w : V k}
    (hw : apply k c (s.intended apply k) = some w) :
    Sound apply { s.note k c with memory := s.memory.insert k w } where
  memory := by
    intro k' v hv
    change (s.note k c).intended apply k' = some v
    by_cases hk : k' = k
    · subst hk
      rw [AList.lookup_insert] at hv
      rw [intended_note, hw]
      exact hv
    · rw [AList.lookup_insert_ne hk] at hv
      rw [intended_note_of_ne s hk]
      exact h.memory k' v hv
  files k' := (grows_note s k c).recent (h.files k')

theorem Sound.idle (hsome : ∀ k c v, (apply k c (some v)).isSome) (h : Sound apply s) {c : C k}
    (hnone : apply k c (s.intended apply k) = none) :
    Sound apply ((s.note k c).complete k ((s.given k).length + 1)) := by
  have habsent : s.intended apply k = none := by
    cases hintended : s.intended apply k with
    | none => rfl
    | some v =>
      have hv := hsome k c v
      rw [← hintended, hnone] at hv
      cases hv
  have hgrows : Grows s ((s.note k c).complete k ((s.given k).length + 1)) :=
    (grows_note s k c).trans (grows_complete _ _ _)
  constructor
  · intro k' v hv
    change (s.note k c).intended apply k' = some v
    have hkept := h.memory k' v hv
    by_cases hk : k' = k
    · subst hk
      rw [habsent] at hkept
      cases hkept
    · rw [intended_note_of_ne s hk]
      exact hkept
  · intro k'
    change Recent apply _ k' _ (s.files.lookup k')
    by_cases hk : k' = k
    · subst hk
      -- the file is not there either, as the entry has never been
      obtain ⟨m, -, hm, hfile⟩ := h.files k'
      have hnofile : s.files.lookup k' = none := by
        rw [← hfile]
        exact after_eq_none hsome habsent hm
      refine ⟨(s.given k').length + 1, ?_, ?_, ?_⟩
      · have hle := h.completed_le k'
        simp only [complete, note, Function.update_self, max_le_iff]
        omega
      · simp [complete]
      · rw [hnofile, ← hnone]
        exact after_note s k' c
    · have hcompleted : ((s.note k c).complete k ((s.given k).length + 1)).completed k' =
          s.completed k' := update_of_ne hk _ _
      rw [hcompleted]
      exact hgrows.recent (h.files k')

theorem Sound.written (h : Sound apply s) {w : V k} {number : Nat}
    (hnumber : number ≤ (s.given k).length) (hw : s.after apply k number = some w)
    (horder : s.completed k ≤ number ∨ s.Recent apply k (s.completed k) (some w)) :
    Sound apply (({ s with files := s.files.insert k w }).complete k number) where
  memory := h.memory
  files := by
    intro k'
    by_cases hk : k' = k
    · subst hk
      have hrecent : s.Recent apply k' (max (s.completed k') number) (some w) := by
        rcases horder with horder | ⟨m, hm, hlength, hvalue⟩
        · exact ⟨number, max_le horder le_rfl, hnumber, hw⟩
        · rcases Nat.le_total number m with hle | hle
          · exact ⟨m, max_le hm hle, hlength, hvalue⟩
          · exact ⟨number, max_le (hm.trans hle) le_rfl, hnumber, hw⟩
      simpa [complete, Recent, after] using hrecent
    · simpa [complete, Recent, after, update_of_ne hk, AList.lookup_insert_ne hk]
        using h.files k'

theorem Sound.restarted
    (hreload : ∀ (files : AList V) k v, (reload files).lookup k = some v → files.lookup k = some v)
    (s : Cache V C) : Sound apply (s.restarted reload) where
  memory k v hv := hreload s.files k v hv
  files _ := ⟨0, le_rfl, le_rfl, rfl⟩

variable {e : ε} {ts : List (Task V C ε)}

theorem grows_of_next (h : next apply e s t = some (s', ts)) : Grows s s' := by
  cases t with
  | moves rest =>
    cases rest with
    | nil =>
      cases h
      exact .refl s
    | cons move rest =>
      cases move with
      | change k c =>
        simp only [next] at h
        split at h
        · cases h
          exact ⟨rfl, (grows_note s k c).given, fun _ => le_rfl⟩
        · cases h
          exact (grows_note s k c).trans (grows_complete _ _ _)
      | evict select =>
        cases h
        exact .refl s
      | remove k =>
        cases h
        exact ⟨rfl, fun _ => prefix_rfl, fun _ => le_rfl⟩
  | writing k v number rest =>
    cases h
    exact ⟨rfl, fun _ => prefix_rfl, (grows_complete s k number).completed⟩
  | finding k seen =>
    simp only [next] at h
    split at h <;> cases h <;> exact .refl s
  | reading k seen =>
    simp only [next] at h
    split at h <;> cases h <;> exact .refl s
  | inserting k seen v =>
    cases h
    exact ⟨rfl, fun _ => prefix_rfl, fun _ => le_rfl⟩
  | loaded k seen answer => cases h

theorem Sound.next (h : Sound apply s) (hsome : ∀ k c v, (apply k c (some v)).isSome)
    (ht : s.Justified apply t) (horder : s.OrderlyTask apply t)
    (hnext : Cache.next apply e s t = some (s', ts)) : Sound apply s' := by
  cases t with
  | moves rest =>
    cases rest with
    | nil =>
      cases hnext
      exact h
    | cons move rest =>
      cases move with
      | change k c =>
        have horder : apply k c (s.memory.lookup k) = apply k c (s.intended apply k) := horder
        simp only [Cache.next] at hnext
        split at hnext <;> rename_i hfound
        · cases hnext
          exact h.changed (horder.symm.trans hfound)
        · cases hnext
          exact h.idle hsome (horder.symm.trans hfound)
      | evict select =>
        cases hnext
        exact h
      | remove k =>
        cases hnext
        refine h.withMemory fun k' v hv => ?_
        by_cases hk : k' = k
        · subst hk
          rw [AList.lookup_erase] at hv
          cases hv
        · rw [AList.lookup_erase_ne hk] at hv
          exact h.memory k' v hv
  | writing k v number rest =>
    cases hnext
    exact h.written ht.1 ht.2 horder
  | finding k seen =>
    simp only [Cache.next] at hnext
    split at hnext <;> cases hnext <;> exact h
  | reading k seen =>
    simp only [Cache.next] at hnext
    split at hnext <;> cases hnext <;> exact h
  | inserting k seen v =>
    cases hnext
    refine h.withMemory fun k' w hw => ?_
    by_cases hk : k' = k
    · subst hk
      rw [AList.lookup_insert] at hw
      cases hw
      exact horder
    · rw [AList.lookup_insert_ne hk] at hw
      exact h.memory k' w hw
  | loaded k seen answer => cases hnext

theorem justified_of_next (h : Sound apply s) (ht : s.Justified apply t)
    (horder : s.OrderlyTask apply t) (hnext : Cache.next apply e s t = some (s', ts)) :
    ∀ t' ∈ ts, s'.Justified apply t' := by
  intro t' ht'
  cases t with
  | moves rest =>
    cases rest with
    | nil =>
      cases hnext
      cases ht'
    | cons move rest =>
      cases move with
      | change k c =>
        have horder : apply k c (s.memory.lookup k) = apply k c (s.intended apply k) := horder
        simp only [Cache.next] at hnext
        split at hnext <;> rename_i hfound
        · cases hnext
          rw [mem_singleton.mp ht']
          refine ⟨?_, ?_⟩
          · simp
          · change (s.note k c).after apply k ((s.given k).length + 1) = _
            rw [after_note, ← horder]
            exact hfound
        · cases hnext
          rw [mem_singleton.mp ht']
          trivial
      | evict select =>
        cases hnext
        rw [mem_singleton.mp ht']
        trivial
      | remove k =>
        cases hnext
        rw [mem_singleton.mp ht']
        trivial
  | writing k v number rest =>
    cases hnext
    rw [mem_singleton.mp ht']
    trivial
  | finding k seen =>
    have hseen : seen ≤ s.completed k := ht
    simp only [Cache.next] at hnext
    split at hnext <;> rename_i hfound <;> cases hnext <;> rw [mem_singleton.mp ht']
    · -- the entry is in the map, with all the changes made
      change s.Recent apply k seen _
      rw [← h.memory k _ hfound]
      exact recent_intended (hseen.trans (h.completed_le k))
    · exact hseen
  | reading k seen =>
    have hseen : seen ≤ s.completed k := ht
    simp only [Cache.next] at hnext
    -- a file has what was completed before, so that it is recent enough
    split at hnext <;> rename_i hfound <;> cases hnext <;> rw [mem_singleton.mp ht']
    · have hrecent := (h.files k).mono hseen
      rw [hfound] at hrecent
      exact hrecent
    · have hrecent := (h.files k).mono hseen
      rw [hfound] at hrecent
      exact hrecent
  | inserting k seen v =>
    cases hnext
    rw [mem_singleton.mp ht']
    exact ht
  | loaded k seen answer => cases hnext

variable {p p' : Pool (Cache V C) (Task V C ε)} {a : Action V C ε}

/-- The cache is sound, and what is known of each call holds. -/
def Consistent (apply : ∀ k, C k → Option (V k) → Option (V k))
    (p : Pool (Cache V C) (Task V C ε)) : Prop :=
  p.Holds (Sound apply) (Justified apply) fun _ _ => True

theorem consistent_of_step (hsome : ∀ k c v, (apply k c (some v)).isSome)
    (hreload : ∀ (files : AList V) k v, (reload files).lookup k = some v → files.lookup k = some v)
    (h : Consistent apply p) (horder : Orderly apply p a) (hs : step apply reload p a = some p') :
    Consistent apply p' := by
  cases a with
  | run moves =>
    cases hs
    exact Pool.Holds.start h trivial fun _ _ => trivial
  | load k =>
    cases hs
    exact Pool.Holds.start h (le_refl (p.shared.completed k)) fun _ _ => trivial
  | restart =>
    cases hs
    exact Pool.Holds.empty (Sound.restarted hreload p.shared)
  | advance i e =>
    obtain ⟨front, t, back, s', ts, htasks, rfl, hnext, rfl⟩ := Pool.advance_eq_some_iff.mp hs
    have ht : p.tasks[front.length]? = some t := by simp [htasks]
    have hmem : t ∈ p.tasks := by simp [htasks]
    have htask : p.shared.OrderlyTask apply t := horder t ht
    refine Pool.Holds.replace h (fun _ _ h => h) htasks
      (h.shared.next hsome (h.tasks t hmem) htask hnext)
      (justified_of_next h.shared (h.tasks t hmem) htask hnext)
      (fun u _ hu _ => (grows_of_next hnext).justified hu) (fun _ _ _ _ _ => trivial) ?_
    exact List.pairwise_of_forall_mem_list fun _ _ _ _ => trivial

structure AtRest (p : Pool (Cache V C) (Task V C ε)) : Prop where
  tasks : p.tasks = []
  memory : ∀ k v, p.shared.memory.lookup k = some v → p.shared.files.lookup k = some v
  initial : p.shared.initial = p.shared.files
  given : ∀ k, p.shared.given k = []
  completed : ∀ k, p.shared.completed k = 0

theorem AtRest.consistent (h : AtRest p) : Consistent apply p where
  shared := by
    have hvalue : ∀ k n, p.shared.after apply k n = p.shared.files.lookup k := by
      intro k n
      rw [after, h.given, List.take_nil, h.initial]
      rfl
    constructor
    · intro k v hv
      rw [intended, hvalue]
      exact h.memory k v hv
    · intro k
      exact ⟨0, (h.completed k).le, Nat.zero_le _, hvalue k 0⟩
  tasks := by
    intro t ht
    rw [h.tasks] at ht
    cases ht
  apart := by
    rw [h.tasks]
    exact List.Pairwise.nil

variable {P : ∀ k, C k → Option (V k) → Prop}

/-- Each change was given for an entry that allows it. -/
def Allowed (apply : ∀ k, C k → Option (V k) → Option (V k)) (P : ∀ k, C k → Option (V k) → Prop)
    (s : Cache V C) : Prop :=
  ∀ k n c, (s.given k)[n]? = some c → P k c (s.after apply k n)

def Allows (apply : ∀ k, C k → Option (V k) → Option (V k)) (P : ∀ k, C k → Option (V k) → Prop)
    (p : Pool (Cache V C) (Task V C ε)) : Action V C ε → Prop
  | .advance i _ => ∀ k c rest, p.tasks[i]? = some (.moves (.change k c :: rest)) →
    P k c (p.shared.intended apply k)
  | _ => True

theorem given_of_next (h : Cache.next apply e s t = some (s', ts)) : s'.given = s.given ∨
      ∃ k c rest, t = .moves (.change k c :: rest) ∧ s'.given = (s.note k c).given := by
  cases t with
  | moves rest =>
    cases rest with
    | nil =>
      cases h
      exact .inl rfl
    | cons move rest =>
      cases move with
      | change k c =>
        simp only [Cache.next] at h
        split at h <;> cases h <;> exact .inr ⟨k, c, rest, rfl, rfl⟩
      | evict select =>
        cases h
        exact .inl rfl
      | remove k =>
        cases h
        exact .inl rfl
  | writing k v number rest =>
    cases h
    exact .inl rfl
  | finding k seen =>
    simp only [Cache.next] at h
    split at h <;> cases h <;> exact .inl rfl
  | reading k seen =>
    simp only [Cache.next] at h
    split at h <;> cases h <;> exact .inl rfl
  | inserting k seen v =>
    cases h
    exact .inl rfl
  | loaded k seen answer => cases h

theorem Allowed.next (h : Allowed apply P s)
    (hallows : ∀ k c rest, t = .moves (.change k c :: rest) → P k c (s.intended apply k))
    (hnext : Cache.next apply e s t = some (s', ts)) : Allowed apply P s' := by
  have hgrows := grows_of_next hnext
  have hold : ∀ k n c, (s.given k)[n]? = some c → P k c (s'.after apply k n) := by
    intro k n c hc
    have hn : n < (s.given k).length := (List.getElem?_eq_some_iff.mp hc).1
    rw [hgrows.after (Nat.le_of_lt hn)]
    exact h k n c hc
  intro k n c hc
  rcases given_of_next hnext with hgiven | ⟨k', c', rest, rfl, hgiven⟩
  · rw [hgiven] at hc
    exact hold k n c hc
  · rw [hgiven] at hc
    by_cases hk : k = k'
    · subst hk
      rw [given_note_self, List.getElem?_append] at hc
      split_ifs at hc with hn
      · exact hold k n c hc
      · -- the change is the one that is given in this step
        obtain ⟨hindex, hnew⟩ := List.getElem?_eq_some_iff.mp hc
        have hlength : n = (s.given k).length := by
          rw [List.length_singleton] at hindex
          omega
        subst hlength
        simp only [Nat.sub_self, List.getElem_cons_zero] at hnew
        rw [hgrows.after le_rfl, ← hnew]
        exact hallows k c' rest rfl
    · simp only [note, update_of_ne hk] at hc
      exact hold k n c hc

theorem allowed_of_step (h : Allowed apply P p.shared) (hallows : Allows apply P p a)
    (hs : step apply reload p a = some p') : Allowed apply P p'.shared := by
  cases a with
  | run moves =>
    cases hs
    exact h
  | load k =>
    cases hs
    exact h
  | restart =>
    cases hs
    intro k n c hc
    simp [restarted] at hc
  | advance i e =>
    obtain ⟨front, t, back, s', ts, htasks, rfl, hnext, rfl⟩ := Pool.advance_eq_some_iff.mp hs
    refine h.next (fun k c rest ht => hallows k c rest ?_) hnext
    simp [htasks, ht]

/-- **The rule for allowed changes.** What each preserves holds after any number of them. -/
theorem after_rule {M : List (C k) → Option (V k) → Prop} (h : Allowed apply P s)
    (hinitial : M [] (s.initial.lookup k))
    (hchange : ∀ cs c v, M cs v → P k c v → M (cs ++ [c]) (apply k c v))
    (hn : n ≤ (s.given k).length) : M ((s.given k).take n) (s.after apply k n) := by
  induction n with
  | zero => exact hinitial
  | succ n ih =>
    obtain ⟨c, hc⟩ : ∃ c, (s.given k)[n]? = some c := ⟨_, List.getElem?_eq_getElem hn⟩
    have htake : (s.given k).take (n + 1) = (s.given k).take n ++ [c] := by
      rw [List.take_add_one, hc]
      rfl
    have hafter : s.after apply k (n + 1) = apply k c (s.after apply k n) := by
      rw [after, htake, foldl_append]
      rfl
    rw [htake, hafter]
    exact hchange _ c _ (ih (Nat.le_of_succ_le hn)) (h k n c hc)

end Cache

end IronClaw.Foundation
