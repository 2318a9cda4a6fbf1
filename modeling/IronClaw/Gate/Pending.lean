import Mathlib.Data.List.Nodup
import IronClaw.Foundation.WriteBehind

/-!
# Pending gates and their persistence

A gate pauses one thread of one user until somebody resolves it. The file of gates is a map by keys:
saving overwrites and removing deletes.
-/

namespace IronClaw.Gate

open Foundation (Write)

abbrev Uuid := Nat

abbrev ThreadId := Uuid

abbrev Time := Nat

structure PendingGateKey where
  userId : String
  threadId : ThreadId
deriving DecidableEq

structure PendingGate where
  requestId : Uuid
  userId : String
  threadId : ThreadId
  sourceChannel : String
  actionName : String
  expiresAt : Time
  approvalAlreadyGranted : Bool
deriving DecidableEq

namespace PendingGate

def isExpired (now : Time) (gate : PendingGate) : Bool := decide (now > gate.expiresAt)

def key (gate : PendingGate) : PendingGateKey := ⟨gate.userId, gate.threadId⟩

/-- The gate as it is put back at startup: an approval granted before does not survive. -/
def rehydrated (gate : PendingGate) : PendingGate := { gate with approvalAlreadyGranted := false }

@[simp] theorem rehydrated_key (gate : PendingGate) : gate.rehydrated.key = gate.key := rfl

@[simp] theorem rehydrated_requestId (gate : PendingGate) :
    gate.rehydrated.requestId = gate.requestId := rfl

end PendingGate

structure PendingGateFile where
  gates : List PendingGate
  nodup : (gates.map PendingGate.key).Nodup

namespace PendingGateFile

def new : PendingGateFile := ⟨[], List.nodup_nil⟩

variable (file : PendingGateFile)

theorem nodup_filter (p : PendingGate → Bool) : ((file.gates.filter p).map PendingGate.key).Nodup :=
  file.nodup.sublist (List.filter_sublist.map _)

/-- Drop the gate with the same key, then append. -/
def save (file : PendingGateFile) (gate : PendingGate) : PendingGateFile where
  gates := file.gates.filter (fun existing => existing.key != gate.key) ++ [gate]
  nodup := by
    rw [List.map_append, List.nodup_append]
    refine ⟨file.nodup_filter _, by simp, ?_⟩
    simp only [List.mem_map, List.mem_filter, bne_iff_ne]
    rintro _ ⟨existing, ⟨-, hne⟩, rfl⟩ _ ⟨_, hg, rfl⟩
    rwa [List.mem_singleton.mp hg]

def remove (file : PendingGateFile) (key : PendingGateKey) : PendingGateFile where
  gates := file.gates.filter fun existing => existing.key != key
  nodup := file.nodup_filter _

def lookup (file : PendingGateFile) (key : PendingGateKey) : Option PendingGate :=
  file.gates.find? fun gate => gate.key == key

theorem lookup_eq_some {file : PendingGateFile} {key : PendingGateKey} {gate : PendingGate} :
    file.lookup key = some gate ↔ gate ∈ file.gates ∧ gate.key = key := by
  constructor
  · intro h
    exact ⟨List.mem_of_find?_eq_some h, by simpa using List.find?_some h⟩
  · rintro ⟨hmem, rfl⟩
    cases hf : file.lookup gate.key with
    | none => simpa using List.find?_eq_none.mp hf gate hmem
    | some g =>
      have hg : g.key = gate.key := by simpa using List.find?_some hf
      exact congrArg some (List.inj_on_of_nodup_map file.nodup
        (List.mem_of_find?_eq_some hf) hmem hg)

def expired (clock : PendingGateKey → Time) (file : PendingGateFile) : List PendingGate :=
  file.gates.filter fun gate => gate.isExpired (clock gate.key)

theorem lookup_save (gate : PendingGate) :
    (file.save gate).lookup = (Write.put gate.key gate).apply file.lookup := by
  funext k
  ext g
  by_cases hk : k = gate.key
  · subst hk
    rw [lookup_eq_some, show (Write.put gate.key gate).apply file.lookup gate.key = some gate
      from Write.apply_self ..]
    simp only [save, List.mem_append, List.mem_filter, bne_iff_ne, List.mem_singleton,
      Option.some.injEq]
    grind
  · rw [lookup_eq_some, Write.apply_of_ne (by simpa using hk), lookup_eq_some]
    simp only [save, List.mem_append, List.mem_filter, bne_iff_ne, List.mem_singleton]
    grind

theorem lookup_remove (key : PendingGateKey) :
    (file.remove key).lookup = (Write.del key : Write _ PendingGate).apply file.lookup := by
  funext k
  ext g
  by_cases hk : k = key
  · subst hk
    rw [lookup_eq_some, show (Write.del k).apply file.lookup k = none from Write.apply_self ..]
    simp [remove]
  · rw [lookup_eq_some, Write.apply_of_ne (by simpa using hk), lookup_eq_some]
    simp only [remove, List.mem_filter, bne_iff_ne]
    grind

def write (file : PendingGateFile) : Write PendingGateKey PendingGate → PendingGateFile
  | .put _ gate => file.save gate
  | .del key => file.remove key

/-- **The file is a keyed medium**: a save or a removal of a gate is the keyed write. -/
theorem lookup_write {w : Write PendingGateKey PendingGate}
    (hw : ∀ gate, w.value = some gate → w.key = gate.key) :
    (file.write w).lookup = w.apply file.lookup := by
  cases w with
  | put k gate =>
    obtain rfl : k = gate.key := hw gate rfl
    exact file.lookup_save gate
  | del k => exact file.lookup_remove k

end PendingGateFile

end IronClaw.Gate
