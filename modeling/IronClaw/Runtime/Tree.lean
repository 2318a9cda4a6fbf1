import Mathlib.Data.List.Induction
import IronClaw.Foundation.HashMap
import IronClaw.Missions.Mission

/-!
# The thread tree

Two maps keep the parent of each thread and the children of each. A removal leaves the parent
entries of its children, which still lead to older threads.
-/

namespace IronClaw.Runtime

open Foundation (HashMap)
open Missions (ThreadId)

structure ThreadTree where
  parents : HashMap ThreadId ThreadId
  /-- The children of each parent, ordered by insertion. -/
  children : HashMap ThreadId (List ThreadId)

namespace ThreadTree

def new : ThreadTree := ⟨∅, ∅⟩

def parentOf (tree : ThreadTree) (threadId : ThreadId) : Option ThreadId :=
  tree.parents.lookup threadId

def childrenOf (tree : ThreadTree) (threadId : ThreadId) : List ThreadId :=
  (tree.children.lookup threadId).getD []

def addChild (tree : ThreadTree) (parentId childId : ThreadId) : ThreadTree where
  parents := tree.parents.insert childId parentId
  children := tree.children.insert parentId (tree.childrenOf parentId ++ [childId])

/-- Remove a thread from the tree. Does not remove its children. -/
def remove (tree : ThreadTree) (threadId : ThreadId) : ThreadTree where
  parents := tree.parents.erase threadId
  children :=
    (match tree.parentOf threadId with
    | some parent => HashMap.adjust tree.children parent fun siblings =>
        siblings.filter fun id => id != threadId
    | none => tree.children).erase threadId

/-- The ancestors of a thread, if the walk has reached a root after so many steps. -/
def ancestors (tree : ThreadTree) : Nat → ThreadId → Option (List ThreadId)
  | 0, _ => none
  | fuel + 1, current =>
    match tree.parentOf current with
    | none => some []
    | some parent => (tree.ancestors fuel parent).map (parent :: ·)

variable {tree : ThreadTree} {threadId parent child p c : ThreadId}

theorem parentOf_addChild : (tree.addChild parent child).parentOf c =
      if c = child then some parent else tree.parentOf c :=
  HashMap.lookup_insert ..

theorem childrenOf_addChild : (tree.addChild parent child).childrenOf p =
      if p = parent then tree.childrenOf p ++ [child] else tree.childrenOf p := by
  simp only [childrenOf, addChild, HashMap.lookup_insert]
  split_ifs with h
  · rw [h, Option.getD_some]
  · rfl

theorem parentOf_remove :
    (tree.remove threadId).parentOf c = if c = threadId then none else tree.parentOf c :=
  HashMap.lookup_erase ..

theorem childrenOf_remove : (tree.remove threadId).childrenOf p = if p = threadId then []
      else if tree.parentOf threadId = some p then
        (tree.childrenOf p).filter fun id => id != threadId else tree.childrenOf p := by
  simp only [childrenOf, remove, HashMap.lookup_erase]
  split_ifs with hp hparent
  · rfl
  · rw [hparent, HashMap.lookup_adjust, if_pos rfl]
    cases tree.children.lookup p <;> rfl
  · cases hq : tree.parentOf threadId with
    | none => rfl
    | some q => rw [HashMap.lookup_adjust, if_neg fun h : p = q => hparent (hq.trans (h ▸ rfl))]

inductive Op where
  | addChild (parentId childId : ThreadId)
  | remove (threadId : ThreadId)
deriving DecidableEq

def perform (tree : ThreadTree) : Op → ThreadTree
  | .addChild parentId childId => tree.addChild parentId childId
  | .remove threadId => tree.remove threadId

/-- The threads that an addition is about. -/
def Op.ids : Op → List ThreadId
  | addChild parentId childId => [parentId, childId]
  | remove _ => []

/-- Every thread that is added as a child is new: nothing was added to it or as it before. -/
def Fresh (ops : List Op) : Prop :=
  ∀ before p c after, ops = before ++ .addChild p c :: after → c ≠ p ∧ c ∉ before.flatMap Op.ids

/-- The operation has been performed, and since then the other one has not. -/
def Since (op undo : Op) (ops : List Op) : Prop :=
  ∃ before after, ops = before ++ op :: after ∧ undo ∉ after

theorem since_append {op undo last : Op} {ops : List Op} :
    Since op undo (ops ++ [last]) ↔ op = last ∨ Since op undo ops ∧ undo ≠ last := by
  constructor
  · rintro ⟨before, after, heq, hundo⟩
    rcases List.eq_nil_or_concat' after with rfl | ⟨after, x, rfl⟩
    · exact .inl (List.cons_eq_cons.mp (List.append_inj' heq rfl).2).1.symm
    · rw [← List.cons_append, ← List.append_assoc] at heq
      obtain ⟨rfl, hx⟩ := List.append_inj' heq rfl
      cases hx
      simp only [List.mem_append, List.mem_singleton, not_or] at hundo
      exact .inr ⟨⟨before, after, rfl, hundo.1⟩, hundo.2⟩
  · rintro (rfl | ⟨⟨before, after, rfl, hundo⟩, hne⟩)
    · exact ⟨ops, [], rfl, List.not_mem_nil⟩
    · exact ⟨before, after ++ [last], by simp, by simp [hundo, hne]⟩

/-- The maps agree but for removed threads, and every parent is older than its child. -/
structure Consistent (ops : List Op) (tree : ThreadTree) : Prop where
  added : ∀ p c, tree.parentOf c = some p → .addChild p c ∈ ops
  children : ∀ p c, c ∈ tree.childrenOf p ↔
    tree.parentOf c = some p ∧ Since (.addChild p c) (.remove p) ops
  nodup : ∀ p, (tree.childrenOf p).Nodup
  older : ∃ age : ThreadId → Nat, ∀ p c, tree.parentOf c = some p → age p < age c

theorem consistent_new : Consistent [] new where
  added p c h := by simp [parentOf, new] at h
  children p c := by simp [childrenOf, parentOf, new]
  nodup p := by simp [childrenOf, new]
  older := ⟨fun _ => 0, fun p c h => by simp [parentOf, new] at h⟩

variable {ops : List Op}

theorem Consistent.addChild (h : Consistent ops tree) (hne : child ≠ parent)
    (hnew : child ∉ ops.flatMap Op.ids) :
    Consistent (ops ++ [.addChild parent child]) (tree.addChild parent child) := by
  have hids : ∀ p c, tree.parentOf c = some p → c ≠ child ∧ p ≠ child := by
    intro p c hparent
    have hmem := h.added p c hparent
    constructor
    · rintro rfl
      exact hnew (List.mem_flatMap.mpr ⟨_, hmem, by simp [Op.ids]⟩)
    · rintro rfl
      exact hnew (List.mem_flatMap.mpr ⟨_, hmem, by simp [Op.ids]⟩)
  have hlisted : ∀ p, child ∉ tree.childrenOf p := fun p hmem =>
    (hids p child ((h.children p child).mp hmem).1).1 rfl
  refine ⟨fun p c hparent => ?_, fun p c => ?_, fun p => ?_, ?_⟩
  · rw [parentOf_addChild] at hparent
    split_ifs at hparent with hc
    · cases hparent
      rw [hc]
      exact List.mem_append_right _ (List.mem_singleton_self _)
    · exact List.mem_append_left _ (h.added p c hparent)
  · rw [parentOf_addChild, childrenOf_addChild, since_append]
    by_cases hc : c = child
    · subst hc
      by_cases hp : p = parent
      · simp [hp]
      · simp [hp, Ne.symm hp, hlisted p]
    · have hother : (Op.addChild p c = .addChild parent child) ↔ False := by
        simp [hc]
      rw [if_neg hc, hother, false_or]
      split_ifs with hp <;> simp [h.children p c, hc]
  · rw [childrenOf_addChild]
    split_ifs
    · exact (h.nodup p).append (List.nodup_singleton _)
        (List.disjoint_singleton.mpr (hlisted p))
    · exact h.nodup p
  · obtain ⟨age, hage⟩ := h.older
    refine ⟨fun x => if x = child then age parent + 1 else age x, fun p c hparent => ?_⟩
    rw [parentOf_addChild] at hparent
    split_ifs at hparent with hc
    · cases hparent
      simp [hc, Ne.symm hne]
    · simp [hc, (hids p c hparent).2, hage p c hparent]

theorem Consistent.remove (h : Consistent ops tree) (threadId : ThreadId) :
    Consistent (ops ++ [.remove threadId]) (tree.remove threadId) := by
  have hparents : ∀ p c, (tree.remove threadId).parentOf c = some p →
      c ≠ threadId ∧ tree.parentOf c = some p := by
    intro p c hparent
    rw [parentOf_remove] at hparent
    split_ifs at hparent with hc
    exact ⟨hc, hparent⟩
  refine ⟨fun p c hparent => ?_, fun p c => ?_, fun p => ?_, ?_⟩
  · exact List.mem_append_left _ (h.added p c (hparents p c hparent).2)
  · rw [childrenOf_remove, parentOf_remove, since_append]
    by_cases hp : p = threadId
    · simp [hp]
    · rw [if_neg hp]
      by_cases hc : c = threadId
      · split_ifs with hparent
        · simp [hc]
        · simp [hc, h.children p, hparent]
      · split_ifs <;> simp [h.children p c, hc, hp]
  · rw [childrenOf_remove]
    split_ifs
    · exact List.nodup_nil
    · exact (h.nodup p).filter _
    · exact h.nodup p
  · obtain ⟨age, hage⟩ := h.older
    exact ⟨age, fun p c hparent => hage p c (hparents p c hparent).2⟩

theorem consistent_foldl (hfresh : Fresh ops) : Consistent ops (ops.foldl perform new) := by
  induction ops using List.reverseRecOn with
  | nil => exact consistent_new
  | append_singleton ops op ih =>
    have h := ih fun before p c after heq =>
      hfresh before p c (after ++ [op]) (by rw [heq, List.append_assoc, List.cons_append])
    rw [List.foldl_append]
    cases op with
    | addChild parent child =>
      obtain ⟨hne, hnew⟩ := hfresh ops parent child [] rfl
      exact h.addChild hne hnew
    | remove threadId => exact h.remove threadId

/-- The walk ends within the age of the thread, and every step of it leads to an older one. -/
theorem ancestors_of_age {age : ThreadId → Nat}
    (hage : ∀ p c, tree.parentOf c = some p → age p < age c) (threadId : ThreadId) :
    ∃ result, (threadId :: result).Pairwise (fun c p => age p < age c) ∧
      ∀ fuel, age threadId < fuel → tree.ancestors fuel threadId = some result := by
  induction hn : age threadId using Nat.strong_induction_on generalizing threadId with
  | _ n ih =>
    cases hparent : tree.parentOf threadId with
    | none =>
      refine ⟨[], List.pairwise_singleton _ _, fun fuel hfuel => ?_⟩
      obtain ⟨fuel, rfl⟩ := Nat.exists_eq_succ_of_ne_zero (Nat.ne_of_gt (Nat.zero_lt_of_lt hfuel))
      simp [ancestors, hparent]
    | some parent =>
      have hlt := hage parent threadId hparent
      obtain ⟨result, hpairwise, hresult⟩ := ih _ (hn ▸ hlt) parent rfl
      refine ⟨parent :: result, List.pairwise_cons.mpr ⟨fun a ha => ?_, hpairwise⟩,
        fun fuel hfuel => ?_⟩
      · rcases List.mem_cons.mp ha with rfl | ha
        · exact hlt
        · exact ((List.pairwise_cons.mp hpairwise).1 a ha).trans hlt
      · obtain ⟨fuel, rfl⟩ :=
          Nat.exists_eq_succ_of_ne_zero (Nat.ne_of_gt (Nat.zero_lt_of_lt hfuel))
        simp [ancestors, hparent, hresult fuel (by omega)]

/-- **The thread tree is consistent.** Children have their parent unless removed since, once each;
walks to ancestors end. -/
theorem consistent_run {ops : List Op} (hfresh : Fresh ops) :
    (∀ p c, c ∈ (ops.foldl perform new).childrenOf p ↔
      (ops.foldl perform new).parentOf c = some p ∧ Since (.addChild p c) (.remove p) ops) ∧
    (∀ p, ((ops.foldl perform new).childrenOf p).Nodup) ∧
    ∀ threadId, ∃ result, (threadId :: result).Nodup ∧ ∃ enough, ∀ fuel ≥ enough,
        (ops.foldl perform new).ancestors fuel threadId = some result := by
  have h := consistent_foldl hfresh
  obtain ⟨age, hage⟩ := h.older
  refine ⟨h.children, h.nodup, fun threadId => ?_⟩
  obtain ⟨result, hpairwise, hresult⟩ := ancestors_of_age hage threadId
  exact ⟨result, hpairwise.imp fun hlt heq => by simp [heq] at hlt, age threadId + 1,
    fun fuel hfuel => hresult fuel hfuel⟩

/-- The child of a thread that is removed keeps its parent entry. -/
def orphaned : List Op := [.addChild 1 2, .remove 1]

theorem fresh_orphaned : Fresh orphaned := by
  intro before p c after h
  match before, h with
  | [], h =>
    cases h
    decide
  | [_], h => cases h
  | _ :: _ :: before, h => simp [orphaned] at h

theorem consistent_orphaned : 2 ∉ (orphaned.foldl perform new).childrenOf 1 ∧
    ∃ result, (2 :: result).Nodup ∧ ∃ enough, ∀ fuel ≥ enough,
      (orphaned.foldl perform new).ancestors fuel 2 = some result :=
  ⟨by decide, (consistent_run fresh_orphaned).2.2 2⟩

theorem not_children_iff_parent : ¬ ∀ ops, Fresh ops → ∀ p c,
    c ∈ (ops.foldl perform new).childrenOf p ↔ (ops.foldl perform new).parentOf c = some p :=
  fun h => absurd ((h orphaned fresh_orphaned 1 2).mpr (by decide)) (by decide)

end ThreadTree

end IronClaw.Runtime
