import Mathlib.Data.List.Induction
import Mathlib.Data.List.Sort
import IronClaw.Foundation.Bytes
import IronClaw.Foundation.Path

/-!
# Workspace mounts

The first mount that owns a path is the longest one. What is behind it is handed to its backend,
which joins it with its root unless a component could lead out of there.
-/

namespace IronClaw.Workspace

open Foundation (Text Path)
open Foundation.Text (byteLength)

variable {B : Type}

/-- The order of the table: longer mounts first. -/
def LongerFirst (a b : Text × B) : Prop := byteLength b.1 ≤ byteLength a.1

instance : DecidableRel (LongerFirst (B := B)) := fun _ _ => inferInstanceAs (Decidable (_ ≤ _))

instance : Std.Total (LongerFirst (B := B)) := ⟨fun _ _ => Nat.le_total _ _⟩

instance : IsTrans _ (LongerFirst (B := B)) := ⟨fun _ _ _ h h' => Nat.le_trans h' h⟩

structure ProjectMounts (B : Type) where
  mounts : List (Text × B)
  sorted : mounts.Pairwise LongerFirst

def rooted (path : Text) : Text := if path.head? = some '/' then path else '/' :: path

/-- How a mount is stored: with a slash in front and one behind. -/
def normalized (p : Text) : Text :=
  if (rooted p).getLast? = some '/' then rooted p else rooted p ++ ['/']

namespace ProjectMounts

def new : ProjectMounts B := ⟨[], .nil⟩

/-- Add a mount. Re-registering the same one replaces the previous backend. -/
def add (table : ProjectMounts B) (p : Text) (backend : B) : ProjectMounts B where
  mounts := ((table.mounts.filter fun entry => entry.1 != normalized p) ++
    [(normalized p, backend)]).insertionSort LongerFirst
  sorted := List.pairwise_insertionSort _ _

def resolveIn (path : Text) : List (Text × B) → Option (B × Text)
  | [] => none
  | (mount, backend) :: mounts =>
    if mount.isPrefixOf path then some (backend, path.drop mount.length)
    -- the exact match without the trailing slash
    else if mount = path ++ ['/'] then some (backend, [])
    else resolveIn path mounts

def resolve (table : ProjectMounts B) (path : Text) : Option (B × Text) :=
  resolveIn (rooted path) table.mounts

def addAll (adds : List (Text × B)) : ProjectMounts B :=
  adds.foldl (fun table entry => table.add entry.1 entry.2) new

end ProjectMounts

def lastBackend (adds : List (Text × B)) (mount : Text) : Option B :=
  (adds.reverse.find? fun entry => normalized entry.1 == mount).map Prod.snd

/-- A mount owns the path whose components begin with its own. -/
def Owns (mount path : Text) : Prop := mount <+: path ++ ['/']

namespace ProjectMounts

variable {adds : List (Text × B)} {mount path rest : Text} {backend : B}

theorem mem_addAll :
    (mount, backend) ∈ (addAll adds).mounts ↔ lastBackend adds mount = some backend := by
  induction adds using List.reverseRecOn with
  | nil => simp [addAll, new, lastBackend]
  | append_singleton adds entry ih =>
    have hstep : addAll (adds ++ [entry]) = (addAll adds).add entry.1 entry.2 := by
      simp [addAll]
    rw [hstep, add, List.mem_insertionSort, List.mem_append, List.mem_filter, ih]
    simp only [lastBackend, List.reverse_append, List.reverse_singleton, List.singleton_append,
      List.find?_cons]
    by_cases h : normalized entry.1 = mount
    · simp [h, eq_comm]
    · simp [Ne.symm h, beq_false_of_ne h]

theorem eq_of_prefix_of_byteLength_le {s t : Text} (h : s <+: t)
    (hle : byteLength t ≤ byteLength s) : s = t := by
  obtain ⟨more, rfl⟩ := h
  rw [Foundation.Text.byteLength_append] at hle
  by_cases hmore : more = []
  · rw [hmore, List.append_nil]
  · have := Foundation.Text.byteLength_pos hmore
    omega

theorem resolveIn_cases {mounts : List (Text × B)} (hsorted : mounts.Pairwise LongerFirst) :
    match resolveIn path mounts with
    | none => ∀ entry ∈ mounts, ¬ Owns entry.1 path
    | some (backend, rest) => ∃ mount, (mount, backend) ∈ mounts ∧ Owns mount path ∧
        (mount ++ rest = path ∨ mount = path ++ ['/'] ∧ rest = []) ∧
        ∀ entry ∈ mounts, Owns entry.1 path → entry.1 <+: mount := by
  induction mounts with
  | nil => exact nofun
  | cons entry mounts ih =>
    obtain ⟨mount, backend⟩ := entry
    obtain ⟨hlonger, hsorted⟩ := List.pairwise_cons.mp hsorted
    -- what is behind the first owner is no longer than it, and so are two owners comparable
    have hlongest : Owns mount path → ∀ entry ∈ (mount, backend) :: mounts, Owns entry.1 path →
        entry.1 <+: mount := by
      intro howns entry hentry howns'
      rcases List.mem_cons.mp hentry with rfl | hentry
      · exact List.prefix_refl _
      · rcases List.prefix_or_prefix_of_prefix howns howns' with h | h
        · exact eq_of_prefix_of_byteLength_le h (hlonger entry hentry) ▸ List.prefix_refl _
        · exact h
    unfold resolveIn
    split_ifs with hstrip hexact
    · obtain ⟨rest, hrest⟩ := List.isPrefixOf_iff_prefix.mp hstrip
      have howns : Owns mount path := ⟨rest ++ ['/'], by rw [← List.append_assoc, hrest]⟩
      refine ⟨mount, List.mem_cons_self, howns, .inl ?_, hlongest howns⟩
      rw [← hrest, List.drop_left]
    · have howns : Owns mount path := hexact ▸ List.prefix_refl _
      exact ⟨mount, List.mem_cons_self, howns, .inr ⟨hexact, rfl⟩, hlongest howns⟩
    · have hnot : ¬ Owns mount path := fun h =>
        (List.prefix_concat_iff.mp h).elim hexact
          fun h => hstrip (List.isPrefixOf_iff_prefix.mpr h)
      have ih := ih hsorted
      cases hrest : resolveIn path mounts with
      | none =>
        rw [hrest] at ih
        exact List.forall_mem_cons.mpr ⟨hnot, ih⟩
      | some found =>
        rw [hrest] at ih
        obtain ⟨mount', hmem, howns, heq, hall⟩ := ih
        exact ⟨mount', List.mem_cons_of_mem _ hmem, howns, heq,
          List.forall_mem_cons.mpr ⟨fun h => absurd h hnot, hall⟩⟩

/-- A path is resolved to the last backend of the longest mount that owns it, if any. -/
theorem resolve_exact (adds : List (Text × B)) (path : Text) :
    match (addAll adds).resolve path with
    | none => ∀ mount backend, lastBackend adds mount = some backend → ¬ Owns mount (rooted path)
    | some (backend, rest) => ∃ mount, lastBackend adds mount = some backend ∧
        Owns mount (rooted path) ∧
        (mount ++ rest = rooted path ∨ mount = rooted path ++ ['/'] ∧ rest = []) ∧
        ∀ mount' backend', lastBackend adds mount' = some backend' → Owns mount' (rooted path) →
          mount' <+: mount := by
  have h := @resolveIn_cases _ (rooted path) _ (addAll adds).sorted
  unfold resolve
  cases hresolve : resolveIn (rooted path) (addAll adds).mounts with
  | none =>
    rw [hresolve] at h
    exact fun mount backend hlast => h (mount, backend) (mem_addAll.mpr hlast)
  | some found =>
    rw [hresolve] at h
    obtain ⟨mount, hmem, howns, heq, hall⟩ := h
    exact ⟨mount, mem_addAll.mp hmem, howns, heq,
      fun mount' backend' hlast => hall (mount', backend') (mem_addAll.mpr hlast)⟩

end ProjectMounts

inductive MountError where
  | invalidPath (path : Text) (reason : String)

/-- Lexically validate a path and join it with the root of the backend. -/
def safeJoin (root relPath : Path) : Except MountError Path :=
  if relPath.isAbsolute then
    .error (.invalidPath relPath.toText
      "absolute paths are not allowed; pass a path relative to the mount")
  else
    match relPath.components.find? (fun
      | .normal _ | .curDir => false
      | _ => true) with
    | some .parentDir => .error (.invalidPath relPath.toText "`..` components are not allowed")
    | some _ => .error (.invalidPath relPath.toText "root or prefix components are not allowed")
    | none => .ok (root.join relPath)

theorem components_of_isEmpty {root : Text} (h : (Path.ofText root).isEmpty = true) :
    (Path.ofText root).components = [] := by
  unfold Path.ofText at h ⊢
  split at h
  · cases h
  · next hslash =>
    cases root with
    | nil => rfl
    | cons c s =>
      have hc : c ≠ '/' := fun heq => hslash s (heq ▸ rfl)
      simp only [Path.isEmpty, Text.splitOn, if_neg hc] at h
      split at h <;> cases h

theorem components_of_safeJoin {root : Text} {relPath full : Path}
    (h : safeJoin (Path.ofText root) relPath = .ok full) :
    ∃ more, full.components = (Path.ofText root).components ++ more ∧
      ∀ c ∈ more, c = .curDir ∨ ∃ name, c = .normal name := by
  unfold safeJoin at h
  split_ifs at h with habsolute
  split at h
  · cases h
  · cases h
  · next hnone =>
    cases h
    have hcomponents : ∀ c ∈ relPath.components, c = .curDir ∨ ∃ name, c = .normal name := by
      intro c hc
      have := List.find?_eq_none.mp hnone c hc
      cases c with
      | curDir => exact .inl rfl
      | normal name => exact .inr ⟨name, rfl⟩
      | rootDir | parentDir => simp at this
    have habsolute : relPath.isAbsolute = false := Bool.eq_false_iff.mpr habsolute
    cases hempty : (Path.ofText root).isEmpty with
    | true =>
      exact ⟨relPath.components, by simp [Path.join, hempty, components_of_isEmpty hempty],
        hcomponents⟩
    | false =>
      exact ⟨_, Path.components_join hempty habsolute,
        fun c hc => hcomponents c (Path.mem_components_of_segments hc)⟩

/-- **Mounts are resolved exactly**, and what a backend joins is under its root. -/
theorem mounts_exact (adds : List (Text × B)) :
    (∀ path, match (ProjectMounts.addAll adds).resolve path with
      | none => ∀ mount backend, lastBackend adds mount = some backend → ¬ Owns mount (rooted path)
      | some (backend, rest) => ∃ mount, lastBackend adds mount = some backend ∧
          Owns mount (rooted path) ∧
          (mount ++ rest = rooted path ∨ mount = rooted path ++ ['/'] ∧ rest = []) ∧
          ∀ mount' backend', lastBackend adds mount' = some backend' →
            Owns mount' (rooted path) → mount' <+: mount) ∧
    ∀ root relPath full, safeJoin (Path.ofText root) relPath = .ok full →
      ∃ more, full.components = (Path.ofText root).components ++ more ∧
        ∀ c ∈ more, c = .curDir ∨ ∃ name, c = .normal name :=
  ⟨ProjectMounts.resolve_exact adds, fun _ _ _ => components_of_safeJoin⟩

/-- A path without a slash in front is resolved, but no mount begins it. -/
theorem not_joined_eq_path : ∃ (adds : List (Text × Unit)) (path : Text),
    ((ProjectMounts.addAll adds).resolve path).isSome = true ∧
      ∀ mount backend, lastBackend adds mount = some backend → (∀ rest, mount ++ rest ≠ path) ∧
          (Path.ofText path).startsWith (Path.ofText mount) = false := by
  refine ⟨[("/project/".toList, ())], "project/a".toList, by decide, fun mount backend h => ?_⟩
  obtain ⟨entry, hfind, -⟩ := Option.map_eq_some_iff.mp h
  obtain rfl := List.mem_singleton.mp (List.mem_of_find?_eq_some hfind)
  obtain rfl : normalized "/project/".toList = mount := by simpa using List.find?_some hfind
  exact ⟨fun _ => nofun, by decide⟩

end IronClaw.Workspace
