import IronClaw.Foundation.Path

/-!
# File systems with symbolic links

A file system is a tree of directories, files and links. A path is followed over so many links at
most, and leads to an entry, to a place where one could be created, or nowhere.
-/

namespace IronClaw.Foundation

abbrev Location := List Text

inductive Node where
  | dir
  | file
  | link (target : Path)

/-- A file system, seen from a working directory. Every entry is in a directory. -/
structure FileSystem where
  node : Location → Option Node
  cwd : Location
  maxLinks : Nat
  root_dir : node [] = some .dir
  cwd_dir : node cwd = some .dir
  parent_dir : ∀ loc name n, node (loc ++ [name]) = some n → node loc = some .dir
  named : ∀ loc name n, node (loc ++ [name]) = some n → IsName name

/-- Where following a path ends: at a node, with links left to follow, at a missing entry, or
nowhere. -/
inductive Walk where
  | found (loc : Location) (left : Nat)
  | missing (loc : Location)
  | failed
deriving DecidableEq

namespace FileSystem

variable (fs : FileSystem)

/-- Follow segments from a directory, up to the next link. -/
def walkWith (left : Nat) (follow : Location → List Text → Walk) : Location → List Text → Walk
  | loc, [] => .found loc left
  | loc, segment :: rest =>
    match Path.component? segment with
    | none => walkWith left follow loc rest
    | some .parentDir => walkWith left follow loc.dropLast rest
    | some _ =>
      match fs.node (loc ++ [segment]) with
      | none => if rest = [] then .missing (loc ++ [segment]) else .failed
      | some .dir => walkWith left follow (loc ++ [segment]) rest
      | some .file => if rest = [] then .found (loc ++ [segment]) left else .failed
      | some (.link target) =>
        follow (if target.isAbsolute then [] else loc) (target.segments ++ rest)

/-- Follow segments from a directory, and links up to a number of them. -/
def walk : Nat → Location → List Text → Walk
  | 0 => fs.walkWith 0 fun _ _ => .failed
  | n + 1 => fs.walkWith (n + 1) (walk n)

def resolve (p : Path) : Walk :=
  if p.isEmpty then .failed
  else fs.walk fs.maxLinks (if p.isAbsolute then [] else fs.cwd) p.segments

def canonicalize (p : Path) : Option Location :=
  match fs.resolve p with
  | .found loc _ => some loc
  | .missing _ | .failed => none

def opened (p : Path) : Option Location :=
  match fs.resolve p with
  | .found loc _ | .missing loc => some loc
  | .failed => none

def follow : Nat → Location → List Text → Walk
  | 0 => fun _ _ => .failed
  | n + 1 => fs.walk n

theorem walk_eq (n : Nat) : fs.walk n = fs.walkWith n (fs.follow n) := by
  cases n <;> rfl

variable {fs}

variable {loc : Location}

theorem dropLast_dir (h : fs.node loc = some .dir) : fs.node loc.dropLast = some .dir := by
  induction loc using List.reverseRecOn with
  | nil => exact h
  | append_singleton loc name _ =>
    rw [List.dropLast_concat]
    exact fs.parent_dir loc name _ h

theorem target_dir (h : fs.node loc = some .dir) (target : Path) :
    fs.node (if target.isAbsolute then [] else loc) = some .dir := by
  split_ifs
  · exact fs.root_dir
  · exact h

/-- The rest of a path is followed from a directory that was found. -/
def after (fs : FileSystem) (ys : List Text) : Walk → Walk
  | .found loc left =>
    match fs.node loc with
    | some .dir => fs.walk left loc ys
    | _ => .failed
  | .missing _ | .failed => .failed

variable {ys : List Text}

theorem after_found {left : Nat} (h : fs.node loc = some .dir) :
    fs.after ys (.found loc left) = fs.walk left loc ys := by
  rw [after, h]

theorem after_file {left : Nat} (h : fs.node loc = some .file) :
    fs.after ys (.found loc left) = .failed := by
  simp only [after, h]

theorem exists_of_after_eq_missing {w : Walk} (h : fs.after ys w = .missing loc) :
    ∃ a m, w = .found a m := by
  cases w with
  | found a m => exact ⟨a, m, rfl⟩
  | missing | failed => cases h

variable {n : Nat}

theorem walkWith_append (hys : ys ≠ []) (hfollow : ∀ loc xs, fs.node loc = some .dir →
      fs.follow n loc (xs ++ ys) = fs.after ys (fs.follow n loc xs))
    (hloc : fs.node loc = some .dir) (xs : List Text) : fs.walkWith n (fs.follow n) loc (xs ++ ys) =
      fs.after ys (fs.walkWith n (fs.follow n) loc xs) := by
  have hrest : ∀ rest : List Text, rest ++ ys ≠ [] := fun rest h =>
    hys (List.append_eq_nil_iff.mp h).2
  induction xs generalizing loc with
  | nil =>
    show _ = fs.after ys (.found loc n)
    rw [after_found hloc, walk_eq]
    rfl
  | cons segment rest ih =>
    rw [List.cons_append, walkWith, walkWith]
    split
    · exact ih hloc
    · exact ih (dropLast_dir hloc)
    · -- a name
      cases hnode : fs.node (loc ++ [segment]) with
      | none =>
        rw [if_neg (hrest rest)]
        by_cases h : rest = []
        · rw [if_pos h]
          rfl
        · rw [if_neg h]
          rfl
      | some node =>
        cases node with
        | dir => exact ih hnode
        | file =>
          dsimp only
          rw [if_neg (hrest rest)]
          by_cases h : rest = []
          · rw [if_pos h, after_file hnode]
          · rw [if_neg h]
            rfl
        | link target =>
          dsimp only
          rw [← List.append_assoc]
          exact hfollow _ _ (target_dir hloc target)

/-- **A path is followed part by part**, if the first part leads to a directory. -/
theorem walk_append (hloc : fs.node loc = some .dir) (hys : ys ≠ []) (xs : List Text) :
    fs.walk n loc (xs ++ ys) = fs.after ys (fs.walk n loc xs) := by
  induction n generalizing loc xs with
  | zero =>
    rw [walk_eq]
    exact walkWith_append hys (fun _ _ _ => rfl) hloc xs
  | succ n ih =>
    rw [walk_eq]
    exact walkWith_append (n := n + 1) hys (fun loc xs hloc => ih hloc xs) hloc xs

def Exists (fs : FileSystem) (loc : Location) : Prop :=
  fs.node loc = some .dir ∨ fs.node loc = some .file

variable {name : Text}

theorem walk_singleton (h : IsName name) :
    fs.walk n loc [name] =
      match fs.node (loc ++ [name]) with
      | none => .missing (loc ++ [name])
      | some .dir | some .file => .found (loc ++ [name]) n
      | some (.link target) =>
        fs.follow n (if target.isAbsolute then [] else loc) (target.segments ++ []) := by
  rw [walk_eq, walkWith, Path.component?_of_isName h]
  cases fs.node (loc ++ [name]) with
  | none => rfl
  | some node => cases node <;> rfl

theorem walk_of_exists (hname : IsName name) (h : fs.Exists (loc ++ [name])) :
    fs.walk n loc [name] = .found (loc ++ [name]) n := by
  rw [walk_singleton hname]
  rcases h with h | h <;> rw [h]

/-- **What is found is found again** at its location, and no link is followed there. -/
theorem walk_location (h : fs.Exists loc) (n : Nat) : fs.walk n [] loc = .found loc n := by
  induction loc using List.reverseRecOn with
  | nil =>
    rw [walk_eq]
    rfl
  | append_singleton loc name ih =>
    obtain ⟨node, hnode⟩ : ∃ node, fs.node (loc ++ [name]) = some node := by
      rcases h with h | h <;> exact ⟨_, h⟩
    have hloc := fs.parent_dir loc name node hnode
    rw [walk_append fs.root_dir (List.cons_ne_nil _ _), ih (.inl hloc), after_found hloc,
      walk_of_exists (fs.named loc name node hnode) h]

theorem names_of_exists (h : ∃ node, fs.node loc = some node) : ∀ name ∈ loc, IsName name := by
  induction loc using List.reverseRecOn with
  | nil => exact fun name hname => absurd hname List.not_mem_nil
  | append_singleton loc name ih =>
    obtain ⟨node, hnode⟩ := h
    intro other hother
    rcases List.mem_append.mp hother with hother | hother
    · exact ih ⟨_, fs.parent_dir loc name node hnode⟩ other hother
    · rw [List.mem_singleton.mp hother]
      exact fs.named loc name node hnode

variable {xs : List Text} {loc' : Location} {m : Nat}

theorem walkWith_exists (hfollow : ∀ loc xs, fs.node loc = some .dir →
      ∀ loc' m, fs.follow n loc xs = .found loc' m → fs.Exists loc' ∧ m ≤ n)
    (hloc : fs.node loc = some .dir) (h : fs.walkWith n (fs.follow n) loc xs = .found loc' m) :
    fs.Exists loc' ∧ m ≤ n := by
  induction xs generalizing loc with
  | nil =>
    cases h
    exact ⟨.inl hloc, Nat.le_refl n⟩
  | cons segment rest ih =>
    rw [walkWith] at h
    split at h
    · exact ih hloc h
    · exact ih (dropLast_dir hloc) h
    · cases hnode : fs.node (loc ++ [segment]) with
      | none =>
        rw [hnode] at h
        dsimp only at h
        split_ifs at h
      | some node =>
        rw [hnode] at h
        cases node with
        | dir => exact ih hnode h
        | file =>
          dsimp only at h
          split_ifs at h
          cases h
          exact ⟨.inr hnode, Nat.le_refl n⟩
        | link target => exact hfollow _ _ (target_dir hloc target) _ _ h

theorem walk_exists (hloc : fs.node loc = some .dir) (h : fs.walk n loc xs = .found loc' m) :
    fs.Exists loc' ∧ m ≤ n := by
  induction n generalizing loc xs loc' m with
  | zero =>
    rw [walk_eq] at h
    exact walkWith_exists (fun _ _ _ _ _ h => absurd h Walk.noConfusion) hloc h
  | succ n ih =>
    rw [walk_eq] at h
    exact walkWith_exists (n := n + 1) (fun loc xs hloc loc' m h =>
      (ih hloc h).imp_right Nat.le_succ_of_le) hloc h

@[simp] theorem walk_nil (n : Nat) (loc : Location) : fs.walk n loc [] = .found loc n := by
  rw [walk_eq]
  rfl

theorem walk_append_found (hloc : fs.node loc = some .dir) (xs ys : List Text) :
    fs.walk n loc (xs ++ ys) = .found loc' m ↔
      ∃ a k, fs.walk n loc xs = .found a k ∧ (ys ≠ [] → fs.node a = some .dir) ∧
        fs.walk k a ys = .found loc' m := by
  by_cases hys : ys = []
  · subst hys
    rw [List.append_nil]
    constructor
    · exact fun h => ⟨loc', m, h, fun h => absurd rfl h, walk_nil m loc'⟩
    · rintro ⟨a, k, h, -, hnil⟩
      rw [h, ← hnil, walk_nil]
  · rw [walk_append hloc hys]
    constructor
    · intro h
      cases hxs : fs.walk n loc xs with
      | found a k =>
        rw [hxs] at h
        rcases (walk_exists hloc hxs).1 with ha | ha
        · exact ⟨a, k, rfl, fun _ => ha, after_found ha ▸ h⟩
        · rw [after_file ha] at h
          cases h
      | missing a =>
        rw [hxs] at h
        cases h
      | failed =>
        rw [hxs] at h
        cases h
    · rintro ⟨a, k, hxs, ha, h⟩
      rw [hxs, after_found (ha hys)]
      exact h

/-- What is written of a path when it is put together from its components. -/
def kept (segments : List Text) : List Text :=
  (segments.filterMap Path.component?).map Component.segment

theorem kept_cons (segment : Text) (rest : List Text) :
    (Path.component? segment = none ∧ kept (segment :: rest) = kept rest) ∨
      kept (segment :: rest) = segment :: kept rest := by
  cases h : Path.component? segment with
  | none => exact .inl ⟨rfl, congrArg (List.map _) (List.filterMap_cons_none h)⟩
  | some c =>
    have hsegment : c.segment = segment := by
      unfold Path.component? at h
      split at h
      · cases h
      · split at h
        · next hparent =>
          cases h
          exact hparent.symm
        · cases h
          rfl
    refine .inr ?_
    rw [kept, List.filterMap_cons_some h, List.map_cons, hsegment]
    rfl

theorem walk_skip {segment : Text} (h : Path.component? segment = none) (n : Nat) (loc : Location) :
    fs.walk n loc [segment] = .found loc n := by
  rw [walk_eq, walkWith, h]
  rfl

theorem walk_skips {segments : List Text} (h : segments.filterMap Path.component? = []) (n : Nat)
    (hloc : fs.node loc = some .dir) : fs.walk n loc segments = .found loc n := by
  induction segments with
  | nil => exact walk_nil n loc
  | cons segment rest ih =>
    cases hc : Path.component? segment with
    | some c =>
      rw [List.filterMap_cons_some hc] at h
      cases h
    | none =>
      rw [List.filterMap_cons_none hc] at h
      exact (walk_append_found hloc [segment] rest).mpr
        ⟨loc, n, walk_skip hc n loc, fun _ => hloc, ih h⟩

theorem walk_kept (hloc : fs.node loc = some .dir) (h : fs.walk n loc xs = .found loc' m) :
    fs.walk n loc (kept xs) = .found loc' m := by
  induction xs generalizing n loc with
  | nil => exact h
  | cons segment rest ih =>
    obtain ⟨a, k, hfirst, ha, hrest⟩ :=
      (walk_append_found hloc [segment] rest).mp h
    have hkept : fs.walk k a (kept rest) = .found loc' m := by
      by_cases hnil : rest = []
      · subst hnil
        exact hrest
      · exact ih (ha hnil) hrest
    rcases kept_cons segment rest with ⟨hskip, heq⟩ | heq
    · rw [walk_skip hskip] at hfirst
      cases hfirst
      rw [heq]
      exact hkept
    · rw [heq]
      refine (walk_append_found hloc [segment] (kept rest)).mpr
        ⟨a, k, hfirst, fun hne => ha ?_, hkept⟩
      rintro rfl
      exact hne rfl

def start (fs : FileSystem) (p : Path) : Location := if p.isAbsolute then [] else fs.cwd

theorem start_dir (p : Path) : fs.node (fs.start p) = some .dir := by
  rw [start]
  split_ifs
  · exact fs.root_dir
  · exact fs.cwd_dir

variable {p : Path}

theorem canonicalize_eq_some_iff : fs.canonicalize p = some loc ↔
      p.isEmpty = false ∧ ∃ m, fs.walk fs.maxLinks (fs.start p) p.segments = .found loc m := by
  rw [canonicalize, resolve]
  cases hempty : p.isEmpty with
  | true => simp
  | false =>
    rw [if_neg Bool.false_ne_true]
    show (match fs.walk fs.maxLinks (fs.start p) p.segments with
      | .found loc _ => some loc
      | .missing _ | .failed => none) = some loc ↔ _
    cases fs.walk fs.maxLinks (fs.start p) p.segments <;> simp

theorem resolve_ofNames (h : fs.Exists loc) : fs.resolve (.ofNames loc) = .found loc fs.maxLinks :=
  walk_location h _

theorem canonicalize_ofNames (h : fs.Exists loc) : fs.canonicalize (.ofNames loc) = some loc := by
  rw [canonicalize, resolve_ofNames h]

theorem exists_of_canonicalize (h : fs.canonicalize p = some loc) : fs.Exists loc := by
  obtain ⟨-, m, hwalk⟩ := canonicalize_eq_some_iff.mp h
  exact (walk_exists (start_dir p) hwalk).1

theorem opened_of_canonicalize (h : fs.canonicalize p = some loc) : fs.opened p = some loc := by
  rw [canonicalize] at h
  rw [opened]
  cases hp : fs.resolve p with
  | found loc' m =>
    rw [hp] at h
    exact h
  | missing loc' =>
    rw [hp] at h
    cases h
  | failed =>
    rw [hp] at h
    cases h

theorem resolve_of_opened (h : fs.opened p = some loc) (hnone : fs.canonicalize p = none) :
    fs.resolve p = .missing loc := by
  rw [opened] at h
  rw [canonicalize] at hnone
  cases hp : fs.resolve p with
  | found loc' m =>
    rw [hp] at hnone
    cases hnone
  | missing loc' =>
    rw [hp] at h
    cases h
    rfl
  | failed =>
    rw [hp] at h
    cases h

theorem resolve_append {a : Location} (h : fs.canonicalize p = some a) :
    ∃ m, m ≤ fs.maxLinks ∧ ∀ more, more ≠ [] →
      fs.resolve ⟨p.isAbsolute, p.segments ++ more⟩ = fs.after more (.found a m) := by
  obtain ⟨hempty, m, hwalk⟩ := canonicalize_eq_some_iff.mp h
  refine ⟨m, (walk_exists (start_dir p) hwalk).2, fun more hmore => ?_⟩
  rw [resolve, Path.isEmpty_append hempty, if_neg Bool.false_ne_true, ← hwalk]
  exact walk_append (start_dir p) hmore p.segments

theorem canonicalize_components (h : fs.canonicalize p = some loc) :
    fs.canonicalize (.ofComponents p.components) = some loc := by
  obtain ⟨hempty, m, hwalk⟩ := canonicalize_eq_some_iff.mp h
  have hkept := walk_kept (start_dir p) hwalk
  refine canonicalize_eq_some_iff.mpr ?_
  rw [start] at hkept
  rw [start, Path.components]
  cases habsolute : p.isAbsolute with
  | true =>
    rw [habsolute] at hkept
    exact ⟨rfl, m, hkept⟩
  | false =>
    rw [habsolute] at hkept
    rw [if_neg Bool.false_ne_true]
    cases hsegments : p.segments with
    | nil =>
      rw [Path.isEmpty, habsolute, hsegments] at hempty
      cases hempty
    | cons segment rest =>
      rw [Path.isEmpty, habsolute, hsegments] at hempty
      rw [hsegments] at hkept
      split
      · next rest' hdot =>
        -- a leading `.` is kept
        obtain ⟨rfl, rfl⟩ := List.cons.inj hdot
        refine ⟨rfl, m, (walk_append_found fs.cwd_dir [['.']] (kept rest)).mpr
          ⟨fs.cwd, fs.maxLinks, walk_skip rfl _ _, fun _ => fs.cwd_dir, hkept⟩⟩
      · next hdot =>
        have hpath : Path.ofComponents ((segment :: rest).filterMap Path.component?) =
            ⟨false, kept (segment :: rest)⟩ := by
          cases hc : Path.component? segment with
          | none =>
            rcases Path.component?_eq_none_iff.mp hc with rfl | rfl
            · cases hempty
            · exact absurd rfl (hdot rest)
          | some c =>
            rw [kept, List.filterMap_cons_some hc]
            rcases Path.component?_cases hc with rfl | ⟨name, rfl, -⟩ <;> rfl
        have hkeptCons : kept (segment :: rest) = segment :: kept rest := by
          rcases kept_cons segment rest with ⟨hc, -⟩ | h
          · rcases Path.component?_eq_none_iff.mp hc with rfl | rfl
            · cases hempty
            · exact absurd rfl (hdot rest)
          · exact h
        rw [hpath]
        refine ⟨?_, m, hkept⟩
        rw [Path.isEmpty, hkeptCons]
        exact hempty

theorem canonicalize_join_skips {p q : Path} (h : fs.canonicalize p = some loc)
    (hloc : fs.node loc = some .dir) (hq : q.isAbsolute = false)
    (hskip : q.segments.filterMap Path.component? = []) :
    fs.canonicalize (p.join q) = some loc := by
  obtain ⟨hempty, m, hwalk⟩ := canonicalize_eq_some_iff.mp h
  have htrimmed : fs.walk fs.maxLinks (fs.start p) p.trimmed = .found loc m := by
    rw [Path.trimmed]
    split_ifs with hlast
    · obtain ⟨init, hinit⟩ := List.getLast?_eq_some_iff.mp hlast
      rw [hinit] at hwalk
      obtain ⟨a, k, hfirst, -, hend⟩ := (walk_append_found (start_dir p) init [[]]).mp hwalk
      rw [walk_skip rfl] at hend
      cases hend
      rw [hinit, List.dropLast_concat]
      exact hfirst
    · exact hwalk
  refine canonicalize_eq_some_iff.mpr ⟨Path.isEmpty_join hempty hq, m, ?_⟩
  rw [Path.join, hempty, hq, if_neg (show ¬(false || false) = true from Bool.false_ne_true)]
  exact (walk_append_found (start_dir p) p.trimmed q.segments).mpr
    ⟨loc, m, htrimmed, fun _ => hloc, walk_skips hskip m hloc⟩

theorem canonicalize_eq_none_of_missing (h : fs.resolve p = .missing loc) :
    fs.canonicalize p = none := by
  rw [canonicalize, h]

theorem canonicalize_of_found (h : fs.resolve p = .found loc m) : fs.canonicalize p = some loc := by
  rw [canonicalize, h]

theorem canonicalize_empty : fs.canonicalize (.ofComponents []) = none := rfl

theorem canonicalize_prefix (hempty : p.isEmpty = false) {more : List Text}
    (h : fs.canonicalize ⟨p.isAbsolute, p.segments ++ more⟩ = some loc) :
    ∃ a, fs.canonicalize p = some a := by
  obtain ⟨-, m, hwalk⟩ := canonicalize_eq_some_iff.mp h
  obtain ⟨a, k, hfirst, -⟩ := (walk_append_found (start_dir p) _ _).mp hwalk
  exact ⟨a, canonicalize_eq_some_iff.mpr ⟨hempty, k, hfirst⟩⟩

/-- How a path leads to a missing entry: it is the first one, or behind a link, or in a directory.
-/
theorem walk_missing_cases {a loc : Location} {names : List Text} (hname : IsName name)
    (ha : fs.node a = some .dir) (h : fs.walk m a (name :: names) = .missing loc) :
    (names = [] ∧ loc = a ++ [name]) ∨ (∃ target, fs.node (a ++ [name]) = some (.link target)) ∨
      names ≠ [] ∧ fs.Exists (a ++ [name]) := by
  by_cases hnames : names = []
  · subst hnames
    rw [walk_singleton hname] at h
    cases hnode : fs.node (a ++ [name]) with
    | none =>
      rw [hnode] at h
      cases h
      exact .inl ⟨rfl, rfl⟩
    | some node =>
      rw [hnode] at h
      cases node with
      | dir | file => cases h
      | link target => exact .inr (.inl ⟨target, rfl⟩)
  · have happend : fs.after names (fs.walk m a [name]) = .missing loc :=
      (walk_append ha hnames [name]).symm.trans h
    rw [walk_singleton hname] at happend
    cases hnode : fs.node (a ++ [name]) with
    | none =>
      rw [hnode] at happend
      cases happend
    | some node =>
      cases node with
      | dir => exact .inr (.inr ⟨hnames, .inl hnode⟩)
      | file => exact .inr (.inr ⟨hnames, .inr hnode⟩)
      | link target => exact .inr (.inl ⟨target, rfl⟩)

end FileSystem

end IronClaw.Foundation
