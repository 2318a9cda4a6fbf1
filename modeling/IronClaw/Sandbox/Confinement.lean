import IronClaw.Sandbox.Resolution

/-!
# Confinement of paths

What is opened or created has to be under the base directory. Both checks take a link to nothing for
a free name. A mount follows again what it has canonicalized.
-/

namespace IronClaw.Sandbox

open Foundation (Component FileSystem IsName Location Node Path Text)
open Foundation.FileSystem (after_file after_found canonicalize_components canonicalize_empty
  canonicalize_eq_none_of_missing canonicalize_eq_some_iff canonicalize_join_skips
  canonicalize_of_found canonicalize_ofNames canonicalize_prefix exists_of_after_eq_missing
  exists_of_canonicalize names_of_exists opened_of_canonicalize resolve_append resolve_of_opened
  walk_append walk_missing_cases walk_of_exists)
open List (append_assoc append_nil cons_append cons_ne_nil map_append map_nil reverse_append
  reverse_reverse singleton_append)

/-- What is opened at a path, or created there, is under the base. -/
def Confined (fs : FileSystem) (base : Location) (p : Path) : Prop :=
  ∀ loc, fs.opened p = some loc → base <+: loc

/-- The last name of a path is a link in a directory under the base, to a missing entry outside. -/
def DanglesOut (fs : FileSystem) (base : Location) (p : Path) : Prop :=
  ∃ front name a target loc, p.components = front ++ [.normal name] ∧
    fs.canonicalize (.ofComponents front) = some a ∧ base <+: a ∧
    fs.node (a ++ [name]) = some (.link target) ∧ fs.resolve p = .missing loc ∧ ¬base <+: loc

/-- A path exists up to a name, and nothing is found behind it. -/
structure EndsAt (fs : FileSystem) (path : Path) (front : List Component) (a : Location)
    (name : Text) (rest : List Text) : Prop where
  splits : path.components = front ++ Component.normal name :: rest.map Component.normal
  missing : fs.canonicalize path = none
  reached : fs.canonicalize (.ofComponents front) = some a
  stopped : rest ≠ [] → fs.canonicalize (.ofComponents (front ++ [.normal name])) = none

/-- A path ends at a link in a directory under the base that leads to a missing entry outside. -/
def LinksOut (fs : FileSystem) (base : Location) (path : Path) : Prop :=
  ∃ front a name rest target loc, EndsAt fs path front a name rest ∧ base <+: a ∧
    fs.node (a ++ [name]) = some (.link target) ∧
    fs.resolve (.ofNames (a ++ name :: rest)) = .missing loc ∧ ¬base <+: loc

variable {fs : FileSystem} {base : Location}

theorem confined_of_canonicalize {p : Path} {loc : Location} (h : fs.canonicalize p = some loc)
    (hloc : base <+: loc) : Confined fs base p := by
  intro loc' hloc'
  rw [opened_of_canonicalize h] at hloc'
  cases hloc'
  exact hloc

theorem prefix_of_link {a : Location} {name : Text} {target : Path} (hbase : fs.Exists base)
    (hlink : fs.node (a ++ [name]) = some (.link target)) (h : base <+: a ++ [name]) :
    base <+: a := by
  rcases List.prefix_concat_iff.mp h with h | h
  · rcases hbase with hnode | hnode <;> rw [h, hlink] at hnode <;> cases hnode
  · exact h

theorem appendedToAncestor_cases (q : Path) {isAbsolute : Bool} {names : List Text}
    (tail : List Text) (hnone : fs.canonicalize ⟨isAbsolute, names⟩ = none) :
    (isAbsolute = false ∧ appendedToAncestor fs q
        (Path.plain isAbsolute names).reverse tail = q) ∨
      ∃ front name rest a, names = front ++ name :: rest ∧
        fs.canonicalize ⟨isAbsolute, front⟩ = some a ∧
        fs.canonicalize ⟨isAbsolute, front ++ [name]⟩ = none ∧
        appendedToAncestor fs q (Path.plain isAbsolute names).reverse tail =
          (Path.ofNames a).extend (name :: rest ++ tail) := by
  induction names using List.reverseRecOn generalizing tail with
  | nil =>
    cases isAbsolute with
    | true =>
      -- the root exists
      have hroot : fs.canonicalize (.ofNames []) = some [] :=
        canonicalize_ofNames (.inl fs.root_dir)
      rw [show (⟨true, []⟩ : Path) = .ofNames [] from rfl, hroot] at hnone
      cases hnone
    | false => exact .inl ⟨rfl, rfl⟩
  | append_singleton names name ih =>
    have hcs : (Path.plain isAbsolute (names ++ [name])).reverse =
        .normal name :: (Path.plain isAbsolute names).reverse := by
      rw [Path.plain_append, reverse_append]
      rfl
    have hparent : Path.ofComponents
        (Path.plain isAbsolute names).reverse.reverse = ⟨isAbsolute, names⟩ := by
      rw [reverse_reverse, Path.ofComponents_plain]
    rw [hcs]
    cases hexists : fs.canonicalize ⟨isAbsolute, names⟩ with
    | some a =>
      refine .inr ⟨names, name, [], a, rfl, hexists, hnone, ?_⟩
      rw [appendedToAncestor, hparent, hexists]
      rfl
    | none =>
      have hstep : appendedToAncestor fs q
          (.normal name :: (Path.plain isAbsolute names).reverse) tail =
          appendedToAncestor fs q (Path.plain isAbsolute names).reverse
            (name :: tail) := by
        rw [appendedToAncestor, hparent, hexists]
      rw [hstep]
      refine (ih (name :: tail) hexists).imp_right ?_
      rintro ⟨front, first, rest, a, rfl, hfront, hnext, hresult⟩
      refine ⟨front, first, rest ++ [name], a, ?_, hfront, hnext, ?_⟩
      · rw [append_assoc, cons_append]
      · rw [hresult, cons_append, cons_append, append_assoc, singleton_append]

theorem confined_of_lexical {isAbsolute : Bool} {names : List Text} (hbase : fs.Exists base)
    (hnames : ∀ name ∈ names, IsName name) (hnone : fs.canonicalize ⟨isAbsolute, names⟩ = none)
    (hcheck : (checkPath fs ⟨isAbsolute, names⟩).startsWith (.ofNames base) = true)
    (hdangles : ¬DanglesOut fs base ⟨isAbsolute, names⟩) :
    Confined fs base ⟨isAbsolute, names⟩ := by
  intro loc hloc
  have hmissing := resolve_of_opened hloc hnone
  have hbaseNames := names_of_exists (hbase.elim (fun h => ⟨_, h⟩) fun h => ⟨_, h⟩)
  rw [checkPath, hnone] at hcheck
  dsimp only at hcheck
  rw [Path.components_plain hnames] at hcheck
  rcases appendedToAncestor_cases ⟨isAbsolute, names⟩ [] hnone with
    ⟨rfl, hresult⟩ | ⟨front, name, rest, a, rfl, hfront, hnext, hresult⟩
  · -- a relative path is not under the base
    rw [hresult, Path.startsWith, List.isPrefixOf_iff_prefix, Path.components_names hbaseNames,
      Path.components_plain hnames] at hcheck
    obtain ⟨more, hmore⟩ := hcheck
    cases names with
    | nil => cases hmore
    | cons name names => cases hmore
  · have ha := exists_of_canonicalize hfront
    have haNames := names_of_exists (ha.elim (fun h => ⟨_, h⟩) fun h => ⟨_, h⟩)
    have hrest : ∀ n ∈ name :: rest, IsName n := fun n hn =>
      hnames n (List.mem_append_right front hn)
    rw [hresult, append_nil, Path.extend_ofNames haNames hrest,
      Path.startsWith_names_iff ?_ hbaseNames] at hcheck
    · obtain ⟨m, -, hresolve⟩ := resolve_append hfront
      have hfollowed : fs.after (name :: rest) (.found a m) = .missing loc :=
        (hresolve _ (cons_ne_nil _ _)).symm.trans hmissing
      have hnextFollowed :
          fs.resolve ⟨isAbsolute, front ++ [name]⟩ = fs.after [name] (.found a m) :=
        hresolve _ (cons_ne_nil _ _)
      rcases ha with ha | ha
      · rw [after_found ha] at hfollowed hnextFollowed
        have hnotFound : ∀ l k, fs.walk m a [name] ≠ .found l k := by
          intro l k h
          rw [canonicalize_of_found (hnextFollowed.trans h)] at hnext
          cases hnext
        have hend : rest = [] := by
          by_contra hrestNe
          obtain ⟨l, k, hfound⟩ := exists_of_after_eq_missing
            ((walk_append ha hrestNe [name]).symm.trans hfollowed)
          exact hnotFound l k hfound
        subst hend
        rcases walk_missing_cases (hrest name List.mem_cons_self) ha hfollowed with
          ⟨-, rfl⟩ | ⟨target, hlink⟩ | ⟨h, -⟩
        · exact hcheck
        · by_contra hout
          refine hdangles ⟨Path.plain isAbsolute front, name, a, target, loc, ?_, ?_,
            prefix_of_link hbase hlink hcheck, hlink, hmissing, hout⟩
          · rw [Path.components_plain hnames, Path.plain_append]
            rfl
          · rw [Path.ofComponents_plain]
            exact hfront
        · exact absurd rfl h
      · rw [after_file ha] at hfollowed
        cases hfollowed
    · intro n hn
      rcases List.mem_append.mp hn with hn | hn
      · exact haNames n hn
      · exact hrest n hn

section ValidatePath

variable {pathStr : Text} {basePath p : Path}

theorem names_of_base (h : fs.Exists base) : ∀ name ∈ base, IsName name :=
  names_of_exists (h.elim (fun h => ⟨_, h⟩) fun h => ⟨_, h⟩)

theorem validatePath_eq_ok_iff (hbase : fs.canonicalize basePath = some base) :
    validatePath fs pathStr (some basePath) = .ok p ↔ isPathSafeMinimal pathStr = true ∧
      (checkPath fs (canonicalOrLexical fs (joined basePath (.ofText pathStr)))).startsWith
        (.ofNames base) = true ∧ canonicalOrLexical fs (joined basePath (.ofText pathStr)) = p := by
  have hcanonical : canonicalOrLexical fs basePath = .ofNames base := by
    rw [canonicalOrLexical, hbase]
  rw [validatePath]
  dsimp only
  rw [hcanonical]
  cases isPathSafeMinimal pathStr with
  | false => simp
  | true =>
    rw [if_neg (show ¬(!true) = true from Bool.false_ne_true)]
    split_ifs with hcheck <;> simp [hcheck]

/-- A path of a tool that is let through, does not exist, and dangles out without its dots. -/
def ToolPathDangles (fs : FileSystem) (base : Location) (basePath : Path) (pathStr : Text) : Prop :=
  isPathSafeMinimal pathStr = true ∧ fs.canonicalize (joined basePath (.ofText pathStr)) = none ∧
    DanglesOut fs base (joined basePath (.ofText pathStr)).normalizeLexical

theorem not_confined_of_dangles (hbase : fs.canonicalize basePath = some base)
    (h : ToolPathDangles fs base basePath pathStr) :
    ∃ p, validatePath fs pathStr (some basePath) = .ok p ∧ ¬Confined fs base p := by
  obtain ⟨hsafe, hnone, hdangles⟩ := h
  obtain ⟨front, name, a, target, loc, hcomponents, hfront, hprefix, hlink, hmissing, hout⟩ :=
    hdangles
  have hresolved : canonicalOrLexical fs (joined basePath (.ofText pathStr)) =
      (joined basePath (.ofText pathStr)).normalizeLexical := by
    rw [canonicalOrLexical, hnone]
  refine ⟨_, (validatePath_eq_ok_iff hbase).mpr ⟨hsafe, ?_, rfl⟩, fun hconfined => hout ?_⟩
  · have hnames : ∀ n ∈ a ++ [name], IsName n := names_of_exists ⟨_, hlink⟩
    have hancestor : appendedToAncestor fs (joined basePath (.ofText pathStr)).normalizeLexical
        (.normal name :: front.reverse) [] = (Path.ofNames a).extend [name] := by
      rw [appendedToAncestor, reverse_reverse, hfront]
    rw [hresolved, checkPath, canonicalize_eq_none_of_missing hmissing]
    dsimp only
    rw [hcomponents, reverse_append, List.reverse_singleton, singleton_append, hancestor,
      Path.extend_ofNames (fun n hn => hnames n (List.mem_append_left _ hn))
        (fun n hn => hnames n (List.mem_append_right _ hn)),
      Path.startsWith_names_iff hnames (names_of_base (exists_of_canonicalize hbase))]
    exact hprefix.trans (List.prefix_append a [name])
  · refine hconfined loc ?_
    rw [hresolved, FileSystem.opened, hmissing]

theorem validatePath_confined_iff (hbase : fs.canonicalize basePath = some base) :
    (∀ p, validatePath fs pathStr (some basePath) = .ok p → Confined fs base p) ↔
      ¬ToolPathDangles fs base basePath pathStr := by
  constructor
  · intro h hdangles
    obtain ⟨p, hp, hout⟩ := not_confined_of_dangles hbase hdangles
    exact hout (h p hp)
  · intro hnot p hp
    obtain ⟨hsafe, hcheck, rfl⟩ := (validatePath_eq_ok_iff hbase).mp hp
    have hexists := exists_of_canonicalize hbase
    rw [ToolPathDangles] at hnot
    rw [canonicalOrLexical] at hcheck ⊢
    cases hjoined : fs.canonicalize (joined basePath (.ofText pathStr)) with
    | some loc =>
      -- what exists is canonical
      rw [hjoined] at hcheck
      have hloc := exists_of_canonicalize hjoined
      have hsame := canonicalize_ofNames hloc
      rw [checkPath, hsame] at hcheck
      exact confined_of_canonicalize hsame
        ((Path.startsWith_names_iff (names_of_base hloc) (names_of_base hexists)).mp hcheck)
    | none =>
      rw [hjoined] at hcheck hnot
      obtain ⟨names, hnames, hlexical⟩ :=
        Path.normalizeLexical_eq (joined basePath (.ofText pathStr))
      rw [hlexical] at hcheck hnot ⊢
      dsimp only at hcheck ⊢
      cases hagain : fs.canonicalize ⟨(joined basePath (.ofText pathStr)).isAbsolute, names⟩ with
      | some loc =>
        rw [checkPath, hagain] at hcheck
        exact confined_of_canonicalize hagain ((Path.startsWith_names_iff
          (names_of_base (exists_of_canonicalize hagain)) (names_of_base hexists)).mp hcheck)
      | none =>
        exact confined_of_lexical hexists hnames hagain hcheck fun hdangles =>
          hnot ⟨hsafe, rfl, hdangles⟩

end ValidatePath

section Backend

variable {backend : FilesystemBackend} {relPath p joined : Path}

theorem climb_cases (p : Path) {front : List Component} {a₀ : Location}
    (hfront : fs.canonicalize (.ofComponents front) = some a₀) {names : List Text}
    (hnames : names ≠ []) (tail : List Text) : ∃ xs name rest a, names = xs ++ name :: rest ∧
      fs.canonicalize (.ofComponents (front ++ xs.map Component.normal)) = some a ∧ (rest ≠ [] →
        fs.canonicalize
          (.ofComponents (front ++ xs.map Component.normal ++ [.normal name])) = none) ∧
      FilesystemBackend.climb fs p (front ++ names.map Component.normal).reverse tail =
        (.ofComponents (front ++ xs.map Component.normal), name :: rest ++ tail) := by
  induction names using List.reverseRecOn generalizing p tail with
  | nil => exact absurd rfl hnames
  | append_singleton names name ih =>
    have hcs : (front ++ (names ++ [name]).map Component.normal).reverse =
        .normal name :: (front ++ names.map Component.normal).reverse := by
      rw [map_append, ← append_assoc, reverse_append]
      rfl
    rw [hcs, FilesystemBackend.climb, reverse_reverse]
    cases hexists : fs.canonicalize (.ofComponents (front ++ names.map Component.normal)) with
    | some a =>
      exact ⟨names, name, [], a, rfl, hexists, fun h => absurd rfl h, rfl⟩
    | none =>
      -- the climb goes on, and stops at the front at the latest
      have hne : names ≠ [] := by
        rintro rfl
        rw [map_nil, append_nil, hfront] at hexists
        cases hexists
      obtain ⟨xs, first, rest, a, rfl, hxs, hnext, hclimb⟩ :=
        ih (.ofComponents (front ++ names.map Component.normal)) hne (name :: tail)
      refine ⟨xs, first, rest ++ [name], a, ?_, hxs, fun _ => ?_, ?_⟩
      · rw [append_assoc, cons_append]
      · by_cases hrest : rest = []
        · subst hrest
          rw [map_append, ← append_assoc] at hexists
          exact hexists
        · exact hnext hrest
      · show FilesystemBackend.climb fs _ _ (name :: tail) = _
        rw [hclimb, cons_append, cons_append, append_assoc, singleton_append]

theorem ne_nil_of_canonicalize {front : List Component} {a : Location}
    (h : fs.canonicalize (.ofComponents front) = some a) : front ≠ [] := by
  rintro rfl
  rw [canonicalize_empty] at h
  cases h

theorem isEmpty_snoc {front : List Component} {a : Location}
    (h : fs.canonicalize (.ofComponents front) = some a) (name : Text) :
    (Path.ofComponents (front ++ [.normal name])).isEmpty = false := by
  rw [Path.ofComponents_append (ne_nil_of_canonicalize h)]
  exact Path.isEmpty_append (canonicalize_eq_some_iff.mp h).1 _

theorem climb_eq {front : List Component} {a : Location} {name : Text}
    (hfront : fs.canonicalize (.ofComponents front) = some a) {rest tail : List Text}
    (hnext : rest ≠ [] → fs.canonicalize (.ofComponents (front ++ [.normal name])) = none) :
    FilesystemBackend.climb fs p
        (front ++ Component.normal name :: rest.map Component.normal).reverse tail =
      (.ofComponents front, name :: rest ++ tail) := by
  induction rest using List.reverseRecOn generalizing p tail with
  | nil =>
    rw [map_nil, reverse_append, List.reverse_singleton, singleton_append,
      FilesystemBackend.climb, reverse_reverse, hfront]
    rfl
  | append_singleton rest last ih =>
    have hcs : (front ++ Component.normal name :: (rest ++ [last]).map Component.normal).reverse =
        .normal last :: (front ++ Component.normal name :: rest.map Component.normal).reverse := by
      rw [map_append, ← cons_append, ← append_assoc, reverse_append]
      rfl
    have hnone := hnext (List.append_ne_nil_of_right_ne_nil rest (cons_ne_nil last []))
    have hlonger : fs.canonicalize
        (.ofComponents (front ++ Component.normal name :: rest.map Component.normal)) = none := by
      by_contra hsome
      obtain ⟨loc, hloc⟩ := Option.ne_none_iff_exists'.mp hsome
      rw [show front ++ Component.normal name :: rest.map Component.normal =
        (front ++ [.normal name]) ++ rest.map Component.normal by simp,
        Path.ofComponents_append (List.append_ne_nil_of_right_ne_nil front
          (cons_ne_nil _ []))] at hloc
      obtain ⟨a', ha'⟩ := canonicalize_prefix (isEmpty_snoc hfront name) hloc
      rw [hnone] at ha'
      cases ha'
    rw [hcs, FilesystemBackend.climb, reverse_reverse, hlonger]
    show FilesystemBackend.climb fs _ _ (last :: tail) = _
    rw [ih fun _ => hnone, cons_append, cons_append, append_assoc,
      singleton_append]

theorem canonicalizeUnderRoot_eq {path existing : Path} {tail : List Text} {a : Location}
    (hbase : fs.canonicalize backend.root = some base)
    (hexisting : FilesystemBackend.existingPrefix fs path = (existing, tail))
    (ha : fs.canonicalize existing = some a) (htail : ∀ name ∈ tail, IsName name) :
    backend.canonicalizeUnderRoot fs path =
      if ¬base <+: a then .error (.invalidPath path.toText
        "resolved path escapes the mount root via symlink".toList)
      else
        match fs.canonicalize (.ofNames (a ++ tail)) with
        | some loc =>
          if ¬base <+: loc then .error (.invalidPath path.toText
            "resolved path escapes the mount root via symlink (post-assembly check)".toList)
          else .ok (.ofNames loc)
        | none => .ok (.ofNames (a ++ tail)) := by
  have hbaseNames := names_of_base (exists_of_canonicalize hbase)
  have haNames := names_of_base (exists_of_canonicalize ha)
  have hstarts : ∀ loc : Location, (∀ name ∈ loc, IsName name) →
      ((!(Path.ofNames loc).startsWith (.ofNames base)) = true ↔ ¬base <+: loc) := by
    intro loc hloc
    rw [Bool.not_eq_true', ← Bool.not_eq_true, Path.startsWith_names_iff hloc hbaseNames]
  rw [FilesystemBackend.canonicalizeUnderRoot, hbase]
  dsimp only
  rw [hexisting]
  dsimp only
  rw [ha]
  dsimp only
  rw [Path.extend_ofNames haNames htail]
  refine if_congr (hstarts a haNames) rfl ?_
  cases hagain : fs.canonicalize (.ofNames (a ++ tail)) with
  | none => rfl
  | some loc => exact if_congr (hstarts loc (names_of_base (exists_of_canonicalize hagain))) rfl rfl

theorem confined_of_exists {path : Path} {loc : Location}
    (hbase : fs.canonicalize backend.root = some base) (h : fs.canonicalize path = some loc)
    (hp : backend.canonicalizeUnderRoot fs path = .ok p) : Confined fs base p := by
  have hexisting : FilesystemBackend.existingPrefix fs path = (path, []) := by
    rw [FilesystemBackend.existingPrefix, h]
    rfl
  have hsame := canonicalize_ofNames (exists_of_canonicalize h)
  rw [canonicalizeUnderRoot_eq hbase hexisting h fun n hn => absurd hn List.not_mem_nil,
    append_nil, hsame] at hp
  by_cases hloc : base <+: loc
  · rw [if_neg (not_not.mpr hloc)] at hp
    dsimp only at hp
    rw [if_neg (not_not.mpr hloc)] at hp
    cases hp
    exact confined_of_canonicalize hsame hloc
  · rw [if_pos hloc] at hp
    cases hp

section EndsAt

variable {path : Path} {front : List Component} {a : Location} {name : Text} {rest : List Text}

theorem EndsAt.isName (h : EndsAt fs path front a name rest) : ∀ n ∈ name :: rest, IsName n := by
  intro n hn
  refine Path.isName_of_mem_components (p := path) ?_
  rw [h.splits]
  exact List.mem_append_right _ (List.mem_map_of_mem (f := Component.normal) hn)

theorem EndsAt.existingPrefix_eq (h : EndsAt fs path front a name rest) :
    FilesystemBackend.existingPrefix fs path = (.ofComponents front, name :: rest) := by
  rw [FilesystemBackend.existingPrefix, h.missing, h.splits]
  show FilesystemBackend.climb fs path _ [] = _
  rw [climb_eq h.reached h.stopped, append_nil]

theorem EndsAt.confined (h : EndsAt fs path front a name rest)
    (hbase : fs.canonicalize backend.root = some base)
    (hp : backend.canonicalizeUnderRoot fs path = .ok p) (hnot : ¬LinksOut fs base path) :
    Confined fs base p := by
  rw [canonicalizeUnderRoot_eq hbase h.existingPrefix_eq h.reached h.isName] at hp
  by_cases ha : base <+: a
  · rw [if_neg (not_not.mpr ha)] at hp
    cases hagain : fs.canonicalize (.ofNames (a ++ name :: rest)) with
    | some loc =>
      rw [hagain] at hp
      dsimp only at hp
      by_cases hloc : base <+: loc
      · rw [if_neg (not_not.mpr hloc)] at hp
        cases hp
        exact confined_of_canonicalize (canonicalize_ofNames (exists_of_canonicalize hagain)) hloc
      · rw [if_pos hloc] at hp
        cases hp
    | none =>
      rw [hagain] at hp
      cases hp
      intro loc hopened
      have hmissing := resolve_of_opened hopened hagain
      have haExists := exists_of_canonicalize h.reached
      obtain ⟨m, -, hresolve⟩ := resolve_append (canonicalize_ofNames haExists)
      have hfollowed : fs.after (name :: rest) (.found a m) = .missing loc :=
        (hresolve _ (cons_ne_nil _ _)).symm.trans hmissing
      rcases haExists with hdir | hfile
      · rw [after_found hdir] at hfollowed
        have hname := h.isName name List.mem_cons_self
        rcases walk_missing_cases hname hdir hfollowed with
          ⟨-, rfl⟩ | ⟨target, hlink⟩ | ⟨hrest, hnext⟩
        · exact ha.trans (List.prefix_append a [name])
        · by_contra hout
          exact hnot ⟨front, a, name, rest, target, loc, h, ha, hlink, hmissing, hout⟩
        · -- the name would have been found before
          obtain ⟨k, -, hbefore⟩ := resolve_append h.reached
          have hsnoc := hbefore [name] (cons_ne_nil _ _)
          rw [after_found hdir, walk_of_exists hname hnext] at hsnoc
          have hstopped := h.stopped hrest
          rw [Path.ofComponents_snoc (ne_nil_of_canonicalize h.reached),
            canonicalize_of_found hsnoc] at hstopped
          cases hstopped
      · rw [after_file hfile] at hfollowed
        cases hfollowed
  · rw [if_pos ha] at hp
    cases hp

end EndsAt

theorem safeJoin_eq_ok (h : backend.safeJoin relPath = .ok joined) :
    relPath.isAbsolute = false ∧ joined = backend.root.join relPath ∧
      ∃ names : List Text, relPath.segments.filterMap Path.component? =
        names.map Component.normal := by
  rw [FilesystemBackend.safeJoin] at h
  split at h
  · cases h
  · next hrelative =>
    split at h
    · next hfind =>
      cases h
      refine ⟨Bool.eq_false_iff.mpr hrelative, rfl, Path.exists_names fun c hc => ?_⟩
      have hallowed := List.find?_eq_none.mp hfind c (Path.mem_components_of_segments hc)
      obtain ⟨segment, -, hsegment⟩ := List.mem_filterMap.mp hc
      rcases Path.component?_cases hsegment with rfl | ⟨name, rfl, -⟩
      · exact absurd (by decide) hallowed
      · exact ⟨name, rfl⟩
    · cases h
    · cases h

theorem resolve_confined_iff (hbase : fs.canonicalize backend.root = some base)
    (hdir : fs.node base = some .dir) :
    (∀ p, backend.resolve fs relPath = .ok p → Confined fs base p) ↔
      ¬∃ joined, backend.safeJoin relPath = .ok joined ∧ LinksOut fs base joined := by
  constructor
  · rintro h ⟨joined, hjoin, front, a, name, rest, target, loc, hends, ha, -, hmissing, hout⟩
    have hok : backend.resolve fs relPath = .ok (.ofNames (a ++ name :: rest)) := by
      rw [FilesystemBackend.resolve, hjoin]
      show backend.canonicalizeUnderRoot fs joined = _
      rw [canonicalizeUnderRoot_eq hbase hends.existingPrefix_eq hends.reached hends.isName,
        if_neg (not_not.mpr ha), canonicalize_eq_none_of_missing hmissing]
    -- what the link stands for is not there, and would be made outside
    refine hout (h _ hok loc ?_)
    rw [FileSystem.opened, hmissing]
  · intro hnot p hp
    cases hjoin : backend.safeJoin relPath with
    | error e =>
      rw [FilesystemBackend.resolve, hjoin] at hp
      cases hp
    | ok joined =>
      rw [FilesystemBackend.resolve, hjoin] at hp
      have hp' : backend.canonicalizeUnderRoot fs joined = .ok p := hp
      cases hexists : fs.canonicalize joined with
      | some loc => exact confined_of_exists hbase hexists hp'
      | none =>
        obtain ⟨hrelative, rfl, names, hnames⟩ := safeJoin_eq_ok hjoin
        have hne : names ≠ [] := by
          rintro rfl
          rw [canonicalize_join_skips hbase hdir hrelative hnames] at hexists
          cases hexists
        have hcomponents : (backend.root.join relPath).components =
            backend.root.components ++ names.map Component.normal := by
          rw [Path.components_join (canonicalize_eq_some_iff.mp hbase).1 hrelative, hnames]
        obtain ⟨xs, name, rest, a, rfl, hreached, hstopped, -⟩ := climb_cases p
          (canonicalize_components hbase) hne []
        have hends : EndsAt fs (backend.root.join relPath)
            (backend.root.components ++ xs.map Component.normal) a name rest :=
          ⟨by rw [hcomponents, map_append, append_assoc]; rfl, hexists, hreached,
            hstopped⟩
        exact hends.confined hbase hp' fun hlinks => hnot ⟨_, hjoin, hlinks⟩

end Backend

/-- **The two checks** confine what is opened or created, unless the path ends at a link out of the
base. -/
theorem confined_iff {basePath : Path} (hbase : fs.canonicalize basePath = some base)
    (hdir : fs.node base = some .dir) :
    (∀ pathStr, (∀ p, validatePath fs pathStr (some basePath) = .ok p → Confined fs base p) ↔
      ¬ToolPathDangles fs base basePath pathStr) ∧
    ∀ relPath, (∀ p, (⟨basePath⟩ : FilesystemBackend).resolve fs relPath = .ok p →
        Confined fs base p) ↔
      ¬∃ path, (⟨basePath⟩ : FilesystemBackend).safeJoin relPath = .ok path ∧
        LinksOut fs base path :=
  ⟨fun _ => validatePath_confined_iff hbase, fun _ => resolve_confined_iff hbase hdir⟩

/-- In `base` are a directory `sub` and a link `l` to a file of `out` that does not exist. -/
def linkedNode : Location → Option Node
  | [] => some .dir
  | [name] => if name = "base".toList ∨ name = "out".toList then some .dir else none
  | [dir, name] =>
    if dir = "base".toList then
      if name = "sub".toList then some .dir
      else if name = "l".toList then some (.link (.ofText "/out/f".toList))
      else none
    else none
  | _ => none

def linkedFiles : FileSystem where
  node := linkedNode
  cwd := []
  maxLinks := 40
  root_dir := rfl
  cwd_dir := rfl
  parent_dir loc name n h := by
    match loc with
    | [] => rfl
    | [dir] =>
      have hdir : dir = "base".toList := by
        by_contra hne
        rw [show linkedNode ([dir] ++ [name]) = none from if_neg hne] at h
        cases h
      exact if_pos (.inl hdir)
    | [_, _] => cases h
    | _ :: _ :: _ :: _ => cases h
  named loc name n h := by
    match loc with
    | [] =>
      by_contra hne
      have hother : ¬(name = "base".toList ∨ name = "out".toList) := by
        rintro (rfl | rfl) <;> exact hne (by decide)
      rw [show linkedNode ([] ++ [name]) = none from if_neg hother] at h
      cases h
    | [dir] =>
      by_contra hne
      have hsub : name ≠ "sub".toList := by
        rintro rfl
        exact hne (by decide)
      have hl : name ≠ "l".toList := by
        rintro rfl
        exact hne (by decide)
      have hnone : linkedNode ([dir] ++ [name]) = none := by
        show (if dir = _ then if name = _ then _ else if name = _ then _ else _ else _) = none
        rw [if_neg hsub, if_neg hl]
        exact ite_self none
      rw [hnone] at h
      cases h
    | [_, _] => cases h
    | _ :: _ :: _ :: _ => cases h

def basePath : Path := .ofText "/base".toList

set_option maxRecDepth 4000 in
theorem confined_sub :
    Confined linkedFiles ["base".toList] (.ofNames ["base".toList, "sub".toList]) := by
  have htools := (@confined_iff linkedFiles _ basePath rfl rfl).1 "sub".toList
  refine htools.mpr ?_ _ rfl
  rintro ⟨-, hnone, -⟩
  cases hnone

set_option maxRecDepth 4000 in
/-- A link to nothing is let through by both checks, and what is created at its path is outside. -/
theorem link_escapes :
    validatePath linkedFiles "l".toList (some basePath) =
        .ok (.ofNames ["base".toList, "l".toList]) ∧
      (⟨basePath⟩ : FilesystemBackend).resolve linkedFiles (.ofText "l".toList) =
        .ok (.ofNames ["base".toList, "l".toList]) ∧
      linkedFiles.opened (.ofNames ["base".toList, "l".toList]) =
        some ["out".toList, "f".toList] ∧
      ¬Confined linkedFiles ["base".toList] (.ofNames ["base".toList, "l".toList]) := by
  refine ⟨rfl, rfl, rfl, fun h => ?_⟩
  have hprefix := h _ rfl
  revert hprefix
  decide

end IronClaw.Sandbox
