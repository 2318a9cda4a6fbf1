import Mathlib.Data.List.Infix
import IronClaw.Foundation.Text

/-!
# Paths

A path is what stands between its separators. Its components leave out empty segments, and `.`
unless a relative path starts with it. An operating system is given the segments.
-/

namespace IronClaw.Foundation

open List (cons_append filterMap_append filterMap_cons_some mem_cons mem_cons_of_mem mem_cons_self)

inductive Component where
  | rootDir
  | curDir
  | parentDir
  | normal (name : Text)
deriving DecidableEq

def Component.segment : Component → Text
  | rootDir => []
  | curDir => ['.']
  | parentDir => ['.', '.']
  | normal name => name

def IsName (s : Text) : Prop := s ≠ [] ∧ s ≠ ['.'] ∧ s ≠ ['.', '.']

instance (s : Text) : Decidable (IsName s) := inferInstanceAs (Decidable (_ ∧ _ ∧ _))

structure Path where
  isAbsolute : Bool
  segments : List Text
deriving DecidableEq

namespace Path

def ofText : Text → Path
  | '/' :: s => ⟨true, Text.splitOn '/' s⟩
  | s => ⟨false, Text.splitOn '/' s⟩

/-- The path that is the empty text. No other relative path starts with an empty segment. -/
def isEmpty (p : Path) : Bool := !p.isAbsolute && (p.segments.headD []).isEmpty

/-- What a segment stands for, unless a relative path starts with it. -/
def component? (segment : Text) : Option Component :=
  if segment = [] ∨ segment = ['.'] then none
  else if segment = ['.', '.'] then some .parentDir
  else some (.normal segment)

def components (p : Path) : List Component :=
  if p.isAbsolute then .rootDir :: p.segments.filterMap component?
  else
    match p.segments with
    | ['.'] :: rest => .curDir :: rest.filterMap component?
    | segments => segments.filterMap component?

def ofComponents : List Component → Path
  | .rootDir :: cs => ⟨true, cs.map Component.segment⟩
  | cs => ⟨false, cs.map Component.segment⟩

def ofNames (names : List Text) : Path := ⟨true, names⟩

def toText (p : Path) : Text :=
  (if p.isAbsolute then ['/'] else []) ++ Text.joinWith ['/'] p.segments

/-- The segments without the empty one behind a trailing separator. -/
def trimmed (p : Path) : List Text :=
  if p.segments.getLast? = some [] then p.segments.dropLast else p.segments

def join (p q : Path) : Path :=
  if q.isAbsolute || p.isEmpty then q else ⟨p.isAbsolute, p.trimmed ++ q.segments⟩

def extend (p : Path) (names : List Text) : Path :=
  names.foldl (fun p name => p.join ⟨false, [name]⟩) p

/-- The components of one path begin with those of the other. -/
def startsWith (p q : Path) : Bool := q.components.isPrefixOf p.components

def pushComponent (cs : List Component) : Component → List Component
  | .parentDir =>
    match cs with
    | .normal _ :: rest => rest
    | cs => cs
  | .curDir => cs
  | c => c :: cs

def normalizeLexical (p : Path) : Path :=
  ofComponents (p.components.foldl pushComponent []).reverse

variable {names : List Text}

theorem getLast?_ne_nil_of_names (h : ∀ name ∈ names, IsName name) :
    names.getLast? ≠ some [] := fun hlast => (h [] (List.mem_of_getLast? hlast)).1 rfl

theorem extend_ofNames {names more : List Text} (h : ∀ name ∈ names, IsName name)
    (hmore : ∀ name ∈ more, IsName name) :
    (ofNames names).extend more = ofNames (names ++ more) := by
  induction more generalizing names with
  | nil => rw [List.append_nil]; rfl
  | cons name more ih =>
    have hjoin : (ofNames names).join ⟨false, [name]⟩ = ofNames (names ++ [name]) := by
      show (⟨true, (ofNames names).trimmed ++ [name]⟩ : Path) = _
      rw [trimmed, if_neg (show ¬(ofNames names).segments.getLast? = some [] from
        getLast?_ne_nil_of_names h)]
      rfl
    show ((ofNames names).join ⟨false, [name]⟩).extend more = _
    rw [hjoin, ih ?_ fun n hn => hmore n (mem_cons_of_mem name hn), List.append_assoc]
    · rfl
    · intro n hn
      rcases List.mem_append.mp hn with hn | hn
      · exact h n hn
      · rw [List.mem_singleton.mp hn]
        exact hmore name mem_cons_self

theorem component?_of_isName {s : Text} (h : IsName s) : component? s = some (.normal s) := by
  rw [component?, if_neg (not_or.mpr ⟨h.1, h.2.1⟩), if_neg h.2.2]

theorem isName_of_component? {s name : Text} (h : component? s = some (.normal name)) :
    s = name ∧ IsName s := by
  unfold component? at h
  split at h
  · cases h
  · next hskip =>
    split at h
    · cases h
    · next hparent =>
      obtain ⟨hempty, hdot⟩ := not_or.mp hskip
      exact ⟨Component.normal.inj (Option.some.inj h), hempty, hdot, hparent⟩

theorem component?_eq_none_iff {s : Text} : component? s = none ↔ s = [] ∨ s = ['.'] := by
  constructor
  · intro h
    by_contra hskip
    unfold component? at h
    rw [if_neg hskip] at h
    split at h <;> cases h
  · intro h
    rw [component?, if_pos h]

theorem filterMap_component?_names (h : ∀ name ∈ names, IsName name) :
    names.filterMap component? = names.map .normal := by
  induction names with
  | nil => rfl
  | cons name names ih =>
    rw [filterMap_cons_some (component?_of_isName (h name mem_cons_self)), List.map_cons,
      ih fun n hn => h n (mem_cons_of_mem name hn)]

theorem components_names (h : ∀ name ∈ names, IsName name) :
    (ofNames names).components = .rootDir :: names.map .normal := by
  rw [components, if_pos (show (ofNames names).isAbsolute = true from rfl)]
  exact congrArg _ (filterMap_component?_names h)

theorem startsWith_names_iff {names names' : List Text} (h : ∀ name ∈ names, IsName name)
    (h' : ∀ name ∈ names', IsName name) :
    (ofNames names).startsWith (ofNames names') = true ↔ names' <+: names := by
  rw [startsWith, List.isPrefixOf_iff_prefix, components_names h, components_names h',
    List.cons_prefix_cons, and_iff_right rfl]
  constructor
  · intro hprefix
    have := hprefix.filterMap fun | .normal name => some name | _ => none
    simpa [List.filterMap_map, Function.comp_def] using this
  · exact fun hprefix => hprefix.map _

variable {cs : List Component}

theorem ofComponents_append (h : cs ≠ []) (ds : List Component) :
    ofComponents (cs ++ ds) =
      ⟨(ofComponents cs).isAbsolute, (ofComponents cs).segments ++ ds.map Component.segment⟩ := by
  cases cs with
  | nil => exact absurd rfl h
  | cons c cs => cases c <;> simp [ofComponents]

theorem ofComponents_snoc (h : cs ≠ []) (name : Text) :
    ofComponents (cs ++ [.normal name]) =
      ⟨(ofComponents cs).isAbsolute, (ofComponents cs).segments ++ [name]⟩ :=
  ofComponents_append h [.normal name]

theorem map_segment_normal (names : List Text) :
    (names.map Component.normal).map Component.segment = names := by
  rw [List.map_map]
  exact List.map_id names

@[simp] theorem ofComponents_names (names : List Text) :
    ofComponents (.rootDir :: names.map .normal) = ofNames names :=
  congrArg ofNames (map_segment_normal names)

theorem ofComponents_relative (names : List Text) :
    ofComponents (names.map .normal) = ⟨false, names⟩ := by
  cases names with
  | nil => rfl
  | cons name names =>
    exact congrArg (Path.mk false) (map_segment_normal (name :: names))

variable {p : Path}

theorem isEmpty_append (h : p.isEmpty = false) (more : List Text) :
    (⟨p.isAbsolute, p.segments ++ more⟩ : Path).isEmpty = false := by
  rw [isEmpty, Bool.and_eq_false_iff] at h ⊢
  refine h.imp_right fun h => ?_
  cases hsegments : p.segments with
  | nil =>
    rw [hsegments] at h
    cases h
  | cons segment rest =>
    rw [hsegments] at h
    exact h

def plain (isAbsolute : Bool) (names : List Text) : List Component :=
  (if isAbsolute then [.rootDir] else []) ++ names.map .normal

theorem plain_append (isAbsolute : Bool) (names more : List Text) :
    plain isAbsolute (names ++ more) = plain isAbsolute names ++ more.map .normal := by
  rw [plain, plain, List.map_append, List.append_assoc]

theorem components_plain {isAbsolute : Bool} (h : ∀ name ∈ names, IsName name) :
    (⟨isAbsolute, names⟩ : Path).components = plain isAbsolute names := by
  cases isAbsolute with
  | true => exact components_names h
  | false =>
    rw [components, if_neg Bool.false_ne_true]
    split
    · next rest hsegments =>
      obtain rfl : names = ['.'] :: rest := hsegments
      exact absurd rfl (h ['.'] mem_cons_self).2.1
    · exact filterMap_component?_names h

theorem ofComponents_plain (isAbsolute : Bool) (names : List Text) :
    ofComponents (plain isAbsolute names) = ⟨isAbsolute, names⟩ := by
  cases isAbsolute with
  | true => exact ofComponents_names names
  | false => exact ofComponents_relative names

variable {c : Component}

theorem pushComponent_plain (absolute : Bool) {stack : List Text}
    (hstack : ∀ name ∈ stack, IsName name)
    (hc : c = .parentDir ∨ c = .curDir ∨ ∃ name, c = .normal name ∧ IsName name) :
    ∃ stack' : List Text, (∀ name ∈ stack', IsName name) ∧
      pushComponent (stack.map .normal ++ if absolute then [.rootDir] else []) c =
        stack'.map .normal ++ if absolute then [.rootDir] else [] := by
  rcases hc with rfl | rfl | ⟨name, rfl, hname⟩
  · cases stack with
    | nil => exact ⟨[], hstack, by cases absolute <;> rfl⟩
    | cons top rest =>
      exact ⟨rest, fun name hname => hstack name (mem_cons_of_mem top hname), rfl⟩
  · exact ⟨stack, hstack, rfl⟩
  · refine ⟨name :: stack, ?_, rfl⟩
    intro n hn
    rcases mem_cons.mp hn with rfl | hn
    · exact hname
    · exact hstack n hn

theorem foldl_pushComponent_plain (absolute : Bool)
    (hcs : ∀ c ∈ cs, c = .parentDir ∨ c = .curDir ∨ ∃ name, c = .normal name ∧ IsName name)
    {stack : List Text} (hstack : ∀ name ∈ stack, IsName name) :
    ∃ stack' : List Text, (∀ name ∈ stack', IsName name) ∧
      cs.foldl pushComponent (stack.map .normal ++ if absolute then [.rootDir] else []) =
        stack'.map .normal ++ if absolute then [.rootDir] else [] := by
  induction cs generalizing stack with
  | nil => exact ⟨stack, hstack, rfl⟩
  | cons c cs ih =>
    obtain ⟨stack', hstack', hpush⟩ :=
      pushComponent_plain absolute hstack (hcs c mem_cons_self)
    rw [List.foldl_cons, hpush]
    exact ih (fun d hd => hcs d (mem_cons_of_mem c hd)) hstack'

theorem component?_cases {segment : Text} (h : component? segment = some c) :
    c = .parentDir ∨ ∃ name, c = .normal name ∧ IsName name := by
  cases c with
  | normal name => exact .inr ⟨name, rfl, (isName_of_component? h).1 ▸ (isName_of_component? h).2⟩
  | parentDir => exact .inl rfl
  | rootDir | curDir =>
    unfold component? at h
    split at h
    · cases h
    · split at h <;> cases h

/-- **Lexical normalization** leaves names, below the root or not. -/
theorem normalizeLexical_eq (p : Path) : ∃ names, (∀ name ∈ names, IsName name) ∧
    p.normalizeLexical = ⟨p.isAbsolute, names⟩ := by
  have hbody : ∀ c ∈ p.segments.filterMap component?,
      c = .parentDir ∨ c = .curDir ∨ ∃ name, c = .normal name ∧ IsName name := by
    intro c hc
    obtain ⟨segment, -, hsegment⟩ := List.mem_filterMap.mp hc
    exact (component?_cases hsegment).imp_right .inr
  have hnone : ∀ name ∈ ([] : List Text), IsName name := fun name h => absurd h List.not_mem_nil
  rw [normalizeLexical]
  cases habsolute : p.isAbsolute with
  | true =>
    obtain ⟨stack, hstack, hfold⟩ :=
      foldl_pushComponent_plain true hbody hnone
    refine ⟨stack.reverse, fun name h => hstack name (List.mem_reverse.mp h), ?_⟩
    have hcomponents : p.components = .rootDir :: p.segments.filterMap component? := by
      rw [components, if_pos habsolute]
    rw [hcomponents, List.foldl_cons]
    have hstart : pushComponent [] .rootDir = ([] : List Text).map .normal ++ [.rootDir] := rfl
    rw [hstart]
    have hfold' : (p.segments.filterMap component?).foldl pushComponent
        (([] : List Text).map .normal ++ [.rootDir]) = stack.map .normal ++ [.rootDir] := hfold
    rw [hfold', List.reverse_append, ← List.map_reverse]
    exact ofComponents_names stack.reverse
  | false =>
    have hall : ∀ c ∈ p.components,
        c = .parentDir ∨ c = .curDir ∨ ∃ name, c = .normal name ∧ IsName name := by
      intro c hc
      rw [components, if_neg (by rw [habsolute]; exact Bool.false_ne_true)] at hc
      split at hc
      · next rest hsegments =>
        rcases mem_cons.mp hc with rfl | hc
        · exact .inr (.inl rfl)
        · refine hbody c ?_
          rw [hsegments]
          exact hc
      · exact hbody c hc
    obtain ⟨stack, hstack, hfold⟩ := foldl_pushComponent_plain false hall hnone
    refine ⟨stack.reverse, fun name h => hstack name (List.mem_reverse.mp h), ?_⟩
    have hfold' : p.components.foldl pushComponent [] = stack.map .normal := by
      simpa using hfold
    rw [hfold', ← List.map_reverse]
    exact ofComponents_relative stack.reverse

theorem isName_of_mem_components {name : Text} (h : .normal name ∈ p.components) : IsName name := by
  have hbody : ∀ segments : List Text, .normal name ∈ segments.filterMap component? →
      IsName name := by
    intro segments hc
    obtain ⟨segment, -, hsegment⟩ := List.mem_filterMap.mp hc
    obtain ⟨rfl, hname⟩ := isName_of_component? hsegment
    exact hname
  unfold components at h
  split at h
  · exact hbody _ ((mem_cons.mp h).resolve_left nofun)
  · split at h
    · exact hbody _ ((mem_cons.mp h).resolve_left nofun)
    · exact hbody _ h

theorem mem_components_of_segments (h : c ∈ p.segments.filterMap component?) :
    c ∈ p.components := by
  unfold components
  split
  · exact mem_cons_of_mem _ h
  · split
    · next hsegments =>
      rw [hsegments] at h
      exact mem_cons_of_mem _ h
    · exact h

theorem exists_names (h : ∀ c ∈ cs, ∃ name, c = .normal name) :
    ∃ names : List Text, cs = names.map .normal := by
  induction cs with
  | nil => exact ⟨[], rfl⟩
  | cons c cs ih =>
    obtain ⟨name, rfl⟩ := h c mem_cons_self
    obtain ⟨names, rfl⟩ := ih fun d hd => h d (mem_cons_of_mem _ hd)
    exact ⟨name :: names, rfl⟩

theorem filterMap_trimmed (p : Path) :
    p.trimmed.filterMap component? = p.segments.filterMap component? := by
  rw [trimmed]
  split_ifs with hlast
  · obtain ⟨init, hinit⟩ := List.getLast?_eq_some_iff.mp hlast
    rw [hinit, List.dropLast_concat, filterMap_append]
    exact (List.append_nil _).symm
  · rfl

theorem trimmed_cons {segment : Text} {rest : List Text} (h : p.segments = segment :: rest)
    (hne : segment ≠ []) : ∃ rest', p.trimmed = segment :: rest' ∧
      rest'.filterMap component? = rest.filterMap component? := by
  have hfilter := filterMap_trimmed p
  have hhead : ∃ rest', p.trimmed = segment :: rest' := by
    rw [trimmed, h]
    split_ifs with hlast
    · cases rest with
      | nil => exact absurd (Option.some.inj hlast) hne
      | cons next rest => exact ⟨_, rfl⟩
    · exact ⟨rest, rfl⟩
  obtain ⟨rest', hrest'⟩ := hhead
  refine ⟨rest', hrest', ?_⟩
  rw [hrest', h] at hfilter
  cases hc : component? segment with
  | none => rwa [List.filterMap_cons_none hc, List.filterMap_cons_none hc] at hfilter
  | some c =>
    rw [filterMap_cons_some hc, filterMap_cons_some hc] at hfilter
    exact (List.cons.inj hfilter).2

theorem exists_segments (hp : p.isEmpty = false) (habsolute : p.isAbsolute = false) :
    ∃ segment rest, p.segments = segment :: rest ∧ segment ≠ [] := by
  rw [isEmpty, habsolute] at hp
  cases hsegments : p.segments with
  | nil =>
    rw [hsegments] at hp
    cases hp
  | cons segment rest =>
    refine ⟨segment, rest, rfl, ?_⟩
    rintro rfl
    rw [hsegments] at hp
    cases hp

theorem isEmpty_join {p q : Path} (hp : p.isEmpty = false) (hq : q.isAbsolute = false) :
    (p.join q).isEmpty = false := by
  rw [join, hp, hq, if_neg (show ¬(false || false) = true from Bool.false_ne_true), isEmpty]
  cases habsolute : p.isAbsolute with
  | true => rfl
  | false =>
    obtain ⟨segment, rest, hsegments, hne⟩ := exists_segments hp habsolute
    obtain ⟨rest', htrimmed, -⟩ := trimmed_cons hsegments hne
    rw [htrimmed]
    cases segment with
    | nil => exact absurd rfl hne
    | cons c segment => rfl

/-- **Joining** adds components. -/
theorem components_join {p q : Path} (hp : p.isEmpty = false) (hq : q.isAbsolute = false) :
    (p.join q).components = p.components ++ q.segments.filterMap component? := by
  rw [join, hp, hq, if_neg (show ¬(false || false) = true from Bool.false_ne_true)]
  cases habsolute : p.isAbsolute with
  | true =>
    rw [components, components, if_pos rfl, if_pos habsolute, filterMap_append,
      filterMap_trimmed, cons_append]
  | false =>
    obtain ⟨segment, rest, hsegments, hne⟩ := exists_segments hp habsolute
    obtain ⟨rest', htrimmed, hfilter⟩ := trimmed_cons hsegments hne
    rw [components, components, if_neg Bool.false_ne_true,
      if_neg (by rw [habsolute]; exact Bool.false_ne_true), htrimmed, hsegments]
    by_cases hdot : segment = ['.']
    · -- a dot is a component in front only
      subst hdot
      show Component.curDir :: (rest' ++ q.segments).filterMap component? = _
      rw [filterMap_append, hfilter]
      rfl
    · have hplain : ∀ more : List Text, (match segment :: more with
          | ['.'] :: rest => Component.curDir :: rest.filterMap component?
          | segments => segments.filterMap component?) =
          (segment :: more).filterMap component? := by
        intro more
        split
        · next h => exact absurd (List.cons.inj h).1 hdot
        · rfl
      rw [cons_append, hplain, hplain, ← cons_append, filterMap_append]
      congr 1
      cases hc : component? segment with
      | none => rw [List.filterMap_cons_none hc, List.filterMap_cons_none hc, hfilter]
      | some c => rw [filterMap_cons_some hc, filterMap_cons_some hc, hfilter]

end Path

end IronClaw.Foundation
