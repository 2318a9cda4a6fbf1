import IronClaw.Foundation.Splitting

/-!
# Workspace paths

Documents are stored under normalised paths: surrounding white space and slashes are removed, runs
of slashes collapsed, dots left alone. It is the join of the segments that are not empty.
-/

namespace IronClaw.Memory

open Foundation (Text)

namespace Paths

def memory : Text := "MEMORY.md".toList

def identity : Text := "IDENTITY.md".toList

def soul : Text := "SOUL.md".toList

def agents : Text := "AGENTS.md".toList

def user : Text := "USER.md".toList

def heartbeat : Text := "HEARTBEAT.md".toList

def readme : Text := "README.md".toList

def tools : Text := "TOOLS.md".toList

def bootstrap : Text := "BOOTSTRAP.md".toList

def system : Text := "SYSTEM.md".toList

def profile : Text := "context/profile.json".toList

def assistantDirectives : Text := "context/assistant-directives.md".toList

def dailyLog (date : Text) : Text := "daily/".toList ++ date ++ ".md".toList

end Paths

def systemPromptFiles : List Text :=
  [Paths.soul, Paths.agents, Paths.user, Paths.identity, Paths.system, Paths.memory, Paths.tools,
    Paths.heartbeat, Paths.bootstrap, Paths.assistantDirectives, Paths.profile]

def isSystemPromptFile (path : Text) : Bool :=
  systemPromptFiles.any fun p => Text.eqIgnoreAsciiCase path p

def isEngineRuntimePath (path : Text) : Bool :=
  !Text.hasInfix "..".toList path &&
    ("engine/.runtime/".toList.isPrefixOf path || "engine/projects/".toList.isPrefixOf path ||
      path == "engine/orchestrator/failures.json".toList || path == "engine/README.md".toList)

def identityPaths : List Text :=
  [Paths.identity, Paths.soul, Paths.agents, Paths.user, Paths.tools, Paths.bootstrap]

def isIdentityPath (path : Text) : Bool := identityPaths.contains path

/-- The flag tells whether a slash came last. -/
def collapseSlashes : Bool → Text → Text
  | _, [] => []
  | lastWasSlash, c :: s =>
    if c = '/' then
      if lastWasSlash then collapseSlashes true s else c :: collapseSlashes true s
    else c :: collapseSlashes false s

def trimSlashes (s : Text) : Text := Text.trimMatches (fun c => c == '/') s

def normalizePath (path : Text) : Text := collapseSlashes false (trimSlashes (Text.trim path))

def segments (s : Text) : List Text := (Text.splitOn '/' s).filter fun seg => !seg.isEmpty

def joinSegments (segs : List Text) : Text := Text.joinWith ['/'] segs

@[simp] theorem joinSegments_nil : joinSegments [] = [] := rfl

@[simp] theorem joinSegments_singleton (seg : Text) : joinSegments [seg] = seg := by
  simp [joinSegments, Text.joinWith, List.intercalate]

variable {segs : List Text}

theorem joinSegments_cons (seg : Text) (h : segs ≠ []) :
    joinSegments (seg :: segs) = seg ++ '/' :: joinSegments segs := by
  obtain ⟨next, rest, rfl⟩ := List.exists_cons_of_ne_nil h
  simp [joinSegments, Text.joinWith, List.intercalate]

@[simp] theorem segments_nil : segments [] = [] := rfl

variable (s : Text)

@[simp] theorem segments_slash : segments ('/' :: s) = segments s := by
  simp [segments, Text.splitOn]

theorem segments_eq_nil_iff {s : Text} : segments s = [] ↔ ∀ c ∈ s, c = '/' := by
  induction s with
  | nil => simp
  | cons c s ih =>
    by_cases hc : c = '/'
    · subst hc
      rw [segments_slash, ih]
      simp
    · obtain ⟨piece, pieces, hs⟩ := List.exists_cons_of_ne_nil (Text.splitOn_ne_nil '/' s)
      rw [segments, Text.splitOn_cons_of_ne hc hs]
      simp [hc]

theorem segments_ne_nil {s : Text} (hne : s ≠ []) (hlast : s.getLast? ≠ some '/') :
    segments s ≠ [] := by
  intro h
  rw [segments_eq_nil_iff] at h
  refine hlast ?_
  rw [List.getLast?_eq_some_getLast hne, h _ (List.getLast_mem hne)]

theorem collapseSlashes_eq {s : Text} (hlast : s.getLast? ≠ some '/') :
    (∀ piece pieces, Text.splitOn '/' s = piece :: pieces →
      collapseSlashes false s = joinSegments (piece :: pieces.filter fun seg => !seg.isEmpty)) ∧
    collapseSlashes true s = joinSegments (segments s) := by
  induction s with
  | nil =>
    refine ⟨fun piece pieces h => ?_, rfl⟩
    cases h
    rfl
  | cons c s ih =>
    have hrest : s.getLast? ≠ some '/' := by
      cases s with
      | nil => simp
      | cons d s => simpa using hlast
    obtain ⟨ihIn, ihAfter⟩ := ih hrest
    obtain ⟨piece, pieces, hs⟩ := List.exists_cons_of_ne_nil (Text.splitOn_ne_nil '/' s)
    by_cases hc : c = '/'
    · subst hc
      have hne : s ≠ [] := by
        rintro rfl
        exact hlast rfl
      constructor
      · intro p ps hsplit
        have heq : [] :: Text.splitOn '/' s = p :: ps := by
          rw [← hsplit, Text.splitOn, if_pos rfl]
        cases heq
        have hcol : collapseSlashes false ('/' :: s) = '/' :: collapseSlashes true s := by
          simp [collapseSlashes]
        rw [hcol, ihAfter]
        exact (joinSegments_cons [] (segments_ne_nil hne hrest)).symm
      · rw [segments_slash, ← ihAfter]
        simp [collapseSlashes]
    · have hcol : ∀ b, collapseSlashes b (c :: s) = c :: collapseSlashes false s := by
        intro b
        simp [collapseSlashes, hc]
      -- the character joins the segment that the rest begins with
      have hjoin : c :: joinSegments (piece :: pieces.filter fun seg => !seg.isEmpty) =
          joinSegments ((c :: piece) :: pieces.filter fun seg => !seg.isEmpty) := by
        by_cases hpieces : (pieces.filter fun seg => !seg.isEmpty) = []
        · rw [hpieces, joinSegments_singleton, joinSegments_singleton]
        · rw [joinSegments_cons _ hpieces, joinSegments_cons _ hpieces]
          rfl
      constructor
      · intro p ps hsplit
        rw [Text.splitOn_cons_of_ne hc hs] at hsplit
        cases hsplit
        rw [hcol, ihIn _ _ hs, hjoin]
      · rw [hcol, ihIn _ _ hs, hjoin, segments, Text.splitOn_cons_of_ne hc hs]
        rfl

theorem getLast?_trimSlashes : (trimSlashes s).getLast? ≠ some '/' := by
  intro h
  rw [trimSlashes, Text.trimMatches, Text.trimEndMatches, List.getLast?_reverse] at h
  have hnot := List.head?_dropWhile_not (fun c => c == '/')
    (Text.trimStartMatches (fun c => c == '/') s).reverse
  rw [h] at hnot
  simp at hnot

theorem head?_trimSlashes : (trimSlashes s).head? ≠ some '/' := by
  intro h
  -- what is left at the end is a prefix of what the first trimming left
  have hprefix : trimSlashes s <+: Text.trimStartMatches (fun c => c == '/') s :=
    Text.trimEndMatches_prefix _ _
  have hnot := List.head?_dropWhile_not (fun c => c == '/') s
  obtain ⟨rest, hrest⟩ := hprefix
  rw [Text.trimStartMatches] at hrest
  rw [← hrest, List.head?_append, h] at hnot
  simp at hnot

theorem segments_trimStart :
    segments (Text.trimStartMatches (fun c => c == '/') s) = segments s := by
  induction s with
  | nil => rfl
  | cons c s ih =>
    by_cases hc : c = '/'
    · subst hc
      rw [segments_slash, ← ih]
      rfl
    · simp [Text.trimStartMatches, hc]

theorem splitOn_append_slashes (n : Nat) :
    Text.splitOn '/' (s ++ List.replicate n '/') = Text.splitOn '/' s ++ List.replicate n [] := by
  induction s with
  | nil =>
    induction n with
    | zero => rfl
    | succ n ih =>
      rw [List.nil_append] at ih
      have hslash : ∀ t, Text.splitOn '/' ('/' :: t) = [] :: Text.splitOn '/' t := fun t => rfl
      rw [List.nil_append, List.replicate_succ, hslash, ih]
      rfl
  | cons c s ih =>
    obtain ⟨piece, pieces, hs⟩ := List.exists_cons_of_ne_nil (Text.splitOn_ne_nil '/' s)
    rw [hs, List.cons_append] at ih
    by_cases hc : c = '/'
    · rw [List.cons_append, Text.splitOn, Text.splitOn, if_pos hc, if_pos hc, ih, hs]
      rfl
    · rw [List.cons_append, Text.splitOn_cons_of_ne hc ih, Text.splitOn_cons_of_ne hc hs]
      rfl

theorem segments_trimEnd : segments (Text.trimEndMatches (fun c => c == '/') s) = segments s := by
  have hslashes : ∀ c ∈ s.reverse.takeWhile (fun c => c == '/'), c = '/' := by
    intro c hc
    simpa using List.mem_takeWhile_imp hc
  have hsplit : Text.trimEndMatches (fun c => c == '/') s ++
      List.replicate (s.reverse.takeWhile fun c => c == '/').length '/' = s := by
    rw [← List.eq_replicate_of_mem hslashes, ← List.reverse_inj, List.reverse_append,
      Text.trimEndMatches, List.reverse_reverse,
      List.eq_replicate_of_mem hslashes, List.reverse_replicate,
      ← List.eq_replicate_of_mem hslashes]
    exact List.takeWhile_append_dropWhile
  calc segments (Text.trimEndMatches (fun c => c == '/') s)
      = segments (Text.trimEndMatches (fun c => c == '/') s ++
          List.replicate (s.reverse.takeWhile fun c => c == '/').length '/') := by
        rw [segments, segments, splitOn_append_slashes, List.filter_append]
        simp
    _ = segments s := by rw [hsplit]

theorem segments_trimSlashes : segments (trimSlashes s) = segments s := by
  rw [trimSlashes, Text.trimMatches, segments_trimEnd, segments_trimStart]

/-- **A normalised path** joins the nonempty segments of the path without its surrounding
white space. -/
theorem normalizePath_eq_join (path : Text) :
    normalizePath path = joinSegments (segments (Text.trim path)) := by
  rw [← segments_trimSlashes, ← (collapseSlashes_eq (getLast?_trimSlashes _)).2, normalizePath]
  cases h : trimSlashes (Text.trim path) with
  | nil => rfl
  | cons c s =>
    have hc : c ≠ '/' := by
      rintro rfl
      exact head?_trimSlashes _ (by rw [h]; rfl)
    simp [collapseSlashes, hc]

theorem head?_normalizePath {c : Char} (hspace : Text.isWhitespace c = false) (hslash : c ≠ '/')
    (s : Text) : (normalizePath (c :: s)).head? = some c := by
  have htrim := Text.head?_trimMatches hspace s
  obtain ⟨t, ht⟩ : ∃ t, Text.trim (c :: s) = c :: t := by
    cases h : Text.trim (c :: s) with
    | nil =>
      rw [← Text.trim, h] at htrim
      cases htrim
    | cons d t =>
      rw [← Text.trim, h] at htrim
      cases htrim
      exact ⟨t, rfl⟩
  have hslashes := Text.head?_trimMatches (p := fun c => c == '/') (by simpa using hslash) t
  rw [normalizePath, ht, trimSlashes]
  cases h : Text.trimMatches (fun c => c == '/') (c :: t) with
  | nil =>
    rw [h] at hslashes
    cases hslashes
  | cons d u =>
    rw [h] at hslashes
    cases hslashes
    simp [collapseSlashes, hslash]

def PlainSegment (seg : Text) : Prop := seg ≠ [] ∧ ∀ c ∈ seg, c ≠ '/' ∧ Text.isWhitespace c = false

theorem segments_joinSegments (h : ∀ seg ∈ segs, PlainSegment seg) :
    segments (joinSegments segs) = segs := by
  induction segs with
  | nil => rfl
  | cons seg segs ih =>
    have hslash : '/' ∉ seg := fun hc => ((h seg List.mem_cons_self).2 '/' hc).1 rfl
    have hkeep : ∀ more : List Text, (seg :: more).filter (fun s => !s.isEmpty) =
        seg :: more.filter fun s => !s.isEmpty := by
      intro more
      rw [List.filter_cons_of_pos (by simp [(h seg List.mem_cons_self).1])]
    have hrest := ih fun s hs => h s (List.mem_cons_of_mem seg hs)
    by_cases hsegs : segs = []
    · rw [hsegs, joinSegments_singleton, segments, Text.splitOn_of_not_mem hslash, hkeep,
        List.filter_nil]
    · rw [joinSegments_cons seg hsegs, segments, Text.splitOn_append hslash, hkeep]
      exact congrArg (seg :: ·) hrest

theorem isWhitespace_of_mem_joinSegments (h : ∀ seg ∈ segs, PlainSegment seg) {c : Char}
    (hc : c ∈ joinSegments segs) : Text.isWhitespace c = false := by
  induction segs with
  | nil => cases hc
  | cons seg segs ih =>
    by_cases hsegs : segs = []
    · rw [hsegs, joinSegments_singleton] at hc
      exact ((h seg List.mem_cons_self).2 c hc).2
    · rw [joinSegments_cons seg hsegs, List.mem_append, List.mem_cons] at hc
      rcases hc with hc | rfl | hc
      · exact ((h seg List.mem_cons_self).2 c hc).2
      · rfl
      · exact ih (fun s hs => h s (List.mem_cons_of_mem seg hs)) hc

theorem normalizePath_joinSegments (h : ∀ seg ∈ segs, PlainSegment seg) :
    normalizePath (joinSegments segs) = joinSegments segs := by
  rw [normalizePath_eq_join, Text.trim_eq_self fun c hc => isWhitespace_of_mem_joinSegments h hc,
    segments_joinSegments h]

theorem isSystemPromptFile_dot : isSystemPromptFile ('.' :: s) = false := by
  rw [isSystemPromptFile, List.any_eq_false]
  intro p hp heq
  have hhead : ∀ p ∈ systemPromptFiles, (Text.toAsciiLowercase p).head? ≠ some '.' := by decide
  refine hhead p hp ?_
  rw [Text.eqIgnoreAsciiCase, beq_iff_eq] at heq
  rw [← heq]
  rfl

theorem isEngineRuntimePath_dot : isEngineRuntimePath ('.' :: s) = false := by
  rw [isEngineRuntimePath, Bool.and_eq_false_iff]
  refine .inr ?_
  simp only [Bool.or_eq_false_iff]
  exact ⟨⟨⟨rfl, rfl⟩, rfl⟩, rfl⟩

theorem normalizePath_memory : normalizePath Paths.memory = Paths.memory := by decide

end IronClaw.Memory
