import IronClaw.Secrets.HostPattern
import Mathlib.Data.List.ReduceOption

/-!
# The allowlist of endpoints

A tool may call only the endpoints of its allowlist. Each segment of the path is checked and decoded
once before it is compared, and dots are resolved.
-/

namespace IronClaw.Tools.Allowlist

open Foundation (Bytes ascii)
open Secrets (slash percent dot hexNibble percentDecodeBytes matchesWildcard matchesWildcard_iff
  toAsciiLowercase)

def backslash : UInt8 := 0x5C

structure Url where
  scheme : Bytes
  username : Bytes := []
  password : Option Bytes := none
  host : Option Bytes
  path : Bytes

structure Library where
  parse : Bytes → Except Bytes Url
  toLowercase : Bytes → Bytes
  toUppercase : Bytes → Bytes

structure EndpointPattern where
  /-- A host, or an asterisk and a dot before one. -/
  host : Bytes
  pathPrefix : Option Bytes := none
  /-- All methods are allowed if there are none. -/
  methods : List Bytes := []

namespace EndpointPattern

def hostMatches (pattern : EndpointPattern) (urlHost : Bytes) : Bool :=
  if pattern.host = urlHost then true
  else matchesWildcard urlHost pattern.host

def pathMatches (pattern : EndpointPattern) (urlPath : Bytes) : Bool :=
  match pattern.pathPrefix with
  | none => true
  | some pathPrefix => pathPrefix.isPrefixOf urlPath

def methodMatches (lib : Library) (pattern : EndpointPattern) (method : Bytes) : Bool :=
  pattern.methods.isEmpty ||
    pattern.methods.any fun m => lib.toUppercase m == lib.toUppercase method

def «matches» (lib : Library) (pattern : EndpointPattern) (urlHost urlPath method : Bytes) : Bool :=
  if !pattern.hostMatches urlHost then false
  else if !pattern.pathMatches urlPath then false
  else pattern.methodMatches lib method

end EndpointPattern

/-- Each percent sign has two hexadecimal digits behind it. -/
def hasValidPercentEncoding : Bytes → Bool
  | [] => true
  | b :: bytes =>
    if b = percent then
      match bytes with
      | hi :: lo :: rest =>
        (hexNibble hi).isSome && (hexNibble lo).isSome && hasValidPercentEncoding rest
      | _ => false
    else hasValidPercentEncoding bytes

def urlDecode (rawSegment : Bytes) : Option Bytes :=
  let decoded := percentDecodeBytes rawSegment
  if ByteArray.validateUTF8 ⟨decoded.toArray⟩ then some decoded else none

def invalidEncoding (rawSegment : Bytes) : Bytes :=
  ascii "Invalid percent-encoding in path segment: " ++ rawSegment

def encodedSeparator : Bytes := ascii "Path segment contains encoded path separator"

def normalizeSegment (segments : List Bytes) (rawSegment : Bytes) : Except Bytes (List Bytes) :=
  if !hasValidPercentEncoding rawSegment then .error (invalidEncoding rawSegment)
  else
    match urlDecode rawSegment with
    | none => .error (invalidEncoding rawSegment)
    | some segment =>
      -- an encoded separator is read in different ways behind the allowlist
      if segment.contains slash || segment.contains backslash then .error encodedSeparator
      else if segment = [] ∨ segment = [dot] then .ok segments
      else if segment = [dot, dot] then .ok segments.dropLast
      else .ok (segments ++ [segment])

def joinSegments (path : Bytes) (segments : List Bytes) : Bytes :=
  let result := slash :: [slash].intercalate segments
  if 1 < path.length ∧ path.getLast? = some slash ∧ result.getLast? ≠ some slash then
    result ++ [slash]
  else result

def normalizePath (path : Bytes) : Except Bytes Bytes :=
  ((path.splitOn slash).foldlM normalizeSegment []).map (joinSegments path)

example : normalizePath (ascii "/v1/%2e%2e/admin") = .ok (ascii "/admin") := by decide +kernel

example : normalizePath (ascii "/v1/%2Fadmin") = .error encodedSeparator := by decide +kernel

structure ParsedUrl where
  scheme : Bytes
  host : Bytes
  path : Bytes

def stripBrackets (host : Bytes) : Bytes :=
  if host.head? = some 0x5B ∧ host.tail.getLast? = some 0x5D then host.tail.dropLast else host

def Url.carriesUserInfo (url : Url) : Bool := !url.username.isEmpty || url.password.isSome

def Url.hostName (lib : Library) (url : Url) : Option Bytes :=
  url.host.map fun host => lib.toLowercase (stripBrackets host)

def parseUrl (lib : Library) (text : Bytes) : Except Bytes ParsedUrl :=
  match lib.parse text with
  | .error e => .error (ascii "URL parse failed: " ++ e)
  | .ok url =>
    let scheme := lib.toLowercase url.scheme
    if scheme ≠ ascii "http" ∧ scheme ≠ ascii "https" then
      .error (ascii "Unsupported scheme: " ++ scheme)
    else if url.carriesUserInfo then
      .error (ascii "URL contains userinfo (@) which is not allowed")
    else
      match url.hostName lib with
      | none => .error (ascii "Empty host")
      | some host => (normalizePath url.path).map fun path => ⟨scheme, host, path⟩

inductive DenyReason
  | invalidUrl (error : Bytes)
  | hostNotAllowed (host : Bytes)
  | pathNotAllowed (host path : Bytes)
  | methodNotAllowed (method host : Bytes)
  | emptyAllowlist
  | insecureScheme (scheme : Bytes)

inductive AllowlistResult
  | allowed
  | denied (reason : DenyReason)

def AllowlistResult.isAllowed : AllowlistResult → Bool
  | allowed => true
  | denied _ => false

structure AllowlistValidator where
  patterns : List EndpointPattern
  requireHttps : Bool := true

def AllowlistValidator.explain (validator : AllowlistValidator) (parsed : ParsedUrl)
    (method : Bytes) : DenyReason :=
  let hostMatches := validator.patterns.filter fun p => p.hostMatches parsed.host
  if hostMatches.isEmpty then .hostNotAllowed parsed.host
  else if (hostMatches.filter fun p => p.pathMatches parsed.path).isEmpty then
    .pathNotAllowed parsed.host parsed.path
  else .methodNotAllowed method parsed.host

def AllowlistValidator.validate (lib : Library) (validator : AllowlistValidator)
    (text method : Bytes) : AllowlistResult :=
  if validator.patterns.isEmpty then .denied .emptyAllowlist
  else
    match parseUrl lib text with
    | .error e => .denied (.invalidUrl e)
    | .ok parsed =>
      if validator.requireHttps ∧ parsed.scheme ≠ ascii "https" then
        .denied (.insecureScheme parsed.scheme)
      else if validator.patterns.any fun p => p.matches lib parsed.host parsed.path method then
        .allowed
      else .denied (validator.explain parsed method)

def decodeSegment (rawSegment : Bytes) : Option Bytes :=
  if hasValidPercentEncoding rawSegment then some (percentDecodeBytes rawSegment) else none

/-- Two dots take a segment back. -/
def resolveSegment (segments : List (Option Bytes)) (segment : Option Bytes) :
    List (Option Bytes) :=
  if segment = some [] ∨ segment = some [dot] then segments
  else if segment = some [dot, dot] then segments.dropLast
  else segments ++ [segment]

def pathSegments (path : Bytes) : List (Option Bytes) :=
  ((path.splitOn slash).map decodeSegment).foldl resolveSegment []

def decodedPath (path : Bytes) : Bytes :=
  let segments := (pathSegments path).reduceOption
  if path.getLast? = some slash ∧ segments ≠ [] then
    slash :: [slash].intercalate segments ++ [slash]
  else slash :: [slash].intercalate segments

def WithoutDots (path : Bytes) : Prop :=
  ∀ rawSegment ∈ path.splitOn slash,
    decodeSegment rawSegment ≠ some [dot] ∧ decodeSegment rawSegment ≠ some [dot, dot]

instance : DecidablePred WithoutDots := fun path =>
  inferInstanceAs (Decidable (∀ rawSegment ∈ path.splitOn slash,
    decodeSegment rawSegment ≠ some [dot] ∧ decodeSegment rawSegment ≠ some [dot, dot]))

def Library.ResolvesDots (lib : Library) : Prop :=
  ∀ {text : Bytes} {url : Url}, lib.parse text = .ok url →
    lib.toLowercase url.scheme ∈ [ascii "http", ascii "https"] → WithoutDots url.path

/-- Two URLs lead to one endpoint, however their paths are spelled. -/
structure SameEndpoint (url url' : Url) : Prop where
  scheme : url.scheme = url'.scheme
  host : url.host = url'.host
  segments : pathSegments url.path = pathSegments url'.path
  slash : url.path.getLast? = some slash ↔ url'.path.getLast? = some slash

structure Inside (lib : Library) (validator : AllowlistValidator) (url : Url) : Prop where
  anonymous : url.carriesUserInfo = false
  separators : ∀ rawSegment ∈ url.path.splitOn slash, ∃ decoded,
    decodeSegment rawSegment = some decoded ∧ slash ∉ decoded ∧ backslash ∉ decoded
  dots : [dot, dot] ∉ (decodedPath url.path).splitOn slash
  pattern : ∃ host, url.hostName lib = some host ∧ ∃ pattern ∈ validator.patterns,
    (pattern.host = host ∨
      ∃ sub suffix, pattern.host = ascii "*." ++ suffix ∧ host = sub ++ dot :: suffix) ∧
    ∀ pathPrefix ∈ pattern.pathPrefix, pathPrefix <+: decodedPath url.path

/-- URLs that are the same are both allowed or neither, and what is allowed is inside. -/
structure Confined (lib : Library) (validator : AllowlistValidator) (Same : Url → Url → Prop) :
    Prop where
  spelling : ∀ {text text' : Bytes} {url url' : Url} (method : Bytes),
    lib.parse text = .ok url → lib.parse text' = .ok url' → Same url url' →
      (validator.validate lib text method).isAllowed =
        (validator.validate lib text' method).isAllowed
  inside : ∀ {text method : Bytes}, (validator.validate lib text method).isAllowed = true →
    ∃ url, lib.parse text = .ok url ∧ Inside lib validator url

def Acceptable (segment : Option Bytes) : Prop :=
  ∃ decoded : Bytes, segment = some decoded ∧ ByteArray.validateUTF8 ⟨decoded.toArray⟩ = true ∧
    slash ∉ decoded ∧ backslash ∉ decoded

theorem acceptable_nil : Acceptable (some []) :=
  ⟨[], rfl, by decide, List.not_mem_nil, List.not_mem_nil⟩

section Segments

variable {rawSegment : Bytes} {segments segments' : List Bytes}

theorem urlDecode_eq_some_iff {decoded : Bytes} : urlDecode rawSegment = some decoded ↔
    percentDecodeBytes rawSegment = decoded ∧
      ByteArray.validateUTF8 ⟨decoded.toArray⟩ = true := by
  rw [urlDecode]
  split_ifs with hvalid
  · constructor
    · intro h
      obtain rfl := Option.some.inj h
      exact ⟨rfl, hvalid⟩
    · rintro ⟨rfl, -⟩
      rfl
  · refine iff_of_false (by simp) ?_
    rintro ⟨rfl, hdecoded⟩
    exact hvalid hdecoded

theorem resolveSegment_map_some (segments : List Bytes) (segment : Bytes) :
    resolveSegment (segments.map some) (some segment) =
      (if segment = [] ∨ segment = [dot] then segments
        else if segment = [dot, dot] then segments.dropLast
        else segments ++ [segment]).map some := by
  simp only [resolveSegment, Option.some.injEq]
  split_ifs with hdrop htwo
  · rfl
  · rw [List.map_dropLast]
  · rw [List.map_append]
    rfl

theorem map_some_injective : Function.Injective (List.map (some : Bytes → Option Bytes)) :=
  List.map_injective_iff.mpr (Option.some_injective Bytes)

theorem normalizeSegment_ok_iff : normalizeSegment segments rawSegment = .ok segments' ↔
    Acceptable (decodeSegment rawSegment) ∧
      segments'.map some = resolveSegment (segments.map some) (decodeSegment rawSegment) := by
  rw [normalizeSegment, decodeSegment]
  cases hvalid : hasValidPercentEncoding rawSegment with
  | false =>
    refine iff_of_false (by simp) ?_
    rintro ⟨⟨decoded, hdecoded, -⟩, -⟩
    cases hdecoded
  | true =>
    simp only [Bool.not_true, Bool.false_eq_true, if_false, if_true]
    cases hdecode : urlDecode rawSegment with
    | none =>
      refine iff_of_false (by simp) ?_
      rintro ⟨⟨decoded, hdecoded, hutf8, -⟩, -⟩
      rw [urlDecode_eq_some_iff.mpr ⟨Option.some.inj hdecoded, hutf8⟩] at hdecode
      cases hdecode
    | some segment =>
      obtain ⟨rfl, hutf8⟩ := urlDecode_eq_some_iff.mp hdecode
      rw [resolveSegment_map_some, map_some_injective.eq_iff]
      -- a segment with a separator is an error, and the others take the same three branches
      by_cases hseparator : slash ∈ percentDecodeBytes rawSegment ∨
          backslash ∈ percentDecodeBytes rawSegment
      · simp only [Bool.or_eq_true, List.contains_iff_mem, if_pos hseparator]
        refine iff_of_false (by simp) ?_
        rintro ⟨⟨decoded, hdecoded, -, hslash, hbackslash⟩, -⟩
        obtain rfl := Option.some.inj hdecoded
        exact hseparator.elim hslash hbackslash
      · have haccept : Acceptable (some (percentDecodeBytes rawSegment)) :=
          ⟨_, rfl, hutf8, fun h => hseparator (.inl h), fun h => hseparator (.inr h)⟩
        simp only [Bool.or_eq_true, List.contains_iff_mem, if_neg hseparator, haccept, true_and]
        split_ifs <;> rw [Except.ok.injEq, eq_comm]

theorem foldlM_normalizeSegment_ok_iff {rawSegments : List Bytes} :
    rawSegments.foldlM normalizeSegment segments = .ok segments' ↔
      (∀ rawSegment ∈ rawSegments, Acceptable (decodeSegment rawSegment)) ∧ segments'.map some =
          (rawSegments.map decodeSegment).foldl resolveSegment (segments.map some) := by
  induction rawSegments generalizing segments with
  | nil =>
    simp only [List.foldlM_nil, List.map_nil, List.foldl_nil, map_some_injective.eq_iff,
      List.not_mem_nil, false_imp_iff, implies_true, true_and, eq_comm (a := segments')]
    exact Except.ok.injEq segments segments' ▸ Iff.rfl
  | cons rawSegment rawSegments ih =>
    rw [List.foldlM_cons, List.forall_mem_cons, List.map_cons, List.foldl_cons]
    cases hstep : normalizeSegment segments rawSegment with
    | error e =>
      refine iff_of_false nofun ?_
      rintro ⟨⟨haccept, -⟩, -⟩
      -- an acceptable segment is resolved to strings, so its step is no error
      obtain ⟨decoded, hdecoded, -⟩ := id haccept
      obtain ⟨next, hnext⟩ : ∃ next : List Bytes,
          next.map some = resolveSegment (segments.map some) (decodeSegment rawSegment) := by
        rw [hdecoded, resolveSegment_map_some]
        exact ⟨_, rfl⟩
      rw [normalizeSegment_ok_iff.mpr ⟨haccept, hnext⟩] at hstep
      cases hstep
    | ok next =>
      obtain ⟨haccept, hnext⟩ := normalizeSegment_ok_iff.mp hstep
      rw [← hnext]
      exact (@ih next).trans (by rw [and_iff_right haccept])

end Segments

section Paths

variable {path path' result : Bytes}

theorem foldl_resolveSegment {decoded : List (Option Bytes)}
    (h : ∀ segment ∈ decoded, segment ≠ some [dot] ∧ segment ≠ some [dot, dot])
    (segments : List (Option Bytes)) :
    decoded.foldl resolveSegment segments = segments ++ decoded.filter (· ≠ some []) := by
  induction decoded generalizing segments with
  | nil => simp
  | cons segment decoded ih =>
    obtain ⟨⟨hone, htwo⟩, hrest⟩ := List.forall_mem_cons.mp h
    rw [List.foldl_cons, ih hrest, resolveSegment]
    -- of the three ways to resolve a segment, only dropping and appending are left
    by_cases hempty : segment = some []
    · simp [hempty]
    · simp [hempty, hone, htwo]

theorem pathSegments_eq (h : WithoutDots path) :
    pathSegments path = ((path.splitOn slash).map decodeSegment).filter (· ≠ some []) := by
  have hdots : ∀ segment ∈ (path.splitOn slash).map decodeSegment,
      segment ≠ some [dot] ∧ segment ≠ some [dot, dot] := by
    intro segment hmem
    obtain ⟨rawSegment, hraw, rfl⟩ := List.mem_map.mp hmem
    exact h rawSegment hraw
  rw [pathSegments, foldl_resolveSegment hdots, List.nil_append]

theorem forall_acceptable_iff (h : WithoutDots path) :
    (∀ rawSegment ∈ path.splitOn slash, Acceptable (decodeSegment rawSegment)) ↔
      ∀ segment ∈ pathSegments path, Acceptable segment := by
  rw [pathSegments_eq h]
  constructor
  · intro hall segment hmem
    obtain ⟨rawSegment, hraw, rfl⟩ := List.mem_map.mp (List.mem_of_mem_filter hmem)
    exact hall rawSegment hraw
  · intro hall rawSegment hraw
    by_cases hempty : decodeSegment rawSegment = some []
    · exact hempty ▸ acceptable_nil
    · exact hall _ (List.mem_filter.mpr ⟨List.mem_map_of_mem hraw, by simpa using hempty⟩)

theorem map_some_reduceOption {decoded : List (Option Bytes)}
    (h : ∀ segment ∈ decoded, Acceptable segment) : decoded.reduceOption.map some = decoded := by
  induction decoded with
  | nil => rfl
  | cons segment decoded ih =>
    obtain ⟨⟨value, rfl, -⟩, hrest⟩ := List.forall_mem_cons.mp h
    rw [List.reduceOption_cons_of_some, List.map_cons, ih hrest]

/-- The decoded segments of a path that is taken: not empty, without separators, and no dots. -/
structure Plain (segment : Bytes) : Prop where
  ne_nil : segment ≠ []
  slash_not_mem : slash ∉ segment
  ne_dots : segment ≠ [dot, dot]

theorem plain_of_mem (h : WithoutDots path) (haccept : ∀ segment ∈ pathSegments path,
    Acceptable segment) {segment : Bytes} (hmem : segment ∈ (pathSegments path).reduceOption) :
    Plain segment := by
  have hsegment := List.reduceOption_mem_iff.mp hmem
  obtain ⟨decoded, heq, -, hslash, -⟩ := haccept _ hsegment
  obtain rfl := Option.some.inj heq
  rw [pathSegments_eq h, List.mem_filter] at hsegment
  obtain ⟨hmap, hnonempty⟩ := hsegment
  obtain ⟨rawSegment, hraw, hdecode⟩ := List.mem_map.mp hmap
  refine ⟨?_, hslash, ?_⟩
  · rintro rfl
    simp at hnonempty
  · rintro rfl
    exact (h rawSegment hraw).2 hdecode

theorem getLast?_intercalate_ne {segments : List Bytes} (hne : segments ≠ [])
    (hplain : ∀ segment ∈ segments, Plain segment) :
    ∃ last, ([slash].intercalate segments).getLast? = some last ∧ last ≠ slash := by
  induction segments with
  | nil => exact absurd rfl hne
  | cons segment segments ih =>
    obtain ⟨hsegment, hrest⟩ := List.forall_mem_cons.mp hplain
    by_cases hnil : segments = []
    · subst hnil
      rw [List.intercalate_singleton, List.getLast?_eq_some_getLast hsegment.ne_nil]
      refine ⟨_, rfl, fun heq => hsegment.slash_not_mem ?_⟩
      exact heq ▸ List.getLast_mem hsegment.ne_nil
    · obtain ⟨last, hlast, hneslash⟩ := ih hnil hrest
      refine ⟨last, ?_, hneslash⟩
      rw [List.intercalate_cons_of_ne_nil hnil, List.getLast?_append, hlast]
      rfl

theorem joinSegments_eq_decodedPath (h : WithoutDots path)
    (haccept : ∀ segment ∈ pathSegments path, Acceptable segment) :
    joinSegments path (pathSegments path).reduceOption = decodedPath path := by
  rw [joinSegments, decodedPath]
  by_cases hnil : (pathSegments path).reduceOption = []
  · rw [hnil]
    simp
  · -- a path with one byte at most has no segment
    have hlength : path.getLast? = some slash → 1 < path.length := by
      intro hlast
      obtain ⟨front, rfl⟩ := List.getLast?_eq_some_iff.mp hlast
      cases front with
      | nil => exact absurd (by decide) hnil
      | cons b front => simp
    obtain ⟨last, hlast, hne⟩ := getLast?_intercalate_ne hnil fun _ => plain_of_mem h haccept
    have hresult : (slash :: [slash].intercalate (pathSegments path).reduceOption).getLast? ≠
        some slash := by
      rw [List.getLast?_cons, hlast]
      exact fun heq => hne (Option.some.inj heq)
    by_cases hend : path.getLast? = some slash
    · rw [if_pos ⟨hlength hend, hend, hresult⟩, if_pos ⟨hend, hnil⟩]
    · rw [if_neg fun hcond => hend hcond.2.1, if_neg fun hcond => hend hcond.1]

theorem normalizePath_ok_iff (h : WithoutDots path) : normalizePath path = .ok result ↔
    (∀ segment ∈ pathSegments path, Acceptable segment) ∧ result = decodedPath path := by
  have hloop : ∀ segments, (path.splitOn slash).foldlM normalizeSegment [] = .ok segments ↔
      (∀ segment ∈ pathSegments path, Acceptable segment) ∧
        segments.map some = pathSegments path := fun segments =>
    foldlM_normalizeSegment_ok_iff.trans (and_congr_left' (forall_acceptable_iff h))
  -- the segments of a run of the loop are those that the path spells
  rw [normalizePath]
  constructor
  · intro hok
    cases hfold : (path.splitOn slash).foldlM normalizeSegment [] with
    | error e =>
      rw [hfold] at hok
      cases hok
    | ok segments =>
      obtain ⟨haccept, hmap⟩ := (hloop segments).mp hfold
      rw [hfold] at hok
      obtain rfl := Except.ok.inj hok
      have hsegments : segments = (pathSegments path).reduceOption := by
        rw [← hmap]
        simp [List.reduceOption]
      refine ⟨haccept, ?_⟩
      rw [hsegments, joinSegments_eq_decodedPath h haccept]
  · rintro ⟨haccept, rfl⟩
    rw [(hloop _).mpr ⟨haccept, map_some_reduceOption haccept⟩,
      ← joinSegments_eq_decodedPath h haccept]
    rfl

theorem decodedPath_congr (hsegments : pathSegments path = pathSegments path')
    (hslash : path.getLast? = some slash ↔ path'.getLast? = some slash) :
    decodedPath path = decodedPath path' := by
  rw [decodedPath, decodedPath, hsegments]
  simp only [hslash]

theorem dots_not_mem_decodedPath (h : WithoutDots path)
    (haccept : ∀ segment ∈ pathSegments path, Acceptable segment) :
    [dot, dot] ∉ (decodedPath path).splitOn slash := by
  have hplain : ∀ segment ∈ (pathSegments path).reduceOption, Plain segment :=
    fun _ => plain_of_mem h haccept
  have hjoined : [dot, dot] ∉
      ([slash].intercalate (pathSegments path).reduceOption).splitOn slash := by
    by_cases hnil : (pathSegments path).reduceOption = []
    · rw [hnil]
      decide
    · rw [List.splitOn_intercalate slash (fun l hl => (hplain l hl).slash_not_mem) hnil]
      exact fun hmem => (hplain _ hmem).ne_dots rfl
  have hfront : [dot, dot] ∉
      (slash :: [slash].intercalate (pathSegments path).reduceOption).splitOn slash := by
    rw [← List.nil_append (slash :: _), List.splitOn_append_cons_self, List.mem_append]
    exact not_or.mpr ⟨by decide, hjoined⟩
  rw [decodedPath]
  split_ifs
  · rw [List.splitOn_append_cons_self, List.mem_append]
    exact not_or.mpr ⟨hfront, by decide⟩
  · exact hfront

end Paths

theorem hostMatches_iff {pattern : EndpointPattern} {urlHost : Bytes} :
    pattern.hostMatches urlHost = true ↔ pattern.host = urlHost ∨
      ∃ sub suffix, pattern.host = ascii "*." ++ suffix ∧ urlHost = sub ++ dot :: suffix := by
  rw [EndpointPattern.hostMatches]
  by_cases heq : pattern.host = urlHost
  · simp [heq]
  · rw [if_neg heq, matchesWildcard_iff, or_iff_right heq]

theorem pathMatches_iff {pattern : EndpointPattern} {urlPath : Bytes} :
    pattern.pathMatches urlPath = true ↔
      ∀ pathPrefix ∈ pattern.pathPrefix, pathPrefix <+: urlPath := by
  rw [EndpointPattern.pathMatches]
  cases pattern.pathPrefix with
  | none => simp
  | some pathPrefix => simp

section Allowed

variable {lib : Library} {validator : AllowlistValidator} {text method : Bytes} {url : Url}
  {parsed : ParsedUrl}

theorem matches_iff {pattern : EndpointPattern} {urlHost urlPath : Bytes} :
    pattern.matches lib urlHost urlPath method = true ↔ pattern.hostMatches urlHost = true ∧
      pattern.pathMatches urlPath = true ∧ pattern.methodMatches lib method = true := by
  rw [EndpointPattern.matches]
  cases pattern.hostMatches urlHost <;> cases pattern.pathMatches urlPath <;> simp

theorem parseUrl_ok_iff (hparse : lib.parse text = .ok url) : parseUrl lib text = .ok parsed ↔
      lib.toLowercase url.scheme ∈ [ascii "http", ascii "https"] ∧ url.carriesUserInfo = false ∧
        parsed.scheme = lib.toLowercase url.scheme ∧ url.hostName lib = some parsed.host ∧
          normalizePath url.path = .ok parsed.path := by
  simp only [parseUrl, hparse]
  by_cases hscheme : lib.toLowercase url.scheme ∈ [ascii "http", ascii "https"]
  · have hweb : ¬ (lib.toLowercase url.scheme ≠ ascii "http" ∧
        lib.toLowercase url.scheme ≠ ascii "https") := by
      rintro ⟨hhttp, hhttps⟩
      simp [hhttp, hhttps] at hscheme
    rw [if_neg hweb]
    cases hinfo : url.carriesUserInfo with
    | true => simp
    | false =>
      simp only [Bool.false_eq_true, if_false, hscheme, true_and]
      cases hhost : url.hostName lib with
      | none => simp
      | some host =>
        obtain ⟨scheme, host', path⟩ := parsed
        cases hpath : normalizePath url.path with
        | error e => simp [Except.map]
        | ok path' =>
          simp only [Except.map, Except.ok.injEq, ParsedUrl.mk.injEq, Option.some.injEq]
          constructor
          · rintro ⟨rfl, rfl, rfl⟩
            exact ⟨rfl, rfl, rfl⟩
          · rintro ⟨rfl, rfl, rfl⟩
            exact ⟨rfl, rfl, rfl⟩
  · have hother : lib.toLowercase url.scheme ≠ ascii "http" ∧
        lib.toLowercase url.scheme ≠ ascii "https" := by
      simpa using hscheme
    rw [if_pos hother]
    simp [hscheme]

theorem isAllowed_iff : (validator.validate lib text method).isAllowed = true ↔
    ∃ parsed, parseUrl lib text = .ok parsed ∧
      (validator.requireHttps = true → parsed.scheme = ascii "https") ∧
        ∃ pattern ∈ validator.patterns,
          pattern.matches lib parsed.host parsed.path method = true := by
  rw [AllowlistValidator.validate]
  by_cases hempty : validator.patterns.isEmpty
  · rw [if_pos hempty, List.isEmpty_iff.mp hempty]
    refine iff_of_false (by simp [AllowlistResult.isAllowed]) ?_
    rintro ⟨-, -, -, pattern, hmem, -⟩
    cases hmem
  · rw [if_neg hempty]
    cases parseUrl lib text with
    | error e =>
      refine iff_of_false (by simp [AllowlistResult.isAllowed]) ?_
      rintro ⟨parsed, hparsed, -⟩
      cases hparsed
    | ok parsed =>
      simp only [Except.ok.injEq, exists_eq_left', List.any_eq_true]
      split_ifs with hscheme hany
      · refine iff_of_false (by simp [AllowlistResult.isAllowed]) ?_
        rintro ⟨hhttps, -⟩
        exact hscheme.2 (hhttps hscheme.1)
      · refine iff_of_true rfl ⟨fun hrequire => ?_, hany⟩
        exact Classical.byContradiction fun hne => hscheme ⟨hrequire, hne⟩
      · refine iff_of_false (by simp [AllowlistResult.isAllowed]) ?_
        rintro ⟨-, hpattern⟩
        exact hany hpattern

theorem decodedPath_of_parseUrl (hdots : lib.ResolvesDots)
    (hparse : lib.parse text = .ok url) (hparsed : parseUrl lib text = .ok parsed) :
    WithoutDots url.path ∧ (∀ segment ∈ pathSegments url.path, Acceptable segment) ∧
        parsed.path = decodedPath url.path := by
  obtain ⟨hscheme, -, -, -, hpath⟩ := (parseUrl_ok_iff hparse).mp hparsed
  have hwithout : WithoutDots url.path := hdots hparse hscheme
  exact ⟨hwithout, (normalizePath_ok_iff hwithout).mp hpath⟩

theorem parseUrl_of_sameEndpoint {text' : Bytes} {url' : Url} (hdots : lib.ResolvesDots)
    (hparse : lib.parse text = .ok url) (hparse' : lib.parse text' = .ok url')
    (hsame : SameEndpoint url url') (hinfo : url.carriesUserInfo = url'.carriesUserInfo)
    (hparsed : parseUrl lib text = .ok parsed) : parseUrl lib text' = .ok parsed := by
  obtain ⟨-, haccept, hpath⟩ := decodedPath_of_parseUrl hdots hparse hparsed
  obtain ⟨hscheme, hanonymous, heq, hhost, -⟩ := (parseUrl_ok_iff hparse).mp hparsed
  have hwithout' : WithoutDots url'.path := hdots hparse' (hsame.scheme ▸ hscheme)
  refine (parseUrl_ok_iff hparse').mpr ⟨hsame.scheme ▸ hscheme, hinfo ▸ hanonymous,
    hsame.scheme ▸ heq, ?_, ?_⟩
  · rw [← hhost, Url.hostName, Url.hostName, hsame.host]
  · refine (normalizePath_ok_iff hwithout').mpr ⟨hsame.segments ▸ haccept, ?_⟩
    rw [hpath, decodedPath_congr hsame.segments hsame.slash]

theorem SameEndpoint.symm {url url' : Url} (h : SameEndpoint url url') : SameEndpoint url' url :=
  ⟨h.scheme.symm, h.host.symm, h.segments.symm, h.slash.symm⟩

theorem inside_of_isAllowed (hdots : lib.ResolvesDots)
    (h : (validator.validate lib text method).isAllowed = true) :
    ∃ url, lib.parse text = .ok url ∧ Inside lib validator url := by
  obtain ⟨parsed, hparsed, -, pattern, hmem, hmatch⟩ := isAllowed_iff.mp h
  obtain ⟨url, hparse⟩ : ∃ url, lib.parse text = .ok url := by
    cases hparse : lib.parse text with
    | ok url => exact ⟨url, rfl⟩
    | error e =>
      rw [parseUrl, hparse] at hparsed
      cases hparsed
  obtain ⟨hwithout, haccept, hpath⟩ := decodedPath_of_parseUrl hdots hparse hparsed
  obtain ⟨-, hanonymous, -, hhost, -⟩ := (parseUrl_ok_iff hparse).mp hparsed
  obtain ⟨hhostMatches, hpathMatches, -⟩ := matches_iff.mp hmatch
  refine ⟨url, hparse, hanonymous, ?_, dots_not_mem_decodedPath hwithout haccept, ?_⟩
  · intro rawSegment hraw
    obtain ⟨decoded, heq, -, hslash, hbackslash⟩ :=
      (forall_acceptable_iff hwithout).mpr haccept rawSegment hraw
    exact ⟨decoded, heq, hslash, hbackslash⟩
  · exact ⟨parsed.host, hhost, pattern, hmem, hostMatches_iff.mp hhostMatches,
      hpath ▸ pathMatches_iff.mp hpathMatches⟩

end Allowed

/-- **No encoding gets around the allowlist**: URLs of one endpoint are allowed alike; what is
allowed is anonymous, plain, and inside of a pattern. -/
theorem validate_confined {lib : Library} (hdots : lib.ResolvesDots)
    (validator : AllowlistValidator) : Confined lib validator fun url url' =>
      SameEndpoint url url' ∧ url.carriesUserInfo = url'.carriesUserInfo where
  spelling := by
    rintro text text' url url' method hparse hparse' ⟨hsame, hinfo⟩
    rw [Bool.eq_iff_iff, isAllowed_iff, isAllowed_iff]
    constructor
    · rintro ⟨parsed, hparsed, hallowed⟩
      exact ⟨parsed, parseUrl_of_sameEndpoint hdots hparse hparse' hsame hinfo hparsed, hallowed⟩
    · rintro ⟨parsed, hparsed, hallowed⟩
      exact ⟨parsed, parseUrl_of_sameEndpoint hdots hparse' hparse hsame.symm hinfo.symm hparsed,
        hallowed⟩
  inside := inside_of_isAllowed hdots

def asciiUppercase (s : Bytes) : Bytes :=
  s.map fun b => if 0x61 ≤ b ∧ b ≤ 0x7A then b - 0x20 else b

def usersUrl : Url where
  scheme := ascii "https"
  host := ascii "api.example.com"
  path := ascii "/v1/%75sers"

def guestUrl : Url where
  scheme := ascii "https"
  username := ascii "guest"
  host := ascii "api.example.com"
  path := ascii "/v1//users"

def usersText : Bytes := ascii "https://API.example.com/v1/x/%2e%2E/%75sers"

def guestText : Bytes := ascii "https://guest@api.example.com/v1//users"

def usersLibrary : Library where
  parse text :=
    if text = usersText then .ok usersUrl
    else if text = guestText then .ok guestUrl
    else .error (ascii "relative URL without a base")
  toLowercase := toAsciiLowercase
  toUppercase := asciiUppercase

def usersValidator : AllowlistValidator where
  patterns := [{ host := ascii "*.example.com", pathPrefix := ascii "/v1/users",
                 methods := [ascii "GET"] }]

theorem parse_usersText : usersLibrary.parse usersText = .ok usersUrl := rfl

theorem parse_guestText : usersLibrary.parse guestText = .ok guestUrl := rfl

theorem resolvesDots_usersLibrary : usersLibrary.ResolvesDots := by
  intro text url hparse _
  simp only [usersLibrary] at hparse
  split_ifs at hparse <;> obtain rfl := Except.ok.inj hparse <;> decide +kernel

theorem confined_users : Confined usersLibrary usersValidator (fun url url' =>
      SameEndpoint url url' ∧ url.carriesUserInfo = url'.carriesUserInfo) ∧
      (usersValidator.validate usersLibrary usersText (ascii "get")).isAllowed = true :=
  ⟨validate_confined resolvesDots_usersLibrary usersValidator, by decide +kernel⟩

/-- With user information, a URL that leads to the same endpoint is refused. -/
theorem not_confined_guest : usersLibrary.ResolvesDots ∧
    ¬ Confined usersLibrary usersValidator SameEndpoint := by
  refine ⟨resolvesDots_usersLibrary, fun h => ?_⟩
  have hsame : SameEndpoint usersUrl guestUrl := ⟨rfl, rfl, by decide +kernel, by decide +kernel⟩
  have hagree := h.spelling (ascii "GET") parse_usersText parse_guestText hsame
  revert hagree
  decide +kernel

end IronClaw.Tools.Allowlist
