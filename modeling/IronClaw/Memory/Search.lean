import Mathlib.Algebra.Order.Field.Rat
import Mathlib.Data.List.Dedup
import IronClaw.Foundation.Ranking
import IronClaw.Foundation.Text
import Mathlib.Tactic.Positivity

/-!
# Hybrid search

What a full-text search and a vector search found is put together, scored by the two ranks, and the
best returned. Among chunks with one score, the order is that of the hash map. Scores are rational
numbers.
-/

namespace IronClaw.Memory

open Foundation
open List (map_congr_left map_map mem_map mem_map_of_mem)

abbrev Uuid := Nat

inductive FusionStrategy where
  | rrf
  | weightedScore

structure SearchConfig where
  limit : Nat
  rrfK : Nat
  minScore : ℚ
  fusionStrategy : FusionStrategy
  ftsWeight : ℚ
  vectorWeight : ℚ
  ftsWeight_nonneg : 0 ≤ ftsWeight
  vectorWeight_nonneg : 0 ≤ vectorWeight

structure SearchResult where
  documentId : Uuid
  documentPath : Text
  chunkId : Uuid
  content : Text
  score : ℚ
  ftsRank : Option Nat
  vectorRank : Option Nat
  deriving DecidableEq

structure RankedResult where
  chunkId : Uuid
  documentId : Uuid
  documentPath : Text
  content : Text
  rank : Nat

structure RankedResults where
  results : List RankedResult
  nodup : (results.map RankedResult.chunkId).Nodup
  rank_pos : ∀ r ∈ results, 0 < r.rank

inductive Method where
  | fts
  | vector

def SearchResult.withRank (info : SearchResult) (rank : Nat) : Method → SearchResult
  | .fts => { info with ftsRank := some rank }
  | .vector => { info with vectorRank := some rank }

section Fusion

-- the score of a rank that a method gives
variable (score : Method → Nat → ℚ)

def found (method : Method) (r : RankedResult) : Option SearchResult → SearchResult
  | some info => { info with score := info.score + score method r.rank }.withRank r.rank method
  | none => SearchResult.withRank ⟨r.documentId, r.documentPath, r.chunkId, r.content,
      score method r.rank, none, none⟩ r.rank method

def process (method : Method) (results : List RankedResult)
    (chunkScores : HashMap Uuid SearchResult) : HashMap Uuid SearchResult :=
  results.foldl (fun m r => m.insert r.chunkId (found score method r (m.lookup r.chunkId)))
    chunkScores

def chunkScores (fts vector : RankedResults) : HashMap Uuid SearchResult :=
  process score .vector vector.results (process score .fts fts.results ∅)

def normalize (results : List SearchResult) : List SearchResult :=
  match (results.map SearchResult.score).max? with
  | some maxScore =>
    if 0 < maxScore then results.map fun r => { r with score := r.score / maxScore } else results
  | none => results

/-- What is returned if the map is iterated over in this order. -/
def select (config : SearchConfig) (iterated : List SearchResult) : List SearchResult :=
  let results := normalize iterated
  let results :=
    if 0 < config.minScore then results.filter fun r => config.minScore ≤ r.score else results
  topBy SearchResult.score config.limit results

end Fusion

def rrfScore (config : SearchConfig) (_ : Method) (rank : Nat) : ℚ := 1 / (config.rrfK + rank)

def weightedScore (config : SearchConfig) : Method → Nat → ℚ
  | .fts, rank => config.ftsWeight * (1 / rank)
  | .vector, rank => config.vectorWeight * (1 / rank)

structure Iteration where
  order : List SearchResult → List SearchResult
  perm : ∀ l, (order l).Perm l

def Iteration.first (a : SearchResult) : Iteration where
  order l := if a ∈ l then a :: l.erase a else l
  perm l := by
    split_ifs with h
    · exact (List.perm_cons_erase h).symm
    · exact .refl l

variable (config : SearchConfig) (fts vector : RankedResults) (it : Iteration)

def reciprocalRankFusion : List SearchResult :=
  select config (it.order (chunkScores (rrfScore config) fts vector).values)

def weightedScoreFusion : List SearchResult :=
  select config (it.order (chunkScores (weightedScore config) fts vector).values)

def fuseResults : List SearchResult :=
  match config.fusionStrategy with
  | .rrf => reciprocalRankFusion config fts vector it
  | .weightedScore => weightedScoreFusion config fts vector it

def RankedResults.find? (l : RankedResults) (id : Uuid) : Option RankedResult :=
  l.results.find? fun r => r.chunkId = id

def RankedResults.rank? (l : RankedResults) (id : Uuid) : Option Nat :=
  (l.find? id).map RankedResult.rank

def methodScore : Method → Nat → ℚ :=
  match config.fusionStrategy with
  | .rrf => rrfScore config
  | .weightedScore => weightedScore config

def foundIds : List Uuid :=
  (fts.results.map RankedResult.chunkId ++ vector.results.map RankedResult.chunkId).dedup

def fusedScore (id : Uuid) : ℚ :=
  (fts.rank? id).elim 0 (methodScore config .fts) +
    (vector.rank? id).elim 0 (methodScore config .vector)

def normalizedScore (id : Uuid) : ℚ :=
  fusedScore config fts vector id /
    ((foundIds fts vector).map (fusedScore config fts vector)).max?.getD 0

def candidates : List Uuid :=
  (foundIds fts vector).filter fun id => config.minScore ≤ normalizedScore config fts vector id

/-- The best candidates are returned, each once, with its ranks, the best ones first. -/
structure Fused (results : List SearchResult) : Prop where
  once : (results.map SearchResult.chunkId).Nodup
  ranks : ∀ r ∈ results, r.ftsRank = fts.rank? r.chunkId ∧ r.vectorRank = vector.rank? r.chunkId
  scores : ∀ r ∈ results, r.score = normalizedScore config fts vector r.chunkId
  sorted : results.Pairwise fun a b => b.score ≤ a.score
  length : results.length ≤ config.limit
  sound : ∀ r ∈ results, r.chunkId ∈ candidates config fts vector
  best : ∀ id ∈ candidates config fts vector, id ∈ results.map SearchResult.chunkId ∨
    results.length = config.limit ∧
      ∀ r ∈ results, normalizedScore config fts vector id ≤ r.score

section Proofs

variable {config : SearchConfig} {fts vector : RankedResults} {score : Method → Nat → ℚ}
  {method : Method} {id : Uuid} {info : SearchResult} {l : List SearchResult}

theorem lookup_process {results : List RankedResult} {m : HashMap Uuid SearchResult}
    (h : (results.map RankedResult.chunkId).Nodup) :
    (process score method results m).lookup id =
      match results.find? fun r => r.chunkId = id with
      | some r => some (found score method r (m.lookup id))
      | none => m.lookup id := by
  induction results generalizing m with
  | nil => rfl
  | cons r results ih =>
    obtain ⟨hr, hresults⟩ := List.nodup_cons.mp h
    rw [process, List.foldl_cons, ← process, ih hresults, HashMap.lookup_insert]
    by_cases hid : r.chunkId = id
    · subst hid
      have hnone : (results.find? fun r' => r'.chunkId = r.chunkId) = none := by
        rw [List.find?_eq_none]
        intro r' hr' heq
        exact hr (mem_map.mpr ⟨r', hr', by simpa using heq⟩)
      rw [hnone, List.find?_cons_of_pos (by simp)]
      simp
    · rw [if_neg (Ne.symm hid), List.find?_cons_of_neg (by simpa using hid)]

theorem mem_foundIds : id ∈ foundIds fts vector ↔ fts.find? id ≠ none ∨ vector.find? id ≠ none := by
  simp [foundIds, RankedResults.find?]

structure Known (score : Method → Nat → ℚ) (fts vector : RankedResults) (id : Uuid)
    (info : SearchResult) : Prop where
  chunkId : info.chunkId = id
  mem : id ∈ foundIds fts vector
  ftsRank : info.ftsRank = fts.rank? id
  vectorRank : info.vectorRank = vector.rank? id
  score : info.score = (fts.rank? id).elim 0 (score .fts) + (vector.rank? id).elim 0 (score .vector)

theorem lookup_chunkScores (score : Method → Nat → ℚ) (fts vector : RankedResults) (id : Uuid) :
    match (chunkScores score fts vector).lookup id with
    | some info => Known score fts vector id info
    | none => id ∉ foundIds fts vector := by
  have hid (l : RankedResults) (r : RankedResult) (h : l.find? id = some r) : r.chunkId = id := by
    simpa using List.find?_some h
  rw [chunkScores, lookup_process vector.nodup, lookup_process fts.nodup,
    ← RankedResults.find?, ← RankedResults.find?]
  cases hf : fts.find? id with
  | none =>
    cases hv : vector.find? id with
    | none => simp [mem_foundIds, hf, hv]
    | some r =>
      refine ⟨hid vector r hv, mem_foundIds.mpr (by simp [hv]), ?_, ?_, ?_⟩ <;>
        simp [RankedResults.rank?, hf, hv, found, SearchResult.withRank]
  | some r =>
    have hmem : id ∈ foundIds fts vector := mem_foundIds.mpr (by simp [hf])
    cases hv : vector.find? id with
    | none =>
      refine ⟨hid fts r hf, hmem, ?_, ?_, ?_⟩ <;>
        simp [RankedResults.rank?, hf, hv, found, SearchResult.withRank]
    | some r' =>
      refine ⟨hid fts r hf, hmem, ?_, ?_, ?_⟩ <;>
        simp [RankedResults.rank?, hf, hv, found, SearchResult.withRank]

/-- The chunks that were found, in some order. -/
structure Scored (config : SearchConfig) (fts vector : RankedResults) (l : List SearchResult) :
    Prop where
  ids : (l.map SearchResult.chunkId).Perm (foundIds fts vector)
  known : ∀ r ∈ l, Known (methodScore config) fts vector r.chunkId r

theorem scored_values (config : SearchConfig) (fts vector : RankedResults) :
    Scored config fts vector (chunkScores (methodScore config) fts vector).values := by
  have hlookup := lookup_chunkScores (methodScore config) fts vector
  have hknown : ∀ e ∈ (chunkScores (methodScore config) fts vector).entries,
      Known (methodScore config) fts vector e.1 e.2 := by
    intro e he
    have h := hlookup e.1
    rwa [AList.mem_lookup_iff.mpr he] at h
  have hids : (chunkScores (methodScore config) fts vector).values.map SearchResult.chunkId =
      (chunkScores (methodScore config) fts vector).keys := by
    rw [HashMap.values, map_map]
    exact map_congr_left fun e he => (hknown e he).chunkId
  refine ⟨?_, fun r hr => ?_⟩
  · rw [hids]
    refine (List.perm_ext_iff_of_nodup (AList.keys_nodup _) (List.nodup_dedup _)).mpr fun id => ?_
    have h := hlookup id
    rw [← AList.mem_keys, HashMap.mem_iff_exists_lookup]
    cases hinfo : (chunkScores (methodScore config) fts vector).lookup id with
    | none =>
      rw [hinfo] at h
      exact iff_of_false (by simp) h
    | some info =>
      rw [hinfo] at h
      exact iff_of_true ⟨info, rfl⟩ h.mem
  · obtain ⟨e, he, rfl⟩ := mem_map.mp hr
    have h := hknown e he
    rwa [h.chunkId]

theorem Scored.perm (h : Scored config fts vector l) {l' : List SearchResult} (hperm : l'.Perm l) :
    Scored config fts vector l' :=
  ⟨(hperm.map _).trans h.ids, fun r hr => h.known r (hperm.mem_iff.mp hr)⟩

theorem fusedScore_nonneg (id : Uuid) : 0 ≤ fusedScore config fts vector id := by
  have hscore (method : Method) (rank : Nat) : 0 ≤ methodScore config method rank := by
    rw [methodScore]
    cases config.fusionStrategy with
    | rrf => exact div_nonneg zero_le_one (by positivity)
    | weightedScore =>
      cases method with
      | fts => exact mul_nonneg config.ftsWeight_nonneg (by positivity)
      | vector => exact mul_nonneg config.vectorWeight_nonneg (by positivity)
  have helim (method : Method) (rank : Option Nat) :
      0 ≤ rank.elim 0 (methodScore config method) := by
    cases rank with
    | none => exact le_rfl
    | some rank => exact hscore method rank
  exact add_nonneg (helim _ _) (helim _ _)

def scaled (config : SearchConfig) (fts vector : RankedResults) (r : SearchResult) : SearchResult :=
  { r with score := normalizedScore config fts vector r.chunkId }

theorem normalize_eq (h : Scored config fts vector l) :
    normalize l = l.map (scaled config fts vector) := by
  have hscores : (l.map SearchResult.score).Perm
      ((foundIds fts vector).map (fusedScore config fts vector)) := by
    have hmap : l.map SearchResult.score =
        (l.map SearchResult.chunkId).map (fusedScore config fts vector) := by
      rw [map_map]
      exact map_congr_left fun r hr => (h.known r hr).score
    rw [hmap]
    exact h.ids.map _
  have hmax : (l.map SearchResult.score).max? =
      ((foundIds fts vector).map (fusedScore config fts vector)).max? := by
    ext m
    simp only [List.max?_eq_some_iff, hscores.mem_iff]
  rw [normalize]
  cases hm : (l.map SearchResult.score).max? with
  | none =>
    rw [List.max?_eq_none_iff, List.map_eq_nil_iff] at hm
    rw [hm]
    rfl
  | some m =>
    have hscaled (r : SearchResult) (hr : r ∈ l) :
        normalizedScore config fts vector r.chunkId = r.score / m := by
      rw [normalizedScore, ← hmax, hm, (h.known r hr).score]
      rfl
    dsimp only
    split_ifs with hpos
    · refine map_congr_left fun r hr => ?_
      rw [scaled, hscaled r hr]
    · -- all scores are zero
      refine ((map_congr_left fun r hr => ?_).trans (List.map_id l)).symm
      have hle : r.score ≤ m := (List.max?_eq_some_iff.mp hm).2 _ (mem_map_of_mem hr)
      have hnonneg : 0 ≤ r.score := (h.known r hr).score ▸ fusedScore_nonneg r.chunkId
      have hzero : r.score = 0 := le_antisymm (hle.trans (not_lt.mp hpos)) hnonneg
      rw [scaled, hscaled r hr, hzero, zero_div, ← hzero]
      rfl

def keptOf (config : SearchConfig) (fts vector : RankedResults) (l : List SearchResult) :
    List SearchResult :=
  (l.map (scaled config fts vector)).filter fun r => config.minScore ≤ r.score

theorem select_eq (h : Scored config fts vector l) :
    select config l = topBy SearchResult.score config.limit (keptOf config fts vector l) := by
  rw [select, normalize_eq h]
  split_ifs with hmin
  · rfl
  · -- no score is below zero
    rw [keptOf, List.filter_eq_self.mpr]
    intro r hr
    obtain ⟨r, hr, rfl⟩ := mem_map.mp hr
    have hnonneg : 0 ≤ normalizedScore config fts vector r.chunkId := by
      refine div_nonneg (fusedScore_nonneg _) ?_
      cases hm : ((foundIds fts vector).map (fusedScore config fts vector)).max? with
      | none => exact le_rfl
      | some m =>
        obtain ⟨id, -, rfl⟩ := mem_map.mp (List.max?_eq_some_iff.mp hm).1
        exact fusedScore_nonneg id
    exact decide_eq_true ((not_lt.mp hmin).trans hnonneg)

theorem mem_keptOf {r : SearchResult} (hr : r ∈ keptOf config fts vector l) :
    ∃ r' ∈ l, scaled config fts vector r' = r := by
  obtain ⟨r', hr', heq⟩ := mem_map.mp (List.mem_of_mem_filter hr)
  exact ⟨r', hr', heq⟩

theorem ids_keptOf (h : Scored config fts vector l) :
    ((keptOf config fts vector l).map SearchResult.chunkId).Perm (candidates config fts vector) := by
  have hids : (keptOf config fts vector l).map SearchResult.chunkId =
      (l.map SearchResult.chunkId).filter fun id =>
        config.minScore ≤ normalizedScore config fts vector id := by
    rw [keptOf, List.filter_map, List.filter_map, map_map]
    rfl
  rw [hids]
  exact h.ids.filter _

theorem score_keptOf {r : SearchResult} (hr : r ∈ keptOf config fts vector l) :
    r.score = normalizedScore config fts vector r.chunkId := by
  obtain ⟨r', -, rfl⟩ := mem_keptOf hr
  rfl

theorem nodup_keptOf (h : Scored config fts vector l) :
    ((keptOf config fts vector l).map SearchResult.chunkId).Nodup :=
  (ids_keptOf h).nodup_iff.mpr ((List.nodup_dedup _).filter _)

theorem countP_keptOf (h : Scored config fts vector l) (x : ℚ) :
    ((keptOf config fts vector l).countP fun r => x < r.score) =
      (candidates config fts vector).countP fun id => x < normalizedScore config fts vector id := by
  rw [← (ids_keptOf h).countP_eq, List.countP_map]
  exact List.countP_congr fun r hr => by simp [score_keptOf hr]

theorem fused_select (h : Scored config fts vector l) :
    Fused config fts vector (select config l) := by
  have hids := ids_keptOf h
  rw [select_eq h]
  have hsorted := pairwise_insertionSort_score SearchResult.score (keptOf config fts vector l)
  have hperm := List.perm_insertionSort (fun a b : SearchResult => b.score ≤ a.score)
    (keptOf config fts vector l)
  refine ⟨?_, fun r hr => ?_, fun r hr => score_keptOf (mem_of_mem_topBy hr), ?_, ?_,
    fun r hr => ?_, fun id hid => ?_⟩
  · exact ((hperm.map _).nodup_iff.mpr (nodup_keptOf h)).sublist (topBy_sublist.map _)
  · obtain ⟨r', hr', rfl⟩ := mem_keptOf (mem_of_mem_topBy hr)
    exact ⟨(h.known r' hr').ftsRank, (h.known r' hr').vectorRank⟩
  · exact hsorted.sublist topBy_sublist
  · exact List.length_take_le _ _
  · exact hids.mem_iff.mp (mem_map_of_mem (mem_of_mem_topBy hr))
  · obtain ⟨r, hr, rfl⟩ := mem_map.mp (hids.mem_iff.mpr hid)
    refine (mem_topBy_or hr).imp mem_map_of_mem fun ⟨hlength, hbest⟩ => ⟨hlength, ?_⟩
    rw [← score_keptOf hr]
    exact hbest

theorem select_eq_of_ties {l' : List SearchResult} (h : Scored config fts vector l)
    (hperm : l.Perm l') (hties : TiesBeyond (normalizedScore config fts vector) config.limit
      (candidates config fts vector)) : select config l = select config l' := by
  rw [select_eq h, select_eq (h.perm hperm.symm)]
  refine topBy_eq_of_perm ((hperm.map _).filter _) fun a ha b hb hab heq => ?_
  rw [countP_keptOf h, score_keptOf ha]
  rw [score_keptOf ha, score_keptOf hb] at heq
  have hmem (r : SearchResult) (hr : r ∈ keptOf config fts vector l) :=
    (ids_keptOf h).mem_iff.mp (mem_map_of_mem hr)
  refine hties _ (hmem a ha) _ (hmem b hb) (fun hid => hab ?_) heq
  exact List.inj_on_of_nodup_map (nodup_keptOf h) ha hb hid

theorem getElem?_select_first {n : Nat} (h : Scored config fts vector l)
    (hid : id ∈ candidates config fts vector) (hlt : n < config.limit)
    (hn : n = (candidates config fts vector).countP fun id' =>
      normalizedScore config fts vector id < normalizedScore config fts vector id') :
    ∃ r : SearchResult,
      ((select config ((Iteration.first r).order l)).map SearchResult.chunkId)[n]? = some id := by
  obtain ⟨r, hr, rfl⟩ := mem_map.mp (h.ids.mem_iff.mpr (List.mem_of_mem_filter hid))
  refine ⟨r, ?_⟩
  have horder : (Iteration.first r).order l = r :: l.erase r := if_pos hr
  have hscored := h.perm ((Iteration.first r).perm l)
  have hcons : keptOf config fts vector (r :: l.erase r) =
      scaled config fts vector r :: keptOf config fts vector (l.erase r) := by
    rw [keptOf, List.map_cons]
    exact List.filter_cons_of_pos (List.mem_filter.mp hid).2
  rw [horder] at hscored ⊢
  have hcount := countP_keptOf hscored (normalizedScore config fts vector r.chunkId)
  rw [hcons, List.countP_cons_of_neg (by simp [scaled]), ← hn] at hcount
  rw [← hcount] at hlt ⊢
  rw [select_eq hscored, hcons, List.getElem?_map]
  exact congrArg (Option.map SearchResult.chunkId) (getElem?_topBy_cons hlt)

end Proofs

/-- **Hybrid search returns the best chunks** exactly if no chunks with one score are among the
best. -/
theorem fuseResults_correct (config : SearchConfig) (fts vector : RankedResults) :
    (∀ it, Fused config fts vector (fuseResults config fts vector it)) ∧
    ((∀ it it', fuseResults config fts vector it = fuseResults config fts vector it') ↔
      TiesBeyond (normalizedScore config fts vector) config.limit (candidates config fts vector)) := by
  have hvalues := scored_values config fts vector
  have hfuse (it : Iteration) : fuseResults config fts vector it =
      select config (it.order (chunkScores (methodScore config) fts vector).values) := by
    rw [fuseResults, methodScore]
    cases config.fusionStrategy <;> rfl
  refine ⟨fun it => ?_, fun h id hid id' hid' hne heq => ?_, fun hties it it' => ?_⟩
  · rw [hfuse]
    exact fused_select (hvalues.perm (it.perm _))
  · by_contra hlt
    rw [not_le] at hlt
    obtain ⟨r, hr⟩ := getElem?_select_first hvalues hid hlt rfl
    obtain ⟨r', hr'⟩ := getElem?_select_first hvalues hid' hlt (by rw [heq])
    rw [← hfuse, h _ (.first r), hfuse, hr] at hr'
    exact hne (Option.some.inj hr')
  · rw [hfuse, hfuse]
    exact select_eq_of_ties (hvalues.perm (it.perm _)) ((it.perm _).trans (it'.perm _).symm) hties

def textHit : RankedResults := ⟨[⟨1, 1, ['a'], ['x'], 1⟩], by decide, by simp⟩

def vectorHit : RankedResults := ⟨[⟨2, 1, ['a'], ['y'], 1⟩], by decide, by simp⟩

def oneResult : SearchConfig := ⟨1, 60, 0, .rrf, 1 / 2, 1 / 2, by norm_num, by norm_num⟩

/-- Each method ranks one chunk first. Which of them is returned depends on the map. -/
theorem fuseResults_ne : ¬ ∀ it it',
    fuseResults oneResult textHit vectorHit it = fuseResults oneResult textHit vectorHit it' := by
  intro h
  have hids := congrArg (List.map SearchResult.chunkId)
    (h (.first ⟨1, ['a'], 1, ['x'], 1 / 61, some 1, none⟩)
      (.first ⟨1, ['a'], 2, ['y'], 1 / 61, none, some 1⟩))
  revert hids
  decide +kernel

end IronClaw.Memory
