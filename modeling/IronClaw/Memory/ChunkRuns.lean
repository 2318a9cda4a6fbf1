import Mathlib.Data.List.Chain
import IronClaw.Foundation.Splitting
import IronClaw.Memory.Chunker

/-!
# What the chunks of a document cover

The chunks are meant to be runs of the words of the document, each beginning within the one before.
A trailing chunk that is too small is merged with that, and then has words twice.
-/

namespace IronClaw.Memory

open Foundation (Text)
open List (map_append map_singleton mem_append mem_append_right mem_cons_self mem_map mem_singleton
  nil_append)

abbrev Run := Nat × Nat

def slice {α : Type} (l : List α) (r : Run) : List α := (l.drop r.1).take (r.2 - r.1)

/-- The runs are in order, without gaps, and reach the position from the first one on. -/
structure Reach (n stop : Nat) (runs : List Run) : Prop where
  within : ∀ r ∈ runs, r.2 ≤ n
  chain : runs.IsChain fun r r' => r.1 < r'.1 ∧ r'.1 ≤ r.2
  cover : ∀ i < stop, ∃ r ∈ runs, r.1 ≤ i ∧ i < r.2

def Covers (words : List Text) (chunks : List Text) : Prop :=
  ∃ runs, chunks.map splitWhitespace = runs.map (slice words) ∧
    Reach words.length words.length runs

/-- There is one chunk, or the last is no smaller than those merged, or begins behind the one
before. -/
def EndsWell (config : ChunkConfig) (n : Nat) : Prop :=
  n ≤ config.chunkSize ∨
    config.minChunkSize ≤
      config.overlapSize + 1 + (n - config.overlapSize - 1) % config.stepSize ∨
    config.overlapSize = 0 ∧ (config.minChunkSize ≤ config.chunkSize ∨ n ≤ 2 * config.chunkSize)

section Words

variable {s w : Text} {ws : List Text}

theorem isWord_of_mem (h : w ∈ splitWhitespace s) :
    w ≠ [] ∧ ∀ c ∈ w, Text.isWhitespace c = false := by
  obtain ⟨hmem, hne⟩ := List.mem_filter.mp h
  refine ⟨by simpa using hne, fun c hc => ?_⟩
  obtain ⟨d, -, rfl⟩ := mem_map.mp (Text.mem_of_mem_splitOn hmem hc)
  have hspace := Text.not_mem_of_mem_splitOn hmem
  by_cases hd : Text.isWhitespace d = true
  · rw [if_pos hd] at hc
    exact absurd hc hspace
  · simp [hd]

theorem splitWhitespace_joinWords (h : ∀ w ∈ ws, w ≠ [] ∧ ∀ c ∈ w, Text.isWhitespace c = false) :
    splitWhitespace (joinWords ws) = ws := by
  have hblank : Text.isWhitespace ' ' = true := by decide
  cases hws : ws with
  | nil => decide
  | cons w ws' =>
    rw [← hws]
    have hmap : ((joinWords ws).map fun c => if Text.isWhitespace c then ' ' else c) =
        joinWords ws := by
      refine (List.map_congr_left fun c hc => ?_).trans (List.map_id _)
      rcases Text.mem_joinWith hc with hc | ⟨piece, hpiece, hc⟩
      · rw [mem_singleton.mp hc, if_pos hblank]
        rfl
      · rw [(h piece hpiece).2 c hc]
        rfl
    rw [splitWhitespace, hmap, joinWords, Text.splitOn_joinWith (by simp [hws]) ?_]
    · exact List.filter_eq_self.mpr fun w hw => by simpa using (h w hw).1
    · intro w hw hmem
      have hword := (h w hw).2 _ hmem
      rw [hblank] at hword
      cases hword

theorem splitWhitespace_append (s t : Text) :
    splitWhitespace (s ++ ' ' :: t) = splitWhitespace s ++ splitWhitespace t := by
  have hblank : Text.isWhitespace ' ' = true := by decide
  rw [splitWhitespace, map_append, List.map_cons, if_pos hblank, Text.splitOn_append_cons,
    List.filter_append]
  rfl

end Words

section Runs

variable {n stop stop' next a : Nat} {runs : List Run}

theorem Reach.single (h : stop ≤ n) : Reach n stop [(0, stop)] where
  within r hr := by
    rw [mem_singleton.mp hr]
    exact h
  chain := List.isChain_singleton _
  cover i hi := ⟨_, mem_cons_self, Nat.zero_le i, hi⟩

theorem Reach.push (h : Reach n stop runs) (hlast : ∀ r ∈ runs.getLast?, r.1 < next ∧ next ≤ r.2)
    (hnext : next ≤ stop) (hstop : stop' ≤ n) : Reach n stop' (runs ++ [(next, stop')]) where
  within r hr := by
    rcases mem_append.mp hr with hr | hr
    · exact h.within r hr
    · rw [mem_singleton.mp hr]
      exact hstop
  chain := List.isChain_append.mpr ⟨h.chain, List.isChain_singleton _, fun r hr r' hr' => by
    cases hr'
    exact hlast r hr⟩
  cover i hi := by
    by_cases hbefore : i < next
    · obtain ⟨r, hr, hcover⟩ := h.cover i (hbefore.trans_le hnext)
      exact ⟨r, List.mem_append_left _ hr, hcover⟩
    · exact ⟨_, mem_append_right _ mem_cons_self, not_lt.mp hbefore, hi⟩

theorem Reach.extend (h : Reach n stop (runs ++ [(a, stop)])) (ha : a ≤ stop)
    (hstop : stop' ≤ n) : Reach n stop' (runs ++ [(a, stop')]) := by
  obtain ⟨hruns, -, hlast⟩ := List.isChain_append.mp h.chain
  refine ⟨fun r hr => ?_, ?_, fun i hi => ?_⟩
  · rcases mem_append.mp hr with hr | hr
    · exact h.within r (List.mem_append_left _ hr)
    · rw [mem_singleton.mp hr]
      exact hstop
  · refine List.isChain_append.mpr ⟨hruns, List.isChain_singleton _, fun r hr r' hr' => ?_⟩
    cases hr'
    exact hlast r hr (a, stop) rfl
  · by_cases hbefore : i < stop
    · obtain ⟨r, hr, hcover⟩ := h.cover i hbefore
      rcases mem_append.mp hr with hr | hr
      · exact ⟨r, List.mem_append_left _ hr, hcover⟩
      · rw [mem_singleton.mp hr] at hcover
        exact ⟨_, mem_append_right _ mem_cons_self, hcover.1, hi⟩
    · exact ⟨_, mem_append_right _ mem_cons_self, ha.trans (not_lt.mp hbefore), hi⟩

end Runs

section Loop

variable {config : ChunkConfig} {words : List Text} {start stop a : Nat} {chunks front : List Text}
  {last : Text}

theorem length_slice {r : Run} (h : r.2 ≤ words.length) : (slice words r).length = r.2 - r.1 := by
  rw [slice, List.length_take, List.length_drop]
  omega

theorem slice_append {b c : Nat} (hab : a ≤ b) (hbc : b ≤ c) :
    slice words (a, b) ++ slice words (b, c) = slice words (a, c) := by
  have hsplit : c - a = (b - a) + (c - b) := by omega
  have hdrop : words.drop b = (words.drop a).drop (b - a) := by
    rw [List.drop_drop, Nat.add_sub_cancel' hab]
  rw [slice, slice, slice, hsplit, List.take_add, hdrop]

theorem chunksFrom_merge (front : List Text) (last : Text) (hstart : start < words.length)
    (hstop : stop = min (start + config.chunkSize) words.length)
    (hsmall : stop - start < config.minChunkSize) :
    chunksFrom config words start (front ++ [last]) =
      front ++ [last ++ ' ' :: joinWords (slice words (start, stop))] := by
  subst hstop
  have hlength : (slice words (start, min (start + config.chunkSize) words.length)).length <
      config.minChunkSize := by rwa [length_slice (Nat.min_le_right _ _)]
  rw [chunksFrom, dif_pos hstart]
  dsimp only
  rw [slice] at hlength ⊢
  rw [if_pos hlength]
  simp

theorem chunksFrom_push (hstart : start < words.length)
    (hstop : stop = min (start + config.chunkSize) words.length)
    (hlarge : config.minChunkSize ≤ stop - start) : chunksFrom config words start chunks =
      if words.length ≤ start + config.stepSize + config.minChunkSize ∧ stop = words.length then
        chunks ++ [joinWords (slice words (start, stop))]
      else chunksFrom config words (start + config.stepSize)
        (chunks ++ [joinWords (slice words (start, stop))]) := by
  subst hstop
  have hlength : ¬ (slice words (start, min (start + config.chunkSize) words.length)).length <
      config.minChunkSize := by rwa [length_slice (Nat.min_le_right _ _), not_lt]
  rw [chunksFrom, dif_pos hstart]
  dsimp only
  rw [slice] at hlength ⊢
  rw [if_neg hlength]

theorem chunksFrom_zero (h : config.chunkSize < words.length) : chunksFrom config words 0 [] =
      chunksFrom config words config.stepSize [joinWords (slice words (0, config.chunkSize))] := by
  have hstop : min config.chunkSize words.length = config.chunkSize := Nat.min_eq_left h.le
  rw [chunksFrom, dif_pos (Nat.zero_lt_of_lt h)]
  simp only [Nat.zero_add, hstop, List.getLast?_nil, ite_self, h.ne, and_false, if_false,
    nil_append, slice]

theorem mod_le_of_dvd {m k r : Nat} (h : m ∣ k) (hle : k ≤ r) : r % m ≤ r - k := by
  obtain ⟨q, rfl⟩ := h
  obtain ⟨x, rfl⟩ := Nat.exists_eq_add_of_le hle
  rw [Nat.mul_add_mod, Nat.add_sub_cancel_left]
  exact Nat.mod_le x m

section Words

variable (hwords : ∀ w ∈ words, w ≠ [] ∧ ∀ c ∈ w, Text.isWhitespace c = false)

include hwords

theorem splitWhitespace_slice (r : Run) :
    splitWhitespace (joinWords (slice words r)) = slice words r :=
  splitWhitespace_joinWords fun w hw => hwords w (List.mem_of_mem_drop (List.mem_of_mem_take hw))

theorem covers_chunksFrom {start stop a : Nat} (runs : List Run) {chunks : List Text}
    (hmin : config.minChunkSize ≤ config.chunkSize)
    (hclean : config.overlapSize = 0 ∨ config.minChunkSize ≤
      config.overlapSize + 1 + (words.length - config.overlapSize - 1) % config.stepSize)
    (hdvd : config.stepSize ∣ start) (ha : a < start) (hstart : start ≤ stop)
    (hstop : stop = min (start + config.overlapSize) words.length)
    (hmore : stop = words.length → start + config.minChunkSize < words.length)
    (hchunks : chunks.map splitWhitespace = (runs ++ [(a, stop)]).map (slice words))
    (hreach : Reach words.length stop (runs ++ [(a, stop)])) :
    Covers words (chunksFrom config words start chunks) := by
  have hstep := config.stepSize_pos
  have hadd := config.stepSize_add
  by_cases hlt : start < words.length
  · obtain ⟨stop', hstop'⟩ : ∃ stop', stop' = min (start + config.chunkSize) words.length :=
      ⟨_, rfl⟩
    by_cases hsmall : stop' - start < config.minChunkSize
    · -- the end is reached for the first time
      have hend : stop' = words.length := by omega
      rw [map_append, map_singleton] at hchunks
      obtain ⟨front, l, rfl, hfront, hl⟩ := List.map_eq_append_iff.mp hchunks
      obtain ⟨last, rfl, hlast⟩ := List.map_eq_singleton_iff.mp hl
      rw [chunksFrom_merge front last hlt hstop' hsmall, hend]
      rcases hclean with hzero | hfits
      · have hsame : stop = start := by omega
        refine ⟨runs ++ [(a, words.length)], ?_, hreach.extend (by omega) le_rfl⟩
        rw [map_append, map_append, hfront, map_singleton, map_singleton,
          splitWhitespace_append, hlast, splitWhitespace_slice hwords, hsame,
          slice_append ha.le hlt.le]
      · have hmod := mod_le_of_dvd hdvd
          (show start ≤ words.length - config.overlapSize - 1 by omega)
        omega
    · rw [not_lt] at hsmall
      have hpush : Reach words.length stop' (runs ++ [(a, stop)] ++ [(start, stop')]) := by
        refine hreach.push (fun r hr => ?_) hstart (hstop'.trans_le (Nat.min_le_right _ _))
        simp only [List.getLast?_append, List.getLast?_singleton, Option.some_or,
          Option.mem_some_iff] at hr
        subst hr
        exact ⟨ha, hstart⟩
      have hmap : (chunks ++ [joinWords (slice words (start, stop'))]).map splitWhitespace =
          (runs ++ [(a, stop)] ++ [(start, stop')]).map (slice words) := by
        simp only [map_append, hchunks, map_singleton, splitWhitespace_slice hwords]
      rw [chunksFrom_push hlt hstop' hsmall]
      split_ifs with hdone
      · refine ⟨_, hmap, ?_⟩
        rw [hdone.2] at hpush ⊢
        exact hpush
      · refine covers_chunksFrom _ hmin hclean (Nat.dvd_add hdvd (Nat.dvd_refl _)) ?_ ?_ ?_ ?_
          hmap hpush
        all_goals omega
  · have hend : stop = words.length := by omega
    rw [chunksFrom, dif_neg hlt]
    exact ⟨_, hchunks, hend ▸ hreach⟩
termination_by words.length - start

theorem exists_not_nodup {start a : Nat} (front : List Text) {last : Text}
    (hoverlap : 0 < config.overlapSize)
    (hbad : config.overlapSize + 1 + (words.length - config.overlapSize - 1) % config.stepSize <
      config.minChunkSize) (hdvd : config.stepSize ∣ start) (hle : a ≤ start)
    (hlt : start + config.overlapSize < words.length)
    (hlast : splitWhitespace last = slice words (a, start + config.overlapSize)) :
    ∃ c ∈ chunksFrom config words start (front ++ [last]), ¬ (splitWhitespace c).Nodup := by
  have hstep := config.stepSize_pos
  have hadd := config.stepSize_add
  have hstart : start < words.length := by omega
  by_cases hsmall : min (start + config.chunkSize) words.length - start < config.minChunkSize
  · rw [chunksFrom_merge front last hstart rfl hsmall]
    refine ⟨_, mem_append_right _ mem_cons_self, fun hnodup => ?_⟩
    rw [splitWhitespace_append, hlast, splitWhitespace_slice hwords] at hnodup
    -- the word at the start is in both parts
    have hmem : ∀ b c, b ≤ start → start < c → c ≤ words.length →
        words[start] ∈ slice words (b, c) := by
      intro b c hb hc hlength
      refine List.mem_iff_getElem.mpr ⟨start - b, ?_, ?_⟩
      · rw [length_slice hlength]
        exact Nat.sub_lt_sub_right hb hc
      · simp [slice, Nat.add_sub_cancel' hb]
    exact (List.nodup_append.mp hnodup).2.2 _ (hmem a _ hle (by omega) hlt.le) _
      (hmem start _ le_rfl (by omega) (Nat.min_le_right _ _)) rfl
  · rw [not_lt] at hsmall
    have hfar : start + config.chunkSize < words.length := by
      by_contra hnear
      have hmod : (words.length - config.overlapSize - 1) % config.stepSize =
          words.length - config.overlapSize - 1 - start := by
        obtain ⟨q, rfl⟩ := hdvd
        obtain ⟨x, hx⟩ := Nat.exists_eq_add_of_le
          (show config.stepSize * q ≤ words.length - config.overlapSize - 1 by omega)
        rw [hx, Nat.mul_add_mod, Nat.add_sub_cancel_left, Nat.mod_eq_of_lt (by omega)]
      omega
    have hstop : start + config.stepSize + config.overlapSize =
        min (start + config.chunkSize) words.length := by omega
    rw [chunksFrom_push hstart hstop (hstop ▸ hsmall), if_neg (by omega)]
    exact exists_not_nodup _ hoverlap hbad (Nat.dvd_add hdvd (Nat.dvd_refl _))
      (Nat.le_add_right _ _) (by omega) (splitWhitespace_slice hwords _)
termination_by words.length - start

theorem map_chunksFrom_of_small (hzero : config.overlapSize = 0)
    (hsmall : config.chunkSize < config.minChunkSize) (hlong : config.chunkSize < words.length) :
    (chunksFrom config words 0 []).map splitWhitespace =
      [slice words (0, min (2 * config.chunkSize) words.length)] := by
  have hstep : config.stepSize = config.chunkSize := by rw [ChunkConfig.stepSize, hzero]; rfl
  have hmerge := chunksFrom_merge [] (joinWords (slice words (0, config.chunkSize))) hlong rfl
    (show min (config.chunkSize + config.chunkSize) words.length - config.chunkSize < _ by omega)
  rw [nil_append, nil_append] at hmerge
  rw [chunksFrom_zero hlong, hstep, hmerge, map_singleton, splitWhitespace_append,
    splitWhitespace_slice hwords, splitWhitespace_slice hwords,
    slice_append (Nat.zero_le _) (by omega), Nat.two_mul]

end Words

theorem nodup_of_covers (hnodup : words.Nodup) (h : Covers words chunks) {c : Text}
    (hc : c ∈ chunks) : (splitWhitespace c).Nodup := by
  obtain ⟨runs, hchunks, -⟩ := h
  have hmem := List.mem_map_of_mem (f := splitWhitespace) hc
  rw [hchunks] at hmem
  obtain ⟨r, -, hr⟩ := mem_map.mp hmem
  rw [← hr]
  exact (hnodup.sublist (List.drop_sublist _ _)).sublist (List.take_sublist _ _)

end Loop

section Documents

variable {config : ChunkConfig} {content : Text}

theorem chunkDocument_of_long (h : config.chunkSize < (splitWhitespace content).length) :
    chunkDocument content config = chunksFrom config (splitWhitespace content) 0 [] := by
  have hne : splitWhitespace content ≠ [] := fun hnil => by rw [hnil] at h; cases h
  have hcontent : content.isEmpty = false := by
    rw [List.isEmpty_eq_false_iff]
    rintro rfl
    exact hne (by decide)
  rw [chunkDocument, hcontent, if_neg Bool.false_ne_true]
  dsimp only
  rw [if_neg (by simpa using hne), if_neg (not_le.mpr h)]

theorem covers_of_short (h : (splitWhitespace content).length ≤ config.chunkSize) :
    Covers (splitWhitespace content) (chunkDocument content config) := by
  by_cases hwords : splitWhitespace content = []
  · rw [chunkDocument_eq_nil_iff.mpr hwords, hwords]
    exact ⟨[], rfl, nofun, .nil, nofun⟩
  · have hchunks : chunkDocument content config = [content] := by
      have hcontent : content ≠ [] := by
        rintro rfl
        exact hwords (by decide)
      simp [chunkDocument, hcontent, hwords, h]
    rw [hchunks]
    exact ⟨[(0, (splitWhitespace content).length)], by simp [slice], .single le_rfl⟩

theorem covers_of_endsWell (h : EndsWell config (splitWhitespace content).length) :
    Covers (splitWhitespace content) (chunkDocument content config) := by
  have hwords : ∀ w ∈ splitWhitespace content, w ≠ [] ∧ ∀ c ∈ w, Text.isWhitespace c = false :=
    fun w hw => isWord_of_mem hw
  have hstep := config.stepSize_pos
  have hadd := config.stepSize_add
  by_cases hshort : (splitWhitespace content).length ≤ config.chunkSize
  · exact covers_of_short hshort
  rw [not_le] at hshort
  rw [chunkDocument_of_long hshort]
  have hends := h.resolve_left (not_le.mpr hshort)
  by_cases hmin : config.minChunkSize ≤ config.chunkSize
  · rw [chunksFrom_zero hshort]
    refine covers_chunksFrom (a := 0) hwords [] hmin (hends.symm.imp_left And.left)
      (Nat.dvd_refl _) hstep (by omega) (by omega) (fun heq => absurd heq hshort.ne) ?_ ?_
    · simp [splitWhitespace_slice hwords]
    · exact .single hshort.le
  · rw [not_le] at hmin
    have hmod := Nat.mod_lt ((splitWhitespace content).length - config.overlapSize - 1) hstep
    rcases hends with hlarge | ⟨hzero, hends⟩
    · omega
    · -- all that is left is merged with the first chunk
      have htwice := hends.resolve_left (not_le.mpr hmin)
      have hchunks := map_chunksFrom_of_small hwords hzero hmin hshort
      rw [Nat.min_eq_right htwice] at hchunks
      exact ⟨[_], hchunks, .single le_rfl⟩

theorem endsWell_of_covers (hnodup : (splitWhitespace content).Nodup)
    (h : Covers (splitWhitespace content) (chunkDocument content config)) :
    EndsWell config (splitWhitespace content).length := by
  have hwords : ∀ w ∈ splitWhitespace content, w ≠ [] ∧ ∀ c ∈ w, Text.isWhitespace c = false :=
    fun w hw => isWord_of_mem hw
  have hadd := config.stepSize_add
  by_contra hends
  obtain ⟨hshort, hlarge, hclean⟩ := (not_or.trans (and_congr_right' not_or)).mp hends
  rw [not_le] at hshort hlarge
  rw [chunkDocument_of_long hshort] at h
  rcases Nat.eq_zero_or_pos config.overlapSize with hzero | hpos
  · rw [not_and, not_or, not_le, not_le] at hclean
    obtain ⟨hmin, htwice⟩ := hclean hzero
    obtain ⟨runs, hchunks, hreach⟩ := h
    rw [map_chunksFrom_of_small hwords hzero hmin hshort, Nat.min_eq_left htwice.le] at hchunks
    obtain ⟨r, rfl, hr⟩ := List.map_eq_singleton_iff.mp hchunks.symm
    -- the only run would have to be the whole document
    have hlength := congrArg List.length hr
    rw [length_slice (hreach.within r mem_cons_self),
      length_slice (r := (0, 2 * config.chunkSize)) htwice.le] at hlength
    obtain ⟨r', hr', hfirst⟩ := hreach.cover 0 (by omega)
    obtain ⟨r'', hr'', hlast⟩ := hreach.cover ((splitWhitespace content).length - 1) (by omega)
    rw [mem_singleton.mp hr'] at hfirst
    rw [mem_singleton.mp hr''] at hlast
    simp only at hlength
    omega
  · rw [chunksFrom_zero hshort] at h
    obtain ⟨c, hc, hrepeated⟩ := exists_not_nodup (a := 0) hwords [] hpos hlarge
      (Nat.dvd_refl _) (Nat.zero_le _) (by omega)
      ((splitWhitespace_slice hwords (0, config.chunkSize)).trans (by rw [hadd]))
    exact hrepeated (nodup_of_covers hnodup h hc)

end Documents

/-- **The chunks cover a document** exactly if its last ones merge well, or words recur. -/
theorem covers_chunkDocument (config : ChunkConfig) (content : Text) :
    (EndsWell config (splitWhitespace content).length →
      Covers (splitWhitespace content) (chunkDocument content config)) ∧
    ((splitWhitespace content).Nodup →
      Covers (splitWhitespace content) (chunkDocument content config) →
        EndsWell config (splitWhitespace content).length) :=
  ⟨covers_of_endsWell, endsWell_of_covers⟩

/-- The chunk of the last two words begins with the last word of the chunk before, and is merged
with it. -/
theorem not_covers_fiveWords : ¬ Covers (splitWhitespace "a b c d e".toList)
    (chunkDocument "a b c d e".toList ⟨4, 1, 3, by decide, by decide⟩) := by
  intro h
  have hends := endsWell_of_covers (by decide) h
  revert hends
  unfold EndsWell
  decide

end IronClaw.Memory
