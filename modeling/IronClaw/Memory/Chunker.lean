import IronClaw.Foundation.Text

/-!
# Chunks of a document

A document is cut into overlapping chunks of words, which are searched. A short document is one
chunk as it stands, and one without words has none.
-/

namespace IronClaw.Memory

open Foundation (Text)

def splitWhitespace (s : Text) : List Text :=
  (Text.splitOn ' ' (s.map fun c => if Text.isWhitespace c then ' ' else c)).filter
    fun word => !word.isEmpty

/-- Chunks of some words, which overlap by half at most. -/
structure ChunkConfig where
  chunkSize : Nat
  /-- Words that a chunk has in common with the next one. -/
  overlapSize : Nat
  /-- Smaller trailing chunks are merged with the previous one. -/
  minChunkSize : Nat
  chunkSize_pos : 0 < chunkSize
  overlap_le : 2 * overlapSize ≤ chunkSize

namespace ChunkConfig

def default : ChunkConfig := ⟨800, 120, 50, by decide, by decide⟩

def stepSize (config : ChunkConfig) : Nat := config.chunkSize - config.overlapSize

theorem stepSize_pos (config : ChunkConfig) : 0 < config.stepSize := by
  have := config.chunkSize_pos
  have := config.overlap_le
  rw [stepSize]
  omega

theorem stepSize_add (config : ChunkConfig) :
    config.stepSize + config.overlapSize = config.chunkSize := by
  have := config.overlap_le
  rw [stepSize]
  omega

end ChunkConfig

def joinWords (words : List Text) : Text := Text.joinWith [' '] words

def chunksFrom (config : ChunkConfig) (words : List Text) (start : Nat) (chunks : List Text) :
    List Text :=
  if h : start < words.length then
    let stop := min (start + config.chunkSize) words.length
    let chunkWords := (words.drop start).take (stop - start)
    match if chunkWords.length < config.minChunkSize then chunks.getLast? else none with
    | some last => chunks.dropLast ++ [last ++ ' ' :: joinWords chunkWords]
    | none =>
      let chunks := chunks ++ [joinWords chunkWords]
      if words.length ≤ start + config.stepSize + config.minChunkSize ∧ stop = words.length then
        chunks
      else chunksFrom config words (start + config.stepSize) chunks
  else chunks
termination_by words.length - start
decreasing_by
  have := config.stepSize_pos
  omega

def chunkDocument (content : Text) (config : ChunkConfig := .default) : List Text :=
  if content.isEmpty then []
  else
    let words := splitWhitespace content
    if words.isEmpty then []
    else if words.length ≤ config.chunkSize then [content]
    else chunksFrom config words 0 []

variable {config : ChunkConfig}

theorem chunksFrom_ne_nil (words : List Text) (start : Nat) {chunks : List Text}
    (h : chunks ≠ [] ∨ start < words.length) : chunksFrom config words start chunks ≠ [] := by
  rw [chunksFrom]
  split_ifs with hstart
  · dsimp only
    split
    · exact List.append_ne_nil_of_right_ne_nil _ (List.cons_ne_nil _ _)
    · split_ifs
      · exact List.append_ne_nil_of_right_ne_nil _ (List.cons_ne_nil _ _)
      · exact chunksFrom_ne_nil words _ (.inl (List.append_ne_nil_of_right_ne_nil _
          (List.cons_ne_nil _ _)))
  · exact h.resolve_right hstart
termination_by words.length - start
decreasing_by
  have := config.stepSize_pos
  omega

theorem chunkDocument_eq_nil_iff {content : Text} :
    chunkDocument content config = [] ↔ splitWhitespace content = [] := by
  rw [chunkDocument]
  dsimp only
  split_ifs with hempty hwords hshort
  · rw [List.isEmpty_iff.mp hempty]
    exact iff_of_true rfl (by decide)
  · exact iff_of_true rfl (List.isEmpty_iff.mp hwords)
  · exact iff_of_false id fun h => hwords (by rw [h]; rfl)
  · have hne : splitWhitespace content ≠ [] := fun h => hwords (by rw [h]; rfl)
    exact iff_of_false (chunksFrom_ne_nil _ 0 (.inr (List.length_pos_iff.mpr hne))) hne

end IronClaw.Memory
