import IronClaw.Hooks.Registry

/-!
# Generated images

An image tool answers with a JSON object that holds the image. The model and the history are told
the image only if it is small.
-/

namespace IronClaw.Agent

open Foundation (Json Text)
open Hooks (JsonCodec)

def maxRecordedImageSentinelBytes : Nat := 512 * 1024

def maxEmbeddedJsonStringLayers : Nat := 3

/-- Read a value that may be written as a text, at most so many times. -/
def unwrapLayers (codec : JsonCodec) : Nat → Json → Option Json
  | k + 1, .str s => (codec.parse s).bind (unwrapLayers codec k)
  | _, value => some value

def normalizeEmbeddedJson (codec : JsonCodec) : Json → Option Json
  | .str s => (codec.parse s).bind (unwrapLayers codec (maxEmbeddedJsonStringLayers - 1))
  | value => some value

structure GeneratedImageSentinel where
  value : Json

namespace GeneratedImageSentinel

def fromValue (codec : JsonCodec) (value : Json) : Option GeneratedImageSentinel :=
  (normalizeEmbeddedJson codec value).bind fun value =>
    if (value.get "type".toList).bind Json.asStr = some "image_generated".toList then some ⟨value⟩
    else none

def fromOutput (codec : JsonCodec) (output : Text) : Option GeneratedImageSentinel :=
  (codec.parse output).bind (fromValue codec)

variable (sentinel : GeneratedImageSentinel)

def mediaType : Option Text :=
  ((sentinel.value.get "media_type".toList).orElse fun _ =>
    sentinel.value.get "mime_type".toList).bind Json.asStr

def path : Option Text := (sentinel.value.get "path".toList).bind Json.asStr

def summaryForContext : Text :=
  let generated := "Generated image (".toList ++ sentinel.mediaType.getD "image".toList
  match sentinel.path with
  | some path =>
    if path.isEmpty then generated ++ ")".toList else generated ++ ") at ".toList ++ path
  | none => generated ++ ")".toList

def compactValueWithoutDataUrl : Json :=
  .obj ([("type".toList, .str "image_generated".toList)] ++
    (sentinel.mediaType.map fun m => ("media_type".toList, Json.str m)).toList ++
    ((sentinel.path.filter fun path => !path.isEmpty).map fun path =>
      ("path".toList, Json.str path)).toList ++
    [("data_omitted".toList, .bool true),
      ("omitted_reason".toList, .str "exceeded the 512 KiB cap".toList)])

def recordContent (codec : JsonCodec) : Text :=
  let normalized := codec.render sentinel.value
  if Text.byteLength normalized ≤ maxRecordedImageSentinelBytes then normalized
  else codec.render sentinel.compactValueWithoutDataUrl

def summaryMessage (codec : JsonCodec) : Text :=
  let members := [("type".toList, .str "image_generated".toList),
    ("status".toList, .str "ok".toList),
    ("media_type".toList, .str (sentinel.mediaType.getD "image".toList))]
  match sentinel.path with
  | some path => codec.render (.obj (members ++ [("path".toList, .str path)]))
  | none => codec.render (.obj members)

end GeneratedImageSentinel

end IronClaw.Agent
