import IronClaw.Bridge.Output
import IronClaw.Foundation.FileSystem

/-!
# Paths that tools may use

What exists of a path is canonicalized; of what does not, the nearest ancestor that exists is. A
link to nothing does not exist.
-/

namespace IronClaw.Sandbox

open Bridge (MountError)
open Foundation (Component FileSystem Path Text)
open Tools (ToolError)

/-- Only null bytes and encoded traversal count. -/
def isPathSafeMinimal (path : Text) : Bool :=
  let lower := Text.toAsciiLowercase path
  !path.contains '\x00' && !(Text.hasInfix "%2e".toList lower ||
    Text.hasInfix "%2f".toList lower || Text.hasInfix "%5c".toList lower)

/-- The canonical path, or the path resolved without looking at any file. -/
def canonicalOrLexical (fs : FileSystem) (p : Path) : Path :=
  match fs.canonicalize p with
  | some loc => .ofNames loc
  | none => p.normalizeLexical

/-- Walk up to the nearest existing ancestor, canonicalize it, and append the names below it again.
-/
def appendedToAncestor (fs : FileSystem) (resolved : Path) : List Component → List Text → Path
  | [], _ | .rootDir :: _, _ => resolved
  | c :: parent, tail =>
    let tail := match c with
      | .normal name => name :: tail
      | _ => tail
    match fs.canonicalize (.ofComponents parent.reverse) with
    | some loc => (Path.ofNames loc).extend tail
    | none => appendedToAncestor fs resolved parent tail

def checkPath (fs : FileSystem) (resolved : Path) : Path :=
  match fs.canonicalize resolved with
  | some loc => .ofNames loc
  | none => appendedToAncestor fs resolved resolved.components.reverse []

def joined (base path : Path) : Path := if path.isAbsolute then path else base.join path

def validatePath (fs : FileSystem) (pathStr : Text) (baseDir : Option Path) :
    Except ToolError Path :=
  if !isPathSafeMinimal pathStr then
    .error (.notAuthorized
      ("Path contains forbidden characters or sequences: " ++ String.ofList pathStr))
  else
    let path := Path.ofText pathStr
    match baseDir with
    | none =>
      if path.isAbsolute then .ok (canonicalOrLexical fs path)
      else .ok ((Path.ofNames fs.cwd).join path).normalizeLexical
    | some base =>
      let resolved := canonicalOrLexical fs (joined base path)
      if (checkPath fs resolved).startsWith (canonicalOrLexical fs base) then .ok resolved
      else .error (.notAuthorized ("Path escapes sandbox: " ++ String.ofList pathStr))

structure FilesystemBackend where
  root : Path

namespace FilesystemBackend

variable (backend : FilesystemBackend)

def safeJoin (relPath : Path) : Except MountError Path :=
  if relPath.isAbsolute then
    .error (.invalidPath relPath.toText
      "absolute paths are not allowed; pass a path relative to the mount".toList)
  else
    match relPath.components.find? fun c => c = .parentDir ∨ c = .rootDir with
    | none => .ok (backend.root.join relPath)
    | some .parentDir =>
      .error (.invalidPath relPath.toText "`..` components are not allowed".toList)
    | some _ =>
      .error (.invalidPath relPath.toText "root or prefix components are not allowed".toList)

/-- Climb from a path that does not exist to one that does, as long as the last component is a
name. -/
def climb (fs : FileSystem) : Path → List Component → List Text → Path × List Text
  | _, .normal name :: parent, tail =>
    let p := Path.ofComponents parent.reverse
    if (fs.canonicalize p).isSome then (p, name :: tail) else climb fs p parent (name :: tail)
  | p, _, tail => (p, tail)

def existingPrefix (fs : FileSystem) (p : Path) : Path × List Text :=
  if (fs.canonicalize p).isSome then (p, []) else climb fs p p.components.reverse []

def canonicalizeUnderRoot (fs : FileSystem) (joined : Path) : Except MountError Path :=
  match fs.canonicalize backend.root with
  | none => .ok joined
  | some canonicalRoot =>
    let (existing, tail) := existingPrefix fs joined
    let canonicalPrefix : Path := match fs.canonicalize existing with
      | some loc => .ofNames loc
      | none => existing
    if !canonicalPrefix.startsWith (.ofNames canonicalRoot) then
      .error (.invalidPath joined.toText "resolved path escapes the mount root via symlink".toList)
    else
      let result := canonicalPrefix.extend tail
      match fs.canonicalize result with
      | some finalCanonical =>
        if !(Path.ofNames finalCanonical).startsWith (.ofNames canonicalRoot) then
          .error (.invalidPath joined.toText
            "resolved path escapes the mount root via symlink (post-assembly check)".toList)
        else .ok (.ofNames finalCanonical)
      | none => .ok result

def resolve (fs : FileSystem) (relPath : Path) : Except MountError Path := do
  let joined ← backend.safeJoin relPath
  backend.canonicalizeUnderRoot fs joined

end FilesystemBackend

end IronClaw.Sandbox
