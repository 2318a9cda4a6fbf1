import IronClaw.Foundation.Run
import IronClaw.Memory.Listing

/-!
# Memory hygiene

A pass lists each folder of the primary scope whose configuration enables hygiene, and deletes the
old documents one by one. Other tasks write at any time. A time before the earliest one panics.
-/

namespace IronClaw.Memory

open Foundation (Text Json HashMap)

def minRetentionDays : Nat := 1

def defaultRetentionDays : Nat := 30

/-- Hygiene settings for a folder. Documents older than so many days are deleted. -/
structure HygieneMetadata where
  enabled : Bool
  retentionDays : Nat
  min_le : minRetentionDays ≤ retentionDays
deriving DecidableEq

namespace HygieneMetadata

/-- The days of a configuration, an unsigned 32-bit integer raised to the minimum. -/
def deserializeRetentionDays : Json → Option { days : Nat // minRetentionDays ≤ days }
  | .int n => if 0 ≤ n ∧ n < 2 ^ 32 then some ⟨max n.toNat minRetentionDays, le_max_right _ _⟩
    else none
  | _ => none

def withDays (enabled : Bool) : Option Json → Option HygieneMetadata
  | none => some ⟨enabled, defaultRetentionDays, by decide⟩
  | some days => (deserializeRetentionDays days).map fun d => ⟨enabled, d.1, d.2⟩

def deserialize : Json → Option HygieneMetadata
  | .obj members =>
    match (Json.obj members).get "enabled".toList with
    | some (.bool enabled) => withDays enabled ((Json.obj members).get "retention_days".toList)
    | _ => none
  | .arr [.bool enabled] => withDays enabled none
  | .arr [.bool enabled, days] => withDays enabled (some days)
  | _ => none

end HygieneMetadata

def DocumentMetadata.hygiene (metadata : Json) : Option HygieneMetadata :=
  if DocumentMetadata.readsAsFlag (metadata.get "skip_indexing".toList) &&
      DocumentMetadata.readsAsFlag (metadata.get "skip_versioning".toList) then
    (metadata.get "hygiene".toList).bind HygieneMetadata.deserialize
  else none

def fileName (path : Text) : Text :=
  match Text.rsplitOnce '/' path with
  | some (_, name) => name
  | none => path

def isConfigPath (path : Text) : Bool := fileName path == configFileName

def hygieneProtectedPaths : List Text :=
  [Paths.memory, Paths.identity, Paths.soul, Paths.agents, Paths.user, Paths.heartbeat,
    Paths.readme, Paths.tools, Paths.bootstrap]

/-- Protected files, up to case. -/
def isProtectedDocument (toLowercase : Text → Text) (path : Text) : Bool :=
  let fileNameLower := toLowercase (fileName path)
  (hygieneProtectedPaths ++ identityPaths).any fun p => toLowercase p == fileNameLower

/-- The two databases, whose `LIKE` differs. -/
inductive Backend where
  | postgres
  | libsql
deriving DecidableEq

/-- `path LIKE '%/.config' OR path = '.config'`, in the second database blind to ASCII case. -/
def Backend.selectsConfig (backend : Backend) (path : Text) : Bool :=
  path == configFileName ||
    match backend with
    | .postgres => ('/' :: configFileName).isSuffixOf path
    | .libsql => ('/' :: configFileName).isSuffixOf (Text.toAsciiLowercase path)

structure ConfigDocument where
  path : Text
  metadata : Json

/-- The directory that a configuration has cleaned, with its settings. One at the root has none. -/
def ConfigDocument.target (config : ConfigDocument) : Option (Text × HygieneMetadata) :=
  match DocumentMetadata.hygiene config.metadata with
  | none => none
  | some hygiene =>
    if hygiene.enabled then
      (Text.rsplitOnce '/' config.path).map fun split => (split.1 ++ ['/'], hygiene)
    else none

def findConfigDocuments (backend : Backend) (docs : DatedDocuments) (scope : Scope)
    (agentId : Option AgentId) : List ConfigDocument :=
  let rows := docs.entries.filter fun row => decide (row.1.scope = scope) &&
    decide (row.1.agentId = agentId) && backend.selectsConfig row.1.path
  (rows.map fun row => (⟨row.1.path, row.2.metadata⟩ : ConfigDocument)).insertionSort
    fun c d => c.path ≤ d.path

def dayNanos : Int := 86400 * 10 ^ 9

def hourNanos : Int := 3600 * 10 ^ 9

/-- The earliest time that can be represented, in the year -262143. -/
def minUtc : Timestamp := -8334601228800 * 10 ^ 9

def daysBefore (now : Timestamp) (days : Nat) : Option Timestamp :=
  let t := now - days * dayNanos
  if minUtc ≤ t then some t else none

structure HygieneConfig where
  enabled : Bool
  cadenceHours : Nat

/-- What a pass runs in. `toLowercase` is the lower-casing of texts. -/
structure HygieneEnv where
  workspace : Workspace
  backend : Backend
  config : HygieneConfig
  toLowercase : Text → Text

structure Cleanup where
  directory : Text
  cutoff : Timestamp
  entries : List WorkspaceEntry

/-- A running pass: the documents found, the configurations to look at and the directory being
cleaned. -/
structure HygienePass where
  found : DatedDocuments
  configDocs : List ConfigDocument
  cleanup : Option Cleanup

/-- Storage and hygiene, one pass at most. `overflowed` tells of an arithmetic overflow. -/
structure HygieneState where
  now : Timestamp
  docs : DatedDocuments
  lastRun : Option Timestamp
  pass : Option HygienePass
  overflowed : Bool

inductive HygieneAction where
  | wait (time : Nat)
  | write (scope : Scope) (agentId : Option AgentId) (target : Text)
  | setMetadata (scope : Scope) (agentId : Option AgentId) (target : Text) (metadata : Json)
  | delete (scope : Scope) (agentId : Option AgentId) (target : Text)
  | runIfDue
  | goOn

def hygieneStart (now : Timestamp) : HygieneState := ⟨now, ∅, none, none, false⟩

def DatedDocuments.written (docs : DatedDocuments) (key : DocKey) (now : Timestamp) :
    DatedDocuments :=
  match docs.lookup key with
  | some doc => docs.insert key { doc with updatedAt := now }
  | none => docs.insert key ⟨.obj [], now⟩

namespace HygieneEnv

variable (env : HygieneEnv)

def isDue (s : HygieneState) : Bool :=
  match s.lastRun with
  | some lastRun => !decide (s.now - lastRun < env.config.cadenceHours * hourNanos)
  | none => true

/-- The entry is that of a document old enough to be deleted. -/
def isStale (cutoff : Timestamp) (e : WorkspaceEntry) : Bool :=
  !e.isDirectory && !isConfigPath e.path && !isProtectedDocument env.toLowercase e.path &&
    match e.updatedAt with
    | some updatedAt => decide (updatedAt < cutoff)
    | none => false

def deletionKey (directory : Text) (e : WorkspaceEntry) : DocKey :=
  env.workspace.key (normalizePath
    (if directory.isPrefixOf e.path then e.path else directory ++ e.path))

def beginCleanup (s : HygieneState) (pass : HygienePass) (config : ConfigDocument) :
    HygieneState :=
  match config.target with
  | none => { s with pass := some pass }
  | some (directory, hygiene) =>
    match daysBefore s.now hygiene.retentionDays with
    | none => { s with pass := none, overflowed := true }
    | some cutoff =>
      let entries := env.workspace.list s.docs directory
      { s with pass := some { pass with cleanup := some ⟨directory, cutoff, entries⟩ } }

/-- The next step of a pass: delete a document, turn to the next configuration, or end. -/
def resume (s : HygieneState) (pass : HygienePass) : HygieneState :=
  match pass.cleanup with
  | some cleanup =>
    match cleanup.entries with
    | [] => { s with pass := some { pass with cleanup := none } }
    | e :: entries =>
      { s with
        docs :=
          if env.isStale cleanup.cutoff e then s.docs.erase (env.deletionKey cleanup.directory e)
          else s.docs
        pass := some { pass with cleanup := some { cleanup with entries := entries } } }
  | none =>
    match pass.configDocs with
    | [] => { s with pass := none }
    | config :: configDocs => env.beginCleanup s { pass with configDocs := configDocs } config

def step (s : HygieneState) : HygieneAction → Option HygieneState
  | .wait time => some { s with now := s.now + time }
  | .write scope agentId target =>
    some { s with docs := s.docs.written ⟨scope, agentId, normalizePath target⟩ s.now }
  | .setMetadata scope agentId target metadata =>
    some { s with docs := HashMap.adjust s.docs ⟨scope, agentId, normalizePath target⟩ fun _ =>
      ⟨metadata, s.now⟩ }
  | .delete scope agentId target =>
    some { s with docs := s.docs.erase ⟨scope, agentId, normalizePath target⟩ }
  | .runIfDue =>
    if env.config.enabled && s.pass.isNone && env.isDue s then
      some { s with
        lastRun := some s.now
        pass := some ⟨s.docs, findConfigDocuments env.backend s.docs env.workspace.userId
          env.workspace.agentId, none⟩ }
    else some s
  | .goOn => s.pass.map (env.resume s)

end HygieneEnv

end IronClaw.Memory
