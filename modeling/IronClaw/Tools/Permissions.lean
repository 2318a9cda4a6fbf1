import IronClaw.Engine.Capability

/-!
# Tool permissions

A user may allow a tool, have it ask, or disable it; else a table of defaults decides. A permission
is looked up under the name, and then under its two spellings.
-/

namespace IronClaw.Tools

open Foundation (Text HashMap)

inductive PermissionState where
  | alwaysAllow
  | askEachTime
  | disabled
deriving DecidableEq

def allowedByDefault : List Text :=
  ["echo", "time", "json", "memory_search", "memory_read", "memory_write", "memory_tree",
    "tool_list", "tool_info", "tool_search", "skill_list", "skill_search", "list_jobs",
    "job_status", "job_events", "image_analyze", "message"].map String.toList

def askingByDefault : List Text :=
  ["shell", "read_file", "write_file", "list_dir", "apply_patch", "http", "create_job",
    "event_emit", "routine_create", "routine_update", "cancel_job", "job_prompt",
    "routine_delete", "routine_fire", "tool_install", "tool_auth", "tool_activate",
    "tool_remove", "tool_upgrade", "skill_install", "skill_remove", "secret_list",
    "secret_delete", "image_generate", "image_edit", "restart", "build_software",
    "tool_permission_set"].map String.toList

def toolRiskDefault (name : Text) : Option PermissionState :=
  if allowedByDefault.contains name then some .alwaysAllow
  else if askingByDefault.contains name then some .askEachTime
  else none

def canonicalToolName (name : Text) : Text := Engine.underscored name

structure ToolPermissionResolution where
  effective : PermissionState
  explicit : Option PermissionState
  configured : Option PermissionState
deriving DecidableEq

structure ToolPermissionSnapshot where
  overrides : HashMap Text PermissionState

namespace ToolPermissionSnapshot

variable (snapshot : ToolPermissionSnapshot) (name : Text)

def explicitPermission : Option PermissionState :=
  ((snapshot.overrides.lookup name).or (snapshot.overrides.lookup (canonicalToolName name))).or
    (snapshot.overrides.lookup (Engine.hyphenated (canonicalToolName name)))

def resolvePermission : ToolPermissionResolution :=
  let explicit := snapshot.explicitPermission name
  let configured := explicit.or (toolRiskDefault (canonicalToolName name))
  ⟨configured.getD .askEachTime, explicit, configured⟩

def isDisabled : Bool := (snapshot.resolvePermission name).effective == .disabled

end ToolPermissionSnapshot

end IronClaw.Tools
