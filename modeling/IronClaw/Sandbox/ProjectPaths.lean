import IronClaw.Foundation.Path
import IronClaw.Foundation.Splitting
import IronClaw.Foundation.Utf
import IronClaw.Orchestrator.Interchange

/-!
# The directories of projects

The workspace of a project stands below a directory for its user. An id names it as it is, or, where
a component is not plain, in hexadecimal. Some ids share a directory.
-/

namespace IronClaw.Sandbox

open Foundation (Component IsName Path Text)
open Orchestrator (hexByte)

def hexEncode (s : Text) : Text := (Text.utf8 s).flatMap hexByte

def isPlain (userId : Text) : Bool :=
  (Path.ofText userId).components.all fun
    | .normal _ => true
    | _ => false

def anonymous : Text := "_anonymous".toList

def sanitizePathComponent (s : Text) : Text :=
  if s.isEmpty then anonymous else if isPlain s then s else hexEncode s

structure ProjectId where
  text : Text
  isName : IsName text
  noSeparator : '/' ∉ text

def projectsDir (baseDir : Path) : Path := baseDir.join (Path.ofText "projects".toList)

def defaultProjectWorkspacePath (baseDir : Path) (userId : Text) (projectId : ProjectId) : Path :=
  ((projectsDir baseDir).join (Path.ofText (sanitizePathComponent userId))).join
    (Path.ofText projectId.text)

theorem digitChar_of_lt {n : Nat} (h : n < 16) :
    Nat.digitChar n ≠ '.' ∧ Nat.digitChar n ≠ '/' ∧ Nat.digitChar n ≠ '_' :=
  (by decide : ∀ n : Fin 16, Nat.digitChar n ≠ '.' ∧ Nat.digitChar n ≠ '/' ∧ Nat.digitChar n ≠ '_')
    ⟨n, h⟩

theorem isName_of_head {c : Char} (h : c ≠ '.') (s : Text) : IsName (c :: s) := by
  refine ⟨by simp, ?_, ?_⟩ <;> rintro ⟨⟩ <;> exact h rfl

theorem utf8_injective {s t : Text} (h : Text.utf8 s = Text.utf8 t) : s = t :=
  Option.some.inj ((Text.fromUtf8_eq_some_iff.mpr rfl).symm.trans (Text.fromUtf8_eq_some_iff.mpr h))

theorem hexByte_injective {a b : UInt8} (h : hexByte a = hexByte b) : a = b := by
  have hdigit : ∀ m n : Fin 16, Nat.digitChar m = Nat.digitChar n → m = n := by decide
  have ha := a.toNat_lt
  have hb := b.toNat_lt
  simp only [hexByte, List.cons.injEq, and_true] at h
  have hhigh := hdigit ⟨a.toNat / 16, by omega⟩ ⟨b.toNat / 16, by omega⟩ h.1
  have hlow := hdigit ⟨a.toNat % 16, by omega⟩ ⟨b.toNat % 16, by omega⟩ h.2
  simp only [Fin.mk.injEq] at hhigh hlow
  exact UInt8.toNat_inj.mp (by omega)

theorem hexEncode_injective {s t : Text} (h : hexEncode s = hexEncode t) : s = t := by
  refine utf8_injective ?_
  unfold hexEncode at h
  generalize Text.utf8 s = as at h ⊢
  generalize Text.utf8 t = bs at h
  induction as generalizing bs with
  | nil =>
    cases bs with
    | nil => rfl
    | cons b bs => cases h
  | cons a as ih =>
    cases bs with
    | nil => cases h
    | cons b bs =>
      obtain ⟨hbyte, hrest⟩ := List.append_inj h rfl
      rw [hexByte_injective hbyte, ih bs hrest]

theorem mem_hexEncode {s : Text} {c : Char} (h : c ∈ hexEncode s) : c ≠ '.' ∧ c ≠ '/' ∧ c ≠ '_' := by
  obtain ⟨b, -, hc⟩ := List.mem_flatMap.mp h
  have hb := b.toNat_lt
  simp only [hexByte, List.mem_cons, List.not_mem_nil, or_false] at hc
  rcases hc with rfl | rfl
  · exact digitChar_of_lt (by omega)
  · exact digitChar_of_lt (by omega)

theorem isName_hexEncode {s : Text} (h : s ≠ []) : IsName (hexEncode s) := by
  cases hs : hexEncode s with
  | nil => exact absurd (hexEncode_injective (hs.trans rfl : hexEncode s = hexEncode [])) h
  | cons c rest => exact isName_of_head (mem_hexEncode (hs ▸ List.mem_cons_self)).1 rest

theorem component?_ofText {s : Text} (hname : IsName s) (hsep : '/' ∉ s) :
    (Path.ofText s).isAbsolute = false ∧
      (Path.ofText s).segments.filterMap Path.component? = [.normal s] := by
  have hpath : Path.ofText s = ⟨false, [s]⟩ := by
    cases s with
    | nil => exact absurd rfl hname.1
    | cons c s =>
      rw [Path.ofText, Text.splitOn_of_not_mem hsep]
      rintro s' ⟨⟩
      exact hsep List.mem_cons_self
  rw [hpath]
  exact ⟨rfl, Path.filterMap_component?_names (by simpa using hname)⟩

def directory (userId : Text) : List Component :=
  if userId.isEmpty then [.normal anonymous]
  else if isPlain userId then (Path.ofText userId).components else [.normal (hexEncode userId)]

theorem component?_sanitize (userId : Text) :
    (Path.ofText (sanitizePathComponent userId)).isAbsolute = false ∧
      (Path.ofText (sanitizePathComponent userId)).segments.filterMap Path.component? =
        directory userId := by
  rw [sanitizePathComponent, directory]
  split_ifs with hempty hplain
  · exact component?_ofText (by decide) (by decide)
  · rw [isPlain, Path.components] at hplain
    rw [Path.components]
    -- a root or a leading dot is no plain component
    cases habs : (Path.ofText userId).isAbsolute with
    | true =>
      rw [habs] at hplain
      cases hplain
    | false =>
      rw [habs, if_neg Bool.false_ne_true] at hplain
      rw [if_neg Bool.false_ne_true]
      split at hplain
      · cases hplain
      · exact ⟨rfl, rfl⟩
  · exact component?_ofText (isName_hexEncode (by simpa using hempty))
      fun h => (mem_hexEncode h).2.1 rfl

theorem components_defaultProjectWorkspacePath (baseDir : Path) (userId : Text)
    (projectId : ProjectId) : (defaultProjectWorkspacePath baseDir userId projectId).components =
      (projectsDir baseDir).components ++ (directory userId ++ [.normal projectId.text]) := by
  have hbase : (projectsDir baseDir).isEmpty = false := by
    cases hempty : baseDir.isEmpty with
    | true =>
      rw [projectsDir, Path.join, hempty, Bool.or_true, if_pos rfl]
      decide
    | false => exact Path.isEmpty_join hempty (by decide)
  obtain ⟨huser, hdirectory⟩ := component?_sanitize userId
  obtain ⟨hid, hname⟩ := component?_ofText projectId.isName projectId.noSeparator
  rw [defaultProjectWorkspacePath, Path.components_join (Path.isEmpty_join hbase huser) hid,
    Path.components_join hbase huser, hdirectory, hname, List.append_assoc]

/-- The path is that of an entry of an entry of the directory of all users. -/
def IsTwoBelow (baseDir p : Path) : Prop :=
  ∃ a b, p.components = (projectsDir baseDir).components ++ [.normal a, .normal b]

/-- Two users' workspaces are at the level of workspaces, and none is in another. -/
def LiesApart (baseDir : Path) (u v : Text) : Prop :=
  ∀ projectId projectId' : ProjectId,
    let p := defaultProjectWorkspacePath baseDir u projectId
    let q := defaultProjectWorkspacePath baseDir v projectId'
    IsTwoBelow baseDir p ∧ IsTwoBelow baseDir q ∧ p.startsWith q = false ∧ q.startsWith p = false

def Named (userId name : Text) : Prop := (Path.ofText userId).components = [.normal name]

def Taken (userId other : Text) : Prop :=
  (∃ name, Named userId name ∧ Named other name) ∨ (userId = [] ∧ Named other anonymous) ∨
    (isPlain userId = false ∧ Named other (hexEncode userId))

/-- No id has several plain components, and none names the other's directory. -/
structure Separate (u v : Text) : Prop where
  ne : u ≠ v
  single : ∀ id ∈ [u, v], id ≠ [] → isPlain id = true → ∃ name, Named id name
  apart : ¬ Taken u v ∧ ¬ Taken v u

section Directories

variable {u v : Text} {a b : Text}

def Stands (userId name : Text) : Prop :=
  (userId = [] ∧ name = anonymous) ∨ Named userId name ∨
    (isPlain userId = false ∧ name = hexEncode userId)

theorem directory_of_stands (h : Stands u a) : directory u = [.normal a] := by
  rw [directory]
  rcases h with ⟨rfl, rfl⟩ | hname | ⟨hplain, rfl⟩
  · rfl
  · have hne : u.isEmpty = false := by
      cases u with
      | nil => cases hname
      | cons c u => rfl
    have hplain : isPlain u = true := by
      rw [isPlain, hname]
      rfl
    rw [hne, if_neg Bool.false_ne_true, if_pos hplain, hname]
  · have hne : u.isEmpty = false := by
      cases u with
      | nil => cases hplain
      | cons c u => rfl
    rw [hne, hplain, if_neg Bool.false_ne_true, if_neg Bool.false_ne_true]

theorem exists_stands (h : u ≠ [] → isPlain u = true → ∃ name, Named u name) : ∃ a, Stands u a := by
  by_cases hempty : u = []
  · exact ⟨_, .inl ⟨hempty, rfl⟩⟩
  · cases hplain : isPlain u with
    | true =>
      obtain ⟨name, hname⟩ := h hempty hplain
      exact ⟨name, .inr (.inl hname)⟩
    | false => exact ⟨_, .inr (.inr ⟨hplain, rfl⟩)⟩

theorem directory_eq_of_taken (h : Taken u v) : directory u = directory v := by
  rcases h with ⟨name, hu, hv⟩ | ⟨hu, hv⟩ | ⟨hu, hv⟩
  · rw [directory_of_stands (.inr (.inl hu)), directory_of_stands (.inr (.inl hv))]
  · rw [directory_of_stands (.inl ⟨hu, rfl⟩), directory_of_stands (.inr (.inl hv))]
  · rw [directory_of_stands (.inr (.inr ⟨hu, rfl⟩)), directory_of_stands (.inr (.inl hv))]

theorem Separate.ne_of_stands (h : Separate u v) (hu : Stands u a) (hv : Stands v b) : a ≠ b := by
  have hanonymous (s : Text) : anonymous ≠ hexEncode s := fun heq =>
    (mem_hexEncode (show '_' ∈ hexEncode s from heq ▸ List.mem_cons_self)).2.2 rfl
  rintro rfl
  rcases hu with ⟨rfl, rfl⟩ | hu | ⟨hu, rfl⟩
  · rcases hv with ⟨rfl, -⟩ | hv | ⟨-, hv⟩
    · exact h.ne rfl
    · exact h.apart.1 (.inr (.inl ⟨rfl, hv⟩))
    · exact hanonymous v hv
  · rcases hv with ⟨rfl, rfl⟩ | hv | ⟨hv, rfl⟩
    · exact h.apart.2 (.inr (.inl ⟨rfl, hu⟩))
    · exact h.apart.1 (.inl ⟨a, hu, hv⟩)
    · exact h.apart.2 (.inr (.inr ⟨hv, hu⟩))
  · rcases hv with ⟨rfl, hv⟩ | hv | ⟨-, hv⟩
    · exact hanonymous u hv.symm
    · exact h.apart.1 (.inr (.inr ⟨hu, hv⟩))
    · exact h.ne (hexEncode_injective hv)

theorem directory_of_isTwoBelow {baseDir : Path} {projectId : ProjectId}
    (h : IsTwoBelow baseDir (defaultProjectWorkspacePath baseDir u projectId)) :
    ∃ a, directory u = [.normal a] := by
  obtain ⟨a, b, hcomponents⟩ := h
  rw [components_defaultProjectWorkspacePath] at hcomponents
  have htail : directory u ++ [.normal projectId.text] = [.normal a] ++ [.normal b] :=
    List.append_cancel_left hcomponents
  exact ⟨a, (List.append_inj' htail rfl).1⟩

theorem startsWith_eq_false {baseDir : Path} {projectId projectId' : ProjectId}
    (hu : directory u = [.normal a]) (hv : directory v = [.normal b]) (hne : a ≠ b) :
    (defaultProjectWorkspacePath baseDir u projectId).startsWith
      (defaultProjectWorkspacePath baseDir v projectId') = false := by
  rw [Path.startsWith, Bool.eq_false_iff, Ne, List.isPrefixOf_iff_prefix,
    components_defaultProjectWorkspacePath, components_defaultProjectWorkspacePath,
    List.prefix_append_right_inj, hu, hv]
  intro hprefix
  have hhead := (List.cons_prefix_cons.mp hprefix).1
  exact hne (Component.normal.inj hhead).symm

/-- **Workspaces lie apart** if and only if the ids are separate. -/
theorem liesApart_iff (baseDir : Path) (u v : Text) : LiesApart baseDir u v ↔ Separate u v := by
  constructor
  · intro h
    obtain ⟨hu, hv, hprefix, -⟩ := h ⟨['p'], by decide, by decide⟩ ⟨['p'], by decide, by decide⟩
    -- two users with one directory share it for the same project
    have hne : directory u ≠ directory v := by
      intro heq
      rw [Path.startsWith, Bool.eq_false_iff, Ne, List.isPrefixOf_iff_prefix,
        components_defaultProjectWorkspacePath, components_defaultProjectWorkspacePath, heq] at hprefix
      exact hprefix (List.prefix_refl _)
    refine ⟨fun heq => hne (heq ▸ rfl), fun id hid hempty hplain => ?_,
      fun htaken => hne (directory_eq_of_taken htaken),
      fun htaken => hne (directory_eq_of_taken htaken).symm⟩
    have hsingle : ∃ a, directory id = [.normal a] := by
      rcases List.mem_pair.mp hid with rfl | rfl
      · exact directory_of_isTwoBelow hu
      · exact directory_of_isTwoBelow hv
    rwa [directory, if_neg (by simpa using hempty), if_pos hplain] at hsingle
  · intro h projectId projectId'
    obtain ⟨a, hu⟩ := exists_stands (h.single u (by simp))
    obtain ⟨b, hv⟩ := exists_stands (h.single v (by simp))
    have hne := h.ne_of_stands hu hv
    have hu := directory_of_stands hu
    have hv := directory_of_stands hv
    refine ⟨⟨a, projectId.text, ?_⟩, ⟨b, projectId'.text, ?_⟩,
      startsWith_eq_false hu hv hne, startsWith_eq_false hv hu hne.symm⟩
    · rw [components_defaultProjectWorkspacePath, hu]
      rfl
    · rw [components_defaultProjectWorkspacePath, hv]
      rfl

end Directories

/-- Ids that differ in a trailing separator share a directory. -/
theorem not_liesApart_trailing :
    ¬ LiesApart (Path.ofText "/base".toList) "alice".toList "alice/".toList := by
  intro h
  have hshared := (h ⟨['p'], by decide, by decide⟩ ⟨['p'], by decide, by decide⟩).2.2.1
  revert hshared
  decide

end IronClaw.Sandbox
