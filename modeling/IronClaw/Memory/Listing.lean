import Mathlib.Data.List.Sort
import IronClaw.Memory.Documents
import Mathlib.Data.Char
import Mathlib.Data.List.Lex

/-!
# Directory listings

A listing shows the children of a directory, each with its last update. A child with documents below
it is a directory. Over several scopes an entry carries the latest time of any.
-/

namespace IronClaw.Memory

open Foundation (Text Json HashMap)

abbrev Timestamp := Int

/-- A document, as far as a listing and the folder configurations go. -/
structure DatedDocument where
  metadata : Json
  updatedAt : Timestamp

abbrev DatedDocuments := HashMap DocKey DatedDocument

structure WorkspaceEntry where
  path : Text
  isDirectory : Bool
  updatedAt : Option Timestamp
deriving DecidableEq

def dirPrefix (directory : Text) : Text :=
  if !directory.isEmpty && directory.getLast? != some '/' then directory ++ ['/'] else directory

/-- What a document contributes to a listing: the child that its path goes through. -/
def rowEntry (dir path : Text) (updatedAt : Timestamp) : Option WorkspaceEntry :=
  match path.dropPrefix? dir with
  | none => none
  | some relative =>
    let childName := relative.takeWhile fun c => c != '/'
    if childName.isEmpty then none
    else some ⟨dir ++ childName, relative.contains '/', some updatedAt⟩

/-- Of two times the later one, if both are known, and else the first. -/
def laterOf : Option Timestamp → Option Timestamp → Option Timestamp
  | some t, some u => if t < u then some u else some t
  | t, _ => t

def mergeByPath (absorb : WorkspaceEntry → WorkspaceEntry → WorkspaceEntry)
    (entries : List WorkspaceEntry) : List WorkspaceEntry :=
  (HashMap.values (HashMap.gather WorkspaceEntry.path absorb entries)).insertionSort
    fun e e' => e.path ≤ e'.path

def rowEntries (docs : DatedDocuments) (scope : Scope) (agentId : Option AgentId) (dir : Text) :
    List WorkspaceEntry :=
  (docs.entries.filter fun row =>
    decide (row.1.scope = scope) && decide (row.1.agentId = agentId)).filterMap fun row =>
      rowEntry dir row.1.path row.2.updatedAt

def absorbRow (existing e : WorkspaceEntry) : WorkspaceEntry :=
  { existing with
    isDirectory := existing.isDirectory || e.isDirectory
    updatedAt := laterOf existing.updatedAt e.updatedAt }

def listDirectory (docs : DatedDocuments) (scope : Scope) (agentId : Option AgentId)
    (directory : Text) : List WorkspaceEntry :=
  mergeByPath absorbRow (rowEntries docs scope agentId (dirPrefix directory))

def absorbScope (existing e : WorkspaceEntry) : WorkspaceEntry :=
  { existing with
    isDirectory := existing.isDirectory || e.isDirectory
    updatedAt :=
      if existing.updatedAt.isNone then e.updatedAt else laterOf existing.updatedAt e.updatedAt }

def mergeWorkspaceEntries : List WorkspaceEntry → List WorkspaceEntry := mergeByPath absorbScope

def normalizeDirectory (path : Text) : Text :=
  Text.trimEndMatches (fun c => c == '/') (normalizePath path)

/-- Identity files are listed of the primary scope only. -/
def Workspace.list (ws : Workspace) (docs : DatedDocuments) (directory : Text) :
    List WorkspaceEntry :=
  let directory := normalizeDirectory directory
  let primary := listDirectory docs ws.userId ws.agentId directory
  if ws.isMultiScope then
    mergeWorkspaceEntries (primary ++ ws.additionalReadScopes.flatMap fun scope =>
      (listDirectory docs scope ws.agentId directory).filter fun e => !isIdentityPath e.path)
  else primary

/-- An entry stands for another one of its path: a directory if the other one is, and not older. -/
def WorkspaceEntry.Covers (w v : WorkspaceEntry) : Prop :=
  (v.isDirectory = true → w.isDirectory = true) ∧
    ∀ t, v.updatedAt = some t → ∃ u, w.updatedAt = some u ∧ t ≤ u

theorem WorkspaceEntry.Covers.refl (v : WorkspaceEntry) : v.Covers v :=
  ⟨id, fun t ht => ⟨t, ht, le_rfl⟩⟩

theorem WorkspaceEntry.Covers.trans {u v w : WorkspaceEntry} (hwv : w.Covers v)
    (hvu : v.Covers u) : w.Covers u := by
  refine ⟨fun h => hwv.1 (hvu.1 h), fun t ht => ?_⟩
  obtain ⟨t₁, ht₁, hle₁⟩ := hvu.2 t ht
  obtain ⟨t₂, ht₂, hle₂⟩ := hwv.2 t₁ ht₁
  exact ⟨t₂, ht₂, hle₁.trans hle₂⟩

theorem le_laterOf_left {t : Timestamp} (o : Option Timestamp) :
    ∃ u, laterOf (some t) o = some u ∧ t ≤ u := by
  cases o with
  | none => exact ⟨t, rfl, le_rfl⟩
  | some u =>
    rw [laterOf]
    split_ifs with h
    · exact ⟨u, rfl, h.le⟩
    · exact ⟨t, rfl, le_rfl⟩

theorem le_laterOf_right {o : Option Timestamp} (ho : o ≠ none) (t : Timestamp) :
    ∃ u, laterOf o (some t) = some u ∧ t ≤ u := by
  cases o with
  | none => exact absurd rfl ho
  | some u =>
    rw [laterOf]
    split_ifs with h
    · exact ⟨t, rfl, le_rfl⟩
    · exact ⟨u, rfl, not_lt.mp h⟩

section Merge

variable {absorb : WorkspaceEntry → WorkspaceEntry → WorkspaceEntry}
  {entries : List WorkspaceEntry} {e v : WorkspaceEntry}

theorem exists_lookup_of_mem_mergeByPath (h : e ∈ mergeByPath absorb entries) :
    ∃ path, (HashMap.gather WorkspaceEntry.path absorb entries).lookup path = some e := by
  rw [mergeByPath, List.mem_insertionSort] at h
  exact HashMap.mem_values.mp h

theorem path_of_mem_mergeByPath (hpath : ∀ w v, (absorb w v).path = w.path)
    (h : e ∈ mergeByPath absorb entries) : ∃ v ∈ entries, v.path = e.path := by
  obtain ⟨path, hlookup⟩ := exists_lookup_of_mem_mergeByPath h
  obtain ⟨hkey, v, hv, heq⟩ := HashMap.key_of_lookup_gather hpath hlookup
  exact ⟨v, hv, heq.trans hkey.symm⟩

/-- A merge that keeps paths and covers what it absorbs, all of it dated. -/
structure Merges (absorb : WorkspaceEntry → WorkspaceEntry → WorkspaceEntry) : Prop where
  path : ∀ w v, (absorb w v).path = w.path
  dated : ∀ w v, w.updatedAt ≠ none → (absorb w v).updatedAt ≠ none
  keeps : ∀ w v, w.updatedAt ≠ none → (absorb w v).Covers w
  adds : ∀ w v, w.updatedAt ≠ none → (absorb w v).Covers v

theorem exists_mem_mergeByPath (habsorb : Merges absorb)
    (hdated : ∀ v ∈ entries, v.updatedAt ≠ none) (hv : v ∈ entries) :
    ∃ w ∈ mergeByPath absorb entries, w.path = v.path ∧ w.Covers v := by
  have hexists : ∃ w, (HashMap.gather WorkspaceEntry.path absorb entries).lookup v.path = some w ∧
      w.Covers v :=
    HashMap.lookup_gather_of_mem (P := fun v => v.updatedAt ≠ none) (R := fun v w => w.Covers v)
      WorkspaceEntry.Covers.refl (fun w v hw _ => habsorb.dated w v hw)
      (fun w v hw _ u hu => (habsorb.keeps w v hw).trans hu)
      (fun w v hw _ => habsorb.adds w v hw) hdated hv
  obtain ⟨w, hw, hcovers⟩ := hexists
  refine ⟨w, ?_, (HashMap.key_of_lookup_gather habsorb.path hw).1, hcovers⟩
  rw [mergeByPath, List.mem_insertionSort]
  exact HashMap.mem_values.mpr ⟨_, hw⟩

theorem eq_of_mem_mergeByPath (hpath : ∀ w v, (absorb w v).path = w.path)
    (h : e ∈ mergeByPath absorb entries) (hv : v ∈ mergeByPath absorb entries)
    (heq : v.path = e.path) : v = e := by
  obtain ⟨p, hp⟩ := exists_lookup_of_mem_mergeByPath h
  obtain ⟨q, hq⟩ := exists_lookup_of_mem_mergeByPath hv
  rw [← (HashMap.key_of_lookup_gather hpath hp).1, ← heq] at hp
  rw [← (HashMap.key_of_lookup_gather hpath hq).1, hp] at hq
  cases hq
  rfl

theorem covers_of_mem_mergeByPath (habsorb : Merges absorb)
    (hdated : ∀ v ∈ entries, v.updatedAt ≠ none) (h : e ∈ mergeByPath absorb entries)
    (hv : v ∈ entries) (hpath : v.path = e.path) : e.Covers v := by
  obtain ⟨w, hw, hwpath, hcovers⟩ := exists_mem_mergeByPath habsorb hdated hv
  rw [← eq_of_mem_mergeByPath habsorb.path h hw (hwpath.trans hpath)]
  exact hcovers

theorem dated_of_mem_mergeByPath (habsorb : Merges absorb)
    (hdated : ∀ v ∈ entries, v.updatedAt ≠ none) (h : e ∈ mergeByPath absorb entries) :
    e.updatedAt ≠ none := by
  obtain ⟨v, hv, hpath⟩ := path_of_mem_mergeByPath habsorb.path h
  obtain ⟨t, ht⟩ := Option.ne_none_iff_exists'.mp (hdated v hv)
  obtain ⟨u, hu, -⟩ := (covers_of_mem_mergeByPath habsorb hdated h hv hpath).2 t ht
  rw [hu]
  exact Option.some_ne_none u

end Merge

section Rows

variable {dir path child : Text} {t : Timestamp} {e : WorkspaceEntry}

def IsChildName (child : Text) : Prop := child ≠ [] ∧ '/' ∉ child

theorem of_rowEntry (h : rowEntry dir path t = some e) :
    (∃ child, IsChildName child ∧ e.path = dir ++ child) ∧ e.updatedAt = some t := by
  rw [rowEntry] at h
  split at h
  · cases h
  · next relative _ =>
    dsimp only at h
    split_ifs at h with hempty
    cases h
    refine ⟨⟨_, ⟨by simpa using hempty, fun hmem => ?_⟩, rfl⟩, rfl⟩
    simpa using List.mem_takeWhile_imp hmem

theorem rowEntry_child (h : IsChildName child) :
    rowEntry dir (dir ++ child) t = some ⟨dir ++ child, false, some t⟩ := by
  have hall : (child.takeWhile fun c => c != '/') = child :=
    List.takeWhile_eq_self_iff.mpr fun c hc => by
      have hne : c ≠ '/' := fun heq => h.2 (heq ▸ hc)
      simpa using hne
  rw [rowEntry, List.dropPrefix?_append_of_beq child BEq.rfl]
  dsimp only
  rw [hall, if_neg (by simpa using h.1)]
  simp [h.2]

end Rows

theorem merges_absorbRow : Merges absorbRow where
  path _ _ := rfl
  dated w v hw := by
    obtain ⟨t, ht⟩ := Option.ne_none_iff_exists'.mp hw
    obtain ⟨u, hu, -⟩ := le_laterOf_left (t := t) v.updatedAt
    rw [absorbRow, ht, hu]
    exact Option.some_ne_none u
  keeps w v _ := by
    refine ⟨fun h => by simp [absorbRow, h], fun t ht => ?_⟩
    rw [absorbRow, ht]
    exact le_laterOf_left v.updatedAt
  adds w v hw := by
    refine ⟨fun h => by simp [absorbRow, h], fun t ht => ?_⟩
    rw [absorbRow, ht]
    exact le_laterOf_right hw t

theorem absorbScope_eq {w : WorkspaceEntry} (hw : w.updatedAt ≠ none) (v : WorkspaceEntry) :
    absorbScope w v = absorbRow w v := by
  rw [absorbScope, if_neg (by simpa using hw), absorbRow]

theorem merges_absorbScope : Merges absorbScope where
  path _ _ := rfl
  dated w v hw := by
    rw [absorbScope_eq hw]
    exact merges_absorbRow.dated w v hw
  keeps w v hw := by
    rw [absorbScope_eq hw]
    exact merges_absorbRow.keeps w v hw
  adds w v hw := by
    rw [absorbScope_eq hw]
    exact merges_absorbRow.adds w v hw

section ListDirectory

variable {docs : DatedDocuments} {scope : Scope} {agentId : Option AgentId} {directory : Text}
  {e : WorkspaceEntry}

theorem dated_rowEntries {dir : Text} : ∀ v ∈ rowEntries docs scope agentId dir,
    v.updatedAt ≠ none := by
  intro v hv
  obtain ⟨row, -, hrow⟩ := List.mem_filterMap.mp hv
  rw [(of_rowEntry hrow).2]
  exact Option.some_ne_none _

theorem path_of_mem_listDirectory (h : e ∈ listDirectory docs scope agentId directory) :
    ∃ child, IsChildName child ∧ e.path = dirPrefix directory ++ child := by
  obtain ⟨v, hv, hpath⟩ := path_of_mem_mergeByPath merges_absorbRow.path h
  obtain ⟨row, -, hrow⟩ := List.mem_filterMap.mp hv
  obtain ⟨child, hchild, hv⟩ := (of_rowEntry hrow).1
  exact ⟨child, hchild, hpath.symm.trans hv⟩

theorem dated_of_mem_listDirectory (h : e ∈ listDirectory docs scope agentId directory) :
    e.updatedAt ≠ none :=
  dated_of_mem_mergeByPath merges_absorbRow dated_rowEntries h

theorem exists_mem_listDirectory {child : Text} (hchild : IsChildName child) {doc : DatedDocument}
    (hdoc : docs.lookup ⟨scope, agentId, dirPrefix directory ++ child⟩ = some doc) :
    ∃ w ∈ listDirectory docs scope agentId directory, w.path = dirPrefix directory ++ child ∧
      ∃ t, w.updatedAt = some t ∧ doc.updatedAt ≤ t := by
  have hrow : (⟨dirPrefix directory ++ child, false, some doc.updatedAt⟩ : WorkspaceEntry) ∈
      rowEntries docs scope agentId (dirPrefix directory) := by
    refine List.mem_filterMap.mpr ⟨⟨⟨scope, agentId, dirPrefix directory ++ child⟩, doc⟩, ?_, ?_⟩
    · exact List.mem_filter.mpr ⟨AList.mem_lookup_iff.mp hdoc, by simp⟩
    · exact rowEntry_child hchild
  obtain ⟨w, hw, hpath, hcovers⟩ := exists_mem_mergeByPath merges_absorbRow dated_rowEntries hrow
  exact ⟨w, hw, hpath, hcovers.2 _ rfl⟩

end ListDirectory

section List

variable {ws : Workspace} {docs : DatedDocuments} {directory : Text} {e : WorkspaceEntry}

def scopedEntries (ws : Workspace) (docs : DatedDocuments) (directory : Text) :
    List WorkspaceEntry :=
  listDirectory docs ws.userId ws.agentId directory ++ ws.additionalReadScopes.flatMap fun scope =>
    (listDirectory docs scope ws.agentId directory).filter fun e => !isIdentityPath e.path

theorem exists_scope_of_mem_scopedEntries (h : e ∈ scopedEntries ws docs directory) :
    ∃ scope, e ∈ listDirectory docs scope ws.agentId directory := by
  rcases List.mem_append.mp h with h | h
  · exact ⟨ws.userId, h⟩
  · obtain ⟨scope, -, h⟩ := List.mem_flatMap.mp h
    exact ⟨scope, (List.mem_filter.mp h).1⟩

theorem list_eq : ws.list docs directory = if ws.isMultiScope then
      mergeWorkspaceEntries (scopedEntries ws docs (normalizeDirectory directory))
    else listDirectory docs ws.userId ws.agentId (normalizeDirectory directory) := rfl

theorem path_of_mem_list (h : e ∈ ws.list docs directory) :
    ∃ child, IsChildName child ∧ e.path = dirPrefix (normalizeDirectory directory) ++ child := by
  rw [list_eq] at h
  split_ifs at h
  · obtain ⟨v, hv, hpath⟩ := path_of_mem_mergeByPath merges_absorbScope.path h
    obtain ⟨scope, hv⟩ := exists_scope_of_mem_scopedEntries hv
    rw [← hpath]
    exact path_of_mem_listDirectory hv
  · exact path_of_mem_listDirectory h

/-- **The listing is not behind the primary scope**: no document there is newer than its path's
entry. -/
theorem updatedAt_of_mem_list (h : e ∈ ws.list docs directory) {doc : DatedDocument}
    (hdoc : docs.lookup (ws.key e.path) = some doc) :
    ∃ t, e.updatedAt = some t ∧ doc.updatedAt ≤ t := by
  obtain ⟨child, hchild, hpath⟩ := path_of_mem_list h
  rw [hpath] at hdoc
  obtain ⟨w, hw, hwpath, t, ht, hle⟩ := exists_mem_listDirectory hchild hdoc
  rw [← hpath] at hwpath
  rw [list_eq] at h
  split_ifs at h
  · have hdated : ∀ v ∈ scopedEntries ws docs (normalizeDirectory directory),
        v.updatedAt ≠ none := by
      intro v hv
      obtain ⟨scope, hv⟩ := exists_scope_of_mem_scopedEntries hv
      exact dated_of_mem_listDirectory hv
    have hcovers : e.Covers w :=
      covers_of_mem_mergeByPath merges_absorbScope hdated h (List.mem_append_left _ hw) hwpath
    obtain ⟨u, hu, hle'⟩ := hcovers.2 t ht
    exact ⟨u, hu, hle.trans hle'⟩
  · rw [← eq_of_mem_mergeByPath merges_absorbRow.path h hw hwpath]
    exact ⟨t, ht, hle⟩

end List

end IronClaw.Memory
