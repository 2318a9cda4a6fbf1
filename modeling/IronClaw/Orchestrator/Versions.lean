import IronClaw.Foundation.Json
import IronClaw.Foundation.Keyed

/-!
# Versions of the orchestrator

The code of the orchestrator is a memory document for each version, and the newest is loaded. When
too many failures were counted, it is skipped.
-/

namespace IronClaw.Orchestrator

open Foundation (Text Json Keyed)
open List (filter_append find?_append mem_cons pairwise_cons)

structure MemoryDoc where
  id : Nat
  title : Text
  content : Text
  tags : List Text
  metadata : Json

abbrev DocStore := Keyed MemoryDoc.id

def orchestratorTitle : Text := "orchestrator:main".toList

def orchestratorTag : Text := "orchestrator_code".toList

def failureTrackerTitle : Text := "orchestrator:failures".toList

def maxFailuresBeforeRollback : Nat := 3

section Loading

variable (parse : Text → Option Json)

def MemoryDoc.isOrchestrator (doc : MemoryDoc) : Bool :=
  doc.title == orchestratorTitle && doc.tags.contains orchestratorTag

def MemoryDoc.metadataVersion (doc : MemoryDoc) : Option Nat :=
  (doc.metadata.get "version".toList).bind Json.asU64

def MemoryDoc.sortVersion (doc : MemoryDoc) : Nat := doc.metadataVersion.getD 0

def MemoryDoc.version (doc : MemoryDoc) : Nat := doc.metadataVersion.getD 1

def insertVersion (doc : MemoryDoc) : List MemoryDoc → List MemoryDoc
  | [] => [doc]
  | d :: sorted =>
    if doc.sortVersion ≤ d.sortVersion then d :: insertVersion doc sorted else doc :: d :: sorted

def versions (docs : List MemoryDoc) : List MemoryDoc :=
  (docs.filter MemoryDoc.isOrchestrator).foldl (fun sorted doc => insertVersion doc sorted) []

def failureTracker (docs : List MemoryDoc) : Option MemoryDoc :=
  docs.find? fun doc => doc.title == failureTrackerTitle

def loadFailureCount (docs : List MemoryDoc) : Nat :=
  ((((failureTracker docs).bind fun doc => parse doc.content).bind
    (Json.get "count".toList)).bind Json.asU64).getD 0

/-- The code to run and its version. The compiled-in code has version 0. -/
def loadOrchestratorFromDocs (defaultOrchestrator : Text) (docs : List MemoryDoc)
    (allowSelfModify : Bool) : Text × Nat :=
  if !allowSelfModify then (defaultOrchestrator, 0)
  else
    match versions docs with
    | [] => (defaultOrchestrator, 0)
    | latest :: older =>
      let failures := loadFailureCount parse docs
      let skipped doc := doc.version == latest.version && maxFailuresBeforeRollback ≤ failures
      match (latest :: older).find? fun doc => !skipped doc with
      | some doc => (doc.content, doc.version)
      | none => (defaultOrchestrator, 0)

end Loading

def trackerText (version count : Nat) : Text :=
  "\x7b\"count\":".toList ++ Nat.toDigits 10 count ++ ",\"version\":".toList ++
    Nat.toDigits 10 version ++ "\x7d".toList

def trackerJson (version count : Nat) : Json :=
  .obj [("count".toList, .int count), ("version".toList, .int version)]

/-- A JSON parser reads the text of a tracker. The empty text is no JSON. -/
structure ReadsTracker (parse : Text → Option Json) : Prop where
  nil : parse [] = none
  tracker : ∀ version count, parse (trackerText version count) = some (trackerJson version count)

section Tracker

variable (parse : Text → Option Json)

def readCount (content key : Text) : Nat :=
  ((((parse content).getD (.obj [])).get key).bind Json.asU64).getD 0

def tracker (docs : List MemoryDoc) : Nat × Nat :=
  match failureTracker docs with
  | some doc => (readCount parse doc.content "version".toList,
    readCount parse doc.content "count".toList)
  | none => (0, 0)

def MemoryDoc.newTracker (id : Nat) : MemoryDoc where
  id := id
  title := failureTrackerTitle
  content := []
  tags := ["orchestrator_meta".toList]
  metadata := .obj []

def recordOrchestratorFailure (store : DocStore) (id version : Nat) : DocStore :=
  let doc := (failureTracker store.items).getD (.newTracker id)
  let currentVersion := readCount parse doc.content "version".toList
  let currentCount := readCount parse doc.content "count".toList
  let newCount := if currentVersion = version then (currentCount + 1) % 2 ^ 64 else 1
  store.save { doc with content := trackerText version newCount }

def resetOrchestratorFailures (store : DocStore) : DocStore :=
  match failureTracker store.items with
  | some doc => store.save { doc with content := trackerText 0 0 }
  | none => store

end Tracker

section Lemmas

variable {parse : Text → Option Json} {store : DocStore} {docs : List MemoryDoc} {doc : MemoryDoc}
  {id version count : Nat}

theorem loadFailureCount_eq : loadFailureCount parse docs = (tracker parse docs).2 := by
  unfold loadFailureCount tracker
  cases failureTracker docs with
  | none => rfl
  | some doc =>
    simp only [readCount, Option.bind_some]
    cases parse doc.content <;> rfl

theorem get_trackerJson : (trackerJson version count).get "version".toList = some (.int version) ∧
    (trackerJson version count).get "count".toList = some (.int count) := by
  constructor
  · simp [trackerJson, Json.get]
  · simp [trackerJson, Json.get]

theorem readCount_trackerText (hparse : ReadsTracker parse) (hversion : version < 2 ^ 64)
    (hcount : count < 2 ^ 64) :
    readCount parse (trackerText version count) "version".toList = version ∧
      readCount parse (trackerText version count) "count".toList = count := by
  rw [readCount, readCount, hparse.tracker, Option.getD_some, get_trackerJson.1, get_trackerJson.2,
    Option.bind_some, Option.bind_some, Json.asU64_natCast hversion, Json.asU64_natCast hcount]
  exact ⟨rfl, rfl⟩

theorem not_isOrchestrator (doc : MemoryDoc) (h : doc.title = failureTrackerTitle) :
    doc.isOrchestrator = false := by
  rw [MemoryDoc.isOrchestrator, h]
  rfl

theorem save_tracker_of_some (h : failureTracker store.items = some doc) (content : Text) :
    failureTracker (store.save { doc with content := content }).items =
        some { doc with content := content } ∧
      versions (store.save { doc with content := content }).items = versions store.items := by
  obtain ⟨htitle, front, back, hdocs, hfront⟩ := List.find?_eq_some_iff_append.mp h
  have htitle : doc.title = failureTrackerTitle := by simpa using htitle
  rw [Keyed.items_save_of_split { doc with content := content } hdocs rfl, hdocs]
  constructor
  · rw [failureTracker, find?_append, List.find?_eq_none.mpr
      fun d hd => by simpa using hfront d hd]
    simp [htitle]
  · unfold versions
    rw [filter_append, filter_append, List.filter_cons_of_neg, List.filter_cons_of_neg]
    · simp [not_isOrchestrator doc htitle]
    · simp [not_isOrchestrator { doc with content := content } htitle]

theorem save_tracker_of_none (h : failureTracker store.items = none)
    (hid : ∀ d ∈ store.items, d.id ≠ id) (content : Text) :
    failureTracker (store.save { MemoryDoc.newTracker id with content := content }).items =
        some { MemoryDoc.newTracker id with content := content } ∧
      versions (store.save { MemoryDoc.newTracker id with content := content }).items =
        versions store.items := by
  have hitems : (store.save { MemoryDoc.newTracker id with content := content }).items =
      store.items ++ [{ MemoryDoc.newTracker id with content := content }] :=
    Keyed.items_save_of_new _ hid
  rw [hitems]
  constructor
  · unfold failureTracker at h ⊢
    rw [find?_append, h]
    simp [MemoryDoc.newTracker]
  · unfold versions
    rw [filter_append, List.filter_cons_of_neg, List.filter_nil, List.append_nil]
    simp [not_isOrchestrator { MemoryDoc.newTracker id with content := content } rfl]

theorem save_tracker (hid : ∀ d ∈ store.items, d.id ≠ id)
    (hdoc : (failureTracker store.items).getD (.newTracker id) = doc) (content : Text) :
    failureTracker (store.save { doc with content := content }).items =
        some { doc with content := content } ∧
      versions (store.save { doc with content := content }).items = versions store.items := by
  cases h : failureTracker store.items with
  | some old =>
    rw [h, Option.getD_some] at hdoc
    exact hdoc ▸ save_tracker_of_some h content
  | none =>
    rw [h, Option.getD_none] at hdoc
    exact hdoc ▸ save_tracker_of_none h hid content

theorem tracker_record (hparse : ReadsTracker parse) (hid : ∀ d ∈ store.items, d.id ≠ id)
    (hversion : version < 2 ^ 64) :
    tracker parse (recordOrchestratorFailure parse store id version).items =
      (version, if (tracker parse store.items).1 = version then
        ((tracker parse store.items).2 + 1) % 2 ^ 64 else 1) := by
  have hfresh : ∀ key, readCount parse [] key = 0 := by
    intro key
    simp [readCount, hparse.nil]
  have hcurrent : ∀ doc, (failureTracker store.items).getD (.newTracker id) = doc →
      tracker parse store.items =
        (readCount parse doc.content "version".toList,
          readCount parse doc.content "count".toList) := by
    rintro doc rfl
    unfold tracker
    cases failureTracker store.items with
    | some doc => rfl
    | none => simp [MemoryDoc.newTracker, hfresh]
  have hcount : (if (tracker parse store.items).1 = version then
      ((tracker parse store.items).2 + 1) % 2 ^ 64 else 1) < 2 ^ 64 := by
    split_ifs
    · exact Nat.mod_lt _ (by decide)
    · decide
  simp only [recordOrchestratorFailure]
  rw [hcurrent _ rfl] at hcount ⊢
  rw [tracker, (save_tracker hid rfl _).1]
  simp only
  rw [(readCount_trackerText hparse hversion hcount).1,
    (readCount_trackerText hparse hversion hcount).2]

theorem versions_record (hid : ∀ d ∈ store.items, d.id ≠ id) :
    versions (recordOrchestratorFailure parse store id version).items = versions store.items :=
  (save_tracker hid rfl _).2

theorem tracker_reset (hparse : ReadsTracker parse) :
    tracker parse (resetOrchestratorFailures store).items = (0, 0) := by
  unfold resetOrchestratorFailures
  cases h : failureTracker store.items with
  | none => simp [tracker, h]
  | some doc =>
    -- no other document gets a new id here
    have hsaved := (save_tracker_of_some h (trackerText 0 0)).1
    obtain ⟨hversion, hcount⟩ := readCount_trackerText hparse (by decide : 0 < 2 ^ 64)
      (by decide : 0 < 2 ^ 64)
    simp only [tracker, hsaved, hversion, hcount]

theorem versions_reset : versions (resetOrchestratorFailures store).items =
    versions store.items := by
  unfold resetOrchestratorFailures
  cases h : failureTracker store.items with
  | none => rfl
  | some doc => exact (save_tracker_of_some h _).2

theorem version_lt (doc : MemoryDoc) : doc.version < 2 ^ 64 := by
  unfold MemoryDoc.version MemoryDoc.metadataVersion
  cases h : (doc.metadata.get "version".toList).bind Json.asU64 with
  | none => decide
  | some v =>
    obtain ⟨j, -, hj⟩ := Option.bind_eq_some_iff.mp h
    cases j with
    | int n =>
      simp only [Json.asU64] at hj
      split_ifs at hj with hn
      · cases hj
        rw [Option.getD_some]
        omega
    | _ => cases hj

theorem tracker_of_new (hdoc : doc.isOrchestrator) :
    tracker parse (docs ++ [doc]) = tracker parse docs := by
  have htitle : (doc.title == failureTrackerTitle) = false := by
    by_contra h
    rw [not_isOrchestrator doc (by simpa using h)] at hdoc
    cases hdoc
  unfold tracker failureTracker
  rw [find?_append, List.find?_singleton, htitle]
  simp

theorem versions_append (hdoc : doc.isOrchestrator) :
    versions (docs ++ [doc]) = insertVersion doc (versions docs) := by
  simp [versions, hdoc]

variable {sorted : List MemoryDoc}

theorem mem_insertVersion {d : MemoryDoc} :
    d ∈ insertVersion doc sorted ↔ d = doc ∨ d ∈ sorted := by
  induction sorted with
  | nil => simp [insertVersion]
  | cons e sorted ih =>
    rw [insertVersion]
    split_ifs
    · rw [mem_cons, ih, mem_cons, or_left_comm]
    · exact mem_cons

theorem sorted_insertVersion (h : sorted.Pairwise fun a b => b.sortVersion ≤ a.sortVersion) :
    (insertVersion doc sorted).Pairwise fun a b => b.sortVersion ≤ a.sortVersion := by
  induction sorted with
  | nil => exact List.pairwise_singleton _ _
  | cons e sorted ih =>
    obtain ⟨hhead, htail⟩ := pairwise_cons.mp h
    rw [insertVersion]
    split_ifs with hle
    · refine pairwise_cons.mpr ⟨fun d hd => ?_, ih htail⟩
      rcases mem_insertVersion.mp hd with rfl | hd
      · exact hle
      · exact hhead d hd
    · refine pairwise_cons.mpr ⟨fun d hd => ?_, h⟩
      rcases mem_cons.mp hd with rfl | hd
      · omega
      · have hle' := hhead d hd
        omega

theorem sorted_versions (docs : List MemoryDoc) :
    (versions docs).Pairwise fun a b => b.sortVersion ≤ a.sortVersion := by
  unfold versions
  generalize hnil : ([] : List MemoryDoc) = sorted
  have hsorted : sorted.Pairwise fun a b => b.sortVersion ≤ a.sortVersion := by
    rw [← hnil]
    exact List.Pairwise.nil
  clear hnil
  generalize docs.filter MemoryDoc.isOrchestrator = ds
  induction ds generalizing sorted with
  | nil => exact hsorted
  | cons d ds ih => exact ih _ (sorted_insertVersion hsorted)

theorem insertVersion_of_newest (h : ∀ d ∈ sorted, d.sortVersion < doc.sortVersion) :
      insertVersion doc sorted = doc :: sorted := by
  cases sorted with
  | nil => rfl
  | cons d sorted => rw [insertVersion, if_neg (Nat.not_le.mpr (h d List.mem_cons_self))]

theorem head?_insertVersion (hsorted : sorted.Pairwise fun a b => b.sortVersion ≤ a.sortVersion)
    (h : ¬ ∀ d ∈ sorted, d.sortVersion < doc.sortVersion) :
    (insertVersion doc sorted).head? = sorted.head? := by
  cases sorted with
  | nil => exact absurd nofun h
  | cons e sorted =>
    have hle : doc.sortVersion ≤ e.sortVersion := by
      by_contra hlt
      refine h fun d hd => ?_
      rcases mem_cons.mp hd with rfl | hd
      · omega
      · have hle := (pairwise_cons.mp hsorted).1 d hd
        omega
    rw [insertVersion, if_pos hle]
    rfl

end Lemmas

end IronClaw.Orchestrator
