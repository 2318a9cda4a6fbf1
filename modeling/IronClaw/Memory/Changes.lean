import Mathlib.Data.Set.Insert
import IronClaw.Memory.Operations

/-!
# What the operations change

Each operation touches documents at a few known keys, and leaves each with the text it had or with
one that the operation was given and, where it scans, has scanned.
-/

namespace IronClaw.Memory

open Foundation (Text Json HashMap Effect)

/-- The text is free of dominant findings if its path goes into the system prompt. -/
def Scanned (path content : Text) : Prop :=
  isSystemPromptFile path = true → dominantWarnings content = []

/-- Outside `S` documents are as before, and in `S` each has the text it had or one with `P`. -/
def Changes (S : Set DocKey) (P : DocKey → Text → Prop) (docs docs' : Documents) : Prop :=
  ∀ key, docs'.lookup key = docs.lookup key ∨
    key ∈ S ∧ (docs'.text key = docs.text key ∨ P key (docs'.text key))

section Changes

variable {S S' : Set DocKey} {P P' : DocKey → Text → Prop} {docs docs' docs'' : Documents}
  {key : DocKey} {content : Text}

theorem text_eq_of_lookup_eq (h : docs'.lookup key = docs.lookup key) :
    docs'.text key = docs.text key := by
  rw [Documents.text, Documents.text, h]

theorem Changes.refl (docs : Documents) : Changes S P docs docs := fun _ => .inl rfl

theorem Changes.trans (h : Changes S P docs docs') (h' : Changes S P docs' docs'') :
    Changes S P docs docs'' := by
  intro key
  rcases h' key with heq' | ⟨hS, htext'⟩
  · rcases h key with heq | ⟨hS, htext⟩
    · exact .inl (heq'.trans heq)
    · rw [text_eq_of_lookup_eq heq']
      exact .inr ⟨hS, htext⟩
  · refine .inr ⟨hS, ?_⟩
    rcases htext' with heq' | hP
    · rw [heq']
      exact (h key).elim (fun heq => .inl (text_eq_of_lookup_eq heq)) And.right
    · exact .inr hP

theorem Changes.mono (h : Changes S P docs docs') (hS : S ⊆ S')
    (hP : ∀ key ∈ S, ∀ content, P key content → P' key content) : Changes S' P' docs docs' :=
  fun key => (h key).imp_right fun hkey =>
    ⟨hS hkey.1, hkey.2.imp_right (hP key hkey.1 _)⟩

theorem Changes.lookup_eq (h : Changes S P docs docs') (hkey : key ∉ S) :
    docs'.lookup key = docs.lookup key :=
  (h key).resolve_right fun hS => hkey hS.1

theorem Changes.text (h : Changes S P docs docs') (key : DocKey) :
    docs'.text key = docs.text key ∨ P key (docs'.text key) :=
  (h key).elim (fun heq => .inl (text_eq_of_lookup_eq heq)) And.right

theorem changes_created (hS : key ∈ S) : Changes S P docs (docs.created key) := by
  intro key'
  by_cases h : key' = key
  · exact .inr ⟨h ▸ hS, .inl text_created⟩
  · exact .inl (lookup_created_of_ne h)

theorem changes_store (hS : key ∈ S) (hP : P key content) :
    Changes S P docs (docs.store key content) := by
  intro key'
  by_cases h : key' = key
  · subst h
    cases hdoc : docs.lookup key' with
    | some doc => exact .inr ⟨hS, .inr (by rwa [text_store hdoc])⟩
    | none =>
      refine .inl ?_
      rw [Documents.store, HashMap.lookup_adjust, if_pos rfl, hdoc]
      rfl
  · exact .inl (lookup_store_of_ne h)

theorem changes_updateDocumentMetadata (hS : key ∈ S) (metadata : Json) :
    Changes S P docs ((updateDocumentMetadata key metadata).exec docs).2 := by
  intro key'
  change (HashMap.adjust docs key _).lookup key' = docs.lookup key' ∨ _
  rw [HashMap.lookup_adjust]
  split_ifs with h
  · subst h
    refine .inr ⟨hS, .inl ?_⟩
    change Documents.text (HashMap.adjust docs key' _) key' = docs.text key'
    rw [Documents.text, HashMap.lookup_adjust, if_pos rfl, Documents.text]
    cases docs.lookup key' <;> rfl
  · exact .inl rfl

theorem Changes.bind {ε α β : Type} {x : Effect Documents ε α} {f : α → Effect Documents ε β}
    (hx : Changes S P docs (x.exec docs).2)
    (hf : ∀ a, Changes S P (x.exec docs).2 ((f a).exec (x.exec docs).2).2) :
    Changes S P docs ((x >>= f).exec docs).2 := by
  rw [Effect.exec_bind]
  revert hx hf
  rcases x.exec docs with ⟨r, docs'⟩
  intro hx hf
  cases r with
  | ok a => exact hx.trans (hf a)
  | error e => exact hx

end Changes

theorem reads_getDocumentByPath (key : DocKey) : (getDocumentByPath key).Reads := by
  intro docs
  rw [exec_getDocumentByPath]
  cases docs.lookup key <;> rfl

theorem reads_scanForPrompt (path content : Text) : (scanForPrompt path content).Reads := by
  rw [scanForPrompt]
  split
  · exact Effect.Reads.require _ _
  · exact Effect.Reads.pure _

theorem dominantWarnings_nil : dominantWarnings [] = [] := rfl

theorem scanned_of_exec {path content : Text} {docs : Documents}
    (h : (scanForPrompt path content).exec docs = (.ok (), docs)) : Scanned path content := by
  intro hfile
  by_cases hempty : content = []
  · rw [hempty, dominantWarnings_nil]
  · have hscan : (isSystemPromptFile path && !content.isEmpty) = true := by simp [hfile, hempty]
    rw [scanForPrompt, if_pos hscan] at h
    simpa using Effect.exec_require_eq_ok_iff.mp h

namespace Workspace

variable (ws : Workspace) {S : Set DocKey} {P : DocKey → Text → Prop} {docs : Documents}

theorem reads_validateSchema (path content : Text) (metadata : Json) :
    (ws.validateSchema path content metadata).Reads := by
  rw [validateSchema]
  split
  · exact Effect.Reads.pure _
  · exact Effect.Reads.require _ _

theorem reads_read (path : Text) : (ws.read path).Reads := by
  rw [read]
  split_ifs
  · exact reads_getDocumentByPath _
  · intro docs
    rw [getDocumentByPathMulti, Effect.exec_bind, Effect.exec_get]
    dsimp only
    split <;> rfl
  · exact reads_getDocumentByPath _

theorem changes_validateAndUpdate {scope : Scope} {path content : Text}
    (hS : ws.keyIn scope path ∈ S) (hP : P (ws.keyIn scope path) content) :
    Changes S P docs ((ws.validateAndUpdate scope path content).exec docs).2 := by
  rw [validateAndUpdate, Effect.exec_bind, Effect.exec_get]
  exact (ws.reads_validateSchema path content _).bind_induction (.refl docs)
    fun _ _ => changes_store hS hP

theorem changes_write {path content : Text} (hS : ws.key (normalizePath path) ∈ S)
    (hP : Scanned (normalizePath path) content → P (ws.key (normalizePath path)) content) :
    Changes S P docs ((ws.write path content).exec docs).2 := by
  rw [write]
  refine (reads_scanForPrompt _ _).bind_induction (.refl docs) fun _ hscan => ?_
  obtain ⟨doc, hexec, -, -⟩ := exec_getOrCreate (ws.key (normalizePath path)) docs
  rw [Effect.exec_bind_ok hexec]
  have hstored := hP (scanned_of_exec hscan)
  split_ifs
  · exact changes_created hS
  · exact (changes_created hS).trans (changes_store hS hstored)
  · exact (changes_created hS).trans (ws.changes_validateAndUpdate hS hstored)

theorem changes_append {path content : Text} (hS : ws.key (normalizePath path) ∈ S)
    (hP : let combined := appended (docs.text (ws.key (normalizePath path))) ['\n'] content
      Scanned (normalizePath path) combined → P (ws.key (normalizePath path)) combined) :
    Changes S P docs ((ws.append path content).exec docs).2 := by
  rw [append]
  refine (reads_scanForPrompt _ _).bind_induction (.refl docs) fun _ _ => ?_
  obtain ⟨doc, hexec, -, htext⟩ := exec_getOrCreate (ws.key (normalizePath path)) docs
  rw [Effect.exec_bind_ok hexec, htext]
  refine (changes_created hS).trans ?_
  refine (reads_scanForPrompt _ _).bind_induction (.refl _) fun _ hscan => ?_
  exact ws.changes_validateAndUpdate hS (hP (scanned_of_exec hscan))

theorem changes_patch {path oldString newString : Text} {replaceAll : Bool}
    (hS : ws.key (normalizePath path) ∈ S)
    (hP :
      let new := patched (docs.text (ws.key (normalizePath path))) oldString newString replaceAll
      (∃ doc, docs.lookup (ws.key (normalizePath path)) = some doc) →
        Scanned (normalizePath path) new → P (ws.key (normalizePath path)) new) :
    Changes S P docs ((ws.patch path oldString newString replaceAll).exec docs).2 := by
  rw [patch]
  refine (Effect.Reads.require _ _).bind_induction (.refl docs) fun _ _ => ?_
  refine (reads_getDocumentByPath _).bind_induction (.refl docs) fun doc hdoc => ?_
  have hlookup : docs.lookup (ws.key (normalizePath path)) = some doc := by
    rw [exec_getDocumentByPath] at hdoc
    cases h : docs.lookup (ws.key (normalizePath path)) with
    | none =>
      rw [h] at hdoc
      cases hdoc
    | some d =>
      rw [h] at hdoc
      cases hdoc
      rfl
  have htext : docs.text (ws.key (normalizePath path)) = doc.content := by
    rw [Documents.text, hlookup]
  rw [htext] at hP
  refine (Effect.Reads.require _ _).bind_induction (.refl docs) fun _ _ => ?_
  refine (reads_scanForPrompt _ _).bind_induction (.refl docs) fun _ hscan => ?_
  rw [Effect.exec_bind_reads fun _ => Effect.Reads.pure _]
  exact ws.changes_validateAndUpdate hS (hP ⟨doc, hlookup⟩ (scanned_of_exec hscan))

theorem changes_writeToLayer {layerName path content : Text} {force : Bool}
    (h : ∀ scope layer redirected,
      ws.resolveLayerTarget layerName content force = .ok (scope, layer, redirected) →
        ws.keyIn scope (normalizePath path) ∈ S ∧ P (ws.keyIn scope (normalizePath path)) content) :
    Changes S P docs ((ws.writeToLayer layerName path content force).exec docs).2 := by
  rw [writeToLayer]
  refine (Effect.Reads.ofExcept _).bind_induction (.refl docs) fun target htarget => ?_
  obtain ⟨scope, layer, redirected⟩ := target
  rw [Effect.exec_ofExcept] at htarget
  obtain ⟨hS, hP⟩ := h scope layer redirected (Prod.ext_iff.mp htarget).1
  obtain ⟨doc, hexec, -, -⟩ := exec_getOrCreate (ws.keyIn scope (normalizePath path)) docs
  rw [Effect.exec_bind_ok hexec, Effect.exec_bind_reads fun _ => Effect.Reads.pure _]
  exact (changes_created hS).trans (ws.changes_validateAndUpdate hS hP)

theorem changes_appendToLayer {layerName path content : Text} {force : Bool}
    (h : ∀ scope layer redirected,
      ws.resolveLayerTarget layerName content force = .ok (scope, layer, redirected) →
        ws.keyIn scope (normalizePath path) ∈ S ∧ P (ws.keyIn scope (normalizePath path))
          (appended (docs.text (ws.keyIn scope (normalizePath path))) ['\n', '\n'] content)) :
    Changes S P docs ((ws.appendToLayer layerName path content force).exec docs).2 := by
  rw [appendToLayer]
  refine (Effect.Reads.ofExcept _).bind_induction (.refl docs) fun target htarget => ?_
  obtain ⟨scope, layer, redirected⟩ := target
  rw [Effect.exec_ofExcept] at htarget
  obtain ⟨hS, hP⟩ := h scope layer redirected (Prod.ext_iff.mp htarget).1
  obtain ⟨doc, hexec, -, htext⟩ := exec_getOrCreate (ws.keyIn scope (normalizePath path)) docs
  rw [Effect.exec_bind_ok hexec, Effect.exec_bind_reads fun _ => Effect.Reads.pure _, htext]
  exact (changes_created hS).trans (ws.changes_validateAndUpdate hS hP)

theorem changes_appendMemory {entry : Text} (hS : ws.key Paths.memory ∈ S)
    (hP : P (ws.key Paths.memory) (appended (docs.text (ws.key Paths.memory)) ['\n', '\n'] entry)) :
    Changes S P docs ((ws.appendMemory entry).exec docs).2 := by
  rw [appendMemory]
  obtain ⟨doc, hexec, -, htext⟩ := exec_getOrCreate (ws.key Paths.memory) docs
  rw [Effect.exec_bind_ok hexec, htext]
  exact (changes_created hS).trans (changes_store hS hP)

theorem changes_appendDailyLog {date timestamp entry : Text}
    (hS : ws.key (normalizePath (Paths.dailyLog date)) ∈ S)
    (hP : ∀ content, P (ws.key (normalizePath (Paths.dailyLog date))) content) :
    Changes S P docs ((ws.appendDailyLog date timestamp entry).exec docs).2 := by
  rw [appendDailyLog]
  exact ws.changes_append hS fun _ => hP _

def profileKeys : Set DocKey :=
  {ws.key Paths.user, ws.key Paths.assistantDirectives, ws.key Paths.heartbeat}

theorem reads_mergedUserMd (profile : ProfileDocuments) : (ws.mergedUserMd profile).Reads := by
  intro docs
  rw [mergedUserMd]
  refine (ws.reads_read _).attempt.bind_induction (P := fun docs' => docs' = docs) rfl
    fun found _ => ?_
  cases found <;> rfl

theorem within_writeProfileDocuments (profile : ProfileDocuments) :
    (ws.writeProfileDocuments profile).Within
      (Changes ws.profileKeys fun key content => Scanned key.path content) := by
  have htrans : ∀ a b c, Changes ws.profileKeys (fun key content => Scanned key.path content) a b →
      Changes ws.profileKeys (fun key content => Scanned key.path content) b c →
      Changes ws.profileKeys (fun key content => Scanned key.path content) a c :=
    fun _ _ _ => Changes.trans
  rw [writeProfileDocuments]
  refine .bind htrans (fun docs => ?_) fun merged => ?_
  · rw [ws.reads_mergedUserMd profile docs]
    exact .refl docs
  refine .bind htrans (fun docs => ws.changes_write (.inl rfl) id) fun _ => ?_
  refine .bind htrans (fun docs => ws.changes_write (.inr (.inl rfl)) id) fun _ => ?_
  refine .bind htrans (fun docs => ?_) fun found => ?_
  · rw [(ws.reads_read Paths.heartbeat).attempt docs]
    exact .refl docs
  cases found with
  | ok doc => exact fun docs => .refl docs
  | error e => exact fun docs => ws.changes_write (.inr (.inr rfl)) id

theorem changes_syncProfileDocuments :
    Changes ws.profileKeys (fun key content => Scanned key.path content) docs
      (ws.syncProfileDocuments.exec docs).2 := by
  rw [syncProfileDocuments]
  refine (ws.reads_read _).attempt.bind_induction (.refl docs) fun found _ => ?_
  cases found with
  | error e => exact .refl docs
  | ok doc =>
    cases hprofile : (if doc.content.isEmpty then none else ws.parseProfile doc.content) with
    | none =>
      simp only [hprofile]
      exact .refl docs
    | some profile =>
      simp only [hprofile]
      rw [Effect.exec_bind_reads fun _ => Effect.Reads.pure _]
      exact ws.within_writeProfileDocuments profile docs

def schemaAccepts (metadata : Json) (content : Text) : Bool :=
  match DocumentMetadata.schema metadata with
  | none => true
  | some schema => schema.isNull || (ws.schemaErrors schema content).isEmpty

theorem exec_validateSchema (path content : Text) (metadata : Json) (docs : Documents) :
    if ws.schemaAccepts metadata content then
      (ws.validateSchema path content metadata).exec docs = (.ok (), docs)
    else ∃ e, (ws.validateSchema path content metadata).exec docs = (.error e, docs) := by
  rw [validateSchema, schemaAccepts]
  cases DocumentMetadata.schema metadata with
  | none => rfl
  | some schema =>
    dsimp only
    split_ifs with h
    · exact Effect.exec_require_eq_ok_iff.mpr h
    · rw [Effect.require, if_neg h]
      exact ⟨_, rfl⟩

/-- A write to a path stores the text: it is there already, or no schema is against it. -/
def Accepts (docs : Documents) (path content : Text) : Prop :=
  docs.text (ws.key path) = content ∨
    ws.schemaAccepts (resolveMetadataInScope (docs.created (ws.key path)) ws.userId ws.agentId path)
      content = true

instance (docs : Documents) (path content : Text) : Decidable (ws.Accepts docs path content) :=
  inferInstanceAs (Decidable (_ ∨ _))

section Plain

variable {path content : Text} (hprompt : isSystemPromptFile (normalizePath path) = false)
  (hengine : isEngineRuntimePath (normalizePath path) = false)

include hprompt hengine

theorem exec_write (docs : Documents) : if ws.Accepts docs (normalizePath path) content then
      (ws.write path content).exec docs =
        (.ok (), (docs.created (ws.key (normalizePath path))).store
          (ws.key (normalizePath path)) content) else ∃ e, (ws.write path content).exec docs =
      (.error e, docs.created (ws.key (normalizePath path))) := by
  have hscan : (scanForPrompt (normalizePath path) content).exec docs = (.ok (), docs) := by
    rw [scanForPrompt, hprompt]
    rfl
  obtain ⟨doc, hexec, hlookup, htext⟩ := exec_getOrCreate (ws.key (normalizePath path)) docs
  rw [write, Effect.exec_bind_ok hscan, Effect.exec_bind_ok hexec]
  by_cases hsame : doc.content = content
  · rw [if_pos (.inl (htext ▸ hsame)), if_pos hsame, store_eq_self hlookup hsame]
    rfl
  rw [if_neg hsame, hengine, validateAndUpdate, if_neg Bool.false_ne_true, Effect.exec_bind,
    Effect.exec_get]
  dsimp only
  have hschema := ws.exec_validateSchema (normalizePath path) content
    (resolveMetadataInScope (docs.created (ws.key (normalizePath path))) ws.userId ws.agentId
      (normalizePath path)) (docs.created (ws.key (normalizePath path)))
  split_ifs at hschema with haccepts
  · rw [if_pos (.inr haccepts), Effect.exec_bind_ok hschema]
    rfl
  · have hnot : ¬ws.Accepts docs (normalizePath path) content := by
      rintro (heq | h)
      · exact hsame (htext.trans heq)
      · exact haccepts h
    obtain ⟨e, he⟩ := hschema
    rw [if_neg hnot, Effect.exec_bind_error he]
    exact ⟨e, rfl⟩

end Plain

section Accepted

variable (hschema : ∀ schema content, ws.schemaErrors schema content = [])

include hschema

theorem exec_validateAndUpdate (scope : Scope) (path content : Text) (docs : Documents) :
    (ws.validateAndUpdate scope path content).exec docs =
      (.ok (), docs.store (ws.keyIn scope path) content) := by
  have hvalid : ∀ metadata, (ws.validateSchema path content metadata).exec docs =
      (.ok (), docs) := by
    intro metadata
    rw [validateSchema]
    split
    · rfl
    · rw [hschema, Effect.exec_require_eq_ok_iff]
      simp
  rw [validateAndUpdate, Effect.exec_bind, Effect.exec_get]
  exact Effect.exec_bind_ok (hvalid _)

variable {path content : Text} (hprompt : isSystemPromptFile (normalizePath path) = false)

omit hschema in
theorem exec_scanForPrompt (hprompt : isSystemPromptFile path = false) (docs : Documents) :
    (scanForPrompt path content).exec docs = (.ok (), docs) := by
  rw [scanForPrompt, hprompt]
  rfl

include hprompt

theorem text_write (docs : Documents) :
    ((ws.write path content).exec docs).2.text (ws.key (normalizePath path)) = content := by
  obtain ⟨doc, hexec, hlookup, htext⟩ := exec_getOrCreate (ws.key (normalizePath path)) docs
  rw [write, Effect.exec_bind_ok (exec_scanForPrompt hprompt docs), Effect.exec_bind_ok hexec]
  split_ifs with hsame
  · rw [← hsame, htext]
    exact text_created
  · exact text_store hlookup
  · rw [ws.exec_validateAndUpdate hschema]
    exact text_store hlookup

theorem text_append (docs : Documents) :
    ((ws.append path content).exec docs).2.text (ws.key (normalizePath path)) =
      appended (docs.text (ws.key (normalizePath path))) ['\n'] content := by
  obtain ⟨doc, hexec, hlookup, htext⟩ := exec_getOrCreate (ws.key (normalizePath path)) docs
  rw [append, Effect.exec_bind_ok (exec_scanForPrompt hprompt docs), Effect.exec_bind_ok hexec]
  rw [Effect.exec_bind_ok (exec_scanForPrompt hprompt _), ws.exec_validateAndUpdate hschema, htext]
  exact text_store hlookup

omit hprompt

variable {layerName : Text} {force : Bool} {scope : Scope} {layer : Text} {redirected : Bool}
  (htarget : ws.resolveLayerTarget layerName content force = .ok (scope, layer, redirected))

include htarget

theorem text_writeToLayer (docs : Documents) :
    ((ws.writeToLayer layerName path content force).exec docs).2.text
      (ws.keyIn scope (normalizePath path)) = content := by
  obtain ⟨doc, hexec, hlookup, -⟩ := exec_getOrCreate (ws.keyIn scope (normalizePath path)) docs
  rw [writeToLayer, Effect.exec_bind_ok (by rw [Effect.exec_ofExcept, htarget]),
    Effect.exec_bind_ok hexec, Effect.exec_bind_ok (ws.exec_validateAndUpdate hschema ..)]
  exact text_store hlookup

theorem text_appendToLayer (docs : Documents) :
    ((ws.appendToLayer layerName path content force).exec docs).2.text
      (ws.keyIn scope (normalizePath path)) =
      appended (docs.text (ws.keyIn scope (normalizePath path))) ['\n', '\n'] content := by
  obtain ⟨doc, hexec, hlookup, htext⟩ :=
    exec_getOrCreate (ws.keyIn scope (normalizePath path)) docs
  rw [appendToLayer, Effect.exec_bind_ok (by rw [Effect.exec_ofExcept, htarget]),
    Effect.exec_bind_ok hexec, Effect.exec_bind_ok (ws.exec_validateAndUpdate hschema ..), htext]
  exact text_store hlookup

end Accepted

end Workspace

end IronClaw.Memory
