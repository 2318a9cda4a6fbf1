import IronClaw.Foundation.Ranking
import IronClaw.Secrets.HostPattern

/-!
# The precedence of credentials

Several credentials can match one request. The registry and the injector write headers in the order
of their paths; the sandbox takes the greatest one.
-/

namespace IronClaw.Secrets

open Foundation (Bytes ascii HashMap sortBy maxBy Separates writeAll)

inductive CredentialLocation
  | authorizationBearer
  | authorizationBasic (username : Bytes)
  | header (name : Bytes) (valuePrefix : Option Bytes)
  | queryParam (name : Bytes)
  | urlPath (placeholder : Bytes)

structure CredentialMapping where
  secretName : Bytes
  location : CredentialLocation
  hostPatterns : List Bytes
  /-- All paths match if there are none. -/
  pathPatterns : List Bytes := []

namespace CredentialMapping

def matchesHost (mapping : CredentialMapping) (host : Bytes) : Bool :=
  mapping.hostPatterns.any fun pattern => hostMatchesPattern host pattern

def «matches» (mapping : CredentialMapping) (host path : Bytes) : Bool :=
  if !mapping.matchesHost host then false
  else if mapping.pathPatterns.isEmpty then true
  else mapping.pathPatterns.any fun pathPrefix => pathMatchesPrefix path pathPrefix

end CredentialMapping

def matchSpecificity (pathPatterns : List Bytes) (path : Bytes) : Nat :=
  (((pathPatterns.filter fun p => pathMatchesPrefix path p).map List.length).max?).getD 0

def precedence (path : Bytes) : CredentialMapping → CredentialMapping → Ordering :=
  compareLex (compareOn fun mapping => matchSpecificity mapping.pathPatterns path)
    (compareOn CredentialMapping.secretName)

instance (path : Bytes) : Std.TransCmp (precedence path) :=
  inferInstanceAs (Std.TransCmp (compareLex (compareOn _) (compareOn _)))

structure SharedCredentialRegistry where
  mappings : List CredentialMapping

def SharedCredentialRegistry.findForUrl (registry : SharedCredentialRegistry) (host path : Bytes) :
    List CredentialMapping :=
  sortBy (precedence path) (registry.mappings.filter fun mapping => mapping.matches host path)

structure CredentialInjector where
  mappings : HashMap Bytes CredentialMapping
  allowedSecrets : List Bytes

def CredentialInjector.findCredentialsForUrl (injector : CredentialInjector) (host path : Bytes) :
    List CredentialMapping :=
  sortBy (precedence path)
    ((HashMap.values injector.mappings).filter fun mapping => mapping.matches host path)

structure DefaultPolicyDecider where
  credentialMappings : List CredentialMapping

def DefaultPolicyDecider.findCredential (decider : DefaultPolicyDecider) (host path : Bytes) :
    Option CredentialMapping :=
  maxBy (precedence path)
    (decider.credentialMappings.filter fun mapping => mapping.matches host path)

structure InjectedCredentials where
  headers : HashMap Bytes Bytes := ∅
  queryParams : HashMap Bytes Bytes := ∅

def base64Alphabet : Bytes :=
  ascii "ABCDEFGHIJKLMNOPQRSTUVWXYZabcdefghijklmnopqrstuvwxyz0123456789+/"

def base64Digit (b : UInt8) : UInt8 := base64Alphabet.getD b.toNat 0

def equalsSign : UInt8 := 0x3D

/-- Three bytes at a time; those that are missing are zero, and padded. -/
def base64Encode : Bytes → Bytes
  | [] => []
  | [b0] => [base64Digit (b0 >>> 2), base64Digit ((b0 &&& 0x03) <<< 4), equalsSign, equalsSign]
  | [b0, b1] =>
    [base64Digit (b0 >>> 2), base64Digit ((b0 &&& 0x03) <<< 4 ||| b1 >>> 4),
      base64Digit ((b1 &&& 0x0F) <<< 2), equalsSign]
  | b0 :: b1 :: b2 :: rest =>
    base64Digit (b0 >>> 2) :: base64Digit ((b0 &&& 0x03) <<< 4 ||| b1 >>> 4) ::
      base64Digit ((b1 &&& 0x0F) <<< 2 ||| b2 >>> 6) :: base64Digit (b2 &&& 0x3F) ::
        base64Encode rest

example : base64Encode (ascii "user:pass") = ascii "dXNlcjpwYXNz" := by decide

def authorization : Bytes := ascii "Authorization"

def injectCredential (result : InjectedCredentials) (location : CredentialLocation)
    (secret : Bytes) : InjectedCredentials :=
  match location with
  | .authorizationBearer =>
    { result with headers := result.headers.insert authorization (ascii "Bearer " ++ secret) }
  | .authorizationBasic username =>
    let encoded := base64Encode (username ++ ascii ":" ++ secret)
    { result with headers := result.headers.insert authorization (ascii "Basic " ++ encoded) }
  | .header name valuePrefix =>
    let value := match valuePrefix with
      | some p => p ++ secret
      | none => secret
    { result with headers := result.headers.insert name value }
  | .queryParam name => { result with queryParams := result.queryParams.insert name secret }
  -- placeholders in a path are replaced elsewhere
  | .urlPath _ => result

inductive SecretError
  | notFound (name : Bytes)
  | expired
  | other (message : Bytes)

inductive InjectionError
  | secretNotFound (name : Bytes)
  | accessDenied (name : Bytes)
  | secretExpired (name : Bytes)
  | decryptionFailed (message : Bytes)

abbrev SecretsStore := Bytes → Except SecretError Bytes

def InjectionError.ofSecretError (secretName : Bytes) : SecretError → InjectionError
  | .notFound name => .secretNotFound name
  | .expired => .secretExpired secretName
  | .other message => .decryptionFailed message

def CredentialInjector.isSecretAllowed (toLowercase : Bytes → Bytes)
    (injector : CredentialInjector) (name : Bytes) : Bool :=
  injector.allowedSecrets.any fun pattern =>
    let patternLower := toLowercase pattern
    patternLower == toLowercase name ||
      (patternLower.getLast? == some 0x2A && patternLower.dropLast.isPrefixOf (toLowercase name))

def CredentialInjector.injectMapping (toLowercase : Bytes → Bytes) (injector : CredentialInjector)
    (store : SecretsStore) (result : InjectedCredentials) (mapping : CredentialMapping) :
    Except InjectionError InjectedCredentials :=
  if !injector.isSecretAllowed toLowercase mapping.secretName then
    .error (.accessDenied mapping.secretName)
  else
    match store mapping.secretName with
    | .error e => .error (.ofSecretError mapping.secretName e)
    | .ok secret => .ok (injectCredential result mapping.location secret)

def CredentialInjector.injectFromMappings (toLowercase : Bytes → Bytes)
    (injector : CredentialInjector) (store : SecretsStore) (mappings : List CredentialMapping) :
    Except InjectionError InjectedCredentials :=
  if mappings.isEmpty then .ok {}
  else mappings.foldlM (injector.injectMapping toLowercase store) {}

def CredentialInjector.injectForUrl (toLowercase : Bytes → Bytes) (injector : CredentialInjector)
    (store : SecretsStore) (host path : Bytes) : Except InjectionError InjectedCredentials :=
  injector.injectFromMappings toLowercase store (injector.findCredentialsForUrl host path)

def CredentialLocation.headerName : CredentialLocation → Option Bytes
  | authorizationBearer => some authorization
  | authorizationBasic _ => some authorization
  | header name _ => some name
  | queryParam _ => none
  | urlPath _ => none

def CredentialLocation.headerValue (secret : Bytes) : CredentialLocation → Bytes
  | authorizationBearer => ascii "Bearer " ++ secret
  | authorizationBasic username => ascii "Basic " ++ base64Encode (username ++ ascii ":" ++ secret)
  | header _ (some p) => p ++ secret
  | header _ none => secret
  | queryParam _ => secret
  | urlPath _ => secret

def secretOf (store : SecretsStore) (mapping : CredentialMapping) : Bytes :=
  match store mapping.secretName with
  | .ok secret => secret
  | .error _ => []

def CredentialMapping.value (store : SecretsStore) (mapping : CredentialMapping) : Bytes :=
  mapping.location.headerValue (secretOf store mapping)

def CredentialMapping.SetsHeader (mapping : CredentialMapping) (name : Bytes) : Prop :=
  ∃ spelled, mapping.location.headerName = some spelled ∧
    toAsciiLowercase spelled = toAsciiLowercase name

/-- The most specific of the mappings that match and set a header. -/
structure Governs (mappings : List CredentialMapping) (host path name : Bytes)
    (mapping : CredentialMapping) : Prop where
  mem : mapping ∈ mappings
  applies : mapping.matches host path = true
  sets : mapping.SetsHeader name
  greatest : ∀ other ∈ mappings, other.matches host path = true → other.SetsHeader name →
    (precedence path other mapping).isLE = true

/-- All that find mappings in a list, in whatever order, agree. -/
structure Agrees (mappings : List CredentialMapping) (host path : Bytes) : Prop where
  order : ∀ {registry registry' : SharedCredentialRegistry},
    registry.mappings.Perm mappings → registry'.mappings.Perm mappings →
      registry.findForUrl host path = registry'.findForUrl host path
  injector : ∀ {registry : SharedCredentialRegistry} {injector : CredentialInjector},
    registry.mappings.Perm mappings → (HashMap.values injector.mappings).Perm mappings →
      injector.findCredentialsForUrl host path = registry.findForUrl host path
  decider : ∀ {registry : SharedCredentialRegistry} {decider : DefaultPolicyDecider},
    registry.mappings.Perm mappings → decider.credentialMappings.Perm mappings →
      decider.findCredential host path = (registry.findForUrl host path).getLast?

/-- After injecting, each header carries only the value of the mapping that governs it. -/
structure Merged (toLowercase : Bytes → Bytes) (mappings : List CredentialMapping)
    (host path : Bytes) : Prop where
  carries : ∀ {injector : CredentialInjector} {store : SecretsStore}
    {injected : InjectedCredentials} {name value : Bytes},
    (HashMap.values injector.mappings).Perm mappings →
      injector.injectForUrl toLowercase store host path = .ok injected →
        injected.headers.lookup name = some value →
          ∃ mapping, Governs mappings host path name mapping ∧ mapping.value store = value
  set : ∀ {injector : CredentialInjector} {store : SecretsStore}
    {injected : InjectedCredentials} {name : Bytes},
    (HashMap.values injector.mappings).Perm mappings →
      injector.injectForUrl toLowercase store host path = .ok injected →
        ∀ mapping ∈ mappings, mapping.matches host path = true →
          mapping.location.headerName = some name → name ∈ injected.headers

structure OneRule (toLowercase : Bytes → Bytes) (mappings : List CredentialMapping)
    (host path : Bytes) : Prop where
  agrees : Agrees mappings host path
  merged : Merged toLowercase mappings host path

def SpelledAlike (mappings : List CredentialMapping) (host path : Bytes) : Prop :=
  ∀ a ∈ mappings, ∀ b ∈ mappings, a.matches host path = true → b.matches host path = true →
    ∀ name ∈ a.location.headerName, ∀ name' ∈ b.location.headerName,
      toAsciiLowercase name = toAsciiLowercase name' → name = name'

instance (mappings : List CredentialMapping) (host path : Bytes) :
    Decidable (SpelledAlike mappings host path) :=
  inferInstanceAs (Decidable (∀ a ∈ mappings, ∀ b ∈ mappings, a.matches host path = true →
    b.matches host path = true → ∀ name ∈ a.location.headerName, ∀ name' ∈ b.location.headerName,
      toAsciiLowercase name = toAsciiLowercase name' → name = name'))

section Order

variable {mappings : List CredentialMapping} {host path : Bytes}

theorem eq_of_secretName (hnames : (mappings.map CredentialMapping.secretName).Nodup)
    {a b : CredentialMapping} (ha : a ∈ mappings) (hb : b ∈ mappings)
    (h : a.secretName = b.secretName) : a = b := List.inj_on_of_nodup_map hnames ha hb h

theorem separates_precedence (hnames : (mappings.map CredentialMapping.secretName).Nodup)
    (path : Bytes) : Separates (precedence path) mappings := by
  intro a ha b hb heq
  rw [precedence, compareLex, Ordering.then_eq_eq] at heq
  exact eq_of_secretName hnames ha hb (Std.compare_eq_iff_eq.mp heq.2)

theorem agrees_of_nodup (hnames : (mappings.map CredentialMapping.secretName).Nodup)
    (host path : Bytes) : Agrees mappings host path := by
  -- each of the three sorts some order of the same mappings, and these are told apart
  have hseparates : ∀ {l : List CredentialMapping}, l.Perm mappings →
      Separates (precedence path) (l.filter fun mapping => mapping.matches host path) :=
    fun hperm => ((separates_precedence hnames path).perm hperm.symm).filter _
  have hsort : ∀ {l l' : List CredentialMapping}, l.Perm mappings → l'.Perm mappings →
      sortBy (precedence path) (l.filter fun mapping => mapping.matches host path) =
        sortBy (precedence path) (l'.filter fun mapping => mapping.matches host path) :=
    fun hperm hperm' => Foundation.sortBy_perm (hseparates hperm)
      ((hperm.trans hperm'.symm).filter _)
  refine ⟨hsort, fun hperm hperm' => hsort hperm' hperm, fun hperm hperm' => ?_⟩
  rw [DefaultPolicyDecider.findCredential,
    Foundation.maxBy_eq_getLast?_sortBy (hseparates hperm'), hsort hperm' hperm]
  rfl

theorem Governs.unique (hnames : (mappings.map CredentialMapping.secretName).Nodup)
    {name : Bytes} {a b : CredentialMapping} (ha : Governs mappings host path name a)
    (hb : Governs mappings host path name b) : a = b :=
  separates_precedence hnames path a ha.mem b hb.mem (Std.OrientedCmp.isLE_antisymm
    (hb.greatest a ha.mem ha.applies ha.sets) (ha.greatest b hb.mem hb.applies hb.sets))

theorem CredentialMapping.SetsHeader.congr {mapping : CredentialMapping} {name name' : Bytes}
    (heq : toAsciiLowercase name = toAsciiLowercase name') (h : mapping.SetsHeader name) :
    mapping.SetsHeader name' := by
  obtain ⟨spelled, hname, hspelled⟩ := h
  exact ⟨spelled, hname, hspelled.trans heq⟩

theorem Governs.congr {name name' : Bytes} {mapping : CredentialMapping}
    (heq : toAsciiLowercase name = toAsciiLowercase name')
    (h : Governs mappings host path name mapping) : Governs mappings host path name' mapping where
  mem := h.mem
  applies := h.applies
  sets := h.sets.congr heq
  greatest other hmem happlies hsets :=
    h.greatest other hmem happlies (hsets.congr heq.symm)

end Order

section Merge

variable {toLowercase : Bytes → Bytes} {injector : CredentialInjector} {store : SecretsStore}
  {host path name : Bytes} {result injected : InjectedCredentials}

theorem headers_injectCredential (result : InjectedCredentials) (location : CredentialLocation)
    (secret : Bytes) : (injectCredential result location secret).headers =
      location.headerName.elim result.headers fun name =>
        result.headers.insert name (location.headerValue secret) := by
  cases location with
  | header name valuePrefix => cases valuePrefix <;> rfl
  | authorizationBearer => rfl
  | authorizationBasic username => rfl
  | queryParam name => rfl
  | urlPath placeholder => rfl

theorem injectMapping_ok {mapping : CredentialMapping}
    (h : injector.injectMapping toLowercase store result mapping = .ok injected) :
    injected = injectCredential result mapping.location (secretOf store mapping) := by
  rw [CredentialInjector.injectMapping] at h
  split_ifs at h
  cases hsecret : store mapping.secretName with
  | error e =>
    rw [hsecret] at h
    cases h
  | ok secret =>
    rw [hsecret] at h
    rw [secretOf, hsecret]
    exact (Except.ok.inj h).symm

theorem headers_foldlM_injectMapping {mappings : List CredentialMapping}
    (h : mappings.foldlM (injector.injectMapping toLowercase store) result = .ok injected) :
    injected.headers = writeAll (fun mapping => mapping.location.headerName)
      (CredentialMapping.value store) mappings result.headers := by
  induction mappings generalizing result with
  | nil =>
    obtain rfl := Except.ok.inj h
    rfl
  | cons mapping mappings ih =>
    rw [List.foldlM_cons] at h
    cases hstep : injector.injectMapping toLowercase store result mapping with
    | error e =>
      rw [hstep] at h
      cases h
    | ok next =>
      rw [hstep] at h
      rw [ih h, injectMapping_ok hstep, headers_injectCredential]
      rfl

theorem lookup_injectForUrl
    (h : injector.injectForUrl toLowercase store host path = .ok injected) (name : Bytes) :
    injected.headers.lookup name = ((injector.findCredentialsForUrl host path).filter fun mapping =>
        mapping.location.headerName = some name).getLast?.map (CredentialMapping.value store) := by
  rw [CredentialInjector.injectForUrl, CredentialInjector.injectFromMappings] at h
  split_ifs at h with hempty
  · obtain rfl := Except.ok.inj h
    rw [List.isEmpty_iff.mp hempty]
    rfl
  · rw [headers_foldlM_injectMapping h, Foundation.lookup_writeAll]
    simp

theorem exists_injectForUrl (hallowed : ∀ mapping ∈ HashMap.values injector.mappings,
      injector.isSecretAllowed toLowercase mapping.secretName = true)
    (hstore : ∀ name, ∃ secret, store name = .ok secret) :
    ∃ injected, injector.injectForUrl toLowercase store host path = .ok injected := by
  have hfold : ∀ (mappings : List CredentialMapping) (result : InjectedCredentials),
      (∀ mapping ∈ mappings, injector.isSecretAllowed toLowercase mapping.secretName = true) →
        ∃ injected, mappings.foldlM (injector.injectMapping toLowercase store) result =
          .ok injected := by
    intro mappings
    induction mappings with
    | nil => exact fun result _ => ⟨result, rfl⟩
    | cons mapping mappings ih =>
      intro result hall
      obtain ⟨hmapping, hrest⟩ := List.forall_mem_cons.mp hall
      obtain ⟨secret, hsecret⟩ := hstore mapping.secretName
      rw [List.foldlM_cons, CredentialInjector.injectMapping, hmapping, hsecret]
      exact ih _ hrest
  rw [CredentialInjector.injectForUrl, CredentialInjector.injectFromMappings]
  split_ifs with hempty
  · exact ⟨{}, rfl⟩
  · refine hfold _ _ fun mapping hmem => hallowed mapping ?_
    rw [CredentialInjector.findCredentialsForUrl, Foundation.mem_sortBy] at hmem
    exact List.mem_of_mem_filter hmem

end Merge

theorem length_le_length_base64Encode (s : Bytes) : s.length ≤ (base64Encode s).length := by
  fun_induction base64Encode s with
  | case1 => exact Nat.le_refl _
  | case2 b0 => simp
  | case3 b0 b1 => simp
  | case4 b0 b1 b2 rest ih =>
    simp only [List.length_cons]
    omega

theorem length_le_length_headerValue (location : CredentialLocation) (secret : Bytes) :
    secret.length ≤ (location.headerValue secret).length := by
  cases location with
  | authorizationBearer =>
    rw [CredentialLocation.headerValue, List.length_append]
    omega
  | authorizationBasic username =>
    have hencode := length_le_length_base64Encode (username ++ ascii ":" ++ secret)
    rw [CredentialLocation.headerValue, List.length_append]
    rw [List.length_append] at hencode
    omega
  | header name valuePrefix =>
    cases valuePrefix with
    | none => exact Nat.le_refl _
    | some p =>
      rw [CredentialLocation.headerValue, List.length_append]
      omega
  | queryParam name => exact Nat.le_refl _
  | urlPath placeholder => exact Nat.le_refl _

section Rule

variable {toLowercase : Bytes → Bytes} {mappings : List CredentialMapping} {host path : Bytes}

theorem mem_found {injector : CredentialInjector} {mapping : CredentialMapping} {name : Bytes}
    (hperm : (HashMap.values injector.mappings).Perm mappings) :
    mapping ∈ (injector.findCredentialsForUrl host path).filter
        (fun mapping => mapping.location.headerName = some name) ↔
      mapping ∈ mappings ∧ mapping.matches host path = true ∧
        mapping.location.headerName = some name := by
  rw [List.mem_filter, CredentialInjector.findCredentialsForUrl, Foundation.mem_sortBy,
    List.mem_filter, hperm.mem_iff, decide_eq_true_iff, and_assoc]

theorem exists_last {injector : CredentialInjector} {mapping : CredentialMapping} {name : Bytes}
    (hperm : (HashMap.values injector.mappings).Perm mappings) (hmem : mapping ∈ mappings)
    (happlies : mapping.matches host path = true)
    (hname : mapping.location.headerName = some name) :
    ∃ last, ((injector.findCredentialsForUrl host path).filter fun mapping =>
      mapping.location.headerName = some name).getLast? = some last :=
  ⟨_, List.getLast?_eq_some_getLast
    (List.ne_nil_of_mem ((mem_found hperm).mpr ⟨hmem, happlies, hname⟩))⟩

theorem merged_of_spelledAlike (h : SpelledAlike mappings host path) :
    Merged toLowercase mappings host path where
  carries := by
    intro injector store injected name value hperm hinject hlookup
    rw [lookup_injectForUrl hinject, Option.map_eq_some_iff] at hlookup
    obtain ⟨mapping, hlast, rfl⟩ := hlookup
    obtain ⟨hmem, happlies, hname⟩ := (mem_found hperm).mp (List.mem_of_getLast? hlast)
    refine ⟨mapping, ⟨hmem, happlies, ⟨name, hname, rfl⟩, ?_⟩, rfl⟩
    rintro other hother happlies' ⟨spelled, hspelled, hcase⟩
    -- the other one spells the header in the same way, and was written before
    obtain rfl := h other hother mapping hmem happlies' happlies spelled hspelled name hname hcase
    refine (Foundation.getLast?_filter_sortBy hlast).2 other ?_ (by simpa using hspelled)
    exact List.mem_filter.mpr ⟨hperm.mem_iff.mpr hother, happlies'⟩
  set := by
    intro injector store injected name hperm hinject mapping hmem happlies hname
    obtain ⟨last, hlast⟩ := exists_last hperm hmem happlies hname
    refine HashMap.mem_iff_exists_lookup.mpr ⟨last.value store, ?_⟩
    rw [lookup_injectForUrl hinject, hlast]
    rfl

def injectorOf (mappings : List CredentialMapping)
    (hnames : (mappings.map CredentialMapping.secretName).Nodup) : CredentialInjector where
  mappings :=
    { entries := mappings.map fun mapping => ⟨mapping.secretName, mapping⟩
      nodupKeys := by
        rw [List.NodupKeys, List.keys, List.map_map]
        exact hnames }
  allowedSecrets := mappings.map CredentialMapping.secretName

theorem values_injectorOf (hnames : (mappings.map CredentialMapping.secretName).Nodup) :
    HashMap.values (injectorOf mappings hnames).mappings = mappings := by
  rw [HashMap.values, injectorOf, List.map_map]
  exact List.map_id mappings

theorem isSecretAllowed_injectorOf (toLowercase : Bytes → Bytes)
    (hnames : (mappings.map CredentialMapping.secretName).Nodup) {mapping : CredentialMapping}
    (hmem : mapping ∈ mappings) :
    (injectorOf mappings hnames).isSecretAllowed toLowercase mapping.secretName = true := by
  rw [CredentialInjector.isSecretAllowed, List.any_eq_true]
  exact ⟨_, List.mem_map_of_mem hmem, by simp⟩

theorem spelledAlike_of_merged (hnames : (mappings.map CredentialMapping.secretName).Nodup)
    (h : Merged toLowercase mappings host path) : SpelledAlike mappings host path := by
  intro a ha b hb ha' hb' name hname name' hname' hcase
  by_contra hne
  have hperm : (HashMap.values (injectorOf mappings hnames).mappings).Perm mappings :=
    List.Perm.of_eq (values_injectorOf hnames)
  -- the mappings whose values the two spellings carry
  obtain ⟨last, hlasta⟩ := exists_last hperm ha ha' hname
  obtain ⟨last', hlastb⟩ := exists_last hperm hb hb' hname'
  obtain ⟨hmem, -, hset⟩ := (mem_found hperm).mp (List.mem_of_getLast? hlasta)
  obtain ⟨hmem', -, hset'⟩ := (mem_found hperm).mp (List.mem_of_getLast? hlastb)
  have hsecrets : last.secretName ≠ last'.secretName := by
    intro heq
    obtain rfl := eq_of_secretName hnames hmem hmem' heq
    exact hne (Option.some.inj (hset.symm.trans hset'))
  -- one secret is empty, and the other longer than what is made of it
  let store : SecretsStore := fun name =>
    if name = last'.secretName then
      .ok (List.replicate ((last.location.headerValue []).length + 1) 0)
    else .ok []
  have hstore : ∀ name, ∃ secret, store name = .ok secret := by
    intro name
    by_cases hcond : name = last'.secretName
    · exact ⟨_, if_pos hcond⟩
    · exact ⟨_, if_neg hcond⟩
  obtain ⟨injected, hinject⟩ : ∃ injected,
      (injectorOf mappings hnames).injectForUrl toLowercase store host path = .ok injected :=
    exists_injectForUrl (fun mapping hmapping =>
      isSecretAllowed_injectorOf toLowercase hnames (hperm.mem_iff.mp hmapping)) hstore
  have hvalue : injected.headers.lookup name = some (last.value store) := by
    rw [lookup_injectForUrl hinject, hlasta]
    rfl
  have hvalue' : injected.headers.lookup name' = some (last'.value store) := by
    rw [lookup_injectForUrl hinject, hlastb]
    rfl
  -- one mapping governs both spellings
  obtain ⟨governs, hgoverns, heq⟩ := h.carries hperm hinject hvalue
  obtain ⟨governs', hgoverns', heq'⟩ := h.carries hperm hinject hvalue'
  obtain rfl := Governs.unique hnames (hgoverns.congr hcase) hgoverns'
  have hlength := length_le_length_headerValue last'.location (secretOf store last')
  have hshort : secretOf store last = [] := by
    simp only [secretOf, store, if_neg hsecrets]
  have hlong : (secretOf store last').length = (last.location.headerValue []).length + 1 := by
    simp only [secretOf, store, if_pos, List.length_replicate]
  have hvalues : last.value store = last'.value store := heq.symm.trans heq'
  rw [CredentialMapping.value, CredentialMapping.value, hshort] at hvalues
  rw [← hvalues, hlong] at hlength
  omega

end Rule

/-- **Credential precedence is one rule** exactly if matching mappings spell their headers alike. -/
theorem oneRule_iff (toLowercase : Bytes → Bytes) {mappings : List CredentialMapping}
    (hnames : (mappings.map CredentialMapping.secretName).Nodup) (host path : Bytes) :
    OneRule toLowercase mappings host path ↔ SpelledAlike mappings host path :=
  ⟨fun h => spelledAlike_of_merged hnames h.merged,
    fun h => ⟨agrees_of_nodup hnames host path, merged_of_spelledAlike h⟩⟩

/-- The tokens of a host, of one path, and of another one under another spelling. -/
def tokenMappings : List CredentialMapping :=
  [{ secretName := ascii "read_token", location := .authorizationBearer,
     hostPatterns := [ascii "*.example.com"], pathPatterns := [ascii "/v1/read"] },
   { secretName := ascii "host_token", location := .authorizationBearer,
     hostPatterns := [ascii "api.example.com"] },
   { secretName := ascii "write_token", location := .header (ascii "authorization") none,
     hostPatterns := [ascii "api.example.com"], pathPatterns := [ascii "/v1/write"] }]

theorem nodup_tokenMappings : (tokenMappings.map CredentialMapping.secretName).Nodup := by
  decide

theorem oneRule_token : OneRule toAsciiLowercase tokenMappings (ascii "api.example.com")
    (ascii "/v1/read") :=
  (oneRule_iff toAsciiLowercase nodup_tokenMappings _ _).mpr (by decide +kernel)

/-- On the path of the second token, both tokens are sent. -/
theorem not_oneRule_token : ¬ OneRule toAsciiLowercase tokenMappings (ascii "api.example.com")
    (ascii "/v1/write") := by
  intro h
  have halike := spelledAlike_of_merged nodup_tokenMappings h.merged
  revert halike
  decide +kernel

end IronClaw.Secrets
