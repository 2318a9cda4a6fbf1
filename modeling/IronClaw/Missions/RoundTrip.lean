import Mathlib.Data.List.Forall2
import IronClaw.Foundation.Bytes
import IronClaw.Foundation.Finding
import IronClaw.Missions.Cadence

/-!
# Cadence strings that are parsed again

The prefix of a cadence string is recognised in lower case, and cut off by its length in bytes. The
Kelvin sign is a `k` in lower case and takes three bytes.
-/

namespace IronClaw.Missions

open Foundation (Text)
open Foundation.Text (Bare byteLength_of_ascii dropBytes_append dropBytes_of_ascii)
open List (append_assoc append_nil flatten_cons mem_cons mem_cons_self)

section Parsing

variable (libs : Libraries)

def parseEvent (rest : Text) : Except Text MissionCadence :=
  match Text.find? [':'] rest with
  | some (channel, pattern) =>
    if channel.trim.isEmpty || pattern.trim.isEmpty then .error parseCadence.eventFormat
    else
      match libs.checkRegex pattern.trim with
      | .error e => .error ("event pattern '".toList ++ pattern.trim ++
          "' is not a valid regex: ".toList ++ e)
      | .ok _ => .ok (.onEvent pattern.trim
          (if channel.trim == ['*'] then none else some channel.trim))
  | none => .error parseCadence.eventFormat

def parseSystemEvent (rest : Text) : Except Text MissionCadence :=
  match Text.find? ['/'] rest with
  | some (source, eventType) =>
    if source.trim.isEmpty || eventType.trim.isEmpty then .error parseCadence.systemEventFormat
    else .ok (.onSystemEvent source.trim eventType.trim [])
  | none => .error parseCadence.systemEventFormat

def parseWebhook (path : Text) : Except Text MissionCadence :=
  if path.isEmpty then
    .error "webhook cadence requires a path after 'webhook:', e.g. 'webhook:github'".toList
  else .ok (.webhook path none)

/-- A cadence without a prefix: five words or more are a cron expression. -/
def parseCron (s : Text) (timezone : Option ValidTimezone) : Except Text MissionCadence :=
  if 5 ≤ (splitWhitespace (libs.toLowercase s.trim)).length then .ok (.cron s.trim timezone)
  else .error ("unrecognized cadence '".toList ++ s ++ ("'. Use 'manual', a cron expression " ++
      "(e.g. '0 9 * * *'), 'event:<channel>:<pattern>' (e.g. 'event:telegram:.*'), or " ++
      "'webhook:<path>'").toList)

def eventPrefix : Text := "event:".toList

def systemEventPrefix : Text := "system_event:".toList

def webhookPrefix : Text := "webhook:".toList

/-- Parse a cadence, cutting prefixes by their bytes. A cut inside a character panics. -/
def parseCadence? (s : Text) (timezone : Option ValidTimezone) :
    Option (Except Text MissionCadence) :=
  let trimmed := s.trim
  let lower := libs.toLowercase trimmed
  if lower == "manual".toList then some (.ok .manual)
  else if eventPrefix.isPrefixOf lower then
    (Text.dropBytes 6 trimmed).map fun rest => parseEvent libs rest.trim
  else if systemEventPrefix.isPrefixOf lower then
    (Text.dropBytes 13 trimmed).map fun rest => parseSystemEvent rest.trim
  else if webhookPrefix.isPrefixOf lower then
    (Text.dropBytes 8 trimmed).map fun rest => parseWebhook rest.trim
  else some (parseCron libs s timezone)

theorem parseCadence_eq (s : Text) (timezone : Option ValidTimezone) :
    parseCadence libs s timezone = if libs.toLowercase s.trim == "manual".toList then .ok .manual
      else if eventPrefix.isPrefixOf (libs.toLowercase s.trim) then
        parseEvent libs (Text.trim (s.trim.drop 6))
      else if systemEventPrefix.isPrefixOf (libs.toLowercase s.trim) then
        parseSystemEvent (Text.trim (s.trim.drop 13))
      else if webhookPrefix.isPrefixOf (libs.toLowercase s.trim) then
        parseWebhook (Text.trim (s.trim.drop 8)) else parseCron libs s timezone := rfl

end Parsing

def kelvin : Char := '\u212A'

/-- A capital `I` with a dot above, which keeps its dot in lower case. -/
def dottedI : Char := '\u0130'

/-- What a character is in lower case. Of those beyond ASCII, only two have ASCII in it. -/
def LowercasePiece (c : Char) (piece : Text) : Prop :=
  if c.toNat < 128 then piece = [c.toLower]
  else if c = kelvin then piece = ['k']
  else if c = dottedI then piece = ['i', '\u0307']
  else piece ≠ [] ∧ ∀ d ∈ piece, 128 ≤ d.toNat

/-- A text in lower case is made of what its characters are, each in its place. -/
structure Lowercases (lower : Text → Text) : Prop where
  pieces : ∀ s, ∃ ps : List Text, lower s = ps.flatten ∧ List.Forall₂ LowercasePiece s ps

/-- A character that is another one, of ASCII, in lower case. -/
def Spells (c d : Char) : Prop := (c.toNat < 128 ∧ c.toLower = d) ∨ (c = kelvin ∧ d = 'k')

/-- Small letters of ASCII, none of them an `i`, and other characters without case. -/
def isPlain (w : Text) : Bool := w.all fun d => decide (d.toNat < 128) && d != 'i' && d.toLower == d

theorem of_isPlain {w : Text} (hw : isPlain w = true) {d : Char} (hd : d ∈ w) :
    d.toNat < 128 ∧ d ≠ 'i' ∧ d.toLower = d := by
  have hplain := List.all_eq_true.mp hw d hd
  simpa [and_assoc] using hplain

section Lowercase

variable {s front rest w : Text} {ps : List Text}

theorem exists_spells (hw : isPlain w = true)
    (hps : List.Forall₂ LowercasePiece s ps) (h : w <+: ps.flatten) :
    ∃ front rest, s = front ++ rest ∧ List.Forall₂ Spells front w := by
  induction w generalizing s ps with
  | nil => exact ⟨[], s, rfl, .nil⟩
  | cons d w ih =>
    obtain ⟨hascii, hdot, -⟩ := of_isPlain hw mem_cons_self
    have hmore : isPlain w = true := (Bool.and_eq_true _ _ ▸ hw).2
    cases hps with
    | nil => exact absurd (List.eq_nil_of_prefix_nil h) (List.cons_ne_nil _ _)
    | @cons c p s ps hpiece hps =>
      rw [flatten_cons] at h
      -- the first character is `d` in lower case, and nothing else
      have hone : ∀ e, p = [e] → d = e ∧ w <+: ps.flatten := by
        rintro e rfl
        exact List.cons_prefix_cons.mp h
      rw [LowercasePiece] at hpiece
      split_ifs at hpiece with hc hkelvin hdotted
      · obtain ⟨rfl, hrest⟩ := hone _ hpiece
        obtain ⟨front, rest, rfl, hfront⟩ := ih hmore hps hrest
        exact ⟨c :: front, rest, rfl, .cons (.inl ⟨hc, rfl⟩) hfront⟩
      · obtain ⟨rfl, hrest⟩ := hone _ hpiece
        obtain ⟨front, rest, rfl, hfront⟩ := ih hmore hps hrest
        exact ⟨c :: front, rest, rfl, .cons (.inr ⟨hkelvin, rfl⟩) hfront⟩
      · rw [hpiece] at h
        exact absurd (List.cons_prefix_cons.mp h).1 hdot
      · obtain ⟨hne, hwide⟩ := hpiece
        obtain ⟨e, p, rfl⟩ := List.exists_cons_of_ne_nil hne
        have he := hwide e mem_cons_self
        rw [← (List.cons_prefix_cons.mp h).1] at he
        omega

theorem prefix_of_spells (hfront : List.Forall₂ Spells front w)
    (hps : List.Forall₂ LowercasePiece (front ++ rest) ps) : w <+: ps.flatten := by
  induction hfront generalizing ps with
  | nil => exact List.nil_prefix
  | @cons c d front w hspell hfront ih =>
    cases hps with
    | @cons _ p _ ps hpiece hps =>
      have hp : p = [d] := by
        rw [LowercasePiece] at hpiece
        rcases hspell with ⟨hc, rfl⟩ | ⟨rfl, rfl⟩
        · rwa [if_pos hc] at hpiece
        · rwa [if_neg (by decide), if_pos rfl] at hpiece
      rw [hp, flatten_cons, List.singleton_append]
      exact (List.prefix_cons_inj d).mpr (ih hps)

variable {lower : Text → Text}

theorem Lowercases.prefix_iff (h : Lowercases lower) (hw : isPlain w = true) :
    w <+: lower s ↔ ∃ front rest, s = front ++ rest ∧ List.Forall₂ Spells front w := by
  obtain ⟨ps, hlower, hps⟩ := h.pieces s
  rw [hlower]
  constructor
  · exact exists_spells hw hps
  · rintro ⟨front, rest, rfl, hfront⟩
    exact prefix_of_spells hfront hps

theorem Lowercases.ascii (h : Lowercases lower) (hs : ∀ c ∈ s, c.toNat < 128) :
    lower s = s.map Char.toLower := by
  obtain ⟨ps, hlower, hps⟩ := h.pieces s
  rw [hlower]
  clear hlower
  induction hps with
  | nil => rfl
  | @cons c p s ps hpiece _ ih =>
    obtain ⟨hc, hs⟩ := List.forall_mem_cons.mp hs
    rw [LowercasePiece, if_pos hc] at hpiece
    rw [hpiece, flatten_cons, ih hs]
    rfl

theorem ascii_of_spells (hfront : List.Forall₂ Spells front w) (hw : 'k' ∉ w) :
    ∀ c ∈ front, c.toNat < 128 := by
  induction hfront with
  | nil => exact nofun
  | cons hspell _ ih =>
    rw [mem_cons, not_or] at hw
    refine List.forall_mem_cons.mpr ⟨?_, ih hw.2⟩
    rcases hspell with ⟨hc, -⟩ | ⟨-, hk⟩
    · exact hc
    · exact absurd hk.symm hw.1

theorem spells_self (hw : isPlain w = true) : List.Forall₂ Spells w w :=
  List.forall₂_same.mpr fun _ hd => .inl ⟨(of_isPlain hw hd).1, (of_isPlain hw hd).2.2⟩

end Lowercase

def KelvinWebhook (s : Text) : Prop :=
  Text.toAsciiLowercase (s.trim.take 6) = "webhoo".toList ∧ (s.trim.drop 6).take 2 = [kelvin, ':']

instance (s : Text) : Decidable (KelvinWebhook s) := inferInstanceAs (Decidable (_ ∧ _))

section Cut

variable {libs : Libraries} {s t front rest w : Text}

theorem ascii_of_toLower {c : Char} (h : c.toLower.toNat < 128) : c.toNat < 128 := by
  unfold Char.toLower at h
  split at h
  · next hupper =>
    have hle : c.toNat ≤ 90 := UInt32.le_iff_toNat_le.mp hupper.2
    omega
  · exact h

theorem spells_of_toAsciiLowercase (h : Text.toAsciiLowercase front = w)
    (hw : isPlain w = true) : List.Forall₂ Spells front w := by
  subst h
  induction front with
  | nil => exact .nil
  | cons c front ih =>
    have hw' : isPlain (c.toLower :: Text.toAsciiLowercase front) = true := hw
    have hc := (of_isPlain hw' mem_cons_self).1
    exact .cons (.inl ⟨ascii_of_toLower hc, rfl⟩) (ih (Bool.and_eq_true _ _ ▸ hw').2)

theorem toAsciiLowercase_of_spells (hfront : List.Forall₂ Spells front w) (hw : 'k' ∉ w) :
    Text.toAsciiLowercase front = w := by
  induction hfront with
  | nil => rfl
  | cons hspell _ ih =>
    rw [mem_cons, not_or] at hw
    rcases hspell with ⟨-, rfl⟩ | ⟨-, hk⟩
    · exact congrArg _ (ih hw.2)
    · exact absurd hk.symm hw.1

variable (h : Lowercases libs.toLowercase)

include h

theorem dropBytes_of_prefix (hw : isPlain w = true) (hk : 'k' ∉ w)
    (hstart : w <+: libs.toLowercase t) : Text.dropBytes w.length t = some (t.drop w.length) := by
  obtain ⟨front, rest, rfl, hfront⟩ := (h.prefix_iff hw).mp hstart
  rw [← List.Forall₂.length_eq hfront, dropBytes_of_ascii (ascii_of_spells hfront hk), List.drop_left]

theorem exists_of_webhookPrefix (hstart : webhookPrefix <+: libs.toLowercase t) :
    ∃ front c rest, t = front ++ c :: ':' :: rest ∧ Text.toAsciiLowercase front = "webhoo".toList ∧
      (∀ d ∈ front, d.toNat < 128) ∧ (c = kelvin ∨ c.toNat < 128) := by
  obtain ⟨front, rest, rfl, hfront⟩ := (h.prefix_iff (by decide)).mp hstart
  have hsplit : webhookPrefix = "webhoo".toList ++ ['k', ':'] := by decide
  rw [hsplit] at hfront
  have hword := List.forall₂_take_append _ _ _ hfront
  have hend := List.forall₂_drop_append _ _ _ hfront
  have hlast : ∃ c, front.drop 6 = [c, ':'] ∧ (c = kelvin ∨ c.toNat < 128) := by
    rcases hdrop : front.drop 6 with _ | ⟨c, _ | ⟨d, _ | ⟨e, more⟩⟩⟩
    all_goals rw [show "webhoo".toList.length = 6 from rfl, hdrop] at hend
    · cases hend
    · cases hend with | cons _ hmore => cases hmore
    · cases hend with
      | cons hc hmore =>
        cases hmore with
        | cons hd _ =>
          refine ⟨c, ?_, hc.symm.imp And.left And.left⟩
          rcases hd with ⟨-, hd⟩ | ⟨-, hd⟩
          · rw [Text.eq_of_toLower (by decide) hd]
          · exact absurd hd (by decide)
    · cases hend with | cons _ hmore => cases hmore with | cons _ hmore => cases hmore
  obtain ⟨c, hdrop, hc⟩ := hlast
  refine ⟨front.take 6, c, rest, ?_, toAsciiLowercase_of_spells hword (by decide),
    ascii_of_spells hword (by decide), hc⟩
  conv_lhs => rw [← List.take_append_drop 6 front, hdrop]
  simp

theorem webhookPrefix_of_kelvinWebhook (hkelvin : KelvinWebhook s) :
    webhookPrefix <+: libs.toLowercase s.trim := by
  obtain ⟨hword, hend⟩ := hkelvin
  have hsplit : webhookPrefix = "webhoo".toList ++ ['k', ':'] := by decide
  refine (h.prefix_iff (by decide)).mpr
    ⟨s.trim.take 6 ++ [kelvin, ':'], (s.trim.drop 6).drop 2, ?_, ?_⟩
  · rw [append_assoc, ← hend, List.take_append_drop, List.take_append_drop]
  · rw [hsplit]
    exact List.rel_append (spells_of_toAsciiLowercase hword (by decide))
      (.cons (.inr ⟨rfl, rfl⟩) (.cons (.inl (by decide)) .nil))

theorem dropBytes_webhook (hstart : webhookPrefix <+: libs.toLowercase s.trim) :
    Text.dropBytes 8 s.trim = if KelvinWebhook s then none else some (s.trim.drop 8) := by
  obtain ⟨front, c, rest, htrim, hword, hascii, hc⟩ := exists_of_webhookPrefix h hstart
  have hsix : front.length = 6 := by
    have hlength := congrArg List.length hword
    rwa [Text.toAsciiLowercase, List.length_map] at hlength
  have htake : s.trim.take 6 = front := by rw [htrim, ← hsix, List.take_left]
  have hdrop : s.trim.drop 6 = c :: ':' :: rest := by rw [htrim, ← hsix, List.drop_left]
  have hiff : KelvinWebhook s ↔ c = kelvin := by
    rw [KelvinWebhook, htake, hdrop]
    simp [hword]
  have hbytes : Text.dropBytes 8 s.trim = Text.dropBytes 2 (c :: ':' :: rest) := by
    have happend := dropBytes_append front (c :: ':' :: rest) 2
    rwa [byteLength_of_ascii hascii, hsix, ← htrim] at happend
  rw [hbytes]
  by_cases hkelvin : c = kelvin
  · rw [if_pos (hiff.mpr hkelvin), hkelvin]
    rfl
  · have hboth : ∀ d ∈ [c, ':'], d.toNat < 128 := by simpa using hc.resolve_left hkelvin
    have hcut : Text.dropBytes 2 ([c, ':'] ++ rest) = some rest := dropBytes_of_ascii hboth rest
    have hdrop' : s.trim.drop 8 = rest := by
      rw [show 8 = 6 + 2 from rfl, ← List.drop_drop, hdrop]
      rfl
    rw [if_neg fun hk => hkelvin (hiff.mp hk), hdrop']
    exact hcut

/-- **The parser stops** exactly at the strings that it would cut inside a character. -/
theorem parseCadence?_eq (s : Text) (timezone : Option ValidTimezone) :
    parseCadence? libs s timezone =
      if KelvinWebhook s then none else some (parseCadence libs s timezone) := by
  have hevent := dropBytes_of_prefix h (t := s.trim) (w := eventPrefix) (by decide) (by decide)
  have hsystem := dropBytes_of_prefix h (t := s.trim) (w := systemEventPrefix) (by decide)
    (by decide)
  have hkelvin := webhookPrefix_of_kelvinWebhook h (s := s)
  -- two prefixes of one text are prefixes of one another
  have hother : ∀ w, w <+: libs.toLowercase s.trim → ¬ w <+: webhookPrefix → ¬ webhookPrefix <+: w →
      ¬ KelvinWebhook s := fun w hw hne hne' hk =>
    (List.prefix_or_prefix_of_prefix hw (hkelvin hk)).elim hne hne'
  rw [parseCadence?, parseCadence_eq]
  split_ifs with hmanual hkev hevent' hkev hsystem' hkev hwebhook hkev hkev
  · refine absurd hkev (hother "manual".toList ?_ (by decide) (by decide))
    rw [beq_iff_eq.mp hmanual]
  · rfl
  · exact absurd hkev (hother _ (List.isPrefixOf_iff_prefix.mp hevent') (by decide) (by decide))
  · rw [show 6 = eventPrefix.length from rfl, hevent (List.isPrefixOf_iff_prefix.mp hevent')]
    rfl
  · exact absurd hkev (hother _ (List.isPrefixOf_iff_prefix.mp hsystem') (by decide) (by decide))
  · rw [show 13 = systemEventPrefix.length from rfl,
      hsystem (List.isPrefixOf_iff_prefix.mp hsystem')]
    rfl
  · rw [dropBytes_webhook h (List.isPrefixOf_iff_prefix.mp hwebhook), if_pos hkev]
    rfl
  · rw [dropBytes_webhook h (List.isPrefixOf_iff_prefix.mp hwebhook), if_neg hkev]
    rfl
  · exact absurd (List.isPrefixOf_iff_prefix.mpr (hkelvin hkev)) hwebhook
  · rfl

end Cut

def MissionCadence.timezone : MissionCadence → Option ValidTimezone
  | .cron _ timezone => timezone
  | _ => none

/-- A cadence string is parsed without a panic, and again from what is printed of it. -/
structure RoundTrips (libs : Libraries) (s : Text) (timezone : Option ValidTimezone) : Prop where
  total : (parseCadence? libs s timezone).isSome
  again : ∀ c, parseCadence? libs s timezone = some (.ok c) →
    parseCadence? libs (cadenceToRoundTripString c) c.timezone = some (.ok c)

section Again

variable {libs : Libraries} {s rest w : Text} {timezone : Option ValidTimezone}

theorem trim_trim (s : Text) : s.trim.trim = s.trim := by
  obtain ⟨-, -, -, -, -, hbare⟩ := Text.exists_trim s
  exact hbare.trim_eq

theorem bare_trim (s : Text) : Bare s.trim := by
  obtain ⟨-, -, -, -, -, hbare⟩ := Text.exists_trim s
  exact hbare

theorem bare_of_all (hfirst : s.head?.all (fun c => !Text.isWhitespace c) = true)
    (hlast : s.getLast?.all (fun c => !Text.isWhitespace c) = true) : Bare s := by
  constructor
  · intro c hc
    rw [Option.mem_def.mp hc] at hfirst
    simpa using hfirst
  · intro c hc
    rw [Option.mem_def.mp hc] at hlast
    simpa using hlast

theorem bare_append {front back : Text} (hfront : Bare front) (hback : Bare back)
    (hne : front ≠ []) (hne' : back ≠ []) (mid : Text) : Bare (front ++ mid ++ back) := by
  constructor
  · intro c hc
    refine hfront.head c ?_
    rw [append_assoc, List.head?_append_of_ne_nil _ hne] at hc
    exact hc
  · intro c hc
    refine hback.last c ?_
    rwa [List.getLast?_append_of_ne_nil _ hne'] at hc

variable (h : Lowercases libs.toLowercase)

include h

theorem prefix_toLowercase (hw : isPlain w = true) (rest : Text) :
    w <+: libs.toLowercase (w ++ rest) :=
  (h.prefix_iff hw).mpr ⟨w, rest, rfl, spells_self hw⟩

theorem not_prefix_toLowercase {w' : Text} (hw : isPlain w = true) (hne : ¬ w <+: w')
    (hne' : ¬ w' <+: w) (rest : Text) : w'.isPrefixOf (libs.toLowercase (w ++ rest)) = false := by
  rw [Bool.eq_false_iff, Ne, List.isPrefixOf_iff_prefix]
  exact fun hstart => (List.prefix_or_prefix_of_prefix (prefix_toLowercase h hw rest)
    hstart).elim hne hne'

theorem not_manual (hw : isPlain w = true) (hne : ¬ w <+: "manual".toList) (rest : Text) :
    (libs.toLowercase (w ++ rest) == "manual".toList) = false := by
  rw [beq_eq_false_iff_ne]
  intro heq
  exact hne (heq ▸ prefix_toLowercase h hw rest)

omit h in
theorem dropBytes_self (hw : isPlain w = true) (rest : Text) :
    Text.dropBytes w.length (w ++ rest) = some rest :=
  dropBytes_of_ascii (fun _ hd => (of_isPlain hw hd).1) rest

theorem parseCadence?_event (hbare : Bare (eventPrefix ++ rest)) :
    parseCadence? libs (eventPrefix ++ rest) timezone = some (parseEvent libs rest.trim) := by
  rw [parseCadence?, hbare.trim_eq, not_manual h (by decide) (by decide), List.isPrefixOf_iff_prefix.mpr
    (prefix_toLowercase h (by decide) rest), show 6 = eventPrefix.length from rfl,
    dropBytes_self (by decide)]
  rfl

theorem parseCadence?_systemEvent (hbare : Bare (systemEventPrefix ++ rest)) :
    parseCadence? libs (systemEventPrefix ++ rest) timezone =
      some (parseSystemEvent rest.trim) := by
  rw [parseCadence?, hbare.trim_eq, not_manual h (by decide) (by decide),
    not_prefix_toLowercase h (by decide) (by decide) (by decide), List.isPrefixOf_iff_prefix.mpr
    (prefix_toLowercase h (by decide) rest), show 13 = systemEventPrefix.length from rfl,
    dropBytes_self (by decide)]
  rfl

theorem parseCadence?_webhook (hbare : Bare (webhookPrefix ++ rest)) :
    parseCadence? libs (webhookPrefix ++ rest) timezone = some (parseWebhook rest.trim) := by
  rw [parseCadence?, hbare.trim_eq, not_manual h (by decide) (by decide),
    not_prefix_toLowercase h (by decide) (by decide) (by decide),
    not_prefix_toLowercase h (by decide) (by decide) (by decide), List.isPrefixOf_iff_prefix.mpr
    (prefix_toLowercase h (by decide) rest), show 8 = webhookPrefix.length from rfl,
    dropBytes_self (by decide)]
  rfl

theorem parseCadence?_manual (timezone : Option ValidTimezone) :
    parseCadence? libs "manual".toList timezone = some (.ok .manual) := by
  have htrim : Text.trim "manual".toList = "manual".toList := by decide
  have hlower : libs.toLowercase "manual".toList = "manual".toList := by
    have hplain : isPlain "manual".toList = true := by decide
    rw [h.ascii fun _ hc => (of_isPlain hplain hc).1]
    decide
  rw [parseCadence?, htrim, hlower]
  rfl

omit h in
theorem parseEvent_eq_ok {c : MissionCadence} (hc : parseEvent libs s = .ok c) :
    ∃ channel pattern, c = .onEvent pattern (if channel == ['*'] then none else some channel) ∧
      ':' ∉ channel ∧ channel ≠ [] ∧ pattern ≠ [] ∧ Bare channel ∧ Bare pattern ∧
      ∃ u, libs.checkRegex pattern = .ok u := by
  rw [parseEvent] at hc
  split at hc
  · next channel pattern hfound =>
    obtain ⟨-, hcolon⟩ := Text.find?_singleton_eq_some_iff.mp hfound
    by_cases hempty : (channel.trim.isEmpty || pattern.trim.isEmpty) = true
    · rw [if_pos hempty] at hc
      cases hc
    rw [if_neg hempty] at hc
    rw [Bool.or_eq_true, not_or, List.isEmpty_iff, List.isEmpty_iff] at hempty
    obtain ⟨front, back, hchannel, -, -, hbare⟩ := Text.exists_trim channel
    split at hc
    · cases hc
    · next u hregex =>
      cases hc
      refine ⟨channel.trim, pattern.trim, rfl, fun hmem => hcolon ?_, hempty.1, hempty.2, hbare,
        bare_trim pattern, u, hregex⟩
      rw [hchannel]
      simp [hmem]
  · cases hc

omit h in
theorem parseSystemEvent_eq_ok {c : MissionCadence} (hc : parseSystemEvent s = .ok c) :
    ∃ source eventType, c = .onSystemEvent source eventType [] ∧ '/' ∉ source ∧ source ≠ [] ∧
      eventType ≠ [] ∧ Bare source ∧ Bare eventType := by
  rw [parseSystemEvent] at hc
  split at hc
  · next source eventType hfound =>
    obtain ⟨-, hslash⟩ := Text.find?_singleton_eq_some_iff.mp hfound
    split_ifs at hc with hempty
    rw [Bool.or_eq_true, not_or, List.isEmpty_iff, List.isEmpty_iff] at hempty
    obtain ⟨front, back, hsource, -, -, hbare⟩ := Text.exists_trim source
    cases hc
    refine ⟨source.trim, eventType.trim, rfl, fun hmem => hslash ?_, hempty.1, hempty.2, hbare,
      bare_trim eventType⟩
    rw [hsource]
    simp [hmem]
  · cases hc

theorem again_event {channel pattern : Text} (hcolon : ':' ∉ channel) (hne : channel ≠ [])
    (hne' : pattern ≠ []) (hchannel : Bare channel) (hpattern : Bare pattern) {u : Unit}
    (hregex : libs.checkRegex pattern = .ok u) :
    parseCadence? libs (eventPrefix ++ (channel ++ [':'] ++ pattern)) timezone =
      some (.ok (.onEvent pattern (if channel == ['*'] then none else some channel))) := by
  have hrest : Bare (channel ++ [':'] ++ pattern) := bare_append hchannel hpattern hne hne' _
  have hwhole : Bare (eventPrefix ++ [] ++ (channel ++ [':'] ++ pattern)) :=
    bare_append (bare_of_all (by decide) (by decide)) hrest (by decide) (by simp) []
  have hfound : Text.find? [':'] (channel ++ [':'] ++ pattern) = some (channel, pattern) :=
    Text.find?_singleton_eq_some_iff.mpr ⟨by simp, hcolon⟩
  rw [append_nil] at hwhole
  rw [parseCadence?_event h hwhole, hrest.trim_eq, parseEvent, hfound]
  dsimp only
  rw [hchannel.trim_eq, hpattern.trim_eq, hregex, if_neg (by simp [hne, hne'])]

theorem again_systemEvent {source eventType : Text} (hslash : '/' ∉ source) (hne : source ≠ [])
    (hne' : eventType ≠ []) (hsource : Bare source) (heventType : Bare eventType) :
    parseCadence? libs (systemEventPrefix ++ (source ++ ['/'] ++ eventType)) timezone =
      some (.ok (.onSystemEvent source eventType [])) := by
  have hrest : Bare (source ++ ['/'] ++ eventType) := bare_append hsource heventType hne hne' _
  have hwhole : Bare (systemEventPrefix ++ [] ++ (source ++ ['/'] ++ eventType)) :=
    bare_append (bare_of_all (by decide) (by decide)) hrest (by decide) (by simp) []
  have hfound : Text.find? ['/'] (source ++ ['/'] ++ eventType) = some (source, eventType) :=
    Text.find?_singleton_eq_some_iff.mpr ⟨by simp, hslash⟩
  rw [append_nil] at hwhole
  rw [parseCadence?_systemEvent h hwhole, hrest.trim_eq, parseSystemEvent, hfound]
  dsimp only
  rw [hsource.trim_eq, heventType.trim_eq, if_neg (by simp [hne, hne'])]

/-- **What is printed of a parsed cadence** is parsed as that cadence. -/
theorem parseCadence?_roundTrip {c : MissionCadence}
    (hc : parseCadence? libs s timezone = some (.ok c)) :
    parseCadence? libs (cadenceToRoundTripString c) c.timezone = some (.ok c) := by
  rw [parseCadence?] at hc
  split_ifs at hc with hmanual hevent hsystem hwebhook
  · cases hc
    exact parseCadence?_manual h _
  · obtain ⟨rest, -, hparse⟩ := Option.map_eq_some_iff.mp hc
    obtain ⟨channel, pattern, rfl, hcolon, hne, hne', hchannel, hpattern, u, hregex⟩ :=
      parseEvent_eq_ok hparse
    have hagain : parseCadence? libs _ none = _ := again_event h hcolon hne hne' hchannel hpattern hregex
    by_cases hstar : channel = ['*']
    · subst hstar
      exact hagain
    · rw [if_neg (by simpa using hstar)] at hagain ⊢
      have hprinted : cadenceToRoundTripString (.onEvent pattern (some channel)) =
          eventPrefix ++ (channel ++ [':'] ++ pattern) := by
        show eventPrefix ++ channel ++ [':'] ++ pattern = _
        simp only [append_assoc]
      rw [hprinted]
      exact hagain
  · obtain ⟨rest, -, hparse⟩ := Option.map_eq_some_iff.mp hc
    obtain ⟨source, eventType, rfl, hslash, hne, hne', hsource, heventType⟩ :=
      parseSystemEvent_eq_ok hparse
    have hprinted : cadenceToRoundTripString (.onSystemEvent source eventType []) =
        systemEventPrefix ++ (source ++ ['/'] ++ eventType) := by
      show systemEventPrefix ++ source ++ ['/'] ++ eventType = _
      simp only [append_assoc]
    rw [hprinted]
    exact again_systemEvent h hslash hne hne' hsource heventType
  · obtain ⟨rest, -, hparse⟩ := Option.map_eq_some_iff.mp hc
    rw [parseWebhook] at hparse
    split_ifs at hparse with hempty
    cases hparse
    have hbare := bare_trim rest
    have hwhole : Bare (webhookPrefix ++ [] ++ rest.trim) :=
      bare_append (bare_of_all (by decide) (by decide)) hbare (by decide) (by simpa using hempty) []
    rw [append_nil] at hwhole
    have hagain : parseCadence? libs _ none = _ := parseCadence?_webhook h hwhole
    rw [hbare.trim_eq, parseWebhook, if_neg hempty] at hagain
    exact hagain
  · -- a cron expression has been trimmed, and nothing else looks at the white space
    by_cases hwords : 5 ≤ (splitWhitespace (libs.toLowercase s.trim)).length
    swap
    · rw [parseCron, if_neg hwords] at hc
      cases hc
    rw [parseCron, if_pos hwords] at hc
    cases hc
    show parseCadence? libs s.trim timezone = _
    rw [parseCadence?, trim_trim, if_neg hmanual, if_neg hevent, if_neg hsystem, if_neg hwebhook,
      parseCron, trim_trim, if_pos hwords]

/-- **Cadence strings round trip** unless they spell `webhook:` with the Kelvin sign. -/
theorem roundTrips_iff (s : Text) (timezone : Option ValidTimezone) :
    RoundTrips libs s timezone ↔ ¬ KelvinWebhook s := by
  constructor
  · rintro ⟨htotal, -⟩ hkelvin
    rw [parseCadence?_eq h, if_pos hkelvin] at htotal
    cases htotal
  · intro hkelvin
    refine ⟨?_, fun c => parseCadence?_roundTrip h⟩
    rw [parseCadence?_eq h, if_neg hkelvin]
    rfl

end Again

/-- A character in lower case, where characters beyond ASCII stay as they are but for two. -/
def lowercasePiece (c : Char) : Text :=
  if c.toNat < 128 then [c.toLower]
  else if c = kelvin then ['k']
  else if c = dottedI then ['i', '\u0307']
  else [c]

def plainLibs : Libraries where
  parseUuid _ := .error "invalid".toList
  uuidText _ := "00000000-0000-0000-0000-000000000000".toList
  toLowercase s := s.flatMap lowercasePiece
  isTimezone _ := false
  checkRegex _ := .ok ()
  cronUpcoming _ _ _ := .error "no schedule".toList
  dateIn _ _ := 0
  rfc3339 _ := "1970-01-01T00:00:00Z".toList
  debugCadence _ := "Manual".toList
  jsonText _ := "null".toList

theorem lowercasePiece_spec (c : Char) : LowercasePiece c (lowercasePiece c) := by
  rw [LowercasePiece, lowercasePiece]
  split_ifs with hc hkelvin hdotted
  · rfl
  · rfl
  · rfl
  · exact ⟨List.cons_ne_nil _ _, fun d hd => by
      rw [List.mem_singleton.mp hd]
      omega⟩

theorem lowercases_plainLibs : Lowercases plainLibs.toLowercase := by
  refine ⟨fun s => ⟨s.map lowercasePiece, rfl, ?_⟩⟩
  rw [List.forall₂_map_right_iff]
  exact List.forall₂_same.mpr fun c _ => lowercasePiece_spec c

theorem roundTrips_event : RoundTrips plainLibs "Event: telegram : .*".toList none :=
  (roundTrips_iff lowercases_plainLibs _ _).mpr (by decide)

def kelvinString : Text := "webhoo".toList ++ kelvin :: ":github".toList

/-- It is a webhook in lower case, but the eighth byte is inside the Kelvin sign. -/
theorem not_roundTrips_kelvin : plainLibs.toLowercase kelvinString = "webhook:github".toList ∧
      parseCadence? plainLibs kelvinString none = none ∧ ¬ RoundTrips plainLibs kelvinString none := by
  have hnone : parseCadence? plainLibs kelvinString none = none := by
    rw [parseCadence?_eq lowercases_plainLibs, if_pos (by decide)]
  refine ⟨by decide, hnone, fun h => ?_⟩
  have htotal := h.total
  rw [hnone] at htotal
  cases htotal

end IronClaw.Missions
