import IronClaw.Pairing.Store

/-!
# Unpairing takes effect

An unpaired sender must not be resolved to the owner it has lost. A lookup may fill the cache after
the removal, and a reverted approval may put back one removed meanwhile.
-/

namespace IronClaw.Pairing

open Foundation (Along HashMap Pool run run_invariant)
open List (append_nil forall_mem_nil mem_append mem_map mem_singleton)

/-- A mapping to the removed owner has been approved since. -/
def Unpaired.Relented (u : Unpaired) (approved : List (Sender × String)) : Prop :=
  (u.sender, u.owner) ∈ approved.drop u.approvals

instance (u : Unpaired) (approved : List (Sender × String)) : Decidable (u.Relented approved) :=
  inferInstanceAs (Decidable (_ ∈ _))

variable {approved : List (Sender × String)}

theorem Unpaired.relented_snoc {u : Unpaired} (h : u.approvals ≤ approved.length) :
    u.Relented (approved ++ [(u.sender, u.owner)]) := by
  rw [Unpaired.Relented, List.drop_append_of_le_length h]
  exact List.mem_concat_self

theorem Unpaired.Relented.append {u : Unpaired} (h : u.Relented approved)
    (more : List (Sender × String)) : u.Relented (approved ++ more) := by
  rw [Unpaired.Relented, List.drop_append]
  exact List.mem_append_left _ h

/-- The removals among `us` by which `s` has lost `owner` have all been taken back. -/
def Regained (us : List Unpaired) (approved : List (Sender × String)) (s : Sender)
    (owner : String) : Prop :=
  ∀ u ∈ us, u.sender = s → u.owner = owner → u.Relented approved

instance (us : List Unpaired) (approved : List (Sender × String)) (s : Sender) (owner : String) :
    Decidable (Regained us approved s owner) :=
  inferInstanceAs (Decidable (∀ u ∈ us, u.sender = s → u.owner = owner → u.Relented approved))

theorem Regained.mono {us vs : List Unpaired} {s : Sender} {owner : String}
    (h : Regained us approved s owner) (hsub : vs ⊆ us) (more : List (Sender × String)) :
    Regained vs (approved ++ more) s owner :=
  fun u hu hs ho => (h u (hsub hu) hs ho).append more

/-- A lookup returns no owner that was removed from the sender before it was called. -/
def Answer.Honoured (a : Answer) : Prop :=
  ∀ identity, a.result = some identity → Regained a.unpaired a.approved a.sender identity.id

instance (a : Answer) : Decidable a.Honoured :=
  inferInstanceAs (Decidable (∀ identity ∈ a.result,
    Regained a.unpaired a.approved a.sender identity.id))

/-- The cache is filled with an owner whose removal has not returned, and a revert puts back one not
removed, unless approved since. -/
def PairingTask.Careful (m : Moment) (host : PairingHost) : PairingTask → Prop
  | caching s _ identity => Regained host.returned host.approved s identity.id
  | reverting approval => m.available → ∀ previous, approval.previousOwnerId = some previous →
      Regained host.removed host.approved approval.sender previous
  | _ => True

instance (m : Moment) (host : PairingHost) (t : PairingTask) : Decidable (t.Careful m host) :=
  match t with
  | .caching s _ identity =>
    inferInstanceAs (Decidable (Regained host.returned host.approved s identity.id))
  | .reverting approval =>
    inferInstanceAs (Decidable (m.available → ∀ previous ∈ approval.previousOwnerId,
      Regained host.removed host.approved approval.sender previous))
  | .resolving .. | .reading .. | .approving .. | .removing .. | .evicting .. => .isTrue trivial

def Careful (p : Pool PairingHost PairingTask) : PairingAction → Prop
  | .step i m => ∀ t, p.tasks[i]? = some t → t.Careful m p.shared
  | .call _ => True

instance (p : Pool PairingHost PairingTask) (action : PairingAction) :
    Decidable (Careful p action) :=
  match action with
  | .step i m => inferInstanceAs (Decidable (∀ t ∈ p.tasks[i]?, t.Careful m p.shared))
  | .call _ => .isTrue trivial

structure Clean (host : PairingHost) : Prop where
  db : ∀ identities, host.store.db = some identities → ∀ s owner,
    identities.lookup s = some owner → Regained host.removed host.approved s owner
  cache : ∀ s identity, host.store.cache.lookup s = some identity →
    Regained host.returned host.approved s identity.id
  returned : host.returned ⊆ host.removed
  dated : ∀ u ∈ host.removed, u.approvals ≤ host.approved.length
  answers : ∀ a ∈ host.answers, a.Honoured

/-- What a call carries with it is known to the host, and an owner that was read may be returned. -/
def PairingTask.Known (host : PairingHost) : PairingTask → Prop
  | resolving _ unpaired | reading _ unpaired => unpaired ⊆ host.returned
  | caching s unpaired identity => Regained unpaired host.approved s identity.id
  | evicting s unpaired => unpaired ⊆ host.removed ∧ ∀ u ∈ unpaired, u.sender = s
  | _ => True

structure Grows (host host' : PairingHost) : Prop where
  approved : ∃ more, host'.approved = host.approved ++ more
  removed : host.removed ⊆ host'.removed
  returned : host.returned ⊆ host'.returned

theorem PairingTask.Known.mono {host host' : PairingHost} {t : PairingTask} (h : t.Known host)
    (hgrows : Grows host host') : t.Known host' := by
  obtain ⟨⟨more, happroved⟩, hremoved, hreturned⟩ := hgrows
  cases t with
  | resolving s unpaired => exact List.Subset.trans h hreturned
  | reading s unpaired => exact List.Subset.trans h hreturned
  | caching s unpaired identity =>
    show Regained unpaired host'.approved s identity.id
    rw [happroved]
    exact Regained.mono h (List.Subset.refl _) more
  | evicting s unpaired => exact ⟨List.Subset.trans h.1 hremoved, h.2⟩
  | _ => trivial

theorem Grows.refl (host : PairingHost) : Grows host host :=
  ⟨⟨[], (append_nil _).symm⟩, List.Subset.refl _, List.Subset.refl _⟩

theorem Grows.answer (host : PairingHost) (s : Sender) (unpaired : List Unpaired)
    (result : Option UserId) : Grows host (host.answer s unpaired result) :=
  ⟨⟨[], (append_nil _).symm⟩, List.Subset.refl _, List.Subset.refl _⟩

section Steps

variable {host host' : PairingHost} {s : Sender} {m : Moment} {t : PairingTask}
  {ts : List PairingTask} {identities identities' : HashMap Sender String}

theorem clean_answer (h : Clean host) {unpaired : List Unpaired} {result : Option UserId}
    (hresult : ∀ identity, result = some identity →
      Regained unpaired host.approved s identity.id) : Clean (host.answer s unpaired result) := by
  refine ⟨h.db, h.cache, h.returned, h.dated, fun a ha => ?_⟩
  rcases mem_append.mp ha with ha | ha
  · exact h.answers a ha
  · rw [mem_singleton.mp ha]
    exact hresult

theorem regained_lost {before after named : Option String} {owner : String} (s' : Sender)
    (hafter : s' = s → after = some owner) :
    Regained (host.lost s before after named) host.approved s' owner := by
  rintro u hu hsender rfl
  simp only [PairingHost.lost, mem_map, List.mem_filter, decide_eq_true_eq] at hu
  obtain ⟨owner, ⟨-, hne⟩, rfl⟩ := hu
  exact absurd (hafter hsender.symm) hne

variable {named : Option String}

theorem clean_unpair (h : Clean host) (hdb : host.store.db = some identities)
    (hothers : ∀ s', s' ≠ s → identities'.lookup s' = identities.lookup s')
    (hown : ∀ owner, identities'.lookup s = some owner →
      identities.lookup s = some owner ∨ Regained host.removed host.approved s owner) :
    Clean (host.unpair s named identities identities').1 := by
  refine ⟨fun _ heq s' owner hs' u hu hsender howner => ?_, h.cache,
    List.Subset.trans h.returned (List.subset_append_left _ _), fun u hu => ?_, h.answers⟩
  · cases heq
    rcases mem_append.mp hu with hold | hlost
    · rcases eq_or_ne s' s with rfl | hne
      · rcases hown owner hs' with hkept | hregained
        · exact h.db identities hdb s' owner hkept u hold hsender howner
        · exact hregained u hold hsender howner
      · exact h.db identities hdb s' owner ((hothers s' hne) ▸ hs') u hold hsender howner
    · exact regained_lost s' (fun heq => heq ▸ hs') u hlost hsender howner
  · rcases mem_append.mp hu with hold | hlost
    · exact h.dated u hold
    · obtain ⟨owner, -, rfl⟩ := mem_map.mp hlost
      exact Nat.le_refl _

theorem known_unpair : ∀ t ∈ (host.unpair s named identities identities').2,
      t.Known (host.unpair s named identities identities').1 := by
  intro t ht
  cases mem_singleton.mp ht
  refine ⟨List.subset_append_right _ _, fun u hu => ?_⟩
  obtain ⟨owner, -, rfl⟩ := mem_map.mp hu
  rfl

theorem grows_unpair : Grows host (host.unpair s named identities identities').1 :=
  ⟨⟨[], (append_nil _).symm⟩, List.subset_append_left _ _, List.Subset.refl _⟩

theorem lookup_revert_of_ne (approval : PairingApprovalRecord) (identities : HashMap Sender String)
    (h : s ≠ approval.sender) :
    (revertPairingApproval approval identities).lookup s = identities.lookup s := by
  unfold revertPairingApproval
  split
  · exact AList.lookup_insert_ne h
  · split
    · exact AList.lookup_erase_ne h
    · rfl

theorem lookup_revert {approval : PairingApprovalRecord} {owner : String}
    (h : (revertPairingApproval approval identities).lookup approval.sender = some owner) :
    identities.lookup approval.sender = some owner ∨ approval.previousOwnerId = some owner := by
  unfold revertPairingApproval at h
  split at h
  · rename_i previous hprevious
    rw [AList.lookup_insert] at h
    exact .inr (hprevious.trans h)
  · split at h
    · rw [AList.lookup_erase] at h
      cases h
    · exact .inl h

theorem clean_of_next (h : Clean host) (hknown : t.Known host) (hcareful : t.Careful m host)
    (hs : t.next m host = some (host', ts)) :
    Clean host' ∧ (∀ t' ∈ ts, t'.Known host') ∧ Grows host host' := by
  cases t with
  | resolving s unpaired =>
    simp only [PairingTask.next] at hs
    cases hc : host.store.cache.lookup s with
    | none =>
      rw [hc] at hs
      cases hs
      refine ⟨h, fun t' ht' => ?_, .refl _⟩
      rw [mem_singleton.mp ht']
      exact hknown
    | some identity =>
      rw [hc] at hs
      cases hs
      refine ⟨clean_answer h fun i hi => ?_, forall_mem_nil _, .answer _ _ _ _⟩
      cases hi
      exact fun u hu => h.cache s identity hc u (hknown hu)
  | reading s unpaired =>
    simp only [PairingTask.next] at hs
    cases hdb : host.store.db with
    | none =>
      rw [hdb] at hs
      cases hs
      exact ⟨clean_answer h fun i hi => (nomatch hi), forall_mem_nil _, .answer _ _ _ _⟩
    | some identities =>
      rw [hdb] at hs
      dsimp only at hs
      split at hs
      · cases hr : resolveChannelIdentity m.users identities s with
        | none =>
          rw [hr] at hs
          cases hs
          exact ⟨clean_answer h fun i hi => (nomatch hi), forall_mem_nil _, .answer _ _ _ _⟩
        | some identity =>
          rw [hr] at hs
          cases hs
          refine ⟨h, fun t' ht' => ?_, .refl _⟩
          rw [mem_singleton.mp ht']
          obtain ⟨owner, howner, hidentity⟩ := Option.bind_eq_some_iff.mp hr
          obtain ⟨role, -, rfl⟩ := Option.map_eq_some_iff.mp hidentity
          -- what is read now is not removed, so no removal before the call stands against it
          exact fun u hu => h.db identities hdb s owner howner u (h.returned (hknown hu))
      · cases hs
        exact ⟨h, forall_mem_nil _, .refl _⟩
  | caching s unpaired identity =>
    cases hs
    have hfilled : Clean { host with store := { host.store with
        cache := host.store.cache.insert s identity } } := by
      refine ⟨h.db, fun s' i hi => ?_, h.returned, h.dated, h.answers⟩
      simp only [HashMap.lookup_insert] at hi
      split_ifs at hi with hid
      · cases hi
        rw [hid]
        exact hcareful
      · exact h.cache s' i hi
    refine ⟨clean_answer hfilled fun i hi => ?_, forall_mem_nil _,
      ⟨⟨[], (append_nil _).symm⟩, List.Subset.refl _, List.Subset.refl _⟩⟩
    cases hi
    exact hknown
  | approving channel ownerId =>
    simp only [PairingTask.next] at hs
    split at hs
    · rename_i identities requestId externalId hdb _ _
      cases hs
      refine ⟨⟨fun ids hids s owner howner => ?_, fun s i hi => ?_, h.returned, fun u hu => ?_,
        h.answers⟩, forall_mem_nil _, ⟨⟨_, rfl⟩, List.Subset.refl _, List.Subset.refl _⟩⟩
      · cases hids
        simp only [approvePairing, HashMap.lookup_insert] at howner
        split_ifs at howner with hid
        · cases howner
          subst hid
          rintro u hu hsender rfl
          rw [← hsender]
          exact Unpaired.relented_snoc (h.dated u hu)
        · exact (h.db identities hdb s owner howner).mono (List.Subset.refl _) _
      · exact (h.cache s i hi).mono (List.Subset.refl _) _
      · rw [List.length_append]
        exact Nat.le_add_right_of_le (h.dated u hu)
    · cases hs
      exact ⟨h, forall_mem_nil _, .refl _⟩
  | reverting approval =>
    simp only [PairingTask.next] at hs
    cases hdb : host.store.db with
    | none =>
      rw [hdb] at hs
      cases hs
      exact ⟨h, forall_mem_nil _, .refl _⟩
    | some identities =>
      rw [hdb] at hs
      dsimp only at hs
      split at hs
      · rename_i havailable
        cases hs
        refine ⟨clean_unpair h hdb (fun s' hne => ?_) fun owner howner => ?_, known_unpair,
          grows_unpair⟩
        · exact lookup_revert_of_ne approval identities hne
        · exact (lookup_revert howner).imp_right fun hprevious =>
            hcareful havailable owner hprevious
      · cases hs
        exact ⟨h, forall_mem_nil _, .refl _⟩
  | removing s =>
    simp only [PairingTask.next] at hs
    cases hdb : host.store.db with
    | none =>
      rw [hdb] at hs
      cases hs
      refine ⟨⟨fun _ heq => (nomatch heq), fun s' i hi => ?_, h.returned, h.dated, h.answers⟩,
        forall_mem_nil _,
        ⟨⟨[], (append_nil _).symm⟩, List.Subset.refl _, List.Subset.refl _⟩⟩
      simp only [HashMap.lookup_erase] at hi
      split_ifs at hi
      exact h.cache s' i hi
    | some identities =>
      rw [hdb] at hs
      dsimp only at hs
      split at hs
      · cases hs
        refine ⟨clean_unpair h hdb (fun s' hne => ?_) fun owner howner => ?_, known_unpair,
          grows_unpair⟩
        · exact AList.lookup_erase_ne hne
        · rw [AList.lookup_erase] at howner
          cases howner
      · cases hs
        exact ⟨h, forall_mem_nil _, .refl _⟩
  | evicting s unpaired =>
    cases hs
    refine ⟨⟨h.db, fun s' i hi u hu hsender howner => ?_, ?_, h.dated, h.answers⟩,
      forall_mem_nil _,
      ⟨⟨[], (append_nil _).symm⟩, List.Subset.refl _, List.subset_append_left _ _⟩⟩
    · simp only [HashMap.lookup_erase] at hi
      split_ifs at hi with hid
      rcases mem_append.mp hu with hu | hu
      · exact h.cache s' i hi u hu hsender howner
      · exact absurd (hsender.symm.trans (hknown.2 u hu)) hid
    · exact List.append_subset.mpr ⟨h.returned, hknown.1⟩

end Steps

def PairingCall.canonical : PairingCall → PairingCall
  | resolveIdentity channel externalId =>
    resolveIdentity (normalizeChannelName channel) externalId
  | approve channel ownerId => approve (normalizeChannelName channel) ownerId
  | revertApproval n => revertApproval n
  | remove channel externalId => remove (normalizeChannelName channel) externalId

/-- Two actions that differ at most in how a channel is spelled. -/
def Respelled : PairingAction → PairingAction → Prop
  | .call c, .call c' => c.canonical = c'.canonical
  | .step i m, .step i' m' => i = i' ∧ m = m'
  | _, _ => False

theorem task_congr {c c' : PairingCall} (h : c.canonical = c'.canonical) (host : PairingHost) :
    c.task host = c'.task host := by
  cases c <;> cases c' <;>
    simp only [PairingCall.canonical, PairingCall.resolveIdentity.injEq, PairingCall.approve.injEq,
      PairingCall.revertApproval.injEq, PairingCall.remove.injEq, reduceCtorEq] at h <;>
    simp only [PairingCall.task, sender, h]

theorem run_respelled {actions actions' : List PairingAction}
    (h : List.Forall₂ Respelled actions actions') (p : Pool PairingHost PairingTask) :
    run pairingStep p actions' = run pairingStep p actions := by
  induction h generalizing p with
  | nil => rfl
  | @cons a a' _ _ hsame _ ih =>
    have hstep : pairingStep p a' = pairingStep p a := by
      cases a <;> cases a' <;> simp only [Respelled] at hsame
      · simp only [pairingStep, task_congr hsame]
      · rw [hsame.1, hsame.2]
    simp only [Foundation.run_cons, hstep, ih]

def Kept (p : Pool PairingHost PairingTask) : Prop :=
  p.Holds Clean PairingTask.Known fun _ _ => True

theorem kept_of_pairingStep {p p' : Pool PairingHost PairingTask} {action : PairingAction}
    (h : Kept p) (hcareful : Careful p action) (hs : pairingStep p action = some p') : Kept p' := by
  cases action with
  | call c =>
    obtain ⟨t, ht, rfl⟩ := Option.map_eq_some_iff.mp hs
    refine h.start ?_ fun _ _ => trivial
    cases c with
    | resolveIdentity channel externalId =>
      cases ht
      exact List.Subset.refl _
    | approve channel ownerId =>
      cases ht
      trivial
    | revertApproval n =>
      obtain ⟨approval, -, rfl⟩ := Option.map_eq_some_iff.mp ht
      trivial
    | remove channel externalId =>
      cases ht
      trivial
  | step i m =>
    obtain ⟨front, t, back, host', ts, htasks, hi, hnext, rfl⟩ := Pool.advance_eq_some_iff.mp hs
    have hknown : t.Known p.shared := h.tasks t (by simp [htasks])
    have hown : t.Careful m p.shared := hcareful t (by simp [htasks, ← hi])
    obtain ⟨hclean, hts, hgrows⟩ := clean_of_next h.shared hknown hown hnext
    exact h.replace (fun _ _ _ => trivial) htasks hclean hts (fun _ _ hu _ => hu.mono hgrows)
      (fun _ _ _ _ _ => trivial) (List.pairwise_of_forall fun _ _ => trivial)

theorem kept_start (db : Option (HashMap Sender String)) : Kept (PairingHost.start db) :=
  .empty ⟨fun _ _ _ _ _ => forall_mem_nil _, fun _ _ hi => (nomatch hi),
    List.Subset.refl _, forall_mem_nil _, forall_mem_nil _⟩

/-- **Unpairing takes effect.** While no step brings a removed owner back, no lookup returns one
lost before, however channels are spelled. -/
theorem honoured_of_careful {db : Option (HashMap Sender String)}
    {p : Pool PairingHost PairingTask} {actions : List PairingAction}
    (hrun : run pairingStep (PairingHost.start db) actions = some p)
    (hcareful : Along pairingStep Careful (PairingHost.start db) actions) :
    (∀ a ∈ p.shared.answers, a.Honoured) ∧ ∀ actions', List.Forall₂ Respelled actions actions' →
        run pairingStep (PairingHost.start db) actions' = some p := by
  have hkept : Kept p :=
    run_invariant (fun _ _ _ => kept_of_pairingStep) (kept_start db) hcareful hrun
  exact ⟨hkept.shared.answers, fun actions' h => (run_respelled h _).trans hrun⟩

def quiet : Moment := ⟨true, fun _ => some .regular, none⟩

/-- A lookup, a removal, and another lookup, one after the other. -/
theorem honoured_in_turn : ∃ p, run pairingStep
        (PairingHost.start (some (AList.singleton ("telegram", "42") "alice")))
        [.call (.resolveIdentity "Telegram" "42"), .step 0 quiet, .step 0 quiet, .step 0 quiet,
          .call (.remove "telegram" "42"), .step 0 quiet, .step 0 quiet,
          .call (.resolveIdentity "TELEGRAM" "42"), .step 0 quiet, .step 0 quiet] = some p ∧
      ∀ a ∈ p.shared.answers, a.Honoured := by
  obtain ⟨p, hrun⟩ := Option.isSome_iff_exists.mp (show (run pairingStep
    (PairingHost.start (some (AList.singleton ("telegram", "42") "alice")))
    [.call (.resolveIdentity "Telegram" "42"), .step 0 quiet, .step 0 quiet, .step 0 quiet,
      .call (.remove "telegram" "42"), .step 0 quiet, .step 0 quiet,
      .call (.resolveIdentity "TELEGRAM" "42"), .step 0 quiet, .step 0 quiet]).isSome = true by
    decide +kernel)
  exact ⟨p, hrun, (honoured_of_careful hrun (by decide +kernel)).1⟩

/-- A slow lookup fills the cache after the removal; a revert puts back an owner. -/
theorem removed_owner_returned :
    (∃ p, run pairingStep
        (PairingHost.start (some (AList.singleton ("telegram", "42") "alice")))
        [.call (.resolveIdentity "telegram" "42"), .step 0 quiet, .step 0 quiet,
          .call (.remove "telegram" "42"), .step 1 quiet, .step 1 quiet, .step 0 quiet,
          .call (.resolveIdentity "telegram" "42"), .step 0 quiet] = some p ∧
      ¬ ∀ a ∈ p.shared.answers, a.Honoured) ∧
    ∃ p, run pairingStep (PairingHost.start (some ∅))
        [.call (.approve "telegram" "alice"), .step 0 { quiet with request := some (1, "42") },
          .call (.approve "telegram" "bob"), .step 0 { quiet with request := some (2, "42") },
          .call (.revertApproval 0), .step 0 quiet, .step 0 quiet,
          .call (.revertApproval 1), .step 0 quiet, .step 0 quiet,
          .call (.resolveIdentity "telegram" "42"), .step 0 quiet, .step 0 quiet,
          .step 0 quiet] = some p ∧
      ¬ ∀ a ∈ p.shared.answers, a.Honoured := by
  have of_any : ∀ {o : Option (Pool PairingHost PairingTask)},
      (o.any fun p => ¬ ∀ a ∈ p.shared.answers, a.Honoured) = true →
        ∃ p, o = some p ∧ ¬ ∀ a ∈ p.shared.answers, a.Honoured := by
    intro o h
    obtain ⟨p, hp, hdishonoured⟩ := (Option.any_eq_true _ _).mp h
    exact ⟨p, hp, of_decide_eq_true hdishonoured⟩
  exact ⟨of_any (by decide +kernel), of_any (by decide +kernel)⟩

end IronClaw.Pairing
