import ArtifactKeeper.ClusterWork.SchedulerLease
import ArtifactKeeper.Webhooks.Deliveries

/-! Which tick may send a delivery. -/

namespace ArtifactKeeper.Webhooks
open Machine ClusterWork

variable {validUrl : String → Bool} {owner : ℕ → String} {who : Option String} {s s' : Hub}
  {p q : ℕ} {row row' : DeliveryRow} {d d' : Claimed} {l l' : Worker} {a : Label}
  {expiresAt expiresAt' : ℤ}

theorem expired_of_claimable {start e : ℤ} (h : row.claimable start = true)
    (he : row.claimExpiresAt = some e) : e ≤ start := by
  simp only [DeliveryRow.claimable, he, Option.all_some, Bool.and_eq_true,
    decide_eq_true_eq] at h
  exact h.2

/-- The columns that no statement sets. -/
structure DeliveryRow.Same (row row' : DeliveryRow) : Prop where
  id : row'.id = row.id
  webhookId : row'.webhookId = row.webhookId
  maxAttempts : row'.maxAttempts = row.maxAttempts

/-- What an update beside the queue leaves as it is. -/
structure DeliveryRow.Kept (row row' : DeliveryRow) : Prop extends row.Same row' where
  nextRetryAt : row'.nextRetryAt = row.nextRetryAt
  claimedBy : row'.claimedBy = row.claimedBy
  claimToken : row'.claimToken = row.claimToken
  claimExpiresAt : row'.claimExpiresAt = row.claimExpiresAt
  attempts : row.attempts ≤ row'.attempts

theorem DeliveryRow.Kept.refl (row : DeliveryRow) : row.Kept row :=
  ⟨⟨rfl, rfl, rfl⟩, rfl, rfl, rfl, rfl, le_rfl⟩

/-- All that a statement makes of a row, as one of `who` or as one that does not ask for a claim. -/
inductive RowChange (who : Option String) (s s' : Hub) (row row' : DeliveryRow) : Prop
  | kept (h : row.Kept row')
  | claimed {start expiresAt : ℤ} {by' : String} (hclaims : s.claims < s'.claims)
      (hstart : start ≤ s.now) (hfree : row.claimable start = true)
      (heq : row' = row.claimed s.claims by' expiresAt)
  | extended {expiresAt : ℤ} (hheld : row.claimToken ≠ none) (hwho : row.claimedBy = who)
      (heq : row' = row.extended expiresAt)
  | released (hheld : row.claimToken ≠ none) (hwho : row.claimedBy = who)
      (hsame : row.Same row') (hnone : row'.claimToken = none)

theorem RowChange.same (h : RowChange who s s' row row') : row.Same row' := by
  cases h with
  | kept hkept => exact hkept.toSame
  | claimed _ _ _ heq => exact heq ▸ ⟨rfl, rfl, rfl⟩
  | extended _ _ heq => exact heq ▸ ⟨rfl, rfl, rfl⟩
  | released _ _ hsame => exact hsame

/-- What a step makes of the rows: it changes those that are there, or puts a new one beside them
that nobody has claimed. -/
structure Spares (who : Option String) (s s' : Hub) : Prop where
  now : s.now ≤ s'.now
  claims : s.claims ≤ s'.claims
  posts : s.posts ⊆ s'.posts
  distinct : (s.deliveries.map (·.id)).Nodup → (s'.deliveries.map (·.id)).Nodup
  forth : ∀ row ∈ s.deliveries, ∃ row' ∈ s'.deliveries, RowChange who s s' row row'
  back : ∀ row' ∈ s'.deliveries, (∃ row ∈ s.deliveries, RowChange who s s' row row') ∨
    row'.claimToken = none ∧ ∀ row ∈ s.deliveries, row.id ≠ row'.id

theorem Spares.map {f : DeliveryRow → DeliveryRow} (hnow : s.now ≤ s'.now)
    (hclaims : s.claims ≤ s'.claims) (hposts : s.posts ⊆ s'.posts)
    (hrows : s'.deliveries = s.deliveries.map f)
    (hf : ∀ row ∈ s.deliveries, RowChange who s s' row (f row)) : Spares who s s' where
  now := hnow
  claims := hclaims
  posts := hposts
  distinct h := by
    have hids : (s.deliveries.map f).map (·.id) = s.deliveries.map (·.id) := by
      rw [List.map_map]
      exact List.map_congr_left fun row hrow => (hf row hrow).same.id
    rwa [hrows, hids]
  forth row hrow := ⟨f row, hrows ▸ List.mem_map_of_mem hrow, hf row hrow⟩
  back row' hrow' := by
    rw [hrows] at hrow'
    obtain ⟨row, hrow, rfl⟩ := List.mem_map.mp hrow'
    exact .inl ⟨row, hrow, hf row hrow⟩

theorem Spares.of_eq (hnow : s.now ≤ s'.now) (hclaims : s.claims ≤ s'.claims)
    (hposts : s.posts ⊆ s'.posts) (hrows : s'.deliveries = s.deliveries) : Spares who s s' :=
  .map hnow hclaims hposts (f := id) (hrows.trans (List.map_id _).symm)
    fun row _ => .kept (.refl row)

/-- A token of the table is one of those given out, and it is that of its row. -/
structure Hub.Keyed (s : Hub) : Prop where
  distinct : (s.deliveries.map (·.id)).Nodup
  token : ∀ row ∈ s.deliveries, ∀ token, row.claimToken = some token →
    token.1 < s.claims ∧ token.2 = row.id

theorem Hub.AtRest.keyed (h : s.AtRest) : s.Keyed where
  distinct := h.distinct
  token row hrow token htoken := by
    rw [h.unclaimed row hrow] at htoken
    cases htoken

theorem Hub.Keyed.eq_of_id (h : s.Keyed) (hrow : row ∈ s.deliveries) (hrow' : row' ∈ s.deliveries)
    (hid : row.id = row'.id) : row = row' :=
  List.inj_on_of_nodup_map h.distinct hrow hrow' hid

theorem Spares.keyed (h : Spares who s s') (hs : s.Keyed) : s'.Keyed where
  distinct := h.distinct hs.distinct
  token row' hrow' token htoken := by
    rcases h.back row' hrow' with ⟨row, hrow, hchange⟩ | ⟨hnone, -⟩
    · have hkeep (hold : row.claimToken = some token) :
          token.1 < s'.claims ∧ token.2 = row'.id := by
        obtain ⟨hlt, heq⟩ := hs.token row hrow token hold
        exact ⟨hlt.trans_le h.claims, heq.trans hchange.same.id.symm⟩
      cases hchange with
      | kept hkept => exact hkeep (hkept.claimToken.symm.trans htoken)
      | claimed hclaims _ _ heq =>
        subst heq
        obtain rfl : (s.claims, row.id) = token := Option.some.inj htoken
        exact ⟨hclaims, rfl⟩
      | extended _ _ heq => exact hkeep (heq ▸ htoken :)
      | released _ _ _ hnone =>
        rw [hnone] at htoken
        cases htoken
    · rw [hnone] at htoken
      cases htoken

/-- The claim that `p` was given for a delivery. -/
structure Owned (owner : ℕ → String) (s : Hub) (p : ℕ) (d : Claimed) : Prop where
  used : d.claimToken.1 < s.claims
  row : d.claimToken.2 = d.row.id
  own : ∀ row ∈ s.deliveries, row.claimToken = some d.claimToken → row.claimedBy = some (owner p)

/-- Until then the row has the claim. -/
def Held (s : Hub) (d : Claimed) (expiresAt : ℤ) : Prop :=
  s.now < expiresAt → ∃ row ∈ s.deliveries, row.id = d.row.id ∧
    row.claimToken = some d.claimToken ∧ ∃ e, row.claimExpiresAt = some e ∧ expiresAt ≤ e

/-- A token that was given out stays with the row that had it. -/
theorem RowChange.claimToken (h : RowChange who s s' row row') {token : Token}
    (hused : token.1 < s.claims) (htoken : row'.claimToken = some token) :
    row.claimToken = some token ∧ row'.claimedBy = row.claimedBy ∧
      row.attempts ≤ row'.attempts := by
  cases h with
  | kept hkept =>
    exact ⟨hkept.claimToken.symm.trans htoken, hkept.claimedBy, hkept.attempts⟩
  | claimed _ _ _ heq =>
    subst heq
    obtain rfl : (s.claims, row.id) = token := Option.some.inj htoken
    exact absurd hused (lt_irrefl _)
  | extended _ _ heq => exact heq ▸ ⟨(heq ▸ htoken :), rfl, le_rfl⟩
  | released _ _ _ hnone =>
    rw [hnone] at htoken
    cases htoken

theorem Spares.owned (h : Spares who s s') (hd : Owned owner s p d) : Owned owner s' p d where
  used := hd.used.trans_le h.claims
  row := hd.row
  own row' hrow' htoken := by
    rcases h.back row' hrow' with ⟨row, hrow, hchange⟩ | ⟨hnone, -⟩
    · obtain ⟨hold, hby, -⟩ := hchange.claimToken hd.used htoken
      rw [hby]
      exact hd.own row hrow hold
    · rw [hnone] at htoken
      cases htoken

/-- Only the end of a claim takes it from its row, or a statement of its owner. -/
theorem Spares.held (h : Spares who s s') (hne : some (owner p) ≠ who) (hd : Owned owner s p d)
    (hheld : Held s d expiresAt) : Held s' d expiresAt := by
  intro hlive
  have hlive' : s.now < expiresAt := h.now.trans_lt hlive
  obtain ⟨row, hrow, hid, htoken, e, he, hle⟩ := hheld hlive'
  obtain ⟨row', hrow', hchange⟩ := h.forth row hrow
  have hby : row.claimedBy = some (owner p) := hd.own row hrow htoken
  refine ⟨row', hrow', hchange.same.id.trans hid, ?_⟩
  cases hchange with
  | kept hkept => exact ⟨hkept.claimToken.trans htoken, e, hkept.claimExpiresAt.trans he, hle⟩
  | claimed _ hstart hfree =>
    have hexpired := expired_of_claimable hfree he
    omega
  | extended _ hwho => exact absurd (hby.symm.trans hwho) hne
  | released _ hwho => exact absurd (hby.symm.trans hwho) hne

theorem of_mem_candidates {start : ℤ} {locked : List ℕ} (h : row ∈ s.candidates start locked) :
    row ∈ s.deliveries ∧ row.claimable start = true := by
  have hdue := List.mem_filter.mp ((List.mem_insertionSort _).mp (List.mem_of_mem_take h))
  exact ⟨hdue.1, (Bool.and_eq_true_iff.mp hdue.2).1⟩

/-- The statement that claims changes no row but those that are due and free. -/
theorem claimDueWebhookDeliveries_spares {start : ℤ} {locked : List ℕ} {name : String}
    (hs : s.Keyed) (hstart : start ≤ s.now) :
    Spares who s (claimDueWebhookDeliveries s start locked name).1 := by
  refine .map le_rfl (Nat.le_succ _) (List.Subset.refl _) rfl fun row hrow => ?_
  split
  · next hmem =>
    obtain ⟨row', hrow', hid⟩ := List.mem_map.mp hmem
    obtain ⟨hin, hfree⟩ := of_mem_candidates hrow'
    obtain rfl := hs.eq_of_id hin hrow hid
    exact .claimed (Nat.lt_succ_self _) hstart hfree rfl
  · exact .kept (.refl row)

theorem claimDueWebhookDeliveries_owned {start : ℤ} {locked : List ℕ} (hs : s.Keyed)
    (hd : d ∈ (claimDueWebhookDeliveries s start locked (owner p)).2) :
    Owned owner (claimDueWebhookDeliveries s start locked (owner p)).1 p d := by
  obtain ⟨row, hrow, rfl⟩ := List.mem_map.mp hd
  refine ⟨Nat.lt_succ_self _, rfl, fun row' hrow' htoken => ?_⟩
  obtain ⟨row₀, hrow₀, rfl⟩ := List.mem_map.mp hrow'
  split at htoken
  · next hmem => rw [if_pos hmem]; rfl
  · exact absurd (hs.token row₀ hrow₀ _ htoken).1 (lt_irrefl _)

/-- A statement that asks for a claim of `p` changes a row that `p` has claimed. -/
theorem updateClaimed_spares {f : DeliveryRow → DeliveryRow} (hd : Owned owner s p d)
    (hset : ∀ row, row.claimToken ≠ none → row.claimedBy = some (owner p) →
      RowChange (some (owner p)) s (s.updateClaimed d f).1 row (f row)) :
    Spares (some (owner p)) s (s.updateClaimed d f).1 := by
  refine .map le_rfl le_rfl (List.Subset.refl _) rfl fun row hrow => ?_
  split
  · next hheld =>
    have htoken : row.claimToken = some d.claimToken := by
      simp only [DeliveryRow.heldBy, Bool.and_eq_true, decide_eq_true_eq] at hheld
      exact hheld.2
    exact hset row (htoken ▸ Option.some_ne_none _) (hd.own row hrow htoken)
  · exact .kept (.refl row)

theorem updateClaimed_held (h : (s.updateClaimed d (DeliveryRow.extended expiresAt)).2 = true) :
    Held (s.updateClaimed d (DeliveryRow.extended expiresAt)).1 d expiresAt := by
  intro _
  obtain ⟨row, hrow, hheld⟩ := List.any_eq_true.mp h
  have hsame : row.id = d.row.id ∧ row.claimToken = some d.claimToken := by
    simp only [DeliveryRow.heldBy, Bool.and_eq_true, decide_eq_true_eq] at hheld
    exact ⟨hheld.1.2, hheld.2⟩
  refine ⟨row.extended expiresAt, ?_, hsame.1, hsame.2, expiresAt, rfl, le_rfl⟩
  exact List.mem_map.mpr ⟨row, hrow, if_pos hheld⟩

theorem redeliverUpdate_spares {id : ℕ} {success : Bool} {status : Option ℕ}
    {body : Option String} {start : ℤ} : Spares none s
      (s.redeliverUpdate id (DeliveryRow.redelivered success status body start)) := by
  refine .map le_rfl le_rfl (List.Subset.refl _) rfl fun row _ => ?_
  split
  · exact .kept ⟨⟨rfl, rfl, rfl⟩, rfl, rfl, rfl, rfl, Nat.le_succ _⟩
  · exact .kept (.refl row)

/-- What comes from elsewhere asks for no claim. -/
theorem envStep_spares (h : envStep s a = some s') : Spares none s s' := by
  unfold envStep at h
  split at h
  · split at h
    · cases h
      exact .of_eq le_rfl le_rfl (List.Subset.refl _) rfl
    · cases h
  · cases h
    exact .of_eq le_rfl le_rfl (List.Subset.refl _) rfl
  · cases h
    refine .map le_rfl le_rfl (List.Subset.refl _) rfl fun row _ => ?_
    split
    · exact .kept ⟨⟨rfl, rfl, rfl⟩, rfl, rfl, rfl, rfl, le_rfl⟩
    · exact .kept (.refl row)
  · split at h
    · next hnew =>
      cases h
      refine ⟨le_rfl, le_rfl, List.Subset.refl _, fun hdistinct => ?_, fun row hrow =>
        ⟨row, List.mem_append_left _ hrow, .kept (.refl row)⟩, fun row hrow => ?_⟩
      · rw [List.map_append]
        refine List.Nodup.append hdistinct (List.nodup_singleton _) ?_
        intro id hid hnewid
        obtain ⟨row, hrow, rfl⟩ := List.mem_map.mp hid
        exact hnew.1 row hrow (List.mem_singleton.mp hnewid)
      · rcases List.mem_append.mp hrow with hold | hsingle
        · exact .inl ⟨row, hold, .kept (.refl row)⟩
        · rw [List.mem_singleton.mp hsingle]
          exact .inr ⟨rfl, hnew.1⟩
    · cases h
  · cases h
    exact .of_eq (Int.le_add_of_nonneg_right (Int.natCast_nonneg _)) le_rfl (List.Subset.refl _) rfl
  · cases h

theorem recorded_same {outcome : RetryOutcome} {status : Option ℕ} {body : Option String}
    {start : ℤ} (row : DeliveryRow) : row.Same (row.recorded d outcome status body start) := by
  unfold DeliveryRow.recorded
  cases outcome <;> exact ⟨rfl, rfl, rfl⟩

theorem recorded_claimToken {outcome : RetryOutcome} {status : Option ℕ} {body : Option String}
    {start : ℤ} (row : DeliveryRow) :
    (row.recorded d outcome status body start).claimToken = none := by
  unfold DeliveryRow.recorded
  cases outcome <;> rfl

theorem Outcome.apply_spares {α : Type} {r : Hub × α} (o : Outcome) (h : Spares who s r.1) :
    Spares who s (o.apply s r).1 := by
  cases o with
  | done => exact h
  | unanswered => exact h
  | failed => exact .of_eq le_rfl le_rfl (List.Subset.refl _) rfl

theorem Outcome.of_apply {α : Type} {r : Hub × α} {o : Outcome} {x : α}
    (h : (o.apply s r).2 = some x) : (o.apply s r).1 = r.1 ∧ r.2 = x := by
  cases o with
  | done => exact ⟨rfl, Option.some.inj h⟩
  | unanswered => cases h
  | failed => cases h

/-- What a tick of `p` knows of the table. -/
structure Worker.Sound (owner : ℕ → String) (s : Hub) (p : ℕ) (l : Worker) : Prop where
  owned : ∀ d ∈ l.claims, Owned owner s p d
  held : ∀ d expiresAt, l.sending = some (d, expiresAt) → Held s d expiresAt

theorem Worker.mem_claims_of_sending (h : l.sending = some (d, expiresAt)) : d ∈ l.claims := by
  cases l <;> cases h <;> exact List.mem_cons_self

theorem Worker.mem_claims_of_awaited (h : l.awaited = some d) : d ∈ l.claims := by
  cases l <;> cases h <;> exact List.mem_cons_self

theorem Worker.Sound.mono (hl : l.Sound owner s p) (h : Spares who s s')
    (hne : some (owner p) ≠ who) : l.Sound owner s' p where
  owned d hd := h.owned (hl.owned d hd)
  held d expiresAt hsending :=
    h.held hne (hl.owned d (Worker.mem_claims_of_sending hsending)) (hl.held d expiresAt hsending)

/-- A tick that is not sending knows its claims. -/
theorem Worker.Sound.of_subset (hl : l.Sound owner s p) (h : Spares who s s')
    (hsub : ∀ d ∈ l'.claims, d ∈ l.claims) (hnot : l'.sending = none) : l'.Sound owner s' p where
  owned d hd := h.owned (hl.owned d (hsub d hd))
  held d expiresAt hsending := by
    rw [hnot] at hsending
    cases hsending

theorem tickStep_sound (hs : s.Keyed) (hl : l.Sound owner s p)
    (hstart : a.start.all (· ≤ s.now) = true)
    (h : tickStep validUrl (owner p) s l a = some (s', l')) :
    Spares (some (owner p)) s s' ∧ l'.Sound owner s' p := by
  unfold tickStep at h
  split at h
  · next start locked o =>
    have hstart : start ≤ s.now := of_decide_eq_true hstart
    have hspares : Spares (some (owner p)) s
        (o.apply s (claimDueWebhookDeliveries s start locked (owner p))).1 :=
      o.apply_spares (claimDueWebhookDeliveries_spares hs hstart)
    dsimp only at h
    cases hbatch : (o.apply s (claimDueWebhookDeliveries s start locked (owner p))).2 with
    | none =>
      rw [hbatch] at h
      cases h
      exact ⟨hspares, nofun, nofun⟩
    | some batch =>
      obtain ⟨htables, rfl⟩ := Outcome.of_apply hbatch
      rw [hbatch, htables] at h
      rw [htables] at hspares
      cases h
      exact ⟨hspares, fun d hd => claimDueWebhookDeliveries_owned hs hd, nofun⟩
  · next d rest =>
    cases h
    have hspares : Spares (some (owner p)) s s := .of_eq le_rfl le_rfl (List.Subset.refl _) rfl
    refine ⟨hspares, hl.of_subset hspares (fun d hd => ?_) ?_⟩
    · revert hd; split <;> exact id
    · split <;> rfl
  · next d rest o =>
    cases h
    have hspares := o.apply_spares
      (updateClaimed_spares (hl.owned d List.mem_cons_self) (f := DeliveryRow.deadLettered)
        fun row hheld hwho => .released hheld hwho ⟨rfl, rfl, rfl⟩ rfl)
    exact ⟨hspares, hl.of_subset hspares (fun d hd => List.mem_cons_of_mem _ hd) rfl⟩
  · next d url rest =>
    cases h
    have hspares : Spares (some (owner p)) s s := .of_eq le_rfl le_rfl (List.Subset.refl _) rfl
    exact ⟨hspares, hl.of_subset hspares (fun _ hd => hd) rfl⟩
  · next d url version rest start o =>
    have hspares := o.apply_spares (updateClaimed_spares (hl.owned d List.mem_cons_self)
      (f := DeliveryRow.extended (start + webhookRetryClaimTtl)) fun row hheld hwho =>
        .extended hheld hwho rfl)
    dsimp only at h
    split at h
    · next hheld =>
      obtain ⟨htables, hupdated⟩ := Outcome.of_apply hheld
      cases h
      refine ⟨hspares, fun d hd => hspares.owned (hl.owned d hd), fun d' e hsending => ?_⟩
      cases hsending
      rw [htables]
      exact updateClaimed_held hupdated
    · cases h
      exact ⟨hspares, hl.of_subset hspares (fun d hd => List.mem_cons_of_mem _ hd) rfl⟩
  · next d url version expiresAt rest =>
    have hspares : Spares (some (owner p)) s s' := by
      cases h
      exact .of_eq le_rfl le_rfl (List.subset_append_left _ _) rfl
    cases h
    refine ⟨hspares, fun d hd => hspares.owned (hl.owned d hd), fun d' e hsending => ?_⟩
    cases hsending
    exact hl.held d expiresAt rfl
  · next d expiresAt rest status body =>
    cases h
    refine ⟨.of_eq le_rfl le_rfl (List.Subset.refl _) rfl, fun d hd => hl.owned d hd,
      fun d' e hsending => ?_⟩
    cases hsending
    exact hl.held d expiresAt rfl
  · next d expiresAt status body rest start nanos o =>
    have hspares := o.apply_spares (updateClaimed_spares (hl.owned d List.mem_cons_self)
      (f := DeliveryRow.recorded d (determineRetryOutcome nanos
        (isWebhookDeliverySuccess status) d.row.attempts d.row.maxAttempts) status body start)
      fun row hheld hwho => .released hheld hwho (recorded_same _) (recorded_claimToken _))
    dsimp only at h
    split at h
    · cases h
      exact ⟨hspares, hl.of_subset hspares (fun _ hd => hd) rfl⟩
    · cases h
      exact ⟨hspares, hl.of_subset hspares (fun _ hd => List.mem_cons_of_mem _ hd) rfl⟩
  · next d rest o =>
    cases h
    have hspares : Spares (some (owner p)) s
        (o.apply s (s.autoDisableWebhookForDeadLetter d.row.webhookId d.row.id, ())).1 :=
      o.apply_spares (.of_eq le_rfl le_rfl (List.Subset.refl _) rfl)
    exact ⟨hspares, hl.of_subset hspares (fun d hd => List.mem_cons_of_mem _ hd) rfl⟩
  · cases h
    have hspares : Spares (some (owner p)) s s := .of_eq le_rfl le_rfl (List.Subset.refl _) rfl
    exact ⟨hspares, hl.of_subset hspares nofun rfl⟩
  · cases h

theorem redeliverStep_spares (h : redeliverStep validUrl s l a = some (s', l')) :
    Spares none s s' ∧ l'.claims = [] := by
  unfold redeliverStep at h
  split at h
  · next id =>
    obtain ⟨l₀, hl₀, heq⟩ := Option.map_eq_some_iff.mp h
    cases heq
    refine ⟨.of_eq le_rfl le_rfl (List.Subset.refl _) rfl, ?_⟩
    unfold Hub.redelivery at hl₀
    obtain ⟨row, -, hl₀⟩ := Option.bind_eq_some_iff.mp hl₀
    obtain ⟨webhook, -, hl₀⟩ := Option.bind_eq_some_iff.mp hl₀
    split at hl₀
    · cases hl₀; rfl
    · cases hl₀
  · cases h
    exact ⟨.of_eq le_rfl le_rfl (List.subset_append_left _ _) rfl, rfl⟩
  · cases h
    exact ⟨.of_eq le_rfl le_rfl (List.Subset.refl _) rfl, rfl⟩
  · next row status body start o =>
    cases h
    exact ⟨o.apply_spares redeliverUpdate_spares, rfl⟩
  · cases h

/-- What one step of `p` leaves of the others' claims, and what `p` knows after it. -/
theorem step_sound (howner : Function.Injective owner) (hs : s.Keyed) (hl : l.Sound owner s p)
    (h : (retryProtocol validUrl owner).step p s l a = some (s', l')) :
    ∃ who, (∀ q, q ≠ p → some (owner q) ≠ who) ∧ Spares who s s' ∧ l'.Sound owner s' p := by
  dsimp only [retryProtocol] at h
  split at h
  · next hstart =>
    have hothers : ∀ q, q ≠ p → some (owner q) ≠ some (owner p) := fun q hq heq =>
      hq (howner (Option.some.inj heq))
    rcases Option.or_eq_some_iff.mp h with henv | ⟨-, h⟩
    · obtain ⟨s₁, hs₁, heq⟩ := Option.map_eq_some_iff.mp henv
      cases heq
      have hspares := envStep_spares hs₁
      exact ⟨none, fun _ _ => Option.some_ne_none _, hspares,
        hl.mono hspares (Option.some_ne_none _)⟩
    · rcases Option.or_eq_some_iff.mp h with htick | ⟨-, hredeliver⟩
      · exact ⟨_, hothers, tickStep_sound hs hl hstart htick⟩
      · obtain ⟨hspares, hnone⟩ := redeliverStep_spares hredeliver
        refine ⟨none, fun _ _ => Option.some_ne_none _, hspares, fun d hd => ?_,
          fun d e hsending => ?_⟩
        · rw [hnone] at hd
          cases hd
        · have hd := Worker.mem_claims_of_sending hsending
          rw [hnone] at hd
          cases hd
  · cases h

theorem sound_of_reach (howner : Function.Injective owner)
    {ok : World Hub Worker → ℕ × Label → Prop} {w₀ w : World Hub Worker}
    (hrest : w₀.shared.AtRest) (hidle : ∀ p, w₀.procs p = .idle)
    (h : (retryProtocol validUrl owner).machine.Reach ok w₀ w) :
    w.shared.Keyed ∧ ∀ p, (w.procs p).Sound owner w.shared p := by
  refine Protocol.reach_rely_guarantee h (I := Hub.Keyed) (A := fun p l s => l.Sound owner s p)
    hrest.keyed (fun p => by rw [hidle p]; exact ⟨nofun, nofun⟩) ?_
  intro w p a s' l' hs hA _ hstep
  obtain ⟨who, hothers, hspares, hl'⟩ := step_sound howner hs (hA p) hstep
  exact ⟨hspares.keyed hs, hl', fun q hq => (hA q).mono hspares (hothers q hq)⟩

/-- A delivery to one webhook is due. -/
def dueStart : World Hub Worker where
  shared :=
    { deliveries := [.queued 7 1 "artifact.created" "payload" 0]
      webhooks := [⟨1, "https://hooks.example.com", "2026-04-01", true, none⟩]
      claims := 0
      now := 0
      posts := [] }
  procs _ := .idle

theorem dueStart_atRest : dueStart.shared.AtRest :=
  ⟨List.nodup_singleton _, fun _ hrow => List.mem_singleton.mp hrow ▸ rfl, rfl⟩

/-- The first replica sends it while the second one asks for what is due. -/
def contendedLabels : List (ℕ × Label) :=
  [(0, .claim 0 [] .done), (0, .lookup), (0, .version), (0, .extend 0 .done), (0, .post),
    (1, .elapse 60000), (1, .claim 60000 [] .done)]

end ArtifactKeeper.Webhooks
