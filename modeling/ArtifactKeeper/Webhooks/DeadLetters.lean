import ArtifactKeeper.Webhooks.Claims

/-! Which webhooks the retry queue disables. -/

namespace ArtifactKeeper.Webhooks
open Machine ClusterWork

variable {validUrl : String → Bool} {owner : ℕ → String} {who : Option String} {s s' : Hub}
  {p : ℕ} {row row' : DeliveryRow} {d : Claimed} {l l' : Worker} {a : Label}

/-- All attempts of the delivery were used up, and it will not be tried again. -/
structure Exhausted (s : Hub) (row : DeliveryRow) : Prop where
  dead : row.nextRetryAt = none
  last : ∃ post ∈ s.posts, post.deliveryId = row.id ∧ post.retryAttempt = some row.maxAttempts

/-- A claimed delivery is to be tried again. -/
def Hub.Queued (s : Hub) : Prop :=
  ∀ row ∈ s.deliveries, row.claimToken ≠ none → row.nextRetryAt ≠ none

/-- The webhook has an exhausted delivery that its reason names. -/
def Justified (s : Hub) (webhookId : ℕ) (reason : String) : Prop :=
  ∃ row ∈ s.deliveries, reason = formatDisabledReason row.id ∧ row.webhookId = webhookId ∧
    Exhausted s row

/-- A row of the table is that of the claim. -/
def Known (s : Hub) (d : Claimed) : Prop :=
  d.row.attempts < d.row.maxAttempts ∧ ∃ row ∈ s.deliveries, row.id = d.row.id ∧
    row.webhookId = d.row.webhookId ∧ row.maxAttempts = d.row.maxAttempts

/-- What a tick knows of the delivery that it sends or gives up. -/
structure Worker.Proves (s : Hub) (l : Worker) : Prop where
  known : ∀ d ∈ l.claims, Known s d
  awaited : ∀ d, l.awaited = some d → ∃ post ∈ s.posts, post.deliveryId = d.row.id ∧
    post.retryAttempt = some (d.row.attempts + 1)
  disabling : ∀ d rest, l = .disabling d rest →
    Justified s d.row.webhookId (formatDisabledReason d.row.id)

theorem nextRetryAt_of_claimable {start : ℤ} (h : row.claimable start = true) :
    row.nextRetryAt ≠ none := by
  intro hnone
  simp [DeliveryRow.claimable, hnone] at h

theorem Spares.queued (h : Spares who s s') (hs : s.Queued) : s'.Queued := by
  intro row' hrow' htoken
  rcases h.back row' hrow' with ⟨row, hrow, hchange⟩ | ⟨hnone, -⟩
  · cases hchange with
    | kept hkept =>
      rw [hkept.nextRetryAt]
      exact hs row hrow (hkept.claimToken ▸ htoken)
    | claimed _ _ hfree heq =>
      have hdue : row.nextRetryAt ≠ none := nextRetryAt_of_claimable hfree
      exact heq ▸ hdue
    | extended hheld _ heq => exact heq ▸ hs row hrow hheld
    | released _ _ _ hnone => exact absurd hnone htoken
  · exact absurd hnone htoken

/-- A dead delivery stays as it is but for what is redelivered by hand. -/
theorem Spares.exhausted (h : Spares who s s') (hs : s.Queued) (hrow : row ∈ s.deliveries)
    (hdead : Exhausted s row) : ∃ row' ∈ s'.deliveries, row.Same row' ∧ Exhausted s' row' := by
  obtain ⟨row', hrow', hchange⟩ := h.forth row hrow
  obtain ⟨post, hpost, hid, hattempt⟩ := hdead.last
  have hsame := hchange.same
  refine ⟨row', hrow', hsame, ?_, post, h.posts hpost, hid.trans hsame.id.symm,
    hattempt.trans (congrArg some hsame.maxAttempts.symm)⟩
  cases hchange with
  | kept hkept => exact hkept.nextRetryAt.trans hdead.dead
  | claimed _ _ hfree => exact absurd hdead.dead (nextRetryAt_of_claimable hfree)
  | extended hheld => exact absurd hdead.dead (hs row hrow hheld)
  | released hheld => exact absurd hdead.dead (hs row hrow hheld)

theorem Spares.justified (h : Spares who s s') (hs : s.Queued) {webhookId : ℕ} {reason : String}
    (hj : Justified s webhookId reason) : Justified s' webhookId reason := by
  obtain ⟨row, hrow, hreason, hwebhook, hdead⟩ := hj
  obtain ⟨row', hrow', hsame, hdead'⟩ := h.exhausted hs hrow hdead
  exact ⟨row', hrow', hreason.trans (congrArg formatDisabledReason hsame.id.symm),
    hsame.webhookId.trans hwebhook, hdead'⟩

theorem Spares.known (h : Spares who s s') (hd : Known s d) : Known s' d := by
  obtain ⟨hbudget, row, hrow, hid, hwebhook, hmax⟩ := hd
  obtain ⟨row', hrow', hchange⟩ := h.forth row hrow
  have hsame := hchange.same
  exact ⟨hbudget, row', hrow', hsame.id.trans hid, hsame.webhookId.trans hwebhook,
    hsame.maxAttempts.trans hmax⟩

theorem Worker.Proves.mono (hl : l.Proves s) (h : Spares who s s') (hs : s.Queued) :
    l.Proves s' where
  known d hd := h.known (hl.known d hd)
  awaited d hd := by
    obtain ⟨post, hpost, hpost'⟩ := hl.awaited d hd
    exact ⟨post, h.posts hpost, hpost'⟩
  disabling d rest hd := h.justified hs (hl.disabling d rest hd)

theorem claimDueWebhookDeliveries_known {start : ℤ} {locked : List ℕ} {name : String}
    (hd : d ∈ (claimDueWebhookDeliveries s start locked name).2) : Known s d := by
  obtain ⟨row, hrow, rfl⟩ := List.mem_map.mp hd
  obtain ⟨hin, hfree⟩ := of_mem_candidates hrow
  simp only [DeliveryRow.claimable, Bool.and_eq_true, decide_eq_true_eq] at hfree
  exact ⟨hfree.1.2, row, hin, rfl, rfl, rfl⟩

theorem maxAttempts_of_deadLetter {nanos : ℕ} {success : Bool} {attempts maxAttempts : ℕ}
    (h : determineRetryOutcome nanos success attempts maxAttempts = .deadLetter) :
    maxAttempts ≤ attempts + 1 := by
  unfold determineRetryOutcome at h
  cases success with
  | true => cases h
  | false =>
    rw [if_neg Bool.false_ne_true] at h
    split at h
    · assumption
    · cases h

/-- The last attempt has failed, and the row was still claimed. -/
theorem justified_of_deadLetter {nanos : ℕ} {success : Bool} {status : Option ℕ}
    {body : Option String} {start : ℤ} (hkeyed : s.Keyed) (hd : Known s d)
    (hsent : ∃ post ∈ s.posts, post.deliveryId = d.row.id ∧
      post.retryAttempt = some (d.row.attempts + 1))
    (hdead : determineRetryOutcome nanos success d.row.attempts d.row.maxAttempts = .deadLetter)
    (hheld : (s.updateClaimed d (DeliveryRow.recorded d .deadLetter status body start)).2 = true) :
    Justified (s.updateClaimed d (DeliveryRow.recorded d .deadLetter status body start)).1
      d.row.webhookId (formatDisabledReason d.row.id) := by
  obtain ⟨row, hrow, hholds⟩ := List.any_eq_true.mp hheld
  have hid : row.id = d.row.id := by
    simp only [DeliveryRow.heldBy, Bool.and_eq_true, decide_eq_true_eq] at hholds
    exact hholds.1.2
  obtain ⟨hbudget, row', hrow', hid', hwebhook, hmax⟩ := hd
  obtain rfl : row' = row := hkeyed.eq_of_id hrow' hrow (hid'.trans hid.symm)
  obtain ⟨post, hpost, hpostId, hattempt⟩ := hsent
  have hlast : d.row.attempts + 1 = row'.maxAttempts := by
    have hle := maxAttempts_of_deadLetter hdead
    omega
  refine ⟨_, List.mem_map.mpr ⟨row', hrow, if_pos hholds⟩, ?_, ?_, rfl, post, hpost, ?_, ?_⟩
  · exact congrArg formatDisabledReason hid.symm
  · exact hwebhook
  · exact hpostId.trans hid.symm
  · exact hattempt.trans (congrArg some hlast)

/-- A reason was there, or a tick that gives a delivery up has written it. -/
def Inherits (s s' : Hub) (l : Worker) : Prop :=
  ∀ webhook' ∈ s'.webhooks, ∀ reason, webhook'.disabledReason = some reason →
    (∃ webhook ∈ s.webhooks, webhook.id = webhook'.id ∧ webhook.disabledReason = some reason) ∨
      ∃ d rest, l = .disabling d rest ∧ webhook'.id = d.row.webhookId ∧
        reason = formatDisabledReason d.row.id

theorem Inherits.of_eq (h : s'.webhooks = s.webhooks) : Inherits s s' l :=
  fun webhook hwebhook _ hreason => .inl ⟨webhook, h ▸ hwebhook, rfl, hreason⟩

theorem autoDisable_inherits (s : Hub) (d : Claimed) (rest : List Claimed) :
    Inherits s (s.autoDisableWebhookForDeadLetter d.row.webhookId d.row.id)
      (.disabling d rest) := by
  intro webhook' hwebhook' reason hreason
  obtain ⟨webhook, hwebhook, rfl⟩ := List.mem_map.mp hwebhook'
  split at hreason
  · next htarget =>
    cases hold : webhook.disabledReason with
    | none =>
      rw [if_pos htarget]
      rw [hold] at hreason
      exact .inr ⟨d, rest, rfl, htarget.1, (Option.some.inj hreason).symm⟩
    | some old =>
      rw [if_pos htarget]
      rw [hold] at hreason
      exact .inl ⟨webhook, hwebhook, rfl, hold.trans hreason⟩
  · next hother =>
    rw [if_neg hother]
    exact .inl ⟨webhook, hwebhook, rfl, hreason⟩

theorem envStep_inherits (h : envStep s a = some s') : Inherits s s' l := by
  unfold envStep at h
  split at h
  · next webhook =>
    split at h
    · next hnew =>
      cases h
      intro webhook' hwebhook' reason hreason
      rcases List.mem_append.mp hwebhook' with hold | hsingle
      · exact .inl ⟨webhook', hold, rfl, hreason⟩
      · rw [List.mem_singleton.mp hsingle, hnew.2] at hreason
        cases hreason
    · cases h
  · cases h
    intro webhook' hwebhook' reason hreason
    obtain ⟨webhook, hwebhook, rfl⟩ := List.mem_map.mp hwebhook'
    refine .inl ⟨webhook, hwebhook, ?_, ?_⟩
    · split <;> rfl
    · rw [← hreason]
      split <;> rfl
  · cases h
    intro webhook' hwebhook' reason hreason
    exact .inl ⟨webhook', List.mem_of_mem_filter hwebhook', rfl, hreason⟩
  · split at h
    · cases h
      exact .of_eq rfl
    · cases h
  · cases h
    exact .of_eq rfl
  · cases h

theorem redeliverStep_inherits (h : redeliverStep validUrl s l a = some (s', l')) :
    Inherits s s' l := by
  unfold redeliverStep at h
  split at h
  · obtain ⟨l₀, -, heq⟩ := Option.map_eq_some_iff.mp h
    cases heq
    exact .of_eq rfl
  · cases h
    exact .of_eq rfl
  · cases h
    exact .of_eq rfl
  · next o =>
    cases h
    exact .of_eq (by cases o <;> rfl)
  · cases h

theorem tickStep_inherits {name : String} (h : tickStep validUrl name s l a = some (s', l')) :
    Inherits s s' l := by
  unfold tickStep at h
  split at h
  · next o =>
    dsimp only at h
    cases h
    exact .of_eq (by cases o <;> rfl)
  · cases h
    exact .of_eq rfl
  · next o =>
    cases h
    exact .of_eq (by cases o <;> rfl)
  · cases h
    exact .of_eq rfl
  · next o =>
    cases h
    exact .of_eq (by cases o <;> rfl)
  · cases h
    exact .of_eq rfl
  · cases h
    exact .of_eq rfl
  · next o =>
    cases h
    exact .of_eq (by cases o <;> rfl)
  · next d rest o =>
    cases h
    cases o with
    | done => exact autoDisable_inherits s d rest
    | unanswered => exact autoDisable_inherits s d rest
    | failed => exact .of_eq rfl
  · cases h
    exact .of_eq rfl
  · cases h

/-- A tick that goes on with the claims that it had. -/
theorem Worker.Proves.of_subset (hl : l.Proves s) (h : Spares who s s')
    (hclaims : ∀ d ∈ l'.claims, d ∈ l.claims)
    (hawaited : ∀ d, l'.awaited = some d → l.awaited = some d)
    (hnot : ∀ d rest, l' ≠ .disabling d rest) : l'.Proves s' where
  known d hd := h.known (hl.known d (hclaims d hd))
  awaited d hd := by
    obtain ⟨post, hpost, hpost'⟩ := hl.awaited d (hawaited d hd)
    exact ⟨post, h.posts hpost, hpost'⟩
  disabling d rest hd := absurd hd (hnot d rest)

theorem tickStep_proves (hkeyed : s.Keyed) (hsound : l.Sound owner s p) (hl : l.Proves s)
    (hstart : a.start.all (· ≤ s.now) = true)
    (h : tickStep validUrl (owner p) s l a = some (s', l')) : l'.Proves s' := by
  obtain ⟨hspares, -⟩ := tickStep_sound hkeyed hsound hstart h
  unfold tickStep at h
  split at h
  · next start locked o =>
    have hbatch : ∀ d ∈ (claimDueWebhookDeliveries s start locked (owner p)).2, Known s d :=
      fun d hd => claimDueWebhookDeliveries_known hd
    cases o with
    | done =>
      cases h
      exact ⟨fun d hd => hspares.known (hbatch d hd), nofun, nofun⟩
    | unanswered =>
      cases h
      exact ⟨nofun, nofun, nofun⟩
    | failed =>
      cases h
      exact ⟨nofun, nofun, nofun⟩
  · next d rest =>
    cases h
    split
    · exact hl.of_subset hspares (fun _ h => h) nofun nofun
    · exact hl.of_subset hspares (fun _ h => h) nofun nofun
  · cases h
    exact hl.of_subset hspares (fun _ h => List.mem_cons_of_mem _ h) nofun nofun
  · cases h
    exact hl.of_subset hspares (fun _ h => h) nofun nofun
  · dsimp only at h
    split at h
    · cases h
      exact hl.of_subset hspares (fun _ h => h) nofun nofun
    · cases h
      exact hl.of_subset hspares (fun _ h => List.mem_cons_of_mem _ h) nofun nofun
  · next d url version expiresAt rest =>
    cases h
    refine ⟨fun d hd => hspares.known (hl.known d hd), fun d' hd' => ?_, nofun⟩
    cases hd'
    exact ⟨_, List.mem_append_right _ (List.mem_singleton.mpr rfl), rfl, rfl⟩
  · cases h
    exact hl.of_subset hspares (fun _ h => h) (fun _ h => h) nofun
  · next d expiresAt status body rest start nanos o =>
    dsimp only at h
    split at h
    · next hgiven =>
      obtain ⟨hdead, hheld⟩ := hgiven
      obtain ⟨htables, hupdated⟩ := Outcome.of_apply hheld
      cases h
      refine ⟨fun d hd => hspares.known (hl.known d hd), nofun, fun d' rest' heq => ?_⟩
      cases heq
      rw [htables, hdead]
      rw [hdead] at hupdated
      exact justified_of_deadLetter hkeyed (hl.known d List.mem_cons_self) (hl.awaited d rfl) hdead
        hupdated
    · cases h
      exact hl.of_subset hspares (fun _ h => List.mem_cons_of_mem _ h) nofun nofun
  · cases h
    exact hl.of_subset hspares (fun _ h => List.mem_cons_of_mem _ h) nofun nofun
  · cases h
    exact hl.of_subset hspares nofun nofun nofun
  · cases h

theorem redeliverStep_proves (h : redeliverStep validUrl s l a = some (s', l')) :
    l'.Proves s' := by
  have hclaims := (redeliverStep_spares h).2
  refine ⟨fun d hd => ?_, fun d hd => ?_, fun d rest hd => ?_⟩
  · rw [hclaims] at hd
    cases hd
  · have hin := Worker.mem_claims_of_awaited hd
    rw [hclaims] at hin
    cases hin
  · rw [hd] at hclaims
    cases hclaims

theorem step_proves (howner : Function.Injective owner) (hkeyed : s.Keyed)
    (hsound : l.Sound owner s p) (hl : l.Proves s) (hs : s.Queued)
    (h : (retryProtocol validUrl owner).step p s l a = some (s', l')) :
    l'.Proves s' ∧ Inherits s s' l := by
  obtain ⟨who, -, hspares, -⟩ := step_sound howner hkeyed hsound h
  dsimp only [retryProtocol] at h
  split at h
  · next hstart =>
    rcases Option.or_eq_some_iff.mp h with henv | ⟨-, h⟩
    · obtain ⟨s₁, hs₁, heq⟩ := Option.map_eq_some_iff.mp henv
      cases heq
      exact ⟨hl.mono hspares hs, envStep_inherits hs₁⟩
    · rcases Option.or_eq_some_iff.mp h with htick | ⟨-, hredeliver⟩
      · exact ⟨tickStep_proves hkeyed hsound hl hstart htick, tickStep_inherits htick⟩
      · exact ⟨redeliverStep_proves hredeliver, redeliverStep_inherits hredeliver⟩
  · cases h

/-- A webhook has a reason for having been disabled only if the last attempt was sent of the
delivery that the reason names, and it will not be tried again. -/
theorem disabled_justified (howner : Function.Injective owner) {w₀ w : World Hub Worker}
    (hrest : w₀.shared.AtRest) (hidle : ∀ p, w₀.procs p = .idle)
    (hnone : ∀ webhook ∈ w₀.shared.webhooks, webhook.disabledReason = none)
    (h : (retryProtocol validUrl owner).machine.Reach anyStep w₀ w) :
    ∀ webhook ∈ w.shared.webhooks, ∀ reason, webhook.disabledReason = some reason →
      Justified w.shared webhook.id reason := by
  have hstrong := h.strengthen fun t ht => sound_of_reach howner hrest hidle ht
  refine (Protocol.reach_rely_guarantee hstrong
    (I := fun s => s.Queued ∧ ∀ webhook ∈ s.webhooks, ∀ reason,
      webhook.disabledReason = some reason → Justified s webhook.id reason)
    (A := fun _ l s => l.Proves s) ⟨?_, ?_⟩ (fun p => ?_) ?_).1.2
  · exact fun row hrow htoken => absurd (hrest.unclaimed row hrow) htoken
  · intro webhook hwebhook reason hreason
    rw [hnone webhook hwebhook] at hreason
    cases hreason
  · rw [hidle p]
    exact ⟨nofun, nofun, nofun⟩
  · rintro w p a s' l' ⟨hqueued, hreasons⟩ hA ⟨-, hkeyed, hsound⟩ hstep
    obtain ⟨who, -, hspares, -⟩ := step_sound howner hkeyed (hsound p) hstep
    obtain ⟨hl', hinherits⟩ := step_proves howner hkeyed (hsound p) (hA p) hqueued hstep
    refine ⟨⟨hspares.queued hqueued, ?_⟩, hl', fun q _ => (hA q).mono hspares hqueued⟩
    intro webhook' hwebhook' reason hreason
    rcases hinherits webhook' hwebhook' reason hreason with
      ⟨webhook, hwebhook, hid, hold⟩ | ⟨d, rest, hl, hid, rfl⟩
    · exact hspares.justified hqueued (hid ▸ hreasons webhook hwebhook reason hold)
    · exact hspares.justified hqueued (hid ▸ (hA p).disabling d rest hl)

/-- A delivery of one attempt fails. -/
def lastAttempt : World Hub Worker where
  shared := { dueStart.shared with
    deliveries :=
      [{ DeliveryRow.queued 7 1 "artifact.created" "payload" 0 with maxAttempts := 1 }] }
  procs _ := .idle

theorem lastAttempt_atRest : lastAttempt.shared.AtRest :=
  ⟨List.nodup_singleton _, fun _ hrow => List.mem_singleton.mp hrow ▸ rfl, rfl⟩

def deadLetterLabels : List (ℕ × Label) :=
  [(0, .claim 0 [] .done), (0, .lookup), (0, .version), (0, .extend 0 .done), (0, .post),
    (0, .answer none (some "timeout")), (0, .record 0 0 .done), (0, .disable .done)]

theorem disabled_justified_timeout :
    ∃ w webhook, (retryProtocol (fun _ => true) hostName).machine.run lastAttempt
        deadLetterLabels = some w ∧ webhook ∈ w.shared.webhooks ∧ webhook.isEnabled = false ∧
      Justified w.shared webhook.id "Auto-disabled after dead-letter (delivery 7)" := by
  have hrun : ∃ w webhook, (retryProtocol (fun _ => true) hostName).machine.run lastAttempt
      deadLetterLabels = some w ∧ w.shared.webhooks = [webhook] ∧ webhook.isEnabled = false ∧
        webhook.disabledReason = some "Auto-disabled after dead-letter (delivery 7)" :=
    ⟨_, _, rfl, rfl, rfl, by decide +kernel⟩
  obtain ⟨w, webhook, hrun, hwebhooks, hdisabled, hreason⟩ := hrun
  have hwebhook : webhook ∈ w.shared.webhooks := hwebhooks ▸ List.mem_singleton.mpr rfl
  refine ⟨w, webhook, hrun, hwebhook, hdisabled, ?_⟩
  exact disabled_justified hostName_injective lastAttempt_atRest (fun _ => rfl)
    (fun _ h => List.mem_singleton.mp h ▸ rfl)
    (reach_of_run deadLetterLabels hrun (meets_anyStep _ _)) webhook hwebhook _ hreason

end ArtifactKeeper.Webhooks
