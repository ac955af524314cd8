import ArtifactKeeper.Webhooks.Claims
import Mathlib.Data.List.Perm.Subperm

/-! How often the retry queue sends a delivery. -/

namespace ArtifactKeeper.Webhooks
open Machine ClusterWork

variable {validUrl : String → Bool} {owner : ℕ → String} {who : Option String} {s s' : Hub}
  {p q : ℕ} {row row' : DeliveryRow} {d : Claimed} {l l' : Worker} {a : Label} {top id : ℕ}
  {posts : List Post}

/-- The numbers of the attempts that the queue has sent for a delivery. -/
def numbersOf (posts : List Post) (id : ℕ) : List ℕ :=
  posts.filterMap fun post => if post.deliveryId = id then post.retryAttempt else none

theorem numbersOf_append (posts : List Post) (post : Post) (id : ℕ) :
    numbersOf (posts ++ [post]) id = numbersOf posts id ++
      (if post.deliveryId = id then post.retryAttempt else none).toList := by
  rw [numbersOf, List.filterMap_append]
  congr 1

/-- A request leaves before its claim ends, and no claim under which a request was sent ends before
the attempt is recorded. -/
def Unlapsed (w : World Hub Worker) (a : ℕ × Label) : Prop :=
  (∀ d url version expiresAt rest, w.procs a.1 = .extended d url version expiresAt rest →
    a.2 = .post → w.shared.now < expiresAt) ∧
  ∀ time, a.2 = .elapse time → ∀ row ∈ w.shared.deliveries, ∀ post ∈ w.shared.posts,
    post.claimToken ≠ none → post.claimToken = row.claimToken →
      ∀ e, row.claimExpiresAt = some e → w.shared.now + time < e

/-- A request was sent under the claim of the row. -/
def Sending (s : Hub) (row : DeliveryRow) : Prop :=
  (∃ post ∈ s.posts, post.claimToken ≠ none ∧ post.claimToken = row.claimToken) ∧
    ∃ e, row.claimExpiresAt = some e ∧ s.now < e

/-- Every attempt sent is counted in the row or is under way. -/
structure Hub.Counted (s : Hub) : Prop where
  known : ∀ id, numbersOf s.posts id ≠ [] → ∃ row ∈ s.deliveries, row.id = id
  increasing : ∀ id, (numbersOf s.posts id).Pairwise (· < ·)
  within : ∀ row ∈ s.deliveries, ∀ n ∈ numbersOf s.posts row.id, 0 < n ∧ n ≤ row.maxAttempts
  row : ∀ row ∈ s.deliveries, (∀ n ∈ numbersOf s.posts row.id, n ≤ row.attempts) ∨ Sending s row

/-- While the claim stands, no attempt above `top` was sent for its delivery. -/
structure Covers (s : Hub) (d : Claimed) (top : ℕ) : Prop where
  budget : d.row.attempts < d.row.maxAttempts
  rows : ∀ row ∈ s.deliveries, row.claimToken = some d.claimToken →
    d.row.maxAttempts = row.maxAttempts ∧ d.row.attempts ≤ row.attempts ∧
      ∀ n ∈ numbersOf s.posts row.id, n ≤ top

/-- The claims of a tick under which it has sent nothing. -/
def Worker.unsent : Worker → List Claimed
  | .processing batch => batch
  | .discarding d rest | .found d _ rest | .ready d _ _ rest | .extended d _ _ _ rest => d :: rest
  | .sent _ _ rest | .answered _ _ _ _ rest | .disabling _ rest => rest
  | _ => []

structure Worker.Counts (s : Hub) (l : Worker) : Prop where
  distinct : (l.claims.map (·.row.id)).Nodup
  unsent : ∀ d ∈ l.unsent, Covers s d d.row.attempts
  awaited : ∀ d, l.awaited = some d → Covers s d (d.row.attempts + 1)

theorem Hub.AtRest.counted (h : s.AtRest) : s.Counted := by
  refine ⟨?_, ?_, ?_, ?_⟩ <;> rw [h.posts]
  · exact fun id hne => absurd rfl hne
  · exact fun id => .nil
  · exact fun row _ n hn => absurd hn List.not_mem_nil
  · exact fun row _ => .inl fun n hn => absurd hn List.not_mem_nil

theorem Covers.mono (h : Spares who s s') (hused : d.claimToken.1 < s.claims)
    (hposts : ∀ row ∈ s.deliveries, row.claimToken = some d.claimToken →
      numbersOf s'.posts row.id = numbersOf s.posts row.id) (hc : Covers s d top) :
    Covers s' d top where
  budget := hc.budget
  rows row' hrow' htoken := by
    rcases h.back row' hrow' with ⟨row, hrow, hchange⟩ | ⟨hnone, -⟩
    · obtain ⟨hold, -, hle⟩ := hchange.claimToken hused htoken
      obtain ⟨hmax, hattempts, hnumbers⟩ := hc.rows row hrow hold
      refine ⟨hmax.trans hchange.same.maxAttempts.symm, hattempts.trans hle, ?_⟩
      rw [hchange.same.id, hposts row hrow hold]
      exact hnumbers
    · rw [hnone] at htoken
      cases htoken

theorem Hub.Counted.of_map (hs : s.Counted) {f : DeliveryRow → DeliveryRow}
    (hrows : s'.deliveries = s.deliveries.map f) (hposts : s'.posts = s.posts)
    (hsame : ∀ row ∈ s.deliveries, row.Same (f row))
    (hcount : ∀ row ∈ s.deliveries, (∀ n ∈ numbersOf s.posts row.id, n ≤ (f row).attempts) ∨
      Sending s' (f row)) : s'.Counted where
  known id hne := by
    rw [hposts] at hne
    obtain ⟨row, hrow, hid⟩ := hs.known id hne
    exact ⟨f row, hrows ▸ List.mem_map_of_mem hrow, (hsame row hrow).id.trans hid⟩
  increasing id := hposts ▸ hs.increasing id
  within row' hrow' := by
    rw [hrows] at hrow'
    obtain ⟨row, hrow, rfl⟩ := List.mem_map.mp hrow'
    rw [hposts, (hsame row hrow).id, (hsame row hrow).maxAttempts]
    exact hs.within row hrow
  row row' hrow' := by
    rw [hrows] at hrow'
    obtain ⟨row, hrow, rfl⟩ := List.mem_map.mp hrow'
    rw [hposts, (hsame row hrow).id]
    exact hcount row hrow

/-- A step that neither sends nor asks for a claim. -/
theorem Hub.Counted.of_kept (hs : s.Counted) {f : DeliveryRow → DeliveryRow}
    (hrows : s'.deliveries = s.deliveries.map f) (hposts : s'.posts = s.posts)
    (hkept : ∀ row ∈ s.deliveries, row.Kept (f row))
    (hnow : ∀ row ∈ s.deliveries, Sending s row → ∀ e, row.claimExpiresAt = some e →
      s'.now < e) : s'.Counted := by
  refine hs.of_map hrows hposts (fun row hrow => (hkept row hrow).toSame) fun row hrow => ?_
  rcases hs.row row hrow with hle | hsending
  · exact .inl fun n hn => (hle n hn).trans (hkept row hrow).attempts
  · have hlive := hnow row hrow hsending
    obtain ⟨⟨post, hpost, hne, htoken⟩, e, he, -⟩ := hsending
    exact .inr ⟨⟨post, hposts ▸ hpost, hne, htoken.trans (hkept row hrow).claimToken.symm⟩, e,
      (hkept row hrow).claimExpiresAt.trans he, hlive e he⟩

/-- The claim statement takes no delivery that is under way. -/
theorem claimDueWebhookDeliveries_counted {start : ℤ} {locked : List ℕ} {name : String}
    (hkeyed : s.Keyed) (hs : s.Counted) (hstart : start ≤ s.now) :
    (claimDueWebhookDeliveries s start locked name).1.Counted := by
  refine hs.of_map rfl rfl (fun row hrow => ?_) fun row hrow => ?_
  · split <;> exact ⟨rfl, rfl, rfl⟩
  · split
    · next hmem =>
      obtain ⟨row', hrow', hid⟩ := List.mem_map.mp hmem
      obtain ⟨hin, hfree⟩ := of_mem_candidates hrow'
      obtain rfl := hkeyed.eq_of_id hin hrow hid
      refine .inl ((hs.row row' hrow).resolve_right ?_)
      rintro ⟨-, e, he, hlive⟩
      have hexpired := expired_of_claimable hfree he
      omega
    · exact hs.row row hrow

/-- An update under a claim leaves the row with all that was sent under it. -/
theorem updateClaimed_counted {f : DeliveryRow → DeliveryRow} (hs : s.Counted)
    (hc : Covers s d top) (hsame : ∀ row : DeliveryRow, row.Same (f row))
    (htop : ∀ row : DeliveryRow, d.row.attempts ≤ row.attempts → top ≤ (f row).attempts) :
    (s.updateClaimed d f).1.Counted := by
  refine hs.of_map rfl rfl (fun row _ => ?_) fun row hrow => ?_
  · split
    · exact hsame row
    · exact ⟨rfl, rfl, rfl⟩
  · split
    · next hheld =>
      have htoken : row.claimToken = some d.claimToken := by
        simp only [DeliveryRow.heldBy, Bool.and_eq_true, decide_eq_true_eq] at hheld
        exact hheld.2
      obtain ⟨-, hattempts, hnumbers⟩ := hc.rows row hrow htoken
      exact .inl fun n hn => (hnumbers n hn).trans (htop row hattempts)
    · exact hs.row row hrow

/-- A row put into the queue has a number that nothing was sent for. -/
theorem envStep_counted (hs : s.Counted) (h : envStep s a = some s')
    (hlapse : ∀ time, a = .elapse time → ∀ row ∈ s.deliveries, Sending s row →
      ∀ e, row.claimExpiresAt = some e → s.now + time < e) : s'.Counted := by
  have heq (hrows : s'.deliveries = s.deliveries) (hposts : s'.posts = s.posts)
      (hnow : ∀ row ∈ s.deliveries, Sending s row → ∀ e, row.claimExpiresAt = some e →
        s'.now < e) : s'.Counted :=
    hs.of_kept (f := id) (hrows.trans (List.map_id _).symm) hposts (fun row _ => .refl row) hnow
  have hlive : ∀ row ∈ s.deliveries, Sending s row → ∀ e, row.claimExpiresAt = some e →
      s.now < e := by
    rintro row _ ⟨-, e', he', hlt⟩ e he
    obtain rfl : e' = e := Option.some.inj (he'.symm.trans he)
    exact hlt
  unfold envStep at h
  split at h
  · split at h
    · cases h
      exact heq rfl rfl hlive
    · cases h
  · cases h
    exact heq rfl rfl hlive
  · cases h
    refine hs.of_kept rfl rfl (fun row _ => ?_) hlive
    split
    · exact ⟨⟨rfl, rfl, rfl⟩, rfl, rfl, rfl, rfl, le_rfl⟩
    · exact .refl row
  · next id webhookId event payload start =>
    split at h
    · next hnew =>
      cases h
      have hnone : numbersOf s.posts id = [] := by
        by_contra hne
        obtain ⟨row, hrow, hid⟩ := hs.known id hne
        exact hnew.1 row hrow hid
      refine ⟨fun id hne => ?_, hs.increasing, fun row hrow => ?_, fun row hrow => ?_⟩
      · obtain ⟨row, hrow, hid⟩ := hs.known id hne
        exact ⟨row, List.mem_append_left _ hrow, hid⟩
      · rcases List.mem_append.mp hrow with hold | hsingle
        · exact hs.within row hold
        · rw [List.mem_singleton.mp hsingle]
          exact fun n hn => absurd (hnone ▸ hn : n ∈ []) List.not_mem_nil
      · rcases List.mem_append.mp hrow with hold | hsingle
        · exact hs.row row hold
        · rw [List.mem_singleton.mp hsingle]
          exact .inl fun n hn => absurd (hnone ▸ hn : n ∈ []) List.not_mem_nil
    · cases h
  · next time =>
    cases h
    exact heq rfl rfl (hlapse time rfl)
  · cases h

/-- The request is the next attempt of its delivery. -/
theorem post_counted {url version : String} {expiresAt : ℤ} (hkeyed : s.Keyed) (hs : s.Counted)
    (hc : Covers s d d.row.attempts) (hheld : Held s d expiresAt) (hlive : s.now < expiresAt) :
    Hub.Counted { s with posts := s.posts ++
      [d.row.post url version (some (d.row.attempts + 1)) (some d.claimToken)] } := by
  obtain ⟨row, hrow, hid, htoken, e, he, hle⟩ := hheld hlive
  obtain ⟨hmax, hattempts, hnumbers⟩ := hc.rows row hrow htoken
  have hnew : numbersOf (s.posts ++
      [d.row.post url version (some (d.row.attempts + 1)) (some d.claimToken)]) row.id =
      numbersOf s.posts row.id ++ [d.row.attempts + 1] := by
    rw [numbersOf_append, RetryDeliveryRow.post, if_pos hid.symm]
    rfl
  have hother : ∀ id, id ≠ row.id → numbersOf (s.posts ++
      [d.row.post url version (some (d.row.attempts + 1)) (some d.claimToken)]) id =
      numbersOf s.posts id := by
    intro id hne
    rw [numbersOf_append, RetryDeliveryRow.post, if_neg (fun h => hne (h.symm.trans hid.symm))]
    exact List.append_nil _
  refine ⟨fun id hne => ?_, fun id => ?_, fun row' hrow' => ?_, fun row' hrow' => ?_⟩
  · by_cases hsame : id = row.id
    · exact ⟨row, hrow, hsame.symm⟩
    · exact hs.known id (hother id hsame ▸ hne)
  · by_cases hsame : id = row.id
    · subst hsame
      dsimp only
      rw [hnew]
      refine List.pairwise_append.mpr ⟨hs.increasing _, List.pairwise_singleton _ _, ?_⟩
      intro n hn m hm
      rw [List.mem_singleton.mp hm]
      exact Nat.lt_succ_of_le (hnumbers n hn)
    · dsimp only
      rw [hother id hsame]
      exact hs.increasing id
  · by_cases hsame : row'.id = row.id
    · obtain rfl := hkeyed.eq_of_id hrow' hrow hsame
      dsimp only
      rw [hnew]
      intro n hn
      rcases List.mem_append.mp hn with hold | hsingle
      · exact hs.within row' hrow n hold
      · rw [List.mem_singleton.mp hsingle]
        have hbudget := hc.budget
        omega
    · dsimp only
      rw [hother _ hsame]
      exact hs.within row' hrow'
  · by_cases hsame : row'.id = row.id
    · obtain rfl := hkeyed.eq_of_id hrow' hrow hsame
      exact .inr ⟨⟨_, List.mem_append_right _ (List.mem_singleton.mpr rfl), Option.some_ne_none _,
        htoken.symm⟩, e, he, hlive.trans_le hle⟩
    · dsimp only
      rw [hother _ hsame]
      rcases hs.row row' hrow' with hsettled | ⟨⟨post, hpost, hne, hto⟩, hclaim⟩
      · exact .inl hsettled
      · exact .inr ⟨⟨post, List.mem_append_left _ hpost, hne, hto⟩, hclaim⟩

theorem Worker.unsent_subset : ∀ d ∈ l.unsent, d ∈ l.claims := by
  cases l <;> first | exact fun _ h => h | exact fun _ h => List.mem_cons_of_mem _ h

theorem Worker.Counts.of_quiet (hc : l.Counts s) (hl : l.Sound owner s p) (h : Spares who s s')
    (hposts : s'.posts = s.posts) (hclaims : l'.claims.Sublist l.claims)
    (hunsent : ∀ d ∈ l'.unsent, d ∈ l.unsent)
    (hawaited : ∀ d, l'.awaited = some d → l.awaited = some d) : l'.Counts s' where
  distinct := hc.distinct.sublist (hclaims.map _)
  unsent d hd := (hc.unsent d (hunsent d hd)).mono h
    (hl.owned d (Worker.unsent_subset d (hunsent d hd))).used fun _ _ _ => by rw [hposts]
  awaited d hd := (hc.awaited d (hawaited d hd)).mono h
    (hl.owned d (Worker.mem_claims_of_awaited (hawaited d hd))).used fun _ _ _ => by rw [hposts]

theorem claimDueWebhookDeliveries_counts {start : ℤ} {locked : List ℕ} {name : String}
    (hkeyed : s.Keyed) (hs : s.Counted) (hstart : start ≤ s.now) :
    (Worker.processing (claimDueWebhookDeliveries s start locked name).2).Counts
      (claimDueWebhookDeliveries s start locked name).1 where
  distinct := by
    have hids : ((claimDueWebhookDeliveries s start locked name).2).map (·.row.id) =
        (s.candidates start locked).map (·.id) := List.map_map
    refine (congrArg List.Nodup hids).mpr ?_
    have htake := List.take_sublist claimBatch ((s.deliveries.filter fun row =>
      row.claimable start && !locked.contains row.id).insertionSort fun a b =>
        a.nextRetryAt.getD 0 ≤ b.nextRetryAt.getD 0)
    refine List.Nodup.sublist (htake.map _) ?_
    refine ((List.perm_insertionSort _ _).map _).nodup_iff.mpr ?_
    exact hkeyed.distinct.sublist (List.filter_sublist.map _)
  unsent d hd := by
    obtain ⟨row, hrow, rfl⟩ := List.mem_map.mp hd
    obtain ⟨hin, hfree⟩ := of_mem_candidates hrow
    have hbudget : row.attempts < row.maxAttempts := by
      simp only [DeliveryRow.claimable, Bool.and_eq_true, decide_eq_true_eq] at hfree
      exact hfree.1.2
    refine ⟨hbudget, fun row' hrow' htoken => ?_⟩
    obtain ⟨row₀, hrow₀, rfl⟩ := List.mem_map.mp hrow'
    have hsettled : ∀ n ∈ numbersOf s.posts row.id, n ≤ row.attempts := by
      refine (hs.row row hin).resolve_right ?_
      rintro ⟨-, e, he, hlive⟩
      have hexpired := expired_of_claimable hfree he
      omega
    split at htoken
    · next hmem =>
      have hid : row₀.id = row.id := congrArg Prod.snd (Option.some.inj htoken)
      obtain rfl := hkeyed.eq_of_id hrow₀ hin hid
      rw [if_pos hmem]
      exact ⟨rfl, le_rfl, hsettled⟩
    · exact absurd (hkeyed.token row₀ hrow₀ _ htoken).1 (lt_irrefl _)
  awaited := nofun

/-- A request counts for its own delivery alone. -/
theorem numbersOf_post {url version : String} {attempt : Option ℕ} {token : Option Token}
    (hne : id ≠ d.row.id) : numbersOf (posts ++ [d.row.post url version attempt token]) id =
      numbersOf posts id := by
  rw [numbersOf_append, RetryDeliveryRow.post, if_neg fun h => hne h.symm]
  exact List.append_nil _

/-- The rows of a tick's claims have the ids of these. -/
theorem Owned.id_of_token (hd : Owned owner s p d) (hkeyed : s.Keyed) (hrow : row ∈ s.deliveries)
    (htoken : row.claimToken = some d.claimToken) : row.id = d.row.id :=
  (hkeyed.token row hrow _ htoken).2.symm.trans hd.row

theorem post_counts {url version : String} {expiresAt : ℤ} {rest : List Claimed}
    (hkeyed : s.Keyed) (hl : (Worker.extended d url version expiresAt rest).Sound owner s p)
    (hc : (Worker.extended d url version expiresAt rest).Counts s) :
    (Worker.sent d expiresAt rest).Counts { s with posts := s.posts ++
      [d.row.post url version (some (d.row.attempts + 1)) (some d.claimToken)] } where
  distinct := hc.distinct
  unsent d' hd' := by
    have howned := hl.owned d' (List.mem_cons_of_mem _ hd')
    have hsame : Spares none s { s with posts := s.posts ++
      [d.row.post url version (some (d.row.attempts + 1)) (some d.claimToken)] } :=
      .of_eq le_rfl le_rfl (List.subset_append_left _ _) rfl
    refine (hc.unsent d' (List.mem_cons_of_mem _ hd')).mono hsame howned.used
      fun row hrow htoken => numbersOf_post fun heq => ?_
    have hid : d'.row.id = d.row.id := (howned.id_of_token hkeyed hrow htoken).symm.trans heq
    have hdistinct : d.row.id ∉ rest.map (·.row.id) := (List.nodup_cons.mp hc.distinct).1
    exact hdistinct (hid ▸ List.mem_map_of_mem hd')
  awaited d' hd' := by
    cases hd'
    have hcovers := hc.unsent d List.mem_cons_self
    refine ⟨hcovers.budget, fun row hrow htoken => ?_⟩
    obtain ⟨hmax, hattempts, hnumbers⟩ := hcovers.rows row hrow htoken
    refine ⟨hmax, hattempts, fun n hn => ?_⟩
    rw [numbersOf_append] at hn
    rcases List.mem_append.mp hn with hold | hnew
    · exact (hnumbers n hold).trans (Nat.le_succ _)
    · rw [Option.mem_toList] at hnew
      split at hnew
      · exact (Option.some.inj hnew).ge
      · cases hnew

theorem recorded_attempts {outcome : RetryOutcome} {status : Option ℕ} {body : Option String}
    {start : ℤ} (row : DeliveryRow) :
    (row.recorded d outcome status body start).attempts = d.row.attempts + 1 := by
  unfold DeliveryRow.recorded
  cases outcome <;> rfl

/-- A statement has been executed or not. -/
theorem Outcome.apply_of {α : Type} {r : Hub × α} {P : Hub → Prop} (o : Outcome) (h : P r.1)
    (h₀ : P s) : P (o.apply s r).1 := by
  cases o with
  | done => exact h
  | unanswered => exact h
  | failed => exact h₀

theorem tickStep_counted (hkeyed : s.Keyed) (hs : s.Counted) (hl : l.Sound owner s p)
    (hc : l.Counts s) (hstart : a.start.all (· ≤ s.now) = true)
    (hpost : ∀ d url version expiresAt rest, l = .extended d url version expiresAt rest →
      a = .post → s.now < expiresAt)
    (h : tickStep validUrl (owner p) s l a = some (s', l')) :
    s'.Counted ∧ l'.Counts s' ∧ (s'.posts = s.posts ∨
      ∃ d e, l.sending = some (d, e) ∧ s.now < e ∧
        ∀ id, id ≠ d.row.id → numbersOf s'.posts id = numbersOf s.posts id) := by
  obtain ⟨hspares, -⟩ := tickStep_sound hkeyed hl hstart h
  unfold tickStep at h
  split at h
  · next start locked o =>
    have hstart : start ≤ s.now := of_decide_eq_true hstart
    have hcounted : (o.apply s (claimDueWebhookDeliveries s start locked (owner p))).1.Counted :=
      o.apply_of (claimDueWebhookDeliveries_counted hkeyed hs hstart) hs
    have hposts : (o.apply s (claimDueWebhookDeliveries s start locked (owner p))).1.posts =
      s.posts := o.apply_of (P := fun t => t.posts = s.posts) rfl rfl
    dsimp only at h
    cases hbatch : (o.apply s (claimDueWebhookDeliveries s start locked (owner p))).2 with
    | none =>
      rw [hbatch] at h
      cases h
      exact ⟨hcounted, ⟨List.nodup_nil, nofun, nofun⟩, .inl hposts⟩
    | some batch =>
      obtain ⟨htables, rfl⟩ := Outcome.of_apply hbatch
      rw [hbatch] at h
      cases h
      refine ⟨hcounted, ?_, .inl hposts⟩
      rw [htables]
      exact claimDueWebhookDeliveries_counts hkeyed hs hstart
  · next d rest =>
    cases h
    refine ⟨hs, hc.of_quiet hl hspares rfl ?_ ?_ ?_, .inl rfl⟩
    · split <;> exact List.Sublist.refl _
    · split <;> exact fun _ h => h
    · split <;> exact nofun
  · next d rest o =>
    have hcounted : (o.apply s (s.updateClaimed d DeliveryRow.deadLettered)).1.Counted :=
      o.apply_of (updateClaimed_counted hs (hc.unsent d List.mem_cons_self)
        (fun _ => ⟨rfl, rfl, rfl⟩) fun _ hle => hle) hs
    have hposts : (o.apply s (s.updateClaimed d DeliveryRow.deadLettered)).1.posts = s.posts :=
      o.apply_of (P := fun t => t.posts = s.posts) rfl rfl
    cases h
    exact ⟨hcounted, hc.of_quiet hl hspares hposts (List.sublist_cons_self _ _)
      (fun _ h => List.mem_cons_of_mem _ h) nofun, .inl hposts⟩
  · next d url rest =>
    cases h
    exact ⟨hs, hc.of_quiet hl hspares rfl (List.Sublist.refl _) (fun _ h => h) nofun, .inl rfl⟩
  · next d url version rest start o =>
    have hcounted : (o.apply s (s.updateClaimed d
        (DeliveryRow.extended (start + webhookRetryClaimTtl)))).1.Counted :=
      o.apply_of (updateClaimed_counted hs (hc.unsent d List.mem_cons_self)
        (fun _ => ⟨rfl, rfl, rfl⟩) fun _ hle => hle) hs
    have hposts : (o.apply s (s.updateClaimed d
        (DeliveryRow.extended (start + webhookRetryClaimTtl)))).1.posts = s.posts :=
      o.apply_of (P := fun t => t.posts = s.posts) rfl rfl
    dsimp only at h
    split at h
    · cases h
      exact ⟨hcounted, hc.of_quiet hl hspares hposts (List.Sublist.refl _) (fun _ h => h) nofun,
        .inl hposts⟩
    · cases h
      exact ⟨hcounted, hc.of_quiet hl hspares hposts (List.sublist_cons_self _ _)
        (fun _ h => List.mem_cons_of_mem _ h) nofun, .inl hposts⟩
  · next d url version expiresAt rest =>
    have hlive := hpost d url version expiresAt rest rfl rfl
    cases h
    exact ⟨post_counted hkeyed hs (hc.unsent d List.mem_cons_self) (hl.held d expiresAt rfl) hlive,
      post_counts hkeyed hl hc, .inr ⟨d, expiresAt, rfl, hlive, fun id hne => numbersOf_post hne⟩⟩
  · next d expiresAt rest status body =>
    cases h
    exact ⟨hs, hc.of_quiet hl hspares rfl (List.Sublist.refl _) (fun _ h => h) (fun _ h => h),
      .inl rfl⟩
  · next d expiresAt status body rest start nanos o =>
    have hcounted : (o.apply s (s.updateClaimed d (DeliveryRow.recorded d (determineRetryOutcome
        nanos (isWebhookDeliverySuccess status) d.row.attempts d.row.maxAttempts)
          status body start))).1.Counted :=
      o.apply_of (updateClaimed_counted hs (hc.awaited d rfl) recorded_same
        fun row _ => (recorded_attempts row).ge) hs
    have hposts : (o.apply s (s.updateClaimed d (DeliveryRow.recorded d (determineRetryOutcome
        nanos (isWebhookDeliverySuccess status) d.row.attempts d.row.maxAttempts)
          status body start))).1.posts = s.posts :=
      o.apply_of (P := fun t => t.posts = s.posts) rfl rfl
    dsimp only at h
    split at h
    · cases h
      exact ⟨hcounted, hc.of_quiet hl hspares hposts (List.Sublist.refl _) (fun _ h => h) nofun,
        .inl hposts⟩
    · cases h
      exact ⟨hcounted, hc.of_quiet hl hspares hposts (List.sublist_cons_self _ _)
        (fun _ h => h) nofun, .inl hposts⟩
  · next d rest o =>
    have hcounted : (o.apply s
        (s.autoDisableWebhookForDeadLetter d.row.webhookId d.row.id, ())).1.Counted :=
      o.apply_of ⟨hs.known, hs.increasing, hs.within, hs.row⟩ hs
    have hposts : (o.apply s
        (s.autoDisableWebhookForDeadLetter d.row.webhookId d.row.id, ())).1.posts = s.posts :=
      o.apply_of (P := fun t => t.posts = s.posts) rfl rfl
    cases h
    exact ⟨hcounted,
      hc.of_quiet hl hspares hposts (List.sublist_cons_self _ _) (fun _ h => h) nofun,
      .inl hposts⟩
  · cases h
    exact ⟨hs, hc.of_quiet hl hspares rfl (List.nil_sublist _) nofun nofun, .inl rfl⟩
  · cases h

theorem numbersOf_resent (row : RetryDeliveryRow) (url version : String) (id : ℕ) :
    numbersOf (posts ++ [row.post url version none none]) id = numbersOf posts id := by
  rw [numbersOf_append, RetryDeliveryRow.post, ite_self]
  exact List.append_nil _

theorem resent_counted (hs : s.Counted) (row : RetryDeliveryRow) (url version : String) :
    Hub.Counted { s with posts := s.posts ++ [row.post url version none none] } where
  known id hne := hs.known id (numbersOf_resent row url version id ▸ hne)
  increasing id := (numbersOf_resent row url version id).symm ▸ hs.increasing id
  within row' hrow' := (numbersOf_resent row url version row'.id).symm ▸ hs.within row' hrow'
  row row' hrow' := by
    dsimp only
    rw [numbersOf_resent]
    rcases hs.row row' hrow' with hsettled | ⟨⟨post, hpost, hne, htoken⟩, hclaim⟩
    · exact .inl hsettled
    · exact .inr ⟨⟨post, List.mem_append_left _ hpost, hne, htoken⟩, hclaim⟩

theorem redeliverUpdate_counted {id : ℕ} {success : Bool} {status : Option ℕ}
    {body : Option String} {start : ℤ} (hs : s.Counted) :
    (s.redeliverUpdate id (DeliveryRow.redelivered success status body start)).Counted := by
  refine hs.of_kept rfl rfl (fun row _ => ?_) ?_
  · split
    · exact ⟨⟨rfl, rfl, rfl⟩, rfl, rfl, rfl, rfl, Nat.le_succ _⟩
    · exact .refl row
  · rintro row _ ⟨-, e', he', hlt⟩ e he
    obtain rfl : e' = e := Option.some.inj (he'.symm.trans he)
    exact hlt

/-- A request of `redeliver` has no number. -/
theorem redeliverStep_counted (hs : s.Counted) (h : redeliverStep validUrl s l a = some (s', l')) :
    s'.Counted ∧ l'.Counts s' ∧ ∀ id, numbersOf s'.posts id = numbersOf s.posts id := by
  have hnone : ∀ {t}, l'.claims = [] → l'.Counts t := fun {t} hclaims =>
    ⟨by rw [hclaims]; exact List.nodup_nil,
      fun d hd => absurd (hclaims ▸ Worker.unsent_subset d hd) List.not_mem_nil,
      fun d hd => absurd (hclaims ▸ Worker.mem_claims_of_awaited hd) List.not_mem_nil⟩
  have hclaims := (redeliverStep_spares h).2
  have hrest : s'.Counted ∧ ∀ id, numbersOf s'.posts id = numbersOf s.posts id := by
    unfold redeliverStep at h
    split at h
    · obtain ⟨l₀, -, heq⟩ := Option.map_eq_some_iff.mp h
      cases heq
      exact ⟨hs, fun _ => rfl⟩
    · cases h
      exact ⟨resent_counted hs _ _ _, numbersOf_resent _ _ _⟩
    · cases h
      exact ⟨hs, fun _ => rfl⟩
    · next row status body start o =>
      cases h
      exact o.apply_of (P := fun t => t.Counted ∧ ∀ id, numbersOf t.posts id = numbersOf s.posts id)
        ⟨redeliverUpdate_counted hs, fun _ => rfl⟩ ⟨hs, fun _ => rfl⟩
    · cases h
  exact ⟨hrest.1, hnone hclaims, hrest.2⟩

theorem envStep_posts (h : envStep s a = some s') : s'.posts = s.posts := by
  unfold envStep at h
  split at h
  · split at h
    · cases h; rfl
    · cases h
  · cases h; rfl
  · cases h; rfl
  · split at h
    · cases h; rfl
    · cases h
  · cases h; rfl
  · cases h

/-- A step of `p` leaves what the others count. -/
theorem step_counted (howner : Function.Injective owner) {w : World Hub Worker} {a : Label}
    (hkeyed : w.shared.Keyed) (hsound : ∀ q, (w.procs q).Sound owner w.shared q)
    (hs : w.shared.Counted) (hc : ∀ q, (w.procs q).Counts w.shared) (hok : Unlapsed w (p, a))
    (h : (retryProtocol validUrl owner).step p w.shared (w.procs p) a = some (s', l')) :
    s'.Counted ∧ l'.Counts s' ∧ ∀ q, q ≠ p → (w.procs q).Counts s' := by
  obtain ⟨who, hothers, hspares, hl'⟩ := step_sound howner hkeyed (hsound p) h
  have hframe (hnumbers : ∀ q, q ≠ p → ∀ d ∈ (w.procs q).claims, ∀ row ∈ w.shared.deliveries,
      row.claimToken = some d.claimToken →
        numbersOf s'.posts row.id = numbersOf w.shared.posts row.id) :
      ∀ q, q ≠ p → (w.procs q).Counts s' := fun q hq =>
    ⟨(hc q).distinct,
      fun d hd => ((hc q).unsent d hd).mono hspares
        ((hsound q).owned d (Worker.unsent_subset d hd)).used
        (hnumbers q hq d (Worker.unsent_subset d hd)),
      fun d hd => ((hc q).awaited d hd).mono hspares
        ((hsound q).owned d (Worker.mem_claims_of_awaited hd)).used
        (hnumbers q hq d (Worker.mem_claims_of_awaited hd))⟩
  have hsame (hposts : s'.posts = w.shared.posts) : ∀ q, q ≠ p → (w.procs q).Counts s' :=
    hframe fun _ _ _ _ _ _ _ => by rw [hposts]
  dsimp only [retryProtocol] at h
  split at h
  · next hstart =>
    rcases Option.or_eq_some_iff.mp h with henv | ⟨-, h⟩
    · obtain ⟨s₁, hs₁, heq⟩ := Option.map_eq_some_iff.mp henv
      cases heq
      have hposts := envStep_posts hs₁
      refine ⟨envStep_counted hs hs₁ ?_, (hc p).of_quiet (hsound p) hspares hposts
        (List.Sublist.refl _) (fun _ h => h) (fun _ h => h), hsame hposts⟩
      rintro time ha row hrow ⟨⟨post, hpost, hne, htoken⟩, -⟩
      exact hok.2 time ha row hrow post hpost hne htoken
    · rcases Option.or_eq_some_iff.mp h with htick | ⟨-, hredeliver⟩
      · obtain ⟨hcounted, hcounts, hposts⟩ := tickStep_counted hkeyed hs (hsound p) (hc p) hstart
          (fun d url version e rest hl ha => hok.1 d url version e rest hl ha) htick
        refine ⟨hcounted, hcounts, ?_⟩
        rcases hposts with hposts | ⟨d, e, hsending, hlive, hnumbers⟩
        · exact hsame hposts
        · refine hframe fun q hq d' hd' row hrow htoken => hnumbers row.id fun hid => hq ?_
          obtain ⟨row', hrow', hid', htoken', -⟩ := (hsound p).held d e hsending hlive
          obtain rfl : row = row' := hkeyed.eq_of_id hrow hrow' (hid.trans hid'.symm)
          have hby := ((hsound q).owned d' hd').own row hrow htoken
          have hby' := ((hsound p).owned d (Worker.mem_claims_of_sending hsending)).own row hrow
            htoken'
          exact howner (Option.some.inj (hby.symm.trans hby'))
      · obtain ⟨hcounted, hcounts, hnumbers⟩ := redeliverStep_counted hs hredeliver
        exact ⟨hcounted, hcounts, hframe fun _ _ _ _ row _ _ => hnumbers row.id⟩
  · cases h

/-- Where no claim lapses while its request is under way, the queue sends the attempts of a delivery
in order and each of them once, as many as the row allows at most, whatever is redelivered by hand
meanwhile. -/
theorem attempts_in_order (howner : Function.Injective owner) {w₀ w : World Hub Worker}
    (hrest : w₀.shared.AtRest) (hidle : ∀ p, w₀.procs p = .idle)
    (h : (retryProtocol validUrl owner).machine.Reach Unlapsed w₀ w) :
    ∀ row ∈ w.shared.deliveries, (numbersOf w.shared.posts row.id).Pairwise (· < ·) ∧
      (∀ n ∈ numbersOf w.shared.posts row.id, n ≤ row.maxAttempts) ∧
      (numbersOf w.shared.posts row.id).length ≤ row.maxAttempts := by
  have hstrong := h.strengthen fun t ht => sound_of_reach howner hrest hidle ht
  have hcounted := (Protocol.reach_rely_guarantee hstrong (I := Hub.Counted)
    (A := fun _ l s => l.Counts s) hrest.counted
    (fun p => by rw [hidle p]; exact ⟨List.nodup_nil, nofun, nofun⟩) (by
      intro w p a s' l' hs hA hok hstep
      obtain ⟨hlapse, hkeyed, hsound⟩ := hok
      exact step_counted howner hkeyed hsound hs hA hlapse hstep)).1
  intro row hrow
  have hincreasing := hcounted.increasing row.id
  have hwithin := hcounted.within row hrow
  refine ⟨hincreasing, fun n hn => (hwithin n hn).2, ?_⟩
  have hnodup : (numbersOf w.shared.posts row.id).Nodup := hincreasing.imp Nat.ne_of_lt
  have hsub : numbersOf w.shared.posts row.id ⊆ List.range' 1 row.maxAttempts := fun n hn => by
    have hn := hwithin n hn
    rw [List.mem_range'_1]
    omega
  have hle := (List.subperm_of_subset hnodup hsub).length_le
  rwa [List.length_range'] at hle

/-- The first attempt fails; the second one is sent by another replica. -/
def retriedLabels : List (ℕ × Label) :=
  [(0, .claim 0 [] .done), (0, .lookup), (0, .version), (0, .extend 0 .done), (0, .post),
    (0, .answer (some 503) none), (0, .record 0 0 .done), (0, .elapse 36000),
    (1, .claim 36000 [] .done), (1, .lookup), (1, .version), (1, .extend 36000 .done), (1, .post)]

theorem attempts_in_order_retried :
    ∃ w row, (retryProtocol (fun _ => true) hostName).machine.run dueStart retriedLabels = some w ∧
      row ∈ w.shared.deliveries ∧ numbersOf w.shared.posts row.id = [1, 2] ∧
      (numbersOf w.shared.posts row.id).length ≤ row.maxAttempts := by
  have hrun : ∃ w row, (retryProtocol (fun _ => true) hostName).machine.run dueStart
      retriedLabels = some w ∧ w.shared.deliveries = [row] ∧
        numbersOf w.shared.posts row.id = [1, 2] := ⟨_, _, rfl, rfl, rfl⟩
  obtain ⟨w, row, hrun, hrows, hnumbers⟩ := hrun
  have hrow : row ∈ w.shared.deliveries := hrows ▸ List.mem_singleton.mpr rfl
  refine ⟨w, row, hrun, hrow, hnumbers, ?_⟩
  refine (attempts_in_order hostName_injective dueStart_atRest (fun _ => rfl)
    (reach_of_run retriedLabels hrun ?_) row hrow).2.2
  refine ⟨?_, ?_, ?_, ?_, ?_, ?_, ?_, ?_, ?_, ?_, ?_, ?_, ?_, trivial⟩
  all_goals refine ⟨fun d url version e rest hl ha => ?_,
    fun time ha row hrow post _ hne htoken => ?_⟩
  all_goals cases ha
  · cases hl
    decide
  · obtain rfl := List.mem_singleton.mp hrow
    exact absurd htoken hne
  · cases hl
    decide

end ArtifactKeeper.Webhooks
