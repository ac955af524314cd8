import ArtifactKeeper.Machine
import ArtifactKeeper.Text
import Mathlib.Algebra.Order.Ring.Int
import Mathlib.Order.Nat

/-! The durable leases of `cluster_work.rs` for one job. A statement is sent with the `NOW()` of its
transaction and executed later; its answer may be lost. -/

namespace ArtifactKeeper.ClusterWork
open Machine

/-- A row of `scheduler_leases`. Tokens are drawn without repetition. -/
structure LeaseRow where
  ownerId : String
  claimToken : ℕ
  leaseExpiresAt : ℤ
  deriving DecidableEq, Repr

structure SchedulerLease where
  claimToken : ℕ
  leaseExpiresAt : ℤ
  deriving DecidableEq, Repr

structure Leases where
  row : Option LeaseRow
  nextToken : ℕ
  now : ℤ
  deriving DecidableEq, Repr

/-- A process, with the statement that it has sent. -/
inductive Worker where
  | idle
  | acquiring (startedAt ttl : ℤ)
  | holding (lease : SchedulerLease)
  | renewing (lease : SchedulerLease) (startedAt ttl : ℤ)
  | releasing (lease : SchedulerLease) (startedAt : ℤ)
  deriving DecidableEq, Repr

inductive LeaseAction where
  | acquire (ttl : ℤ)
  | renew (ttl : ℤ)
  | release
  /-- The statement is executed; without an answer the call returns an error. -/
  | execute (answered : Bool)
  /-- The statement is not executed. -/
  | fail
  /-- The lease is dropped, or the process dies. -/
  | drop
  | tick (d : ℕ)
  deriving DecidableEq, Repr

/-- `INSERT … ON CONFLICT (job_name) DO UPDATE … WHERE`. -/
def tryAcquire (s : Leases) (ownerId : String) (startedAt ttl : ℤ) :
    Leases × Option SchedulerLease :=
  let taken := (⟨{ s with
      row := some ⟨ownerId, s.nextToken, startedAt + ttl⟩
      nextToken := s.nextToken + 1 }, some ⟨s.nextToken, startedAt + ttl⟩⟩ :
    Leases × Option SchedulerLease)
  match s.row with
  | none => taken
  | some row => if row.leaseExpiresAt ≤ startedAt ∨ row.ownerId = ownerId then taken else (s, none)

/-- `UPDATE … SET lease_expires_at WHERE claim_token`, with whether a row was there. -/
def setExpiry (s : Leases) (token : ℕ) (expiresAt : ℤ) : Leases × Bool :=
  match s.row with
  | some row =>
    if row.claimToken = token then
      ({ s with row := some { row with leaseExpiresAt := expiresAt } }, true)
    else (s, false)
  | none => (s, false)

def leaseStep (ownerId : String) (s : Leases) : Worker → LeaseAction → Option (Leases × Worker)
  | .idle, .acquire ttl => some (s, .acquiring s.now ttl)
  | .acquiring startedAt ttl, .execute answered =>
    let (s', lease) := tryAcquire s ownerId startedAt ttl
    match lease with
    | some lease => some (s', if answered then .holding lease else .idle)
    | none => some (s', .idle)
  | .holding lease, .renew ttl => some (s, .renewing lease s.now ttl)
  | .renewing lease startedAt ttl, .execute answered =>
    let (s', renewed) := setExpiry s lease.claimToken (startedAt + ttl)
    if !answered then some (s', .holding lease)
    else if renewed then some (s', .holding { lease with leaseExpiresAt := startedAt + ttl })
    else some (s', .idle)
  | .holding lease, .release => some (s, .releasing lease s.now)
  | .releasing lease startedAt, .execute _ =>
    some ((setExpiry s lease.claimToken startedAt).1, .idle)
  | .acquiring _ _, .fail => some (s, .idle)
  | .renewing lease _ _, .fail => some (s, .holding lease)
  | .releasing _ _, .fail => some (s, .idle)
  | _, .drop => some (s, .idle)
  | l, .tick d => some ({ s with now := s.now + d }, l)
  | _, _ => none

/-- Process `p` calls itself `owner p`. -/
def leaseProtocol (owner : ℕ → String) : Protocol Leases Worker LeaseAction where
  step p s l a := leaseStep (owner p) s l a

/-- The lease of a process that is not giving it back. -/
def Worker.lease : Worker → Option SchedulerLease
  | .holding lease => some lease
  | .renewing lease _ _ => some lease
  | _ => none

/-- A renewal does not end before the lease that it renews. -/
def Extending (w : World Leases Worker) (a : ℕ × LeaseAction) : Prop :=
  ∀ lease ttl, w.procs a.1 = .holding lease → a.2 = .renew ttl →
    lease.leaseExpiresAt ≤ w.shared.now + ttl

variable {owner : ℕ → String} {s s' : Leases} {p q : ℕ} {l : SchedulerLease}

/-- A token that only `p` was given. -/
structure Named (owner : ℕ → String) (s : Leases) (p token : ℕ) : Prop where
  used : token < s.nextToken
  own : ∀ row, s.row = some row → row.claimToken = token → row.ownerId = owner p

/-- Until the lease of `p` expires the row is `p`'s, and lasts at least as long. -/
def Backed (owner : ℕ → String) (s : Leases) (p : ℕ) (l : SchedulerLease) : Prop :=
  s.now < l.leaseExpiresAt →
    ∃ row, s.row = some row ∧ row.ownerId = owner p ∧ l.leaseExpiresAt ≤ row.leaseExpiresAt

def Worker.Sound (owner : ℕ → String) (s : Leases) (p : ℕ) : Worker → Prop
  | .idle => True
  | .acquiring startedAt _ => startedAt ≤ s.now
  | .holding l => Named owner s p l.claimToken ∧ Backed owner s p l
  | .renewing l startedAt ttl =>
    Named owner s p l.claimToken ∧ Backed owner s p l ∧ l.leaseExpiresAt ≤ startedAt + ttl
  | .releasing l _ => Named owner s p l.claimToken

/-- What one statement of `q` leaves of the others. -/
structure Spares (owner : ℕ → String) (s s' : Leases) (q : ℕ) : Prop where
  now : s.now ≤ s'.now
  nextToken : s.nextToken ≤ s'.nextToken
  row : s'.row = s.row ∨ ∃ row', s'.row = some row' ∧ row'.ownerId = owner q ∧
    (row'.claimToken = s.nextToken ∨
      ∃ row, s.row = some row ∧ row'.claimToken = row.claimToken ∧ row.ownerId = owner q) ∧
    ∀ row, s.row = some row → row.leaseExpiresAt ≤ s.now ∨ row.ownerId = owner q

theorem Spares.named (h : Spares owner s s' q) {token : ℕ} (hn : Named owner s p token) :
    Named owner s' p token where
  used := hn.used.trans_le h.nextToken
  own row' hrow htoken := by
    rcases h.row with heq | ⟨row'', hrow'', howner, hnew | ⟨row, hold, hsame, hown⟩, -⟩
    · exact hn.own row' (heq ▸ hrow) htoken
    · obtain rfl : row' = row'' := Option.some.inj (hrow.symm.trans hrow'')
      exact absurd hn.used (by omega)
    · obtain rfl : row' = row'' := Option.some.inj (hrow.symm.trans hrow'')
      rw [howner, ← hown]
      exact hn.own row hold (hsame.symm.trans htoken)

theorem Spares.backed (h : Spares owner s s' q) (hne : s'.row = s.row ∨ owner q ≠ owner p)
    (hb : Backed owner s p l) : Backed owner s' p l := by
  intro hlive
  obtain ⟨row, hrow, howner, hle⟩ := hb (h.now.trans_lt hlive)
  have hsame : s'.row = s.row := by
    rcases h.row with heq | ⟨row', -, -, -, hfree⟩
    · exact heq
    · refine hne.resolve_right fun hne => ?_
      have hnow := h.now
      rcases hfree row hrow with hexpired | hown
      · omega
      · exact hne (hown.symm.trans howner)
  exact ⟨row, hsame.trans hrow, howner, hle⟩

theorem Spares.sound (h : Spares owner s s' q) (hne : s'.row = s.row ∨ owner q ≠ owner p)
    {w : Worker}
    (hw : w.Sound owner s p) : w.Sound owner s' p := by
  cases w with
  | idle => trivial
  | acquiring startedAt ttl =>
    have hle : startedAt ≤ s.now := hw
    exact hle.trans h.now
  | holding l => exact ⟨h.named hw.1, h.backed hne hw.2⟩
  | renewing l startedAt ttl => exact ⟨h.named hw.1, h.backed hne hw.2.1, hw.2.2⟩
  | releasing l startedAt => exact h.named hw

theorem Spares.refl (s : Leases) (q : ℕ) : Spares owner s s q := ⟨le_rfl, le_rfl, .inl rfl⟩

/-- The answer of the statement that claims the lease. -/
theorem tryAcquire_spec {startedAt ttl : ℤ} (hstart : startedAt ≤ s.now) :
    Spares owner s (tryAcquire s (owner p) startedAt ttl).1 p ∧
      ∀ l ∈ (tryAcquire s (owner p) startedAt ttl).2,
        Named owner (tryAcquire s (owner p) startedAt ttl).1 p l.claimToken ∧
          Backed owner (tryAcquire s (owner p) startedAt ttl).1 p l := by
  have htaken : (∀ row, s.row = some row → row.leaseExpiresAt ≤ s.now ∨ row.ownerId = owner p) →
      Spares owner s { s with
          row := some ⟨owner p, s.nextToken, startedAt + ttl⟩
          nextToken := s.nextToken + 1 } p ∧
        ∀ l ∈ some (⟨s.nextToken, startedAt + ttl⟩ : SchedulerLease),
          Named owner { s with
              row := some ⟨owner p, s.nextToken, startedAt + ttl⟩
              nextToken := s.nextToken + 1 } p l.claimToken ∧
            Backed owner { s with
              row := some ⟨owner p, s.nextToken, startedAt + ttl⟩
              nextToken := s.nextToken + 1 } p l := by
    intro hfree
    refine ⟨⟨le_rfl, Nat.le_succ _, .inr ⟨_, rfl, rfl, .inl rfl, hfree⟩⟩, ?_⟩
    rintro l ⟨⟩
    exact ⟨⟨Nat.lt_succ_self _, fun row hrow _ => by cases hrow; rfl⟩,
      fun _ => ⟨_, rfl, rfl, le_rfl⟩⟩
  unfold tryAcquire
  dsimp only
  split
  · next hnone => exact htaken fun row hrow => by cases hnone.symm.trans hrow
  · next row hrow =>
    split
    · next hfree =>
      refine htaken fun row' hrow' => ?_
      obtain rfl : row' = row := Option.some.inj (hrow'.symm.trans hrow)
      exact hfree.imp_left fun h => h.trans hstart
    · exact ⟨Spares.refl s p, fun l hl => by cases hl⟩

/-- A statement that names its token changes the row of the process it was given to. -/
theorem setExpiry_spec {token : ℕ} {expiresAt : ℤ} (hn : Named owner s p token) :
    Spares owner s (setExpiry s token expiresAt).1 p := by
  unfold setExpiry
  split
  · next row hrow =>
    split
    · next htoken =>
      have hown := hn.own row hrow htoken
      refine ⟨le_rfl, le_rfl, .inr ⟨_, rfl, hown, .inr ⟨row, hrow, rfl, hown⟩, ?_⟩⟩
      intro row' hrow'
      obtain rfl : row' = row := Option.some.inj (hrow'.symm.trans hrow)
      exact .inr hown
    · exact Spares.refl s p
  · exact Spares.refl s p

theorem setExpiry_backed {token : ℕ} {expiresAt : ℤ} (hn : Named owner s p token)
    (hb : Backed owner s p l) (hle : l.leaseExpiresAt ≤ expiresAt) :
    Backed owner (setExpiry s token expiresAt).1 p l := by
  unfold setExpiry
  split
  · next row hrow =>
    split
    · next htoken => exact fun _ => ⟨_, rfl, hn.own row hrow htoken, hle⟩
    · exact hb
  · exact hb

theorem setExpiry_renewed {token : ℕ} {expiresAt : ℤ} (hn : Named owner s p token)
    (h : (setExpiry s token expiresAt).2 = true) :
    Backed owner (setExpiry s token expiresAt).1 p ⟨token, expiresAt⟩ := by
  unfold setExpiry at h ⊢
  split at h
  · next row hrow =>
    split at h
    · next htoken =>
      rw [if_pos htoken]
      exact fun _ => ⟨_, rfl, hn.own row hrow htoken, le_rfl⟩
    · cases h
  · cases h

/-- A step of `p` spares the others, and `p` stays sound. -/
theorem leaseStep_sound {w w' : Worker} {a : LeaseAction} (hw : w.Sound owner s p)
    (hok : ∀ l ttl, w = .holding l → a = .renew ttl → l.leaseExpiresAt ≤ s.now + ttl)
    (h : leaseStep (owner p) s w a = some (s', w')) :
    Spares owner s s' p ∧ w'.Sound owner s' p := by
  unfold leaseStep at h
  split at h
  · cases h
    exact ⟨Spares.refl s p, Int.le_refl s.now⟩
  · next startedAt ttl answered =>
    obtain ⟨hspares, hlease⟩ := @tryAcquire_spec owner _ p _ ttl hw
    split at h
    next s₁ lease heq =>
    rw [heq] at hspares hlease
    split at h
    · next lease' =>
      cases h
      refine ⟨hspares, ?_⟩
      cases answered
      · trivial
      · exact hlease _ rfl
    · cases h
      exact ⟨hspares, trivial⟩
  · next lease ttl =>
    cases h
    exact ⟨Spares.refl s p, hw.1, hw.2, hok _ _ rfl rfl⟩
  · next lease startedAt ttl answered =>
    obtain ⟨hn, hb, hle⟩ := hw
    have hspares := @setExpiry_spec owner _ p _ (startedAt + ttl) hn
    have hbacked := setExpiry_backed hn hb hle
    have hrenewed := @setExpiry_renewed owner _ p _ (startedAt + ttl) hn
    split at h
    next s₁ renewed heq =>
    rw [heq] at hspares hbacked hrenewed
    split at h
    · cases h
      exact ⟨hspares, hspares.named hn, hbacked⟩
    · split at h
      · next htrue =>
        cases h
        exact ⟨hspares, hspares.named hn, hrenewed htrue⟩
      · cases h
        exact ⟨hspares, trivial⟩
  · cases h
    exact ⟨Spares.refl s p, hw.1⟩
  · cases h
    exact ⟨setExpiry_spec hw, trivial⟩
  · cases h
    exact ⟨Spares.refl s p, trivial⟩
  · cases h
    exact ⟨Spares.refl s p, hw.1, hw.2.1⟩
  · cases h
    exact ⟨Spares.refl s p, trivial⟩
  · cases h
    exact ⟨Spares.refl s p, trivial⟩
  · next d =>
    cases h
    have hspares : Spares owner s { s with now := s.now + d } p :=
      ⟨Int.le_add_of_nonneg_right (Int.natCast_nonneg d), le_rfl, .inl rfl⟩
    exact ⟨hspares, hspares.sound (.inl rfl) hw⟩
  · cases h

/-- Until its lease expires a process is the only one that holds a lease that has not expired, and
the row says so, whatever statements are lost, late or unanswered. -/
theorem lease_exclusive (howner : Function.Injective owner) {w₀ w : World Leases Worker}
    (hstart : ∀ p, w₀.procs p = .idle)
    (h : (leaseProtocol owner).machine.Reach Extending w₀ w) (hl : (w.procs p).lease = some l)
    (hlive : w.shared.now < l.leaseExpiresAt) :
    (∃ row, w.shared.row = some row ∧ row.ownerId = owner p ∧
      l.leaseExpiresAt ≤ row.leaseExpiresAt) ∧
    ∀ q l', (w.procs q).lease = some l' → w.shared.now < l'.leaseExpiresAt → q = p := by
  have hsound := (Protocol.reach_rely_guarantee h (I := fun _ => True)
    (A := fun p w s => w.Sound owner s p) trivial (fun p => by rw [hstart p]; trivial) (by
      intro w p a s' w' _ hA hok hs
      obtain ⟨hspares, hw'⟩ := leaseStep_sound (hA p) hok hs
      exact ⟨trivial, hw', fun q hq =>
        hspares.sound (.inr fun heq => hq (howner heq).symm) (hA q)⟩)).2
  have hbacked : ∀ q l', (w.procs q).lease = some l' → Backed owner w.shared q l' := by
    intro q l' hl'
    have hq := hsound q
    cases hw : w.procs q with
    | holding lease =>
      rw [hw] at hq hl'
      cases hl'
      exact hq.2
    | renewing lease startedAt ttl =>
      rw [hw] at hq hl'
      cases hl'
      exact hq.2.1
    | _ => rw [hw] at hl'; cases hl'
  obtain ⟨row, hrow, hown, hle⟩ := hbacked p l hl hlive
  refine ⟨⟨row, hrow, hown, hle⟩, fun q l' hl' hlive' => ?_⟩
  obtain ⟨row', hrow', hown', -⟩ := hbacked q l' hl' hlive'
  obtain rfl : row' = row := Option.some.inj (hrow'.symm.trans hrow)
  exact howner (hown'.symm.trans hown)

def hostName (p : ℕ) : String := String.ofList (Text.decimal p)

theorem hostName_injective : Function.Injective hostName :=
  fun _ _ h => Text.decimal_injective (String.ofList_injective h)

def idleWorkers : World Leases Worker := ⟨⟨none, 0, 0⟩, fun _ => .idle⟩

/-- The first process takes the lease while the other asks for it, and renews it. -/
def contendedLabels : List (ℕ × LeaseAction) :=
  [(0, .acquire 30), (1, .acquire 30), (0, .execute true), (1, .execute true), (0, .tick 20),
    (0, .renew 30), (0, .execute true), (0, .tick 20)]

theorem lease_exclusive_contended :
    ∃ w, (leaseProtocol hostName).machine.run idleWorkers contendedLabels = some w ∧
      (w.procs 0).lease = some ⟨0, 50⟩ ∧ w.shared.now < 50 ∧
      (∃ row, w.shared.row = some row ∧ row.ownerId = hostName 0 ∧ 50 ≤ row.leaseExpiresAt) ∧
      ∀ q l', (w.procs q).lease = some l' → w.shared.now < l'.leaseExpiresAt → q = 0 := by
  have hrun : ∃ w, (leaseProtocol hostName).machine.run idleWorkers contendedLabels = some w ∧
      (w.procs 0).lease = some ⟨0, 50⟩ ∧ w.shared.now = 40 := ⟨_, rfl, rfl, rfl⟩
  obtain ⟨w, hrun, hlease, hnow⟩ := hrun
  refine ⟨w, hrun, hlease, hnow ▸ by decide, ?_⟩
  refine lease_exclusive (l := ⟨0, 50⟩) hostName_injective (fun _ => rfl)
    (reach_of_run contendedLabels hrun ?_) hlease (hnow ▸ by decide)
  refine ⟨?_, ?_, ?_, ?_, ?_, ?_, ?_, ?_, trivial⟩
  all_goals rintro lease ttl hphase hlabel
  all_goals cases hlabel
  cases hphase
  decide

end ArtifactKeeper.ClusterWork
