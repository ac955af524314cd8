import ArtifactKeeper.Machine
import ArtifactKeeper.Auth.Claims

/-! The credential-change watermark of one replica: the in-memory map, its 5 s use as a cache of
the database timestamps, and the check `is_token_invalidated_replica_safe` built on both. -/

namespace ArtifactKeeper.Auth

/-- The credential columns of a `users` row; instants in microseconds of the database clock. -/
structure CredentialRow where
  passwordChangedAt : ℤ
  totpVerifiedAt : Option ℤ
  privilegesChangedAt : ℤ
  isActive : Bool
  deriving DecidableEq, Repr

/-- `GREATEST(password_changed_at, COALESCE(totp_verified_at, password_changed_at), …)`. -/
def CredentialRow.greatest (r : CredentialRow) : ℤ :=
  max (max r.passwordChangedAt (r.totpVerifiedAt.getD r.passwordChangedAt)) r.privilegesChangedAt

def credentialDbClockSkewToleranceMs : ℤ := 2000
def invalidationRetentionMs : ℤ := 7 * 24 * 3600 * 1000
def credentialDbCacheTtlSecs : ℕ := 5

def applyDbClockSkewTolerance (dbWatermarkMs : ℤ) : ℤ :=
  saturate (dbWatermarkMs - credentialDbClockSkewToleranceMs)

/-- The watermark that a read of this row yields, in milliseconds. -/
def CredentialRow.watermark (r : CredentialRow) : ℤ :=
  applyDbClockSkewTolerance (r.greatest / 1000)

/-- One replica and the database it reads: wall and monotonic clock in milliseconds, the map of
`(watermark, recorded)` entries, and the watermarks that calls in flight have read but not yet
written to the map. -/
structure Replica where
  wallMs : ℤ
  monoMs : ℕ
  map : Uuid → Option (ℤ × ℕ)
  db : Uuid → Option CredentialRow
  reads : List (Uuid × ℤ)

namespace Replica

/-- Insert or raise the entry of `userId`, never lower it. -/
def raise (s : Replica) (userId : Uuid) (watermarkMs : ℤ) : ℤ × ℕ :=
  match s.map userId with
  | some e => if e.1 < watermarkMs then (watermarkMs, s.monoMs) else e
  | none => (watermarkMs, s.monoMs)

/-- `invalidate_user_tokens_at`: raise one entry, then drop every entry past retention. -/
def invalidateUserTokensAt (s : Replica) (userId : Uuid) (watermarkMs : ℤ) : Replica :=
  { s with map := fun v =>
      (Function.update s.map userId (some (s.raise userId watermarkMs)) v).filter fun e =>
        decide (s.wallMs - invalidationRetentionMs < e.1) }

def invalidateUserTokens (s : Replica) (userId : Uuid) : Replica :=
  s.invalidateUserTokensAt userId s.wallMs

def invalidateUserTokensExceptCaller (s : Replica) (userId : Uuid) (callerIatMs : ℤ) : Replica :=
  s.invalidateUserTokensAt userId (saturate (callerIatMs - 1))

/-- The entry of `userId` when it is younger than the cache lifetime. -/
def freshEntry (s : Replica) (userId : Uuid) : Option ℤ :=
  match s.map userId with
  | some (changedAt, recorded) =>
    if (s.monoMs - recorded) / 1000 < credentialDbCacheTtlSecs then some changedAt else none
  | none => none

/-- `fetch_credential_change_watermark`: `(watermark, is_active)`, and the replica after it. -/
def fetchCredentialChangeWatermark (s : Replica) (userId : Uuid) : Option (ℤ × Bool) × Replica :=
  match s.freshEntry userId with
  | some changedAt => (some (changedAt, true), s)
  | none =>
    match s.db userId with
    | none => (none, s)
    | some r => (some (r.watermark, r.isActive),
        if r.isActive then s.invalidateUserTokensAt userId r.watermark else s)

def isTokenInvalidatedReplicaSafe (s : Replica) (userId : Uuid) (issuedAtMs : ℤ) : Bool × Replica :=
  match s.fetchCredentialChangeWatermark userId with
  | (some (watermark, isActive), s') => (!isActive || decide (issuedAtMs < watermark), s')
  | (none, s') => (false, s')

end Replica

/-- No timestamp of the row goes back, and the user stays active. -/
def CredentialRow.laterThan (r r' : CredentialRow) : Bool :=
  decide (r.passwordChangedAt ≤ r'.passwordChangedAt) &&
  decide (r.privilegesChangedAt ≤ r'.privilegesChangedAt) &&
  r.totpVerifiedAt.all (fun t => r'.totpVerifiedAt.any fun t' => decide (t ≤ t')) &&
  r.isActive == r'.isActive

/-- What can happen between two checks: time passes; this replica invalidates tokens of a user;
the database row of a user gets later timestamps (from this replica or another one); a check runs
to its end; or a check reads the database now and writes the map later. -/
inductive ReplicaAction where
  | tick (wall mono : ℕ)
  | invalidate (userId : Uuid)
  | invalidateExceptCaller (userId : Uuid) (callerIatMs : ℤ)
  | credentialChange (userId : Uuid) (row : CredentialRow)
  | check (userId : Uuid) (issuedAtMs : ℤ)
  | readDb (userId : Uuid)
  | writeBack (userId : Uuid) (watermarkMs : ℤ)
  deriving DecidableEq, Repr

def replicaMachine : Machine Replica ReplicaAction where
  step s
    | .tick wall mono => some { s with wallMs := s.wallMs + wall, monoMs := s.monoMs + mono }
    | .invalidate u => some (s.invalidateUserTokens u)
    | .invalidateExceptCaller u iat => some (s.invalidateUserTokensExceptCaller u iat)
    | .credentialChange u row =>
      match s.db u with
      | some r => if r.laterThan row then
          some { s with db := Function.update s.db u (some row) } else none
      | none => none
    | .check u iat => some (s.isTokenInvalidatedReplicaSafe u iat).2
    | .readDb u =>
      match s.freshEntry u, s.db u with
      | none, some r => if r.isActive then some { s with reads := (u, r.watermark) :: s.reads }
          else none
      | _, _ => none
    | .writeBack u w =>
      if (u, w) ∈ s.reads then
        some { s.invalidateUserTokensAt u w with reads := s.reads.erase (u, w) }
      else none

/-- The map cannot answer for a watermark at or below `iat`: the entry of `u` is above it, or there
is none and an entry that low would not survive the retention. -/
def MapAbove (u : Uuid) (iat : ℤ) (s : Replica) : Prop :=
  match s.map u with
  | some e => iat < e.1
  | none => iat < s.wallMs - invalidationRetentionMs

/-- The database row of `u` is active and its watermark is above `iat`. -/
def DbAbove (u : Uuid) (iat : ℤ) (s : Replica) : Prop :=
  ∃ r, s.db u = some r ∧ r.isActive = true ∧ iat < r.watermark

theorem saturate_mono {x y : ℤ} (h : x ≤ y) : saturate x ≤ saturate y := by
  unfold saturate
  omega

theorem CredentialRow.laterThan_watermark {r r' : CredentialRow} (h : r.laterThan r' = true) :
    r.watermark ≤ r'.watermark ∧ r'.isActive = r.isActive := by
  simp only [laterThan, Bool.and_eq_true, decide_eq_true_eq, beq_iff_eq] at h
  obtain ⟨⟨⟨hp, hv⟩, ht⟩, ha⟩ := h
  have hg : r.greatest ≤ r'.greatest := by
    unfold greatest
    cases hr : r.totpVerifiedAt with
    | none => cases r'.totpVerifiedAt <;> simp <;> omega
    | some t =>
      cases hr' : r'.totpVerifiedAt with
      | none => simp [hr, hr'] at ht
      | some t' =>
        simp only [hr, hr', Option.all_some, Option.any_some, decide_eq_true_eq] at ht
        simp only [Option.getD_some]
        omega
  refine ⟨saturate_mono ?_, ha.symm⟩
  omega

/-- An entry above `iat` leaves the map above `iat` whether or not it survives the retention. -/
theorem mapAbove_filter {u : Uuid} {iat : ℤ} {s : Replica} {e : ℤ × ℕ}
    (hmap : s.map u = (some e).filter fun e => decide (s.wallMs - invalidationRetentionMs < e.1))
    (he : iat < e.1) : MapAbove u iat s := by
  unfold MapAbove
  by_cases hkeep : s.wallMs - invalidationRetentionMs < e.1
  · simp only [hmap, Option.filter_some, hkeep, decide_true, if_true]
    exact he
  · simp only [hmap, Option.filter_some, hkeep, decide_false, Bool.false_eq_true, if_false]
    omega

/-- Raising entries, of any user and to any value, keeps the map above `iat`. -/
theorem invalidateUserTokensAt_mapAbove {u : Uuid} {iat : ℤ} {s : Replica}
    (h : MapAbove u iat s) (v : Uuid) (w : ℤ) : MapAbove u iat (s.invalidateUserTokensAt v w) := by
  by_cases hv : u = v
  · subst hv
    by_cases hw : iat < (s.raise u w).1
    · exact mapAbove_filter (by simp [Replica.invalidateUserTokensAt]; rfl) hw
    · -- nothing above `iat` was there before, so the new entry falls to the retention
      cases hm : s.map u with
      | some e =>
        simp only [MapAbove, hm] at h
        simp only [Replica.raise, hm] at hw
        split at hw
        · next hlt => exact absurd (h.trans hlt) hw
        · exact absurd h hw
      | none =>
        simp only [MapAbove, hm] at h
        simp only [Replica.raise, hm] at hw
        have hdrop : ¬ s.wallMs - invalidationRetentionMs < w := by omega
        simpa [MapAbove, Replica.invalidateUserTokensAt, Replica.raise, hm,
          Option.filter_some, hdrop] using h
  · cases hm : s.map u with
    | some e =>
      simp only [MapAbove, hm] at h
      exact mapAbove_filter (by simp [Replica.invalidateUserTokensAt, hv, hm]; rfl) h
    | none =>
      simp only [MapAbove, hm] at h
      simpa [MapAbove, Replica.invalidateUserTokensAt, hv, hm] using h

/-- Writing a watermark above `iat` puts the map above `iat`. -/
theorem invalidateUserTokensAt_mapAbove_self {u : Uuid} {iat w : ℤ} {s : Replica} (h : iat < w) :
    MapAbove u iat (s.invalidateUserTokensAt u w) := by
  refine mapAbove_filter (e := s.raise u w) (by simp [Replica.invalidateUserTokensAt]; rfl) ?_
  unfold Replica.raise
  split
  · split
    · exact h
    · omega
  · exact h

theorem fetch_mapAbove {u : Uuid} {iat : ℤ} {s : Replica} (h : MapAbove u iat s) (v : Uuid) :
    MapAbove u iat (s.fetchCredentialChangeWatermark v).2 := by
  unfold Replica.fetchCredentialChangeWatermark
  split
  · exact h
  · split
    · exact h
    · split
      · exact invalidateUserTokensAt_mapAbove h v _
      · exact h

@[simp] theorem fetch_db (s : Replica) (v : Uuid) :
    (s.fetchCredentialChangeWatermark v).2.db = s.db := by
  unfold Replica.fetchCredentialChangeWatermark
  split
  · rfl
  · split
    · rfl
    · split <;> rfl

@[simp] theorem check_snd (s : Replica) (v : Uuid) (iat : ℤ) :
    (s.isTokenInvalidatedReplicaSafe v iat).2 = (s.fetchCredentialChangeWatermark v).2 := by
  unfold Replica.isTokenInvalidatedReplicaSafe
  split <;> simp_all

/-- Every action keeps both levels above `iat`. -/
theorem replicaMachine_step_above {u : Uuid} {iat : ℤ} {s s' : Replica} {a : ReplicaAction}
    (h : MapAbove u iat s ∧ DbAbove u iat s) (hs : replicaMachine.step s a = some s') :
    MapAbove u iat s' ∧ DbAbove u iat s' := by
  obtain ⟨hm, r, hr, hact, hw⟩ := h
  cases a with
  | tick wall mono =>
    simp only [replicaMachine, Option.some.injEq] at hs
    subst hs
    refine ⟨?_, r, hr, hact, hw⟩
    unfold MapAbove at hm ⊢
    split at hm
    · next e he => simpa [he] using hm
    · next he =>
      simp only [he]
      omega
  | invalidate v =>
    simp only [replicaMachine, Option.some.injEq] at hs
    subst hs
    exact ⟨invalidateUserTokensAt_mapAbove hm v _, r, hr, hact, hw⟩
  | invalidateExceptCaller v c =>
    simp only [replicaMachine, Option.some.injEq] at hs
    subst hs
    exact ⟨invalidateUserTokensAt_mapAbove hm v _, r, hr, hact, hw⟩
  | credentialChange v row =>
    simp only [replicaMachine] at hs
    split at hs
    · next r₀ hr₀ =>
      split at hs
      · next hlater =>
        cases hs
        obtain ⟨hle, hkeep⟩ := CredentialRow.laterThan_watermark hlater
        refine ⟨hm, ?_⟩
        by_cases hv : u = v
        · subst hv
          obtain rfl : r = r₀ := Option.some.inj (hr.symm.trans hr₀)
          exact ⟨row, by simp, hkeep.trans hact, by omega⟩
        · exact ⟨r, by simp [hv, hr], hact, hw⟩
      · cases hs
    · cases hs
  | check v c =>
    simp only [replicaMachine, Option.some.injEq, check_snd] at hs
    subst hs
    exact ⟨fetch_mapAbove hm v, r, by rw [fetch_db]; exact hr, hact, hw⟩
  | readDb v =>
    simp only [replicaMachine] at hs
    split at hs
    · split at hs
      · cases hs
        exact ⟨hm, r, hr, hact, hw⟩
      · cases hs
    · cases hs
  | writeBack v w =>
    simp only [replicaMachine] at hs
    split at hs
    · cases hs
      exact ⟨invalidateUserTokensAt_mapAbove hm v w, r, hr, hact, hw⟩
    · cases hs

/-- With both levels above `iat`, the check rejects it. -/
theorem check_rejects_of_above {u : Uuid} {iat : ℤ} {s : Replica}
    (hm : MapAbove u iat s) (hd : DbAbove u iat s) :
    (s.isTokenInvalidatedReplicaSafe u iat).1 = true := by
  obtain ⟨r, hr, hact, hw⟩ := hd
  unfold Replica.isTokenInvalidatedReplicaSafe Replica.fetchCredentialChangeWatermark
  cases hf : s.freshEntry u with
  | none => simp [hr, hw]
  | some c =>
    have hc : iat < c := by
      unfold Replica.freshEntry at hf
      unfold MapAbove at hm
      split at hf
      · next e he =>
        split at hf
        · cases hf
          simpa [he] using hm
        · cases hf
      · cases hf
    simp [hc]

theorem freshEntry_some {u : Uuid} {c : ℤ} {s : Replica} (h : s.freshEntry u = some c) :
    ∃ recorded, s.map u = some (c, recorded) := by
  unfold Replica.freshEntry at h
  split at h
  · next changedAt recorded he =>
    split at h
    · cases h
      exact ⟨recorded, he⟩
    · cases h
  · cases h

/-- A check that rejects an active user's token leaves the map above its issued-at. -/
theorem mapAbove_of_rejects {u : Uuid} {iat : ℤ} {s : Replica} {r : CredentialRow}
    (hr : s.db u = some r) (hact : r.isActive = true)
    (h : (s.isTokenInvalidatedReplicaSafe u iat).1 = true) :
    MapAbove u iat (s.isTokenInvalidatedReplicaSafe u iat).2 := by
  rw [check_snd]
  unfold Replica.isTokenInvalidatedReplicaSafe Replica.fetchCredentialChangeWatermark at h
  unfold Replica.fetchCredentialChangeWatermark
  cases hf : s.freshEntry u with
  | some c =>
    obtain ⟨recorded, hmap⟩ := freshEntry_some hf
    simp only [hf, Bool.not_true, Bool.false_or, decide_eq_true_eq] at h
    simpa [MapAbove, hmap] using h
  | none =>
    simp only [hf, hr, hact, Bool.not_true, Bool.false_or, decide_eq_true_eq] at h
    simpa only [hr, hact, if_true] using invalidateUserTokensAt_mapAbove_self h

/-- Once the entry of `u` is older than the cache lifetime, the check answers from the database. -/
theorem check_after_expiry {u : Uuid} {iat : ℤ} {s : Replica} {r : CredentialRow} {c : ℤ}
    {recorded wall : ℕ} (hr : s.db u = some r) (hact : r.isActive = true)
    (hmap : s.map u = some (c, recorded)) :
    (Replica.isTokenInvalidatedReplicaSafe
      { s with wallMs := s.wallMs + wall, monoMs := s.monoMs + (recorded + 5000) } u iat).1 =
      decide (iat < r.watermark) := by
  have hstale : ¬ (s.monoMs + (recorded + 5000) - recorded) / 1000 < credentialDbCacheTtlSecs := by
    unfold credentialDbCacheTtlSecs
    omega
  simp [Replica.isTokenInvalidatedReplicaSafe, Replica.fetchCredentialChangeWatermark,
    Replica.freshEntry, hmap, hstale, hr, hact]

/-- A rejection of an active user's token is repeated at every later instant of every continuation
exactly when the token is older than the database watermark less the skew allowance. -/
theorem rejection_permanent_iff {u : Uuid} {iat : ℤ} {s : Replica} {r : CredentialRow}
    (hr : s.db u = some r) (hact : r.isActive = true)
    (hrej : (s.isTokenInvalidatedReplicaSafe u iat).1 = true) :
    (∀ s', replicaMachine.Reach Machine.anyStep (s.isTokenInvalidatedReplicaSafe u iat).2 s' →
      (s'.isTokenInvalidatedReplicaSafe u iat).1 = true) ↔ iat < r.watermark := by
  constructor
  · intro hall
    by_contra hle
    cases hf : s.freshEntry u with
    | none =>
      simp [Replica.isTokenInvalidatedReplicaSafe, Replica.fetchCredentialChangeWatermark, hf, hr,
        hact, hle] at hrej
    | some c =>
      obtain ⟨recorded, hmap⟩ := freshEntry_some hf
      have hsame : (s.isTokenInvalidatedReplicaSafe u iat).2 = s := by
        rw [check_snd]
        simp [Replica.fetchCredentialChangeWatermark, hf]
      rw [hsame] at hall
      have hlater := hall _ (.tail .refl trivial
        (rfl : replicaMachine.step s (.tick 0 (recorded + 5000)) = some _))
      rw [check_after_expiry hr hact hmap] at hlater
      exact hle (of_decide_eq_true hlater)
  · intro hlt s' hreach
    have h := hreach.invariant (I := fun s => MapAbove u iat s ∧ DbAbove u iat s)
      ⟨mapAbove_of_rejects hr hact hrej, r, by rw [check_snd, fetch_db]; exact hr, hact, hlt⟩
      (fun _ _ _ hinv _ hstep => replicaMachine_step_above hinv hstep)
    exact check_rejects_of_above h.1 h.2

/-- A user created at the epoch, seen by a replica with an empty map at 10:00 on some day. -/
def tenOClock : Replica where
  wallMs := 1700000000000
  monoMs := 0
  map := fun _ => none
  db := fun u => if u = 1 then some ⟨0, none, 0, true⟩ else none
  reads := []

/-- A password change in the database and on this replica, at the same instant. -/
def passwordChange : List ReplicaAction :=
  [.credentialChange 1 ⟨1700000000000000, none, 0, true⟩, .invalidate 1]

/-- A token issued one millisecond before the change is rejected, and accepted 5 s later. -/
theorem rejection_undone_after_expiry : ∃ s s',
    replicaMachine.run tenOClock passwordChange = some s ∧
      (s.isTokenInvalidatedReplicaSafe 1 1699999999999).1 = true ∧
      replicaMachine.run (s.isTokenInvalidatedReplicaSafe 1 1699999999999).2 [.tick 5000 5000] =
        some s' ∧
      (s'.isTokenInvalidatedReplicaSafe 1 1699999999999).1 = false :=
  ⟨_, _, rfl, by decide, rfl, by decide⟩

/-- A token issued a minute before the change stays rejected. -/
theorem rejection_permanent_minute_old : ∃ s, replicaMachine.run tenOClock passwordChange = some s ∧
    ∀ s', replicaMachine.Reach Machine.anyStep (s.isTokenInvalidatedReplicaSafe 1 1699999940000).2
      s' → (s'.isTokenInvalidatedReplicaSafe 1 1699999940000).1 = true :=
  ⟨_, rfl, (rejection_permanent_iff (r := ⟨1700000000000000, none, 0, true⟩) rfl rfl
    (by decide)).mpr (by decide)⟩

end ArtifactKeeper.Auth
