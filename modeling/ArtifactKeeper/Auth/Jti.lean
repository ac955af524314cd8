import ArtifactKeeper.Auth.Claims
import Mathlib.Logic.Function.Basic

/-! The `refresh_token_jti` table and the SQL statements that refresh and revocation run on it.
Instants are milliseconds of the database clock. -/

namespace ArtifactKeeper.Auth

structure JtiRow where
  userId : Uuid
  familyId : Uuid
  issuedAt : ℤ
  expiresAt : ℤ
  consumedAt : Option ℤ
  revokedAt : Option ℤ
  supersededBy : Option Uuid
  deriving DecidableEq, Repr

/-- The table, keyed by its primary key `jti`. -/
abbrev JtiTable := Uuid → Option JtiRow

/-- Neither consumed nor revoked. -/
def JtiRow.live (r : JtiRow) : Bool := r.consumedAt.isNone && r.revokedAt.isNone

/-- `INSERT … ON CONFLICT (jti) DO NOTHING`. -/
def recordRefreshTokenJti (tbl : JtiTable) (jti : Uuid) (row : JtiRow) : JtiTable :=
  match tbl jti with
  | some _ => tbl
  | none => Function.update tbl jti (some row)

/-- The row that `record_refresh_token_jti` inserts for freshly minted refresh claims. -/
def mintedRow (userId familyId : Uuid) (claims : Claims) : JtiRow :=
  ⟨userId, familyId, claims.iat * 1000, claims.exp * 1000, none, none, none⟩

/-- `SET consumed_at = NOW() WHERE jti = $1 AND consumed_at IS NULL AND revoked_at IS NULL`;
`none` when no row matches. -/
def consumeJti (tbl : JtiTable) (now : ℤ) (jti : Uuid) : Option JtiTable :=
  match tbl jti with
  | some r => if r.live then some (Function.update tbl jti (some { r with consumedAt := some now }))
      else none
  | none => none

def setSupersededBy (tbl : JtiTable) (jti successor : Uuid) : JtiTable :=
  Function.update tbl jti ((tbl jti).map fun r => { r with supersededBy := some successor })

/-- Which rows a revocation addresses: one family, or every family of a user. -/
inductive RevokeTarget where
  | family (familyId : Uuid)
  | user (userId : Uuid)
  deriving DecidableEq, Repr

def RevokeTarget.covers : RevokeTarget → JtiRow → Bool
  | .family f, r => r.familyId == f
  | .user u, r => r.userId == u

/-- One row under `SET revoked_at = NOW() WHERE … AND revoked_at IS NULL`. -/
def revokeRow (now : ℤ) (target : RevokeTarget) (r : JtiRow) : JtiRow :=
  if target.covers r && r.revokedAt.isNone then { r with revokedAt := some now } else r

def revokeRows (tbl : JtiTable) (now : ℤ) (target : RevokeTarget) : JtiTable :=
  fun jti => (tbl jti).map (revokeRow now target)

def refreshReplayBenignGraceMs : ℤ := 30 * 1000

/-- How a caller that lost the conditional consume is answered. -/
inductive LoserVerdict where
  | rowMissing
  | revoked
  | genuineReplay (familyId : Uuid)
  | alreadyUsed
  deriving DecidableEq, Repr

/-- The classifying read of the presented row, joined to its recorded successor. -/
def classifyLoser (tbl : JtiTable) (now : ℤ) (jti : Uuid) : LoserVerdict :=
  match tbl jti with
  | none => .rowMissing
  | some r =>
    if r.revokedAt.isSome then .revoked
    else match r.consumedAt with
      | none => .alreadyUsed
      | some consumedAt =>
        let successor := r.supersededBy.bind tbl
        let pastGrace := decide (consumedAt < now - refreshReplayBenignGraceMs)
        let spent := successor.any fun s => s.consumedAt.isSome || s.revokedAt.isSome
        if pastGrace || successor.isNone || spent then .genuineReplay r.familyId
        else .alreadyUsed

theorem consumeJti_some {tbl tbl' : JtiTable} {now : ℤ} {jti : Uuid}
    (h : consumeJti tbl now jti = some tbl') :
    ∃ r, tbl jti = some r ∧ r.live = true ∧
      tbl' = Function.update tbl jti (some { r with consumedAt := some now }) := by
  unfold consumeJti at h
  split at h
  · next r hr =>
    by_cases hl : r.live = true
    · rw [if_pos hl] at h
      exact ⟨r, hr, hl, (Option.some.inj h).symm⟩
    · simp [hl] at h
  · cases h

/-- A recorded row is never classified as missing, and a replay names the family of the row. -/
theorem classifyLoser_of_some {tbl : JtiTable} {now : ℤ} {jti : Uuid} {r : JtiRow}
    (h : tbl jti = some r) : classifyLoser tbl now jti ≠ .rowMissing ∧
      ∀ f, classifyLoser tbl now jti = .genuineReplay f → f = r.familyId := by
  unfold classifyLoser
  rw [h]
  dsimp only
  split
  · simp
  · split
    · simp
    · split
      · exact ⟨by simp, fun f hf => (LoserVerdict.genuineReplay.inj hf).symm⟩
      · simp

@[simp] theorem revokeRow_familyId (now : ℤ) (target : RevokeTarget) (r : JtiRow) :
    (revokeRow now target r).familyId = r.familyId := by
  unfold revokeRow; split <;> rfl

@[simp] theorem revokeRow_userId (now : ℤ) (target : RevokeTarget) (r : JtiRow) :
    (revokeRow now target r).userId = r.userId := by
  unfold revokeRow; split <;> rfl

@[simp] theorem revokeRow_consumedAt (now : ℤ) (target : RevokeTarget) (r : JtiRow) :
    (revokeRow now target r).consumedAt = r.consumedAt := by
  unfold revokeRow; split <;> rfl

/-- A row the statement addresses is revoked after it. -/
theorem revokeRow_revoked {now : ℤ} {target : RevokeTarget} {r : JtiRow}
    (h : target.covers r = true) : (revokeRow now target r).revokedAt.isSome = true := by
  unfold revokeRow
  cases hr : r.revokedAt <;> simp [h, hr]

/-- Revocation never brings a row back. -/
theorem revokeRow_keeps_revoked {now : ℤ} {target : RevokeTarget} {r : JtiRow}
    (h : r.revokedAt.isSome = true) : revokeRow now target r = r := by
  unfold revokeRow
  cases hr : r.revokedAt with
  | none => simp [hr] at h
  | some _ => simp

end ArtifactKeeper.Auth
