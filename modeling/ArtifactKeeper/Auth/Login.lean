import ArtifactKeeper.Auth.Refresh
import ArtifactKeeper.Chunking

/-! Password login with its lockout counters, and validation of access tokens. -/

namespace ArtifactKeeper.Auth
open Chunking (asI32)
variable {τ : Type}

def isAccountLocked (lockedUntil : Option ℤ) (now : ℤ) : Bool :=
  lockedUntil.any fun t => decide (now < t)

def isPasswordExpired (passwordChangedAt : ℤ) (passwordExpiryDays : ℕ) (now : ℤ) : Bool :=
  if passwordExpiryDays = 0 then false
  else decide (passwordChangedAt + passwordExpiryDays * 86400000 ≤ now)

def shouldLock (attemptsAfterFailure : ℤ) (threshold : ℕ) (durationMinutes now : ℤ) : Option ℤ :=
  if threshold = 0 then none
  else if asI32 threshold ≤ attemptsAfterFailure then some (now + durationMinutes * 60000)
  else none

def failedAttemptIsLocked (newlyLocked alreadyLocked : Bool) : Bool := newlyLocked || alreadyLocked

/-- `UPDATE users … WHERE id = $1`. -/
def updateUser (users : List User) (userId : Uuid) (f : User → User) : List User :=
  users.map fun u => if u.id = userId then f u else u

/-- The row written by a failed attempt. -/
def recordFailure (newCount : ℤ) (lockUntil : Option ℤ) (now : ℤ) (u : User) : User :=
  { u with
    failedLoginAttempts := newCount
    lockedUntil := lockUntil
    lastFailedLoginAt := some now }

/-- The row written by a successful login; `last_login_at` moves at most every five minutes. -/
def recordSuccess (dbNow : ℤ) (u : User) : User :=
  { u with
    lastLoginAt := if u.lastLoginAt.all fun t => decide (t < dbNow - 300000) then some dbNow
      else u.lastLoginAt
    failedLoginAttempts := 0
    lockedUntil := none
    lastFailedLoginAt := none }

namespace AuthService

/-- `authenticate`: the answer, the `users` table and the `refresh_token_jti` table after it. -/
def authenticate (S : AuthService τ) (X : TokenText τ) (e : Call) (username : String)
    (password : τ) : Except AppError (User × TokenPair τ) × List User × JtiTable :=
  let users := e.db.users
  let now : ℤ := e.moment.nowMs
  match users.find? fun u => u.username == username && u.isActive with
  | none => (.error (.authentication "Invalid username or password"), users, e.jtis)
  | some user =>
    if user.authProvider ≠ .local then
      (.error (.authentication "Use SSO provider to authenticate"), users, e.jtis)
    else match user.passwordHash with
    | none => (.error (.authentication "Invalid username or password"), users, e.jtis)
    | some hash =>
      if !X.verify password hash then
        let newCount := user.failedLoginAttempts + 1
        let lockUntil := shouldLock newCount S.config.accountLockoutThreshold
          S.config.accountLockoutDurationMinutes now
        let users' := updateUser users user.id (recordFailure newCount lockUntil now)
        if failedAttemptIsLocked lockUntil.isSome (isAccountLocked user.lockedUntil now) then
          (.error (.authentication
            "Account temporarily locked due to too many failed login attempts"), users', e.jtis)
        else (.error (.authentication "Invalid username or password"), users', e.jtis)
      else
        let expired := !user.mustChangePassword &&
          isPasswordExpired user.passwordChangedAt S.config.passwordExpiryDays now
        let user' := if expired then { user with mustChangePassword := true } else user
        let users' := updateUser users user.id fun u =>
          { recordSuccess e.dbNow u with mustChangePassword := expired || u.mustChangePassword }
        match S.generateTokens e.moment user' with
        | .error err => (.error err, users', e.jtis)
        | .ok tokens =>
          match S.persistRefreshJtiFromPair e.moment.nowMs e.jtis tokens user.id with
          | .error err => (.error err, users', e.jtis)
          | .ok tbl => (.ok (user', tokens), users', tbl)

/-- The synchronous check, against the in-memory map only. -/
def validateAccessToken (S : AuthService τ) (e : Call) (token : τ) : Except AppError Claims := do
  let claims ← S.decodeToken e.moment.nowMs token
  if claims.tokenType ≠ .access then throw (.authentication "Invalid token type")
  else if e.invalidatedInMemory claims.sub claims.effectiveIatMs then
    throw (.authentication "Token invalidated by credential change")
  else return claims

/-- `fetch_live_is_admin`: the stored role of an active user. -/
def fetchLiveIsAdmin (users : List User) (userId : Uuid) : Option Bool :=
  (users.find? fun u => u.id == userId && u.isActive).map User.isAdmin

/-- The replica-safe check, which takes the admin flag from the database. -/
def validateAccessTokenAsync (S : AuthService τ) (e : Call) (token : τ) :
    Except AppError Claims := do
  let claims ← S.decodeToken e.moment.nowMs token
  if claims.tokenType ≠ .access then throw (.authentication "Invalid token type")
  else if e.invalidated claims.sub claims.effectiveIatMs then
    throw (.authentication "Token invalidated by credential change")
  else match fetchLiveIsAdmin e.db.users claims.sub with
    | some isAdmin => return { claims with isAdmin := isAdmin }
    | none => throw (.authentication "Token subject is no longer an active user")

end AuthService

variable {S : AuthService τ} {X : TokenText τ}

/-- A text that no stored password hash verifies does not log anyone in. -/
theorem authenticate_error_of_no_match {e : Call} {password : τ}
    (h : ∀ u ∈ e.db.users, ∀ hash, u.passwordHash = some hash → X.verify password hash = false)
    (username : String) :
    ∃ err, (S.authenticate X e username password).1 = .error err := by
  unfold AuthService.authenticate
  simp only
  split
  · exact ⟨_, rfl⟩
  next user hfind =>
  split
  · exact ⟨_, rfl⟩
  split
  · exact ⟨_, rfl⟩
  next hash hhash =>
  have hmiss := h user (List.mem_of_find?_eq_some hfind) hash hhash
  simp only [hmiss, Bool.not_false, if_true]
  split
  · exact ⟨_, rfl⟩
  · exact ⟨_, rfl⟩

theorem validateAccessToken_ok {e : Call} {token : τ} {claims : Claims}
    (h : S.validateAccessToken e token = .ok claims) :
    S.decodeToken e.moment.nowMs token = .ok claims ∧ claims.tokenType = .access := by
  simp only [AuthService.validateAccessToken, Except.bind_eq_ok_iff] at h
  obtain ⟨c, hc, h⟩ := h
  split at h
  · simp at h
  next htype =>
  split at h
  · simp at h
  · simp only [Except.pure_eq_ok_iff] at h
    subst h
    exact ⟨hc, not_not.mp htype⟩

theorem fetchLiveIsAdmin_some {users : List User} {userId : Uuid} {isAdmin : Bool}
    (h : AuthService.fetchLiveIsAdmin users userId = some isAdmin) :
    ∃ u, loadActiveUser users userId = .ok u ∧ u.isAdmin = isAdmin := by
  obtain ⟨u, hu, hadm⟩ := Option.map_eq_some_iff.mp h
  exact ⟨u, by simp [loadActiveUser, hu], hadm⟩

theorem fetchLiveIsAdmin_of_loadActiveUser {users : List User} {userId : Uuid} {u : User}
    (h : loadActiveUser users userId = .ok u) :
    AuthService.fetchLiveIsAdmin users userId = some u.isAdmin := by
  unfold loadActiveUser at h
  unfold AuthService.fetchLiveIsAdmin
  split at h
  · next hu =>
    cases h
    rw [hu]
    rfl
  · cases h

/-- What the replica-safe check returns are the signed claims with the stored admin flag. -/
theorem validateAccessTokenAsync_ok {e : Call} {token : τ} {claims : Claims}
    (h : S.validateAccessTokenAsync e token = .ok claims) :
    ∃ c u, S.decodeToken e.moment.nowMs token = .ok c ∧ c.tokenType = .access ∧
      loadActiveUser e.db.users c.sub = .ok u ∧ claims = { c with isAdmin := u.isAdmin } := by
  simp only [AuthService.validateAccessTokenAsync, Except.bind_eq_ok_iff] at h
  obtain ⟨c, hc, h⟩ := h
  split at h
  · simp at h
  next htype =>
  split at h
  · simp at h
  split at h
  · next hadm =>
    obtain ⟨u, hu, rfl⟩ := fetchLiveIsAdmin_some hadm
    simp only [Except.pure_eq_ok_iff] at h
    exact ⟨c, u, hc, not_not.mp htype, hu, h.symm⟩
  · simp at h

theorem validateAccessTokenAsync_of_active {e : Call} {token : τ} {c : Claims} {u : User}
    (hd : S.decodeToken e.moment.nowMs token = .ok c) (htype : c.tokenType = .access)
    (hinv : e.invalidated c.sub c.effectiveIatMs = false)
    (hu : loadActiveUser e.db.users c.sub = .ok u) :
    S.validateAccessTokenAsync e token = .ok { c with isAdmin := u.isAdmin } := by
  simp only [AuthService.validateAccessTokenAsync, Except.bind_eq_ok_iff]
  refine ⟨c, hd, ?_⟩
  simp [htype, hinv, fetchLiveIsAdmin_of_loadActiveUser hu]

end ArtifactKeeper.Auth
