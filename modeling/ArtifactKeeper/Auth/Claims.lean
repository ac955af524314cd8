import ArtifactKeeper.Result
import Mathlib.Algebra.Group.Int.Defs
import Mathlib.Data.Int.Notation
import Mathlib.Data.Nat.Notation
import Mathlib.Tactic.DeriveFintype

/-! JWT claims and the token minters of `auth_service.rs`. Token texts are an arbitrary type `τ`;
signing and verification are a parameter, since they live in the `jsonwebtoken` crate. -/

namespace ArtifactKeeper

abbrev Uuid := ℕ

/-- The errors an authentication path can end in, with the message they carry. -/
inductive AppError where
  | authentication (message : String)
  | unauthorized (message : String)
  | authorization (message : String)
  | validation (message : String)
  | notFound (message : String)
  | conflict (message : String)
  | database (message : String)
  | internal (message : String)
  deriving DecidableEq, Repr

namespace Auth

inductive AuthProvider where
  | local | ldap | saml | oidc
  deriving DecidableEq, Repr

/-- The columns of `users` that the modelled functions use; instants in milliseconds. -/
structure User where
  id : Uuid
  username : String
  email : String
  passwordHash : Option String
  authProvider : AuthProvider
  isAdmin : Bool
  isActive : Bool
  totpEnabled : Bool
  mustChangePassword : Bool
  failedLoginAttempts : ℤ
  lockedUntil : Option ℤ
  lastFailedLoginAt : Option ℤ
  lastLoginAt : Option ℤ
  passwordChangedAt : ℤ
  deriving DecidableEq, Repr

/-- `WHERE id = $1 AND is_active = true`. -/
def loadActiveUser (users : List User) (userId : Uuid) : Except AppError User :=
  match users.find? fun u => u.id == userId && u.isActive with
  | some u => .ok u
  | none => .error (.authentication "User not found")

theorem loadActiveUser_ok {users : List User} {userId : Uuid} {u : User}
    (h : loadActiveUser users userId = .ok u) : u.id = userId ∧ u.isActive = true := by
  unfold loadActiveUser at h
  split at h
  · next v hv =>
    have hp := List.find?_some hv
    simp only [Bool.and_eq_true, beq_iff_eq] at hp
    cases h
    exact hp
  · cases h

/-- The `token_type` strings "access", "refresh", "registry_refresh" and "totp_pending". -/
inductive TokenType where
  | access | refresh | registryRefresh | totpPending
  deriving DecidableEq, Repr

structure Claims where
  sub : Uuid
  username : String
  email : String
  isAdmin : Bool
  allowedRepoIds : Option (List Uuid)
  iat : ℤ
  iatMs : Option ℤ
  exp : ℤ
  tokenType : TokenType
  jti : Option Uuid
  familyId : Option Uuid
  scanPullRepo : Option String
  scopes : Option (List String)
  deriving DecidableEq, Repr

def i64Min : ℤ := -(2 ^ 63)
def i64Max : ℤ := 2 ^ 63 - 1

/-- `i64` saturation, as in `saturating_mul` and `saturating_sub`. -/
def saturate (x : ℤ) : ℤ := max i64Min (min x i64Max)

def Claims.effectiveIatMs (c : Claims) : ℤ := c.iatMs.getD (saturate (c.iat * 1000))

/-- `jsonwebtoken` under one HS256 key; `decode` takes the clock in seconds. -/
structure JwtKey (τ : Type) where
  encode : Claims → Except String τ
  decode : ℤ → τ → Except String Claims

/-- What the code relies on: signing does not fail on these claims, a token determines the claims
signed into it, and verification returns them until 60 s of leeway after `exp`. -/
structure JwtKey.Lawful {τ : Type} (K : JwtKey τ) : Prop where
  encode_ok : ∀ c, ∃ t, K.encode c = .ok t
  encode_inj : ∀ c c' t, K.encode c = .ok t → K.encode c' = .ok t → c = c'
  decode_sound : ∀ c c' t now, K.encode c = .ok t → K.decode now t = .ok c' → c' = c
  decode_valid : ∀ c t now, K.encode c = .ok t → 0 ≤ c.exp → now ≤ c.exp + 60 →
    K.decode now t = .ok c
  decode_expired : ∀ c t now, K.encode c = .ok t → c.exp + 60 < now →
    ∃ e, K.decode now t = .error e

structure AuthConfig where
  jwtAccessTokenExpiryMinutes : ℤ
  jwtRefreshTokenExpiryDays : ℤ
  scanTokenTtlSeconds : ℕ
  accountLockoutThreshold : ℕ
  accountLockoutDurationMinutes : ℤ
  passwordExpiryDays : ℕ
  deriving DecidableEq, Repr

structure AuthService (τ : Type) where
  key : JwtKey τ
  config : AuthConfig

/-- What `Utc::now` (milliseconds since the epoch) and `Uuid::new_v4` return during one call. -/
structure Moment where
  nowMs : ℕ
  newFamily : Uuid
  newJti : Uuid
  deriving DecidableEq, Repr

/-- `timestamp()` of an instant given in milliseconds: whole seconds, rounded down. -/
def timestamp (ms : ℤ) : ℤ := ms / 1000

structure TokenPair (τ : Type) where
  accessToken : τ
  refreshToken : τ
  expiresIn : ℕ
  deriving DecidableEq, Repr

variable {τ : Type}

namespace AuthService

def decodeToken (S : AuthService τ) (nowMs : ℤ) (token : τ) : Except AppError Claims :=
  (S.key.decode (timestamp nowMs) token).mapError fun e => .authentication ("Invalid token: " ++ e)

def encodeToken (S : AuthService τ) (c : Claims) : Except AppError τ :=
  (S.key.encode c).mapError fun e => .internal ("Token encoding failed: " ++ e)

/-- The access claims stamped by `generate_token_pair_typed`. -/
def accessClaims (S : AuthService τ) (m : Moment) (user : User)
    (allowedRepoIds : Option (List Uuid)) (scopes : Option (List String)) : Claims where
  sub := user.id
  username := user.username
  email := user.email
  isAdmin := user.isAdmin
  allowedRepoIds := allowedRepoIds
  iat := timestamp m.nowMs
  iatMs := some m.nowMs
  exp := timestamp (m.nowMs + S.config.jwtAccessTokenExpiryMinutes * 60000)
  tokenType := .access
  jti := none
  familyId := none
  scanPullRepo := none
  scopes := scopes

/-- The refresh claims stamped by `generate_token_pair_typed`: no repository allow-list. -/
def refreshClaims (S : AuthService τ) (m : Moment) (user : User) (familyId : Uuid)
    (scopes : Option (List String)) (refreshTokenType : TokenType) : Claims where
  sub := user.id
  username := user.username
  email := user.email
  isAdmin := user.isAdmin
  allowedRepoIds := none
  iat := timestamp m.nowMs
  iatMs := some m.nowMs
  exp := timestamp (m.nowMs + S.config.jwtRefreshTokenExpiryDays * 86400000)
  tokenType := refreshTokenType
  jti := some m.newJti
  familyId := some familyId
  scanPullRepo := none
  scopes := scopes

def generateTokenPairTyped (S : AuthService τ) (m : Moment) (user : User) (familyId : Uuid)
    (allowedRepoIds : Option (List Uuid)) (scopes : Option (List String))
    (refreshTokenType : TokenType) : Except AppError (TokenPair τ) := do
  let accessToken ← S.encodeToken (S.accessClaims m user allowedRepoIds scopes)
  let refreshToken ← S.encodeToken (S.refreshClaims m user familyId scopes refreshTokenType)
  return ⟨accessToken, refreshToken,
    (S.config.jwtAccessTokenExpiryMinutes * 60 % 2 ^ 64).toNat⟩

def generateTokensWithFamilyAndScope (S : AuthService τ) (m : Moment) (user : User)
    (familyId : Uuid) (allowedRepoIds : Option (List Uuid)) (scopes : Option (List String)) :
    Except AppError (TokenPair τ) :=
  S.generateTokenPairTyped m user familyId allowedRepoIds scopes .refresh

def generateTokens (S : AuthService τ) (m : Moment) (user : User) : Except AppError (TokenPair τ) :=
  S.generateTokensWithFamilyAndScope m user m.newFamily none none

def generateTokensWithRepoScope (S : AuthService τ) (m : Moment) (user : User)
    (allowedRepoIds : Option (List Uuid)) : Except AppError (TokenPair τ) :=
  S.generateTokensWithFamilyAndScope m user m.newFamily allowedRepoIds none

def generateTokensWithScope (S : AuthService τ) (m : Moment) (user : User)
    (scopes : Option (List String)) (allowedRepoIds : Option (List Uuid)) :
    Except AppError (TokenPair τ) :=
  S.generateTokensWithFamilyAndScope m user m.newFamily allowedRepoIds scopes

def generateTokensWithFamily (S : AuthService τ) (m : Moment) (user : User) (familyId : Uuid) :
    Except AppError (TokenPair τ) :=
  S.generateTokensWithFamilyAndScope m user familyId none none

/-- The claims of a scanner token: the access claims of a plain login, pinned to one repository
routing key. -/
def scanClaims (S : AuthService τ) (m : Moment) (user : User) (repoKey : String)
    (ttlSeconds : ℤ) : Claims :=
  { S.accessClaims m user none none with
    exp := timestamp (m.nowMs + ttlSeconds * 1000)
    scanPullRepo := some repoKey }

def generateScanToken (S : AuthService τ) (m : Moment) (user : User) (repoKey : String)
    (ttlSeconds : ℤ) : Except AppError τ :=
  S.encodeToken (S.scanClaims m user repoKey ttlSeconds)

end AuthService

variable {S : AuthService τ}

@[simp] theorem encodeToken_ok_iff {c : Claims} {t : τ} :
    S.encodeToken c = .ok t ↔ S.key.encode c = .ok t := by
  simp [AuthService.encodeToken]

@[simp] theorem decodeToken_ok_iff {nowMs : ℤ} {t : τ} {c : Claims} :
    S.decodeToken nowMs t = .ok c ↔ S.key.decode (timestamp nowMs) t = .ok c := by
  simp [AuthService.decodeToken]

/-- A minted pair signs exactly the access and the refresh claims. -/
theorem generateTokenPairTyped_ok {m : Moment} {user : User} {family : Uuid}
    {repos : Option (List Uuid)} {scopes : Option (List String)} {kind : TokenType}
    {p : TokenPair τ}
    (h : S.generateTokenPairTyped m user family repos scopes kind = .ok p) :
    S.key.encode (S.accessClaims m user repos scopes) = .ok p.accessToken ∧
      S.key.encode (S.refreshClaims m user family scopes kind) = .ok p.refreshToken := by
  simp only [AuthService.generateTokenPairTyped, Except.bind_eq_ok_iff, encodeToken_ok_iff,
    Except.pure_eq_ok_iff] at h
  obtain ⟨a, ha, r, hr, rfl⟩ := h
  exact ⟨ha, hr⟩

/-- Minting a pair succeeds under a lawful key. -/
theorem exists_generateTokenPairTyped (hK : S.key.Lawful) (m : Moment) (user : User)
    (family : Uuid) (repos : Option (List Uuid)) (scopes : Option (List String))
    (kind : TokenType) :
    ∃ p, S.generateTokenPairTyped m user family repos scopes kind = .ok p := by
  obtain ⟨a, ha⟩ := hK.encode_ok (S.accessClaims m user repos scopes)
  obtain ⟨r, hr⟩ := hK.encode_ok (S.refreshClaims m user family scopes kind)
  refine ⟨⟨a, r, (S.config.jwtAccessTokenExpiryMinutes * 60 % 2 ^ 64).toNat⟩, ?_⟩
  simp [AuthService.generateTokenPairTyped, encodeToken_ok_iff.mpr ha, encodeToken_ok_iff.mpr hr,
    bind, Except.bind, pure, Except.pure]

/-- What a text signed from `c` verifies to, at any time, is `c`. -/
theorem JwtKey.Lawful.decodeToken_eq (hK : S.key.Lawful) {c c' : Claims} {t : τ} {nowMs : ℤ}
    (ht : S.key.encode c = .ok t) (hd : S.decodeToken nowMs t = .ok c') : c' = c :=
  hK.decode_sound c c' t _ ht (decodeToken_ok_iff.mp hd)

def ciUser : User :=
  ⟨1, "ci", "ci@example.org", some "$2b$password", .local, false, true, false, false, 0, none, none,
    none, 0⟩

/-- Tokens in the clear: a key that keeps the laws above. -/
def plainKey : JwtKey (Claims ⊕ String) where
  encode c := .ok (.inl c)
  decode now t :=
    match t with
    | .inl c => if c.exp < 0 then .error "InvalidClaimFormat: exp"
        else if c.exp + 60 < now then .error "ExpiredSignature" else .ok c
    | .inr _ => .error "InvalidToken"

theorem plainKey_lawful : plainKey.Lawful where
  encode_ok c := ⟨.inl c, rfl⟩
  encode_inj c c' t h h' := by
    simp only [plainKey, Except.ok.injEq] at h h'
    exact Sum.inl.inj (h.trans h'.symm)
  decode_sound c c' t now h hd := by
    simp only [plainKey, Except.ok.injEq] at h hd
    subst h
    by_cases hneg : c.exp < 0
    · simp [hneg] at hd
    · by_cases hexp : c.exp + 60 < now
      · simp [hneg, hexp] at hd
      · simpa [hneg, hexp, eq_comm] using hd
  decode_valid c t now h hpos hnow := by
    simp only [plainKey, Except.ok.injEq] at h
    subst h
    have hneg : ¬ c.exp < 0 := by omega
    have hexp : ¬ c.exp + 60 < now := by omega
    simp [plainKey, hneg, hexp]
  decode_expired c t now h hexp := by
    simp only [plainKey, Except.ok.injEq] at h
    subst h
    by_cases hneg : c.exp < 0 <;> simp [plainKey, hneg, hexp]

end Auth
end ArtifactKeeper
