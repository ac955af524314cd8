import ArtifactKeeper.Auth.Login

/-! Credentials on the OCI endpoints: `authenticate_oci_with_scopes`, the gates that the resource
handlers put behind it, and the `/v2/token` exchange. -/

namespace ArtifactKeeper.Oci
open Auth
variable {τ : Type}

inductive OciCredential (τ : Type) where
  | bearer (token : τ)
  | basic (username : String) (password : τ)

section Gates

/-- The part of a scope before its first colon, when it has one. -/
def parentScope (scope : String) : Option String :=
  if ':' ∈ scope.toList then some (String.ofList (scope.toList.takeWhile (· != ':'))) else none

def scopesGrantAccess (scopes : List String) (required : String) : Bool :=
  scopes.any (· == required) || scopes.any (· == "*") || scopes.contains "admin" ||
    match parentScope required with
    | some parent => !parent.isEmpty && scopes.any (· == parent)
    | none => false

def ociScopesGrant (scopes : Option (List String)) (required : String) : Bool :=
  match scopes with
  | none => true
  | some s => scopesGrantAccess s required

structure Denial where
  status : ℕ
  code : String
  message : String
  deriving DecidableEq, Repr

def ociDeniedRepoAccess : Denial :=
  ⟨403, "DENIED", "You do not have access to this repository"⟩

def enforceScanPullScope (claims : Claims) (repoKey : String) : Except Denial Unit :=
  match claims.scanPullRepo with
  | some pinned => if pinned ≠ repoKey then .error ociDeniedRepoAccess else .ok ()
  | none => .ok ()

def enforceTokenRepoScope (claims : Claims) (repoId : Uuid) : Except Denial Unit :=
  match claims.allowedRepoIds with
  | some ids => if ids.contains repoId then .ok () else .error ociDeniedRepoAccess
  | none => .ok ()

end Gates

/-- Mint a pair for `user` and keep the validated access claims only. -/
def freshClaims (S : AuthService τ) (e : Call) (user : User) : Except Unit Claims :=
  match S.generateTokens e.moment user with
  | .error _ => .error ()
  | .ok tokens => (S.validateAccessToken e tokens.accessToken).mapError fun _ => ()

/-- `SELECT * FROM users WHERE id = $1`, active or not. -/
def fetchUser (users : List User) (userId : Uuid) : Option User :=
  users.find? fun u => u.id == userId

variable (S : AuthService τ) (X : TokenText τ) (lower : String → String)

/-- `validate_api_token` at the time of a call. -/
def apiToken (e : Call) (token : τ) : Except AppError ApiTokenValidation :=
  validateApiToken X lower e.db e.moment.nowMs token

def authenticateOciWithScopes (e : Call) (credential : Option (OciCredential τ)) :
    Except Unit (Claims × Option (List String)) :=
  match credential with
  | none => .error ()
  | some (.bearer token) =>
    match S.validateAccessTokenAsync e token with
    | .ok claims => .ok (claims, claims.scopes)
    | .error _ =>
      match apiToken X lower e token with
      | .ok validation => do return (← freshClaims S e validation.user, some validation.scopes)
      | .error _ => .error ()
  | some (.basic username password) =>
    match apiToken X lower e password with
    | .ok validation => do return (← freshClaims S e validation.user, some validation.scopes)
    | .error _ =>
      match (S.authenticate X e username password).1 with
      | .ok (user, _) => do return (← freshClaims S e user, none)
      | .error _ =>
        match S.validateAccessTokenAsync e password with
        | .error _ => .error ()
        | .ok claims =>
          match fetchUser e.db.users claims.sub with
          | some user => do return (← freshClaims S e user, claims.scopes)
          | none => .error ()

/-- The OAuth2 form of `POST /v2/token`; an empty text counts as absent. -/
structure TokenForm (τ : Type) where
  grantType : Option String
  username : Option String
  password : Option τ
  refreshToken : Option τ
  accessType : Option String

structure TokenRequest (τ : Type) where
  authorization : Option (OciCredential τ)
  form : Option (TokenForm τ)
  service : Option String
  offlineToken : Option String

inductive TokenReply (τ : Type) where
  | issued (accessToken : τ) (expiresIn : ℕ) (refreshToken : Option τ)
  | anonymous
  | denied (denial : Denial)

def ociTokenService : String := "artifact-keeper"

namespace TokenRequest

def basicCredentials (r : TokenRequest τ) : Option (String × τ) :=
  match r.authorization with
  | some (.basic username password) => some (username, password)
  | _ => none

def bearerToken (r : TokenRequest τ) : Option τ :=
  match r.authorization with
  | some (.bearer token) => some token
  | _ => none

def formCredentials (r : TokenRequest τ) : Option (String × τ) :=
  match r.form with
  | some f =>
    if f.grantType.all (· == "password") then
      match f.username, f.password with
      | some username, some password => some (username, password)
      | _, _ => none
    else none
  | none => none

def accessType (r : TokenRequest τ) : Option String :=
  (r.form.bind TokenForm.accessType).or
    (if r.offlineToken = some "true" then some "offline" else none)

end TokenRequest

def handleRefreshGrant (e : Call) (refreshToken : Option τ) : TokenReply τ :=
  match refreshToken with
  | none => .denied ⟨400, "DENIED", "refresh_token grant requires refresh_token"⟩
  | some refresh =>
    match S.mintAccessFromRegistryRefresh e refresh with
    | .ok (_, tokens) => .issued tokens.accessToken tokens.expiresIn (some tokens.refreshToken)
    | .error _ => .denied ⟨401, "UNAUTHORIZED", "invalid refresh token"⟩

/-- The exchange of a bearer token, or of no credential at all. -/
def swapBearer (e : Call) (bearer : Option τ) : TokenReply τ :=
  match bearer with
  | none => .anonymous
  | some token =>
    match S.validateAccessTokenAsync e token with
    | .error _ => .denied ⟨401, "UNAUTHORIZED", "invalid credentials"⟩
    | .ok claims =>
      match loadActiveUser e.db.users claims.sub with
      | .error _ => .denied ⟨401, "UNAUTHORIZED", "invalid credentials"⟩
      | .ok user =>
        match claims.scanPullRepo with
        | some repoKey =>
          match S.generateScanToken e.moment user repoKey S.config.scanTokenTtlSeconds with
          | .ok t => .issued t S.config.scanTokenTtlSeconds none
          | .error _ => .denied ⟨500, "INTERNAL_ERROR", "token generation failed"⟩
        | none =>
          match S.generateTokensWithScope e.moment user claims.scopes claims.allowedRepoIds with
          | .ok tokens => .issued tokens.accessToken tokens.expiresIn none
          | .error _ => .denied ⟨500, "INTERNAL_ERROR", "token generation failed"⟩

/-- Who a username and password stand for: the user, the pair minted for them, and whether the
credential was an API token or an access token. -/
def resolveCredentials (e : Call) (username : String) (password : τ) :
    Except Denial (User × TokenPair τ × Bool) :=
  let failed : Denial := ⟨500, "INTERNAL_ERROR", "failed to generate tokens"⟩
  match apiToken X lower e password with
  | .ok v => do
    let tokens ← (S.generateTokensWithScope e.moment v.user (some v.scopes)
      v.allowedRepoIds.asAllowedRepoIds).mapError fun _ => failed
    return (v.user, tokens, true)
  | .error _ =>
    match (S.authenticate X e username password).1 with
    | .ok (user, tokens) => .ok (user, tokens, false)
    | .error _ =>
      match S.validateAccessTokenAsync e password with
      | .error _ => .error ⟨401, "UNAUTHORIZED", "invalid username or password"⟩
      | .ok claims =>
        match fetchUser e.db.users claims.sub with
        | none => .error ⟨401, "UNAUTHORIZED", "user not found"⟩
        | some user => do
          let tokens ← (S.generateTokensWithScope e.moment user claims.scopes
            claims.allowedRepoIds).mapError fun _ => failed
          return (user, tokens, true)

def totpRequired : Denial := ⟨401, "UNAUTHORIZED",
  "TOTP 2FA is enabled on this account. Create a personal access token and use it as your " ++
    "Docker password instead."⟩

/-- The credential grant: only a password login may come with an offline refresh token. -/
def credentialGrant (e : Call) (username : String) (password : τ) (accessType : Option String) :
    TokenReply τ :=
  match resolveCredentials S X lower e username password with
  | .error d => .denied d
  | .ok (user, tokens, viaApiToken) =>
    if user.totpEnabled && !viaApiToken then .denied totpRequired
    else if !viaApiToken && accessType == some "offline" then
      match S.generateRegistryOfflineToken e.moment e.jtis user none none with
      | .ok (rt, _) => .issued tokens.accessToken tokens.expiresIn (some rt)
      | .error _ => .denied ⟨500, "INTERNAL_ERROR", "failed to generate tokens"⟩
    else .issued tokens.accessToken tokens.expiresIn none

/-- The `/v2/token` handler. -/
def token (e : Call) (r : TokenRequest τ) : TokenReply τ :=
  if r.service.any (· != ociTokenService) then .denied ⟨400, "DENIED", "service mismatch"⟩
  else if r.form.bind TokenForm.grantType = some "refresh_token" then
    handleRefreshGrant S e (r.form.bind TokenForm.refreshToken)
  else match r.basicCredentials.or r.formCredentials with
    | some (username, password) => credentialGrant S X lower e username password r.accessType
    | none => swapBearer S e r.bearerToken

end ArtifactKeeper.Oci
