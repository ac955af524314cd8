import ArtifactKeeper.Oci.Credential

/-! Credential ceilings along chains of `/v2/token` exchanges. -/

namespace ArtifactKeeper.Oci
open Auth
variable {τ : Type}

/-- The three independent restrictions a credential can carry. -/
structure Ceiling where
  scopes : Option (List String)
  allowedRepoIds : Option (List Uuid)
  scanPullRepo : Option String
  deriving DecidableEq, Repr

structure OciRepo where
  id : Uuid
  key : String
  deriving DecidableEq, Repr

/-- The actions and repositories inside a ceiling. -/
def Ceiling.permits (k : Ceiling) (action : String) (repo : OciRepo) : Prop :=
  (∀ s, k.scopes = some s → scopesGrantAccess s action = true) ∧
    (∀ ids, k.allowedRepoIds = some ids → repo.id ∈ ids) ∧
    ∀ key, k.scanPullRepo = some key → key = repo.key

/-- All three gates of the resource handlers let the request through. -/
def PassesGates (claims : Claims) (scopes : Option (List String)) (action : String)
    (repo : OciRepo) : Prop :=
  ociScopesGrant scopes action = true ∧ enforceTokenRepoScope claims repo.id = .ok () ∧
    enforceScanPullScope claims repo.key = .ok ()

def claimsCeiling (c : Claims) : Ceiling := ⟨c.scopes, c.allowedRepoIds, c.scanPullRepo⟩

theorem passesGates_iff {claims : Claims} {scopes : Option (List String)} {action : String}
    {repo : OciRepo} : PassesGates claims scopes action repo ↔
      (Ceiling.mk scopes claims.allowedRepoIds claims.scanPullRepo).permits action repo := by
  unfold PassesGates Ceiling.permits ociScopesGrant enforceTokenRepoScope enforceScanPullScope
  cases scopes <;> cases claims.allowedRepoIds <;> cases claims.scanPullRepo <;> simp

variable (S : AuthService τ) (X : TokenText τ) (lower : String → String)

/-- `c` is an API token (a text that is not a signed token), or an access token with ceiling `k`. -/
inductive IsCredential (c : τ) : Ceiling → Prop
  | apiToken {k : Ceiling} : (∀ now, ∃ err, S.key.decode now c = .error err) → IsCredential c k
  | accessToken {claims : Claims} : S.key.encode claims = .ok c → claims.tokenType = .access →
      IsCredential c (claimsCeiling claims)

/-- A call in which no stored hash verifies a signed token, `c` is nobody's password, and, if `c`
is an API token, `k` is the ceiling the database gives it. -/
structure Ordinary (c : τ) (k : Ceiling) (e : Call) : Prop where
  signed_not_stored : ∀ claims t, S.key.encode claims = .ok t →
    ∀ row ∈ e.db.apiTokens, X.verify t row.tokenHash = false
  signed_not_password : ∀ claims t, S.key.encode claims = .ok t →
    ∀ u ∈ e.db.users, ∀ hash, u.passwordHash = some hash → X.verify t hash = false
  not_password : ∀ u ∈ e.db.users, ∀ hash, u.passwordHash = some hash → X.verify c hash = false
  ceiling : ∀ v, apiToken X lower e c = .ok v →
    k = ⟨some v.scopes, v.allowedRepoIds.asAllowedRepoIds, none⟩

/-- Every credential slot that the request fills carries `t`. -/
def Presents (r : TokenRequest τ) (t : τ) : Prop :=
  (∀ cred, r.authorization = some cred → cred = .bearer t ∨ ∃ u, cred = .basic u t) ∧
    ∀ f, r.form = some f → (∀ p, f.password = some p → p = t) ∧
      ∀ p, f.refreshToken = some p → p = t

/-- The tokens obtained from `c` by chains of exchanges. -/
inductive Exchanged (c : τ) (k : Ceiling) : τ → Prop
  | start : Exchanged c k c
  | access {t a : τ} {e : Call} {r : TokenRequest τ} {n : ℕ} {rt : Option τ} : Exchanged c k t →
      Ordinary S X lower c k e → Presents r t → token S X lower e r = .issued a n rt →
      Exchanged c k a
  | refresh {t a rt : τ} {e : Call} {r : TokenRequest τ} {n : ℕ} : Exchanged c k t →
      Ordinary S X lower c k e → Presents r t → token S X lower e r = .issued a n (some rt) →
      Exchanged c k rt

/-- What is returned for `t`, in the Bearer slot or as a Basic password, passes the gates only
inside `k`. -/
def PresentsWithin (c : τ) (k : Ceiling) (t : τ) : Prop :=
  ∀ e cred, Ordinary S X lower c k e → (cred = .bearer t ∨ ∃ u, cred = .basic u t) →
    ∀ claims scopes, authenticateOciWithScopes S X lower e (some cred) = .ok (claims, scopes) →
    ∀ action repo, PassesGates claims scopes action repo → k.permits action repo

variable {S X lower} {c t : τ} {k : Ceiling} {e : Call}

/-- A signed token is not accepted as an API token. -/
theorem Ordinary.apiToken_error (h : Ordinary S X lower c k e) {claims : Claims}
    (ht : S.key.encode claims = .ok t) : ∃ err, apiToken X lower e t = .error err := by
  cases hv : apiToken X lower e t with
  | error err => exact ⟨err, rfl⟩
  | ok v =>
    obtain ⟨row, hrow, -, hver, -⟩ := validateApiToken_ok hv
    obtain ⟨pre, -, hfind⟩ := Option.bind_eq_some_iff.mp hrow
    rw [h.signed_not_stored claims t ht row (List.mem_of_find?_eq_some hfind)] at hver
    cases hver

theorem Ordinary.authenticate_error (h : Ordinary S X lower c k e) {claims : Claims}
    (ht : S.key.encode claims = .ok t) (u : String) :
    ∃ err, (S.authenticate X e u t).1 = .error err :=
  authenticate_error_of_no_match (h.signed_not_password claims t ht) u

/-- Fresh claims never carry an allow-list or a pinned repository. -/
theorem freshClaims_ok (hK : S.key.Lawful) {user : User} {claims : Claims}
    (h : freshClaims S e user = .ok claims) :
    claims.allowedRepoIds = none ∧ claims.scanPullRepo = none := by
  unfold freshClaims at h
  split at h
  · cases h
  next tokens htok =>
  rw [Except.mapError_eq_ok_iff] at h
  rw [hK.decodeToken_eq (generateTokenPairTyped_ok htok).1 (validateAccessToken_ok h).1]
  exact ⟨rfl, rfl⟩

/-- An issued reply comes from one of the three grants, run on the text presented. -/
theorem token_issued {r : TokenRequest τ} {a : τ} {n : ℕ} {rt : Option τ} (hp : Presents r t)
    (h : token S X lower e r = .issued a n rt) :
    handleRefreshGrant S e (some t) = .issued a n rt ∨
      (∃ u accessType, credentialGrant S X lower e u t accessType = .issued a n rt) ∨
      swapBearer S e (some t) = .issued a n rt := by
  obtain ⟨hauth, hform⟩ := hp
  unfold token at h
  split at h
  · cases h
  split at h
  · left
    cases hf : r.form with
    | none => simp [hf, handleRefreshGrant] at h
    | some f =>
      cases hr : f.refreshToken with
      | none => simp [hf, hr, handleRefreshGrant] at h
      | some p =>
        rw [(hform f hf).2 p hr] at hr
        simpa [hf, hr] using h
  right
  split at h
  · next u p hcred =>
    left
    have hpt : p = t := by
      rcases Option.or_eq_some_iff.mp hcred with hb | ⟨-, hb⟩
      · unfold TokenRequest.basicCredentials at hb
        split at hb
        · next hx =>
          cases hb
          rcases hauth _ hx with hc | ⟨u', hc⟩
          · cases hc
          · exact (OciCredential.basic.inj hc).2
        · cases hb
      · unfold TokenRequest.formCredentials at hb
        split at hb
        · next f hf =>
          split at hb
          · split at hb
            · next hpw =>
              cases hb
              exact (hform f hf).1 _ hpw
            · cases hb
          · cases hb
        · cases hb
    exact ⟨u, r.accessType, hpt ▸ h⟩
  · right
    cases hb : r.bearerToken with
    | none => simp [hb, swapBearer] at h
    | some p =>
      unfold TokenRequest.bearerToken at hb
      split at hb
      · next hx =>
        cases hb
        rcases hauth _ hx with hc | ⟨u', hc⟩
        · rw [OciCredential.bearer.inj hc] at hx
          simpa [TokenRequest.bearerToken, hx] using h
        · cases hc
      · cases hb

/-- A text that is neither an API token nor a password resolves through its access claims. -/
theorem resolveCredentials_signed {u : String} {user : User} {tokens : TokenPair τ} {via : Bool}
    (hapi : ∃ err, apiToken X lower e t = .error err)
    (hpw : ∃ err, (S.authenticate X e u t).1 = .error err)
    (h : resolveCredentials S X lower e u t = .ok (user, tokens, via)) :
    via = true ∧ ∃ cl, S.validateAccessTokenAsync e t = .ok cl ∧
      S.generateTokensWithScope e.moment user cl.scopes cl.allowedRepoIds = .ok tokens := by
  obtain ⟨_, hapi⟩ := hapi
  obtain ⟨_, hpw⟩ := hpw
  simp only [resolveCredentials, hapi, hpw] at h
  split at h
  · cases h
  next cl hcl =>
  split at h
  · cases h
  next user' _ =>
  simp only [Except.bind_eq_ok_iff, Except.mapError_eq_ok_iff, Except.pure_eq_ok_iff,
    Prod.mk.injEq] at h
  obtain ⟨toks, htok, rfl, rfl, rfl⟩ := h
  exact ⟨rfl, cl, hcl, htok⟩

theorem resolveCredentials_apiToken {u : String} {user : User} {tokens : TokenPair τ} {via : Bool}
    {v : ApiTokenValidation} (hapi : apiToken X lower e t = .ok v)
    (h : resolveCredentials S X lower e u t = .ok (user, tokens, via)) :
    via = true ∧ S.generateTokensWithScope e.moment user (some v.scopes)
      v.allowedRepoIds.asAllowedRepoIds = .ok tokens := by
  simp only [resolveCredentials, hapi, Except.bind_eq_ok_iff, Except.mapError_eq_ok_iff,
    Except.pure_eq_ok_iff, Prod.mk.injEq] at h
  obtain ⟨toks, htok, rfl, rfl, rfl⟩ := h
  exact ⟨rfl, htok⟩

/-- A grant that did not come from a password login carries no refresh token. -/
theorem credentialGrant_issued {u : String} {accessType : Option String} {a : τ} {n : ℕ}
    {rt : Option τ} (h : credentialGrant S X lower e u t accessType = .issued a n rt) :
    ∃ user tokens via, resolveCredentials S X lower e u t = .ok (user, tokens, via) ∧
      tokens.accessToken = a ∧ (via = true → rt = none) := by
  unfold credentialGrant at h
  split at h
  · cases h
  next user tokens via hres =>
  split at h
  · cases h
  split at h
  · next hoff =>
    split at h
    · cases h
      refine ⟨user, tokens, via, hres, rfl, fun hvia => ?_⟩
      simp [hvia] at hoff
    · cases h
  · cases h
    exact ⟨user, tokens, via, hres, rfl, fun _ => rfl⟩

/-- The exchange hands out an access token that signs claims with ceiling `k'`, and no refresh
token. -/
def IssuesAccess (S : AuthService τ) (k' : Ceiling) (a : τ) (rt : Option τ) : Prop :=
  rt = none ∧ ∃ claims, S.key.encode claims = .ok a ∧ claims.tokenType = .access ∧
    claimsCeiling claims = k'

/-- The ceiling an exchange leaves on an access token: a pinned token loses its other two parts. -/
def exchangedCeiling (k : Ceiling) : Ceiling :=
  match k.scanPullRepo with
  | some key => ⟨none, none, some key⟩
  | none => k

theorem IssuesAccess.of_generate {m : Moment} {user : User} {s : Option (List String)}
    {r : Option (List Uuid)} {tokens : TokenPair τ}
    (h : S.generateTokensWithScope m user s r = .ok tokens) :
    IssuesAccess S ⟨s, r, none⟩ tokens.accessToken none :=
  ⟨rfl, _, (generateTokenPairTyped_ok h).1, rfl, rfl⟩

/-- Exchanging an access token. As a password it loses only the pinned repository. -/
theorem token_issued_signed (hK : S.key.Lawful) (ho : Ordinary S X lower c k e) {claims : Claims}
    (ht : S.key.encode claims = .ok t) (htype : claims.tokenType = .access) {r : TokenRequest τ}
    {a : τ} {n : ℕ} {rt : Option τ} (hp : Presents r t)
    (h : token S X lower e r = .issued a n rt) :
    IssuesAccess S (exchangedCeiling (claimsCeiling claims)) a rt ∨
      IssuesAccess S ⟨claims.scopes, claims.allowedRepoIds, none⟩ a rt := by
  rcases token_issued hp h with h | ⟨u, accessType, h⟩ | h
  · simp only [handleRefreshGrant] at h
    split at h
    · next hmint =>
      obtain ⟨cl, -, -, hd, hreg, -⟩ := mintAccessFromRegistryRefresh_ok hmint
      rw [hK.decodeToken_eq ht hd, htype] at hreg
      cases hreg
    · cases h
  · right
    obtain ⟨user, tokens, via, hres, rfl, hrt⟩ := credentialGrant_issued h
    obtain ⟨rfl, cl, hcl, hgen⟩ := resolveCredentials_signed (ho.apiToken_error ht)
      (ho.authenticate_error ht u) hres
    obtain ⟨c', u', hd, -, -, rfl⟩ := validateAccessTokenAsync_ok hcl
    obtain rfl := hK.decodeToken_eq ht hd
    rw [hrt rfl]
    exact .of_generate hgen
  · left
    simp only [swapBearer] at h
    split at h
    · cases h
    next cl hcl =>
    obtain ⟨c', u', hd, -, -, rfl⟩ := validateAccessTokenAsync_ok hcl
    obtain rfl := hK.decodeToken_eq ht hd
    split at h
    · cases h
    split at h
    · next key hkey =>
      split at h
      · next hscan =>
        cases h
        rw [AuthService.generateScanToken, encodeToken_ok_iff] at hscan
        refine ⟨rfl, _, hscan, rfl, ?_⟩
        simp only at hkey
        simp [exchangedCeiling, claimsCeiling, hkey, AuthService.scanClaims,
          AuthService.accessClaims]
      · cases h
    · next hkey =>
      split at h
      · next hgen =>
        cases h
        simp only at hkey
        simpa [exchangedCeiling, claimsCeiling, hkey] using IssuesAccess.of_generate hgen
      · cases h

/-- A text that never decodes is not an access token. -/
theorem validateAccessTokenAsync_error (hdec : ∀ now, ∃ err, S.key.decode now c = .error err) :
    ∃ err, S.validateAccessTokenAsync e c = .error err := by
  cases hv : S.validateAccessTokenAsync e c with
  | error err => exact ⟨err, rfl⟩
  | ok cl =>
    obtain ⟨c', u', hd, -⟩ := validateAccessTokenAsync_ok hv
    obtain ⟨err, herr⟩ := hdec (timestamp e.moment.nowMs)
    rw [decodeToken_ok_iff, herr] at hd
    cases hd

/-- Exchanging an API token keeps both of its restrictions. -/
theorem token_issued_apiToken (ho : Ordinary S X lower c k e)
    (hdec : ∀ now, ∃ err, S.key.decode now c = .error err) {r : TokenRequest τ} {a : τ} {n : ℕ}
    {rt : Option τ} (hp : Presents r c) (h : token S X lower e r = .issued a n rt) :
    IssuesAccess S k a rt := by
  obtain ⟨verr, hverr⟩ := validateAccessTokenAsync_error (e := e) hdec
  rcases token_issued hp h with h | ⟨u, accessType, h⟩ | h
  · simp only [handleRefreshGrant] at h
    split at h
    · next hmint =>
      obtain ⟨cl, -, -, hd, -⟩ := mintAccessFromRegistryRefresh_ok hmint
      obtain ⟨err, herr⟩ := hdec (timestamp e.moment.nowMs)
      rw [decodeToken_ok_iff, herr] at hd
      cases hd
    · cases h
  · obtain ⟨user, tokens, via, hres, rfl, hrt⟩ := credentialGrant_issued h
    cases hv : apiToken X lower e c with
    | ok v =>
      obtain ⟨rfl, hgen⟩ := resolveCredentials_apiToken hv hres
      rw [hrt rfl, ho.ceiling v hv]
      exact .of_generate hgen
    | error err =>
      obtain ⟨-, cl, hcl, -⟩ := resolveCredentials_signed ⟨err, hv⟩
        (authenticate_error_of_no_match ho.not_password u) hres
      rw [hverr] at hcl
      cases hcl
  · simp [swapBearer, hverr] at h

/-- An access token in the Bearer slot comes back with all its claims. -/
theorem authenticateOci_bearer (hK : S.key.Lawful) (ho : Ordinary S X lower c k e)
    {claims cl : Claims} {scopes : Option (List String)} (ht : S.key.encode claims = .ok t)
    (h : authenticateOciWithScopes S X lower e (some (.bearer t)) = .ok (cl, scopes)) :
    scopes = claims.scopes ∧ ∃ isAdmin, cl = { claims with isAdmin := isAdmin } := by
  obtain ⟨aerr, haerr⟩ := ho.apiToken_error ht
  simp only [authenticateOciWithScopes, haerr] at h
  split at h
  · next hv =>
    cases h
    obtain ⟨c', u', hd, -, -, rfl⟩ := validateAccessTokenAsync_ok hv
    obtain rfl := hK.decodeToken_eq ht hd
    exact ⟨rfl, u'.isAdmin, rfl⟩
  · cases h

/-- As a Basic password it comes back with its scopes only. -/
theorem authenticateOci_password (hK : S.key.Lawful) (ho : Ordinary S X lower c k e)
    {claims cl : Claims} {u : String} {scopes : Option (List String)}
    (ht : S.key.encode claims = .ok t)
    (h : authenticateOciWithScopes S X lower e (some (.basic u t)) = .ok (cl, scopes)) :
    (∃ v, S.validateAccessTokenAsync e t = .ok v) ∧ scopes = claims.scopes ∧
      cl.allowedRepoIds = none ∧ cl.scanPullRepo = none := by
  obtain ⟨aerr, haerr⟩ := ho.apiToken_error ht
  obtain ⟨perr, hperr⟩ := ho.authenticate_error ht u
  simp only [authenticateOciWithScopes, haerr, hperr] at h
  split at h
  · cases h
  next v hv =>
  obtain ⟨c', u', hd, -, -, rfl⟩ := validateAccessTokenAsync_ok hv
  obtain rfl := hK.decodeToken_eq ht hd
  split at h
  · simp only [Except.bind_eq_ok_iff, Except.pure_eq_ok_iff, Prod.mk.injEq] at h
    obtain ⟨fresh, hfresh, rfl, rfl⟩ := h
    exact ⟨⟨_, hv⟩, rfl, freshClaims_ok hK hfresh⟩
  · cases h

/-- Presenting an API token: its scopes come back, its repository allow-list does not. -/
theorem authenticateOci_apiToken (hK : S.key.Lawful) (ho : Ordinary S X lower c k e)
    (hdec : ∀ now, ∃ err, S.key.decode now c = .error err) {cl : Claims}
    {scopes : Option (List String)} {cred : OciCredential τ}
    (hcred : cred = .bearer c ∨ ∃ u, cred = .basic u c)
    (h : authenticateOciWithScopes S X lower e (some cred) = .ok (cl, scopes)) :
    scopes = k.scopes ∧ k.scanPullRepo = none ∧ cl.allowedRepoIds = none ∧
      cl.scanPullRepo = none := by
  obtain ⟨verr, hverr⟩ := validateAccessTokenAsync_error (e := e) hdec
  cases hv : apiToken X lower e c with
  | ok v =>
    have hk := ho.ceiling v hv
    have hfresh : ∃ fresh, freshClaims S e v.user = .ok fresh ∧ fresh = cl ∧
        some v.scopes = scopes := by
      rcases hcred with rfl | ⟨u, rfl⟩
      · simpa only [authenticateOciWithScopes, hverr, hv, Except.bind_eq_ok_iff,
          Except.pure_eq_ok_iff, Prod.mk.injEq] using h
      · simpa only [authenticateOciWithScopes, hv, Except.bind_eq_ok_iff,
          Except.pure_eq_ok_iff, Prod.mk.injEq] using h
    obtain ⟨fresh, hf, rfl, rfl⟩ := hfresh
    obtain ⟨ha, hs⟩ := freshClaims_ok hK hf
    exact ⟨by rw [hk], by rw [hk], ha, hs⟩
  | error err =>
    rcases hcred with rfl | ⟨u, rfl⟩
    · simp [authenticateOciWithScopes, hverr, hv] at h
    · obtain ⟨perr, hperr⟩ := authenticate_error_of_no_match (S := S) ho.not_password u
      simp [authenticateOciWithScopes, hv, hverr, hperr] at h

/-- The ceilings that survive: nothing pinned, and no allow-list unless no action is granted. -/
def Ceiling.Survives (k : Ceiling) : Prop :=
  k.scanPullRepo = none ∧ (k.allowedRepoIds = none ∨ k.scopes = some [])

/-- Dropping the allow-list of a surviving ceiling lets nothing more through. -/
theorem Ceiling.Survives.permits (hk : k.Survives) {cl : Claims} {action : String} {repo : OciRepo}
    (h : PassesGates cl k.scopes action repo) : k.permits action repo := by
  obtain ⟨hscan, hrest⟩ := hk
  obtain ⟨hact, -⟩ := passesGates_iff.mp h
  refine ⟨hact, fun ids hids => ?_, fun key hkey => by rw [hscan] at hkey; cases hkey⟩
  rcases hrest with hnone | hempty
  · rw [hnone] at hids
    cases hids
  · have hfalse := hact [] hempty
    unfold scopesGrantAccess at hfalse
    split at hfalse <;> simp at hfalse

/-- Along a chain from a surviving ceiling, every token is `c` or signs the same ceiling. -/
theorem Exchanged.signs (hK : S.key.Lawful) (hc : IsCredential S c k) (hk : k.scanPullRepo = none)
    (h : Exchanged S X lower c k t) :
    (t = c ∧ ∀ now, ∃ err, S.key.decode now c = .error err) ∨
      ∃ claims, S.key.encode claims = .ok t ∧ claims.tokenType = .access ∧
        claimsCeiling claims = k := by
  have step : ∀ {t a : τ} {e : Call} {r : TokenRequest τ} {n : ℕ} {rt : Option τ},
      ((t = c ∧ ∀ now, ∃ err, S.key.decode now c = .error err) ∨
        ∃ claims, S.key.encode claims = .ok t ∧ claims.tokenType = .access ∧
          claimsCeiling claims = k) →
      Ordinary S X lower c k e → Presents r t → token S X lower e r = .issued a n rt →
      IssuesAccess S k a rt := by
    rintro t a e r n rt (⟨rfl, hdec⟩ | ⟨claims, ht, htype, rfl⟩) ho hp htok
    · exact token_issued_apiToken ho hdec hp htok
    · simp only [claimsCeiling] at hk
      have h := token_issued_signed hK ho ht htype hp htok
      simpa [exchangedCeiling, claimsCeiling, hk] using h
  induction h with
  | start =>
    cases hc with
    | apiToken hdec => exact .inl ⟨rfl, hdec⟩
    | accessToken henc htype => exact .inr ⟨_, henc, htype, rfl⟩
  | access _ ho hp htok ih => exact .inr (step ih ho hp htok).2
  | refresh _ ho hp htok ih => cases (step ih ho hp htok).1

/-- A surviving ceiling is never exceeded. -/
theorem presentsWithin_of_survives (hK : S.key.Lawful) (hc : IsCredential S c k)
    (hk : k.Survives) (h : Exchanged S X lower c k t) : PresentsWithin S X lower c k t := by
  intro e cred ho hcred cl scopes hauth action repo hpass
  rcases h.signs hK hc hk.1 with ⟨rfl, hdec⟩ | ⟨claims, ht, -, rfl⟩
  · obtain ⟨rfl, -⟩ := authenticateOci_apiToken hK ho hdec hcred hauth
    exact hk.permits hpass
  · rcases hcred with rfl | ⟨u, rfl⟩
    · obtain ⟨rfl, -⟩ := authenticateOci_bearer hK ho ht hauth
      exact hk.permits hpass
    · obtain ⟨-, rfl, -⟩ := authenticateOci_password hK ho ht hauth
      exact hk.permits hpass

theorem exists_granted {scopes : Option (List String)} (h : scopes ≠ some []) :
    ∃ action, ociScopesGrant scopes action = true := by
  match scopes with
  | none => exact ⟨"", rfl⟩
  | some [] => exact absurd rfl h
  | some (s :: rest) => exact ⟨s, by simp [ociScopesGrant, scopesGrantAccess]⟩

/-- Claims without repository restrictions pass the gates outside any repository ceiling. -/
theorem exceeds_of_unrestricted {cl : Claims} (hs : k.scopes ≠ some [])
    (hr : k.allowedRepoIds ≠ none ∨ k.scanPullRepo ≠ none)
    (ha : cl.allowedRepoIds = none) (hp : cl.scanPullRepo = none) :
    ∃ action repo, PassesGates cl k.scopes action repo ∧ ¬ k.permits action repo := by
  obtain ⟨action, hact⟩ := exists_granted hs
  have hpass : ∀ repo, PassesGates cl k.scopes action repo := fun repo =>
    ⟨hact, by simp [enforceTokenRepoScope, ha], by simp [enforceScanPullScope, hp]⟩
  rcases hr with hr | hr
  · obtain ⟨ids, hids⟩ := Option.ne_none_iff_exists'.mp hr
    obtain ⟨id, hid⟩ := Infinite.exists_notMem_finset ids.toFinset
    exact ⟨action, ⟨id, ""⟩, hpass _, fun h => hid (List.mem_toFinset.mpr (h.2.1 ids hids))⟩
  · obtain ⟨key, hkey⟩ := Option.ne_none_iff_exists'.mp hr
    obtain ⟨other, hother⟩ : ∃ other : String, key ≠ other := by
      by_cases hk : key = ""
      · exact ⟨"x", by rw [hk]; decide⟩
      · exact ⟨"", hk⟩
    exact ⟨action, ⟨0, other⟩, hpass _, fun h => hother (h.2.2 key hkey)⟩

/-- The same call on a replica that has invalidated nothing. -/
def calm (e : Call) : Call := { e with invalidated := fun _ _ => false }

theorem Ordinary.calm (h : Ordinary S X lower c k e) : Ordinary S X lower c k (calm e) :=
  ⟨h.1, h.2, h.3, h.4⟩

/-- An accepted pinned token can be exchanged, and what it is exchanged for is accepted with no
scopes left. -/
theorem exchange_pinned (hK : S.key.Lawful) (ho : Ordinary S X lower c k e) {claims v : Claims}
    {key : String} (ht : S.key.encode claims = .ok c) (hpin : claims.scanPullRepo = some key)
    (hv : S.validateAccessTokenAsync e c = .ok v) :
    ∃ a cl, Exchanged S X lower c k a ∧
      authenticateOciWithScopes S X lower (calm e) (some (.bearer a)) = .ok (cl, none) ∧
      cl.allowedRepoIds = none ∧ cl.scanPullRepo = some key := by
  obtain ⟨c', user, hd, htype, hu, rfl⟩ := validateAccessTokenAsync_ok hv
  obtain rfl := hK.decodeToken_eq ht hd
  have hv' : S.validateAccessTokenAsync (calm e) c = .ok { c' with isAdmin := user.isAdmin } :=
    validateAccessTokenAsync_of_active hd htype rfl hu
  -- the scan token handed out for it
  obtain ⟨a, ha⟩ := hK.encode_ok (S.scanClaims e.moment user key S.config.scanTokenTtlSeconds)
  have hswap : token S X lower (calm e) ⟨some (.bearer c), none, none, none⟩ =
      .issued a S.config.scanTokenTtlSeconds none := by
    have hgen : S.generateScanToken (calm e).moment user key S.config.scanTokenTtlSeconds = .ok a :=
      encodeToken_ok_iff.mpr ha
    have hload : loadActiveUser (calm e).db.users c'.sub = .ok user := hu
    simp [token, swapBearer, TokenRequest.bearerToken, TokenRequest.basicCredentials,
      TokenRequest.formCredentials, hv', hload, hpin, hgen]
  have hpres : Presents ⟨some (.bearer c), none, none, none⟩ c :=
    ⟨fun cred h => .inl (Option.some.inj h).symm, fun f h => by cases h⟩
  have hd' : S.decodeToken (calm e).moment.nowMs a =
      .ok (S.scanClaims e.moment user key S.config.scanTokenTtlSeconds) := by
    rw [decodeToken_ok_iff]
    refine hK.decode_valid _ _ _ ha ?_ ?_ <;>
      · simp only [calm, AuthService.scanClaims, timestamp]
        omega
  have hu' : loadActiveUser (calm e).db.users user.id = .ok user := by
    rw [(loadActiveUser_ok hu).1]
    exact hu
  refine ⟨a, { S.scanClaims e.moment user key S.config.scanTokenTtlSeconds with
    isAdmin := user.isAdmin }, .access .start ho.calm hpres hswap, ?_, rfl, rfl⟩
  simp only [authenticateOciWithScopes, validateAccessTokenAsync_of_active hd' rfl rfl hu']
  rfl

/-- No chain of exchanges and no presentation exceeds the ceiling of a usable credential exactly
when that ceiling pins no repository and lists none (or grants no action at all). -/
theorem ceiling_never_widened_iff (hK : S.key.Lawful) (hc : IsCredential S c k)
    (husable : ∃ e u r, Ordinary S X lower c k e ∧
      authenticateOciWithScopes S X lower e (some (.basic u c)) = .ok r) :
    (∀ t, Exchanged S X lower c k t → PresentsWithin S X lower c k t) ↔ k.Survives := by
  refine ⟨fun hall => ?_, fun hk t h => presentsWithin_of_survives hK hc hk h⟩
  obtain ⟨e, u, ⟨cl, scopes⟩, ho, hauth⟩ := husable
  by_contra hnot
  -- as a password, the credential comes back with its scopes and without repository restrictions
  have hpassword : scopes = k.scopes ∧ cl.allowedRepoIds = none ∧ cl.scanPullRepo = none := by
    cases hc with
    | apiToken hdec =>
      obtain ⟨hs, -, ha, hp⟩ := authenticateOci_apiToken hK ho hdec (.inr ⟨u, rfl⟩) hauth
      exact ⟨hs, ha, hp⟩
    | accessToken henc _ => exact (authenticateOci_password hK ho henc hauth).2
  obtain ⟨rfl, ha, hp⟩ := hpassword
  by_cases hs : k.scopes = some []
  · -- only a pinned token is left, and its exchange resets the scopes
    have hpin : k.scanPullRepo ≠ none := fun h => hnot ⟨h, .inr hs⟩
    cases hc with
    | apiToken hdec =>
      exact hpin (authenticateOci_apiToken hK ho hdec (.inr ⟨u, rfl⟩) hauth).2.1
    | accessToken henc _ =>
      obtain ⟨key, hkey⟩ := Option.ne_none_iff_exists'.mp hpin
      obtain ⟨⟨v, hv⟩, -⟩ := authenticateOci_password hK ho henc hauth
      obtain ⟨a, cl', hex, hacc, ha', hp'⟩ := exchange_pinned hK ho henc hkey hv
      have hpass : PassesGates cl' none "read:artifacts" ⟨0, key⟩ :=
        ⟨rfl, by simp [enforceTokenRepoScope, ha'], by simp [enforceScanPullScope, hp']⟩
      have hperm := hall a hex (calm e) _ ho.calm (.inl rfl) cl' none hacc _ _ hpass
      have hfalse := hperm.1 [] hs
      revert hfalse
      decide
  · have hr : k.allowedRepoIds ≠ none ∨ k.scanPullRepo ≠ none := by
      by_contra hboth
      push Not at hboth
      exact hnot ⟨hboth.2, .inl hboth.1⟩
    obtain ⟨action, repo, hpass, hout⟩ := exceeds_of_unrestricted hs hr ha hp
    exact hout (hall c .start e _ ho (.inr ⟨u, rfl⟩) cl k.scopes hauth action repo hpass)

/-- Two repositories, one user, and one API token with the given join rows. -/
def registryCall (tokenRepos : List (Uuid × Uuid))
    (h : ∀ p ∈ tokenRepos, p.1 = 50 ∧ (p.2 = 7 ∨ p.2 = 8)) : Call where
  moment := loginMoment
  dbNow := 0
  db := { twoRepos with
    apiTokens := [ciTokenRow]
    tokenRepos := tokenRepos
    apiTokens_pk := ciTokenRow_pk
    tokenRepos_token := fun p hp => ⟨ciTokenRow, by simp, (h p hp).1.symm⟩
    tokenRepos_repo := fun p hp => (h p hp).2.elim
      (fun e => ⟨⟨7, "libs", "docker"⟩, by decide, e.symm⟩)
      fun e => ⟨⟨8, "secret", "docker"⟩, by decide, e.symm⟩ }
  jtis := fun _ => none
  invalidated := fun _ _ => false
  invalidatedInMemory := fun _ _ => false

theorem registryCall_ordinary {tokenRepos : List (Uuid × Uuid)}
    {h : ∀ p ∈ tokenRepos, p.1 = 50 ∧ (p.2 = 7 ∨ p.2 = 8)} {k : Ceiling}
    (hk : ∀ v, apiToken plainTokenText id (registryCall tokenRepos h) ciToken = .ok v →
      k = ⟨some v.scopes, v.allowedRepoIds.asAllowedRepoIds, none⟩) :
    Ordinary plainService plainTokenText id ciToken k (registryCall tokenRepos h) where
  signed_not_stored claims t ht row _ := by
    cases ht
    rfl
  signed_not_password claims t ht u _ hash _ := by
    cases ht
    rfl
  not_password u hu hash hhash := by
    obtain rfl : u = ciUser := by simpa [registryCall, twoRepos] using hu
    obtain rfl : "$2b$password" = hash := by simpa [ciUser] using hhash
    decide
  ceiling := hk

/-- A read token listed for repository 7 only, presented in the Bearer slot, passes every gate for
repository 8. -/
theorem allow_list_lost_on_presentation : ∃ cl,
    IsCredential plainService ciToken ⟨some ["read:artifacts"], some [7], none⟩ ∧
      Ordinary plainService plainTokenText id ciToken ⟨some ["read:artifacts"], some [7], none⟩
        (registryCall [(50, 7)] (by decide)) ∧
      authenticateOciWithScopes plainService plainTokenText id
        (registryCall [(50, 7)] (by decide)) (some (.bearer ciToken)) =
          .ok (cl, some ["read:artifacts"]) ∧
      PassesGates cl (some ["read:artifacts"]) "read:artifacts" ⟨8, "secret"⟩ ∧
      ¬ (Ceiling.mk (some ["read:artifacts"]) (some [7]) none).permits "read:artifacts"
        ⟨8, "secret"⟩ := by
  refine ⟨_, .apiToken fun now => ⟨_, rfl⟩, registryCall_ordinary ?_, rfl, ⟨rfl, rfl, rfl⟩, ?_⟩
  · intro v hv
    obtain rfl := Except.ok.inj hv
    rfl
  · intro h
    exact absurd (h.2.1 [7] rfl) (by decide)

/-- A read token without a repository list stays a read token through every chain. -/
theorem ceiling_never_widened_read_token :
    Ceiling.Survives ⟨some ["read:artifacts"], none, none⟩ ∧ ∀ t,
      Exchanged plainService plainTokenText id ciToken ⟨some ["read:artifacts"], none, none⟩ t →
        PresentsWithin plainService plainTokenText id ciToken
          ⟨some ["read:artifacts"], none, none⟩ t := by
  have hsurvives : Ceiling.Survives ⟨some ["read:artifacts"], none, none⟩ := ⟨rfl, .inl rfl⟩
  refine ⟨hsurvives,
    (ceiling_never_widened_iff plainKey_lawful (.apiToken fun now => ⟨_, rfl⟩) ?_).mpr hsurvives⟩
  refine ⟨registryCall [] (by decide), "ci", _, registryCall_ordinary ?_, rfl⟩
  intro v hv
  obtain rfl := Except.ok.inj hv
  rfl

end ArtifactKeeper.Oci
