import ArtifactKeeper.Result
import ArtifactKeeper.Auth.ApiToken
import ArtifactKeeper.Auth.Jti

/-! `refresh_tokens` and `mint_access_from_registry_refresh`, and what happens to the ceiling of a
token pair along chains of refresh calls. -/

namespace ArtifactKeeper.Auth
variable {τ : Type}

/-- What one call reads: its clock and fresh identifiers, the database, and the verdicts of the
replica-safe invalidation check and of the in-memory one. -/
structure Call where
  moment : Moment
  dbNow : ℤ
  db : TokenDb
  jtis : JtiTable
  invalidated : Uuid → ℤ → Bool
  invalidatedInMemory : Uuid → ℤ → Bool

namespace AuthService

/-- Decode the refresh token just minted and insert its row. -/
def persistRefreshJtiFromPair (S : AuthService τ) (nowMs : ℕ) (tbl : JtiTable)
    (tokens : TokenPair τ) (userId : Uuid) : Except AppError JtiTable := do
  let claims ← S.decodeToken nowMs tokens.refreshToken
  match claims.jti, claims.familyId with
  | some jti, some familyId =>
    return recordRefreshTokenJti tbl jti (mintedRow userId familyId claims)
  | _, _ => return tbl

/-- The winner of the conditional consume: load the user, mint the successor in the same family,
insert its row and link the parent to it, all on the transaction that holds `consumed`. -/
def rotateWinner (S : AuthService τ) (e : Call) (claims : Claims) (jti familyId : Uuid)
    (consumed : JtiTable) : Except AppError ((User × TokenPair τ) × JtiTable) := do
  let user ← loadActiveUser e.db.users claims.sub
  let tokens ← S.generateTokensWithFamilyAndScope e.moment user familyId claims.allowedRepoIds
    claims.scopes
  let succ ← S.decodeToken e.moment.nowMs tokens.refreshToken
  match succ.jti, succ.familyId with
  | some succJti, some succFamily =>
    let inserted := recordRefreshTokenJti consumed succJti (mintedRow user.id succFamily succ)
    return ((user, tokens), setSupersededBy inserted jti succJti)
  | _, _ => return ((user, tokens), consumed)

/-- Rotation of a token without a recorded row, in family `familyId`. -/
def rotateUnrecorded (S : AuthService τ) (e : Call) (claims : Claims) (familyId : Uuid) :
    Except AppError ((User × TokenPair τ) × JtiTable) := do
  let user ← loadActiveUser e.db.users claims.sub
  let tokens ← S.generateTokensWithFamilyAndScope e.moment user familyId claims.allowedRepoIds
    claims.scopes
  let tbl ← S.persistRefreshJtiFromPair e.moment.nowMs e.jtis tokens user.id
  return ((user, tokens), tbl)

/-- The table after a call: an error rolls the transaction back. -/
def settle {α : Type} (before : JtiTable) :
    Except AppError (α × JtiTable) → Except AppError α × JtiTable
  | .ok (a, after) => (.ok a, after)
  | .error e => (.error e, before)

/-- `refresh_tokens`, run alone: the answer and the table it leaves. -/
def refreshTokens (S : AuthService τ) (e : Call) (refreshToken : τ) :
    Except AppError (User × TokenPair τ) × JtiTable :=
  match S.decodeToken e.moment.nowMs refreshToken with
  | .error err => (.error err, e.jtis)
  | .ok claims =>
    if claims.tokenType ≠ .refresh then (.error (.authentication "Invalid token type"), e.jtis)
    else if e.invalidated claims.sub claims.effectiveIatMs then
      (.error (.authentication "Token invalidated by credential change"), e.jtis)
    else match claims.jti, claims.familyId with
      | some jti, some familyId =>
        match consumeJti e.jtis e.dbNow jti with
        | some consumed => settle e.jtis (S.rotateWinner e claims jti familyId consumed)
        | none =>
          match classifyLoser e.jtis e.dbNow jti with
          | .rowMissing => settle e.jtis (S.rotateUnrecorded e claims familyId)
          | .revoked => (.error (.authentication "Refresh token has been revoked"), e.jtis)
          | .genuineReplay family => (.error (.authentication "Refresh token replay detected"),
              revokeRows e.jtis e.dbNow (.family family))
          | .alreadyUsed => (.error (.authentication "Refresh token already used"), e.jtis)
      | _, _ => settle e.jtis (S.rotateUnrecorded e claims e.moment.newFamily)

/-- The non-rotating registry refresh: the presented token is handed back unchanged. -/
def mintAccessFromRegistryRefresh (S : AuthService τ) (e : Call) (refreshToken : τ) :
    Except AppError (User × TokenPair τ) := do
  let claims ← S.decodeToken e.moment.nowMs refreshToken
  if claims.tokenType ≠ .registryRefresh then throw (.authentication "Invalid token type")
  else if e.invalidated claims.sub claims.effectiveIatMs then
    throw (.authentication "Token invalidated by credential change")
  else if (claims.jti.bind e.jtis).any fun r => r.revokedAt.isSome then
    throw (.authentication "Refresh token has been revoked")
  else
    let user ← loadActiveUser e.db.users claims.sub
    let minted ← S.generateTokensWithFamilyAndScope e.moment user
      (claims.familyId.getD e.moment.newFamily) claims.allowedRepoIds claims.scopes
    return (user, ⟨minted.accessToken, refreshToken, minted.expiresIn⟩)

def generateRegistryOfflineToken (S : AuthService τ) (m : Moment) (tbl : JtiTable) (user : User)
    (allowedRepoIds : Option (List Uuid)) (scopes : Option (List String)) :
    Except AppError (τ × JtiTable) := do
  let pair ← S.generateTokenPairTyped m user m.newFamily allowedRepoIds scopes .registryRefresh
  let tbl' ← S.persistRefreshJtiFromPair m.nowMs tbl pair user.id
  return (pair.refreshToken, tbl')

/-- `synced` is the outcome of `sync_federated_user`. -/
def authenticateFederatedWithScope (S : AuthService τ) (m : Moment) (tbl : JtiTable)
    (synced : Except AppError User) (allowedRepoIds : Option (List Uuid)) :
    Except AppError ((User × TokenPair τ) × JtiTable) := do
  let user ← synced
  let tokens ← S.generateTokensWithRepoScope m user allowedRepoIds
  let tbl' ← S.persistRefreshJtiFromPair m.nowMs tbl tokens user.id
  return ((user, tokens), tbl')

end AuthService

variable {S : AuthService τ}

theorem settle_ok {α : Type} {before : JtiTable} {x : Except AppError (α × JtiTable)} {a : α}
    (h : (AuthService.settle before x).1 = .ok a) : ∃ after, x = .ok (a, after) := by
  cases x with
  | error e => simp [AuthService.settle] at h
  | ok r =>
    obtain ⟨b, after⟩ := r
    simp only [AuthService.settle, Except.ok.injEq] at h
    exact ⟨after, by rw [h]⟩

/-- Whatever branch a successful rotation takes, the pair it returns is minted from the presented
claims: their scopes and their repository allow-list. -/
theorem refreshTokens_ok {e : Call} {t : τ} {u : User} {p : TokenPair τ}
    (h : (S.refreshTokens e t).1 = .ok (u, p)) :
    ∃ claims family, S.decodeToken e.moment.nowMs t = .ok claims ∧
      S.generateTokenPairTyped e.moment u family claims.allowedRepoIds claims.scopes .refresh =
        .ok p := by
  unfold AuthService.refreshTokens at h
  split at h
  · simp at h
  · next claims hc =>
    split at h
    · simp at h
    split at h
    · simp at h
    have unrecorded : ∀ family after, S.rotateUnrecorded e claims family = .ok ((u, p), after) →
        S.generateTokenPairTyped e.moment u family claims.allowedRepoIds claims.scopes .refresh =
          .ok p := by
      intro family after hr
      simp only [AuthService.rotateUnrecorded, Except.bind_eq_ok_iff, Except.pure_eq_ok_iff,
        Prod.mk.injEq] at hr
      obtain ⟨user, _, tokens, htok, _, _, ⟨rfl, rfl⟩, _⟩ := hr
      exact htok
    split at h
    · next jti family hj hf =>
      split at h
      · next consumed hcons =>
        obtain ⟨after, hr⟩ := settle_ok h
        simp only [AuthService.rotateWinner, Except.bind_eq_ok_iff] at hr
        obtain ⟨user, _, tokens, htok, succ, _, hr⟩ := hr
        refine ⟨claims, family, hc, ?_⟩
        split at hr <;>
          · simp only [Except.pure_eq_ok_iff, Prod.mk.injEq] at hr
            obtain ⟨⟨rfl, rfl⟩, _⟩ := hr
            exact htok
      · split at h
        · obtain ⟨after, hr⟩ := settle_ok h
          exact ⟨claims, family, hc, unrecorded family after hr⟩
        all_goals simp at h
    · obtain ⟨after, hr⟩ := settle_ok h
      exact ⟨claims, _, hc, unrecorded _ after hr⟩

theorem mintAccessFromRegistryRefresh_ok {e : Call} {t : τ} {u : User} {p : TokenPair τ}
    (h : S.mintAccessFromRegistryRefresh e t = .ok (u, p)) :
    ∃ claims family minted, S.decodeToken e.moment.nowMs t = .ok claims ∧
      claims.tokenType = .registryRefresh ∧
      S.generateTokenPairTyped e.moment u family claims.allowedRepoIds claims.scopes .refresh =
        .ok minted ∧ p.accessToken = minted.accessToken ∧ p.refreshToken = t := by
  simp only [AuthService.mintAccessFromRegistryRefresh, Except.bind_eq_ok_iff] at h
  obtain ⟨claims, hc, h⟩ := h
  split at h
  · simp at h
  next htype =>
  split at h
  · simp at h
  split at h
  · simp at h
  simp only [Except.bind_eq_ok_iff, Except.pure_eq_ok_iff, Prod.mk.injEq] at h
  obtain ⟨user, _, minted, hm, rfl, rfl⟩ := h
  exact ⟨claims, _, minted, hc, not_not.mp htype, hm, rfl, rfl⟩

/-- A refresh token minted at `m` with action scopes and repository allow-list as given, by any of
the minting paths, together with the access token handed out beside it, if any. -/
inductive Minted (S : AuthService τ) (m : Moment) :
    Option (List String) → Option (List Uuid) → Option τ → τ → Prop
  | tokens {user : User} {p : TokenPair τ} : S.generateTokens m user = .ok p →
      Minted S m none none (some p.accessToken) p.refreshToken
  | repoScope {user : User} {r : Option (List Uuid)} {p : TokenPair τ} :
      S.generateTokensWithRepoScope m user r = .ok p →
      Minted S m none r (some p.accessToken) p.refreshToken
  | scope {user : User} {s : Option (List String)} {r : Option (List Uuid)} {p : TokenPair τ} :
      S.generateTokensWithScope m user s r = .ok p →
      Minted S m s r (some p.accessToken) p.refreshToken
  | family {user : User} {familyId : Uuid} {p : TokenPair τ} :
      S.generateTokensWithFamily m user familyId = .ok p →
      Minted S m none none (some p.accessToken) p.refreshToken
  | registryOffline {user : User} {tbl tbl' : JtiTable} {s : Option (List String)}
      {r : Option (List Uuid)} {t : τ} :
      S.generateRegistryOfflineToken m tbl user r s = .ok (t, tbl') → Minted S m s r none t
  | federated {synced : Except AppError User} {tbl tbl' : JtiTable} {u : User}
      {r : Option (List Uuid)} {p : TokenPair τ} :
      S.authenticateFederatedWithScope m tbl synced r = .ok ((u, p), tbl') →
      Minted S m none r (some p.accessToken) p.refreshToken

/-- `p` is handed out for the refresh token `t` by one of the two refresh endpoints. -/
def Refreshed (S : AuthService τ) (e : Call) (t : τ) (p : TokenPair τ) : Prop :=
  ∃ u, (S.refreshTokens e t).1 = .ok (u, p) ∨ S.mintAccessFromRegistryRefresh e t = .ok (u, p)

/-- The refresh tokens held along a chain of calls from `t₀`, with the time of the last call. The
database may change in any way between two calls; the clock does not go back. -/
inductive RefreshChain (S : AuthService τ) (start : ℕ) (t₀ : τ) : ℕ → τ → Prop
  | start : RefreshChain S start t₀ start t₀
  | call {now : ℕ} {t : τ} {e : Call} {p : TokenPair τ} : RefreshChain S start t₀ now t →
      now ≤ e.moment.nowMs → Refreshed S e t p →
      RefreshChain S start t₀ e.moment.nowMs p.refreshToken

/-- `a` is an access token obtained by some chain of refresh calls from `t₀`. -/
def ObtainedAccess (S : AuthService τ) (start : ℕ) (t₀ a : τ) : Prop :=
  ∃ now t e p, RefreshChain S start t₀ now t ∧ now ≤ e.moment.nowMs ∧ Refreshed S e t p ∧
    p.accessToken = a

/-- Every claim set signed into `a` has the given ceiling. -/
def Carries (S : AuthService τ) (a : τ) (s : Option (List String)) (r : Option (List Uuid)) :
    Prop :=
  ∀ c, S.key.encode c = .ok a → c.scopes = s ∧ c.allowedRepoIds = r

/-- The token signs refresh claims with action scopes `s`. -/
def SignsRefresh (S : AuthService τ) (s : Option (List String)) (t : τ) : Prop :=
  ∃ m user family kind, S.key.encode (S.refreshClaims m user family s kind) = .ok t

theorem Minted.signs {m : Moment} {s : Option (List String)} {r : Option (List Uuid)}
    {a : Option τ} {t : τ} (h : Minted S m s r a t) :
    ∃ user family kind, (kind = .refresh ∨ kind = .registryRefresh) ∧
      S.key.encode (S.refreshClaims m user family s kind) = .ok t ∧
      ∀ x, a = some x → S.key.encode (S.accessClaims m user r s) = .ok x := by
  cases h with
  | tokens h | repoScope h | scope h | family h =>
    obtain ⟨ha, hr⟩ := generateTokenPairTyped_ok h
    exact ⟨_, _, .refresh, .inl rfl, hr, by rintro x ⟨⟩; exact ha⟩
  | registryOffline h =>
    simp only [AuthService.generateRegistryOfflineToken, Except.bind_eq_ok_iff,
      Except.pure_eq_ok_iff, Prod.mk.injEq] at h
    obtain ⟨pair, hp, _, _, rfl, _⟩ := h
    exact ⟨_, _, .registryRefresh, .inr rfl, (generateTokenPairTyped_ok hp).2, by simp⟩
  | federated h =>
    simp only [AuthService.authenticateFederatedWithScope, Except.bind_eq_ok_iff,
      Except.pure_eq_ok_iff, Prod.mk.injEq] at h
    obtain ⟨user, _, tokens, htok, _, _, ⟨_, rfl⟩, _⟩ := h
    obtain ⟨ha, hr⟩ := generateTokenPairTyped_ok htok
    exact ⟨_, _, .refresh, .inl rfl, hr, by rintro x ⟨⟩; exact ha⟩

/-- One refresh call keeps the scopes and hands out an access token without an allow-list. -/
theorem Refreshed.signs (hK : S.key.Lawful) {e : Call} {s : Option (List String)} {t : τ}
    {p : TokenPair τ} (hs : SignsRefresh S s t) (h : Refreshed S e t p) :
    (∃ user, S.key.encode (S.accessClaims e.moment user none s) = .ok p.accessToken) ∧
      SignsRefresh S s p.refreshToken := by
  obtain ⟨m, user, family, kind, ht⟩ := hs
  obtain ⟨u, h | h⟩ := h
  · obtain ⟨claims, family', hd, hp⟩ := refreshTokens_ok h
    have hc := hK.decodeToken_eq ht hd
    subst hc
    obtain ⟨ha, hr⟩ := generateTokenPairTyped_ok hp
    exact ⟨⟨u, ha⟩, _, _, _, _, hr⟩
  · obtain ⟨claims, family', minted, hd, -, hp, hacc, href⟩ := mintAccessFromRegistryRefresh_ok h
    have hc := hK.decodeToken_eq ht hd
    subst hc
    rw [hacc, href]
    exact ⟨⟨u, (generateTokenPairTyped_ok hp).1⟩, m, user, family, kind, ht⟩

theorem RefreshChain.signs (hK : S.key.Lawful) {start now : ℕ} {s : Option (List String)}
    {t₀ t : τ} (h₀ : SignsRefresh S s t₀) (h : RefreshChain S start t₀ now t) :
    SignsRefresh S s t := by
  induction h with
  | start => exact h₀
  | call _ _ hr ih => exact (hr.signs hK ih).2

theorem ObtainedAccess.signs (hK : S.key.Lawful) {start : ℕ} {s : Option (List String)}
    {t₀ a : τ} (h₀ : SignsRefresh S s t₀) (h : ObtainedAccess S start t₀ a) :
    ∃ m user, S.key.encode (S.accessClaims m user none s) = .ok a := by
  obtain ⟨now, t, e, p, hchain, _, hr, rfl⟩ := h
  obtain ⟨⟨user, ha⟩, _⟩ := hr.signs hK (hchain.signs hK h₀)
  exact ⟨e.moment, user, ha⟩

theorem carries_of_encode (hK : S.key.Lawful) {c : Claims} {a : τ} (h : S.key.encode c = .ok a) :
    Carries S a c.scopes c.allowedRepoIds := by
  intro c' h'
  rw [hK.encode_inj c c' a h h']
  exact ⟨rfl, rfl⟩

/-- With a negative lifetime a refresh token is born expired. -/
theorem refreshClaims_expired {m : Moment} {user : User} {family : Uuid}
    {s : Option (List String)} {kind : TokenType} {n : ℕ}
    (hneg : S.config.jwtRefreshTokenExpiryDays < 0) (hn : m.nowMs ≤ n) :
    (S.refreshClaims m user family s kind).exp + 60 < timestamp n := by
  simp only [AuthService.refreshClaims, timestamp]
  omega

/-- With a lifetime that is not negative it verifies when it is minted. -/
theorem refreshClaims_decodes (hK : S.key.Lawful) {m : Moment} {user : User} {family : Uuid}
    {s : Option (List String)} {kind : TokenType} {t : τ}
    (hpos : 0 ≤ S.config.jwtRefreshTokenExpiryDays)
    (ht : S.key.encode (S.refreshClaims m user family s kind) = .ok t) :
    S.decodeToken m.nowMs t = .ok (S.refreshClaims m user family s kind) := by
  rw [decodeToken_ok_iff]
  apply hK.decode_valid _ _ _ ht
  · simp only [AuthService.refreshClaims, timestamp]
    omega
  · simp only [AuthService.refreshClaims, timestamp]
    omega

theorem Refreshed.decodes {e : Call} {t : τ} {p : TokenPair τ} (h : Refreshed S e t p) :
    ∃ claims, S.decodeToken e.moment.nowMs t = .ok claims := by
  obtain ⟨u, h | h⟩ := h
  · obtain ⟨claims, _, hd, _⟩ := refreshTokens_ok h
    exact ⟨claims, hd⟩
  · obtain ⟨claims, _, _, hd, _⟩ := mintAccessFromRegistryRefresh_ok h
    exact ⟨claims, hd⟩

/-- A token born expired refreshes to nothing, so its chains never leave the start. -/
theorem RefreshChain.stuck (hK : S.key.Lawful) {m : Moment} {user : User} {family : Uuid}
    {s : Option (List String)} {kind : TokenType} {t₀ t : τ} {now : ℕ}
    (hneg : S.config.jwtRefreshTokenExpiryDays < 0)
    (ht : S.key.encode (S.refreshClaims m user family s kind) = .ok t₀)
    (h : RefreshChain S m.nowMs t₀ now t) : t = t₀ ∧ m.nowMs = now := by
  induction h with
  | start => exact ⟨rfl, rfl⟩
  | call _ hle hr ih =>
    obtain ⟨rfl, rfl⟩ := ih
    obtain ⟨claims, hd⟩ := hr.decodes
    obtain ⟨err, herr⟩ := hK.decode_expired _ _ _ ht (refreshClaims_expired hneg hle)
    rw [decodeToken_ok_iff, herr] at hd
    cases hd

theorem not_obtainedAccess_of_negative (hK : S.key.Lawful) {m : Moment} {user : User}
    {family : Uuid} {s : Option (List String)} {kind : TokenType} {t₀ a : τ}
    (hneg : S.config.jwtRefreshTokenExpiryDays < 0)
    (ht : S.key.encode (S.refreshClaims m user family s kind) = .ok t₀) :
    ¬ ObtainedAccess S m.nowMs t₀ a := by
  rintro ⟨now, t, e, p, hchain, hle, hr, _⟩
  obtain ⟨-, hnow⟩ := (hchain.call hle hr).stuck hK hneg ht
  obtain ⟨rfl, -⟩ := hchain.stuck hK hneg ht
  obtain ⟨claims, hd⟩ := hr.decodes
  obtain ⟨err, herr⟩ := hK.decode_expired _ _ _ ht
    (refreshClaims_expired hneg (hnow.le : m.nowMs ≤ e.moment.nowMs))
  rw [decodeToken_ok_iff, herr] at hd
  cases hd

/-- The call an active user makes right after the mint, with the row of the token still live. -/
def immediateCall (m : Moment) (user : User) (family : Uuid) : Call where
  moment := ⟨m.nowMs, m.newFamily + 1, m.newJti + 1⟩
  dbNow := m.nowMs
  db := ⟨[{ user with isActive := true }], [], [], [], [], noTokens_pk, noTokenRepos_token,
    by simp⟩
  jtis := Function.update (fun _ => none) m.newJti
    (some ⟨user.id, family, m.nowMs, m.nowMs, none, none, none⟩)
  invalidated := fun _ _ => false
  invalidatedInMemory := fun _ _ => false

theorem loadActiveUser_immediateCall (m : Moment) (user : User) (family : Uuid) :
    loadActiveUser (immediateCall m user family).db.users user.id =
      .ok { user with isActive := true } := by
  simp [loadActiveUser, immediateCall]

theorem exists_rotateWinner {e : Call} {claims succ : Claims} {family : Uuid} {u : User}
    {q : TokenPair τ} (jti : Uuid) (consumed : JtiTable)
    (hu : loadActiveUser e.db.users claims.sub = .ok u)
    (hq : S.generateTokenPairTyped e.moment u family claims.allowedRepoIds claims.scopes .refresh =
      .ok q)
    (hs : S.decodeToken e.moment.nowMs q.refreshToken = .ok succ) :
    ∃ after, S.rotateWinner e claims jti family consumed = .ok ((u, q), after) := by
  simp only [AuthService.rotateWinner, AuthService.generateTokensWithFamilyAndScope, hu, hq, hs,
    bind, Except.bind]
  split
  · exact ⟨_, rfl⟩
  · exact ⟨_, rfl⟩

/-- A live row and an active user make `refresh_tokens` succeed. -/
theorem refreshTokens_of_live {e : Call} {t : τ} {claims succ : Claims} {jti family : Uuid}
    {u : User} {q : TokenPair τ} (hd : S.decodeToken e.moment.nowMs t = .ok claims)
    (hk : claims.tokenType = .refresh) (hj : claims.jti = some jti)
    (hf : claims.familyId = some family)
    (hi : e.invalidated claims.sub claims.effectiveIatMs = false)
    (hrow : ∃ r, e.jtis jti = some r ∧ r.live = true)
    (hu : loadActiveUser e.db.users claims.sub = .ok u)
    (hq : S.generateTokenPairTyped e.moment u family claims.allowedRepoIds claims.scopes .refresh =
      .ok q)
    (hs : S.decodeToken e.moment.nowMs q.refreshToken = .ok succ) :
    (S.refreshTokens e t).1 = .ok (u, q) := by
  obtain ⟨r, hr, hl⟩ := hrow
  have hcons : consumeJti e.jtis e.dbNow jti =
      some (Function.update e.jtis jti (some { r with consumedAt := some e.dbNow })) := by
    simp [consumeJti, hr, hl]
  obtain ⟨after, hw⟩ := exists_rotateWinner jti
    (Function.update e.jtis jti (some { r with consumedAt := some e.dbNow })) hu hq hs
  unfold AuthService.refreshTokens
  simp only [hd, hk, hj, hf, hi, hcons, hw, ne_eq, not_true_eq_false, if_false,
    Bool.false_eq_true, AuthService.settle]

/-- A token that is not born expired can be refreshed. -/
theorem exists_refreshed (hK : S.key.Lawful) {m : Moment} {user : User} {family : Uuid}
    {s : Option (List String)} {kind : TokenType} {t : τ}
    (hpos : 0 ≤ S.config.jwtRefreshTokenExpiryDays)
    (hkind : kind = .refresh ∨ kind = .registryRefresh)
    (ht : S.key.encode (S.refreshClaims m user family s kind) = .ok t) :
    ∃ p, Refreshed S (immediateCall m user family) t p := by
  have hd := refreshClaims_decodes hK hpos ht
  have hu := loadActiveUser_immediateCall m user family
  obtain ⟨q, hq⟩ := exists_generateTokenPairTyped hK (immediateCall m user family).moment
    { user with isActive := true } family none s .refresh
  rcases hkind with rfl | rfl
  · have hs := refreshClaims_decodes hK hpos (generateTokenPairTyped_ok hq).2
    refine ⟨q, _, .inl (refreshTokens_of_live hd rfl rfl rfl rfl ?_ hu hq hs)⟩
    exact ⟨_, by simp [immediateCall]; rfl, rfl⟩
  · refine ⟨⟨q.accessToken, t, q.expiresIn⟩, { user with isActive := true }, .inr ?_⟩
    have hmom : (immediateCall m user family).moment.nowMs = m.nowMs := rfl
    simp only [AuthService.mintAccessFromRegistryRefresh, hmom, hd, bind, Except.bind,
      AuthService.refreshClaims, ne_eq, not_true_eq_false, if_false, hu,
      AuthService.generateTokensWithFamilyAndScope, Option.getD_some, hq]
    simp [immediateCall]

/-- Along every chain of refresh calls the access tokens keep the minted ceiling exactly when the
pair was minted without a repository allow-list, or its refresh token is born expired. -/
theorem refresh_keeps_ceiling_iff (hK : S.key.Lawful) {m : Moment} {s : Option (List String)}
    {r : Option (List Uuid)} {a : Option τ} {t : τ} (hm : Minted S m s r a t) :
    (∀ x, a = some x ∨ ObtainedAccess S m.nowMs t x → Carries S x s r) ↔
      r = none ∨ S.config.jwtRefreshTokenExpiryDays < 0 := by
  obtain ⟨user, family, kind, hkind, ht, ha⟩ := hm.signs
  constructor
  · intro hall
    by_contra hnot
    push Not at hnot
    obtain ⟨hr, hpos⟩ := hnot
    obtain ⟨p, hp⟩ := exists_refreshed hK hpos hkind ht
    obtain ⟨⟨u, hacc⟩, -⟩ := hp.signs hK ⟨m, user, family, kind, ht⟩
    have hobt : ObtainedAccess S m.nowMs t p.accessToken :=
      ⟨m.nowMs, t, immediateCall m user family, p, .start, le_rfl, hp, rfl⟩
    exact hr (hall _ (.inr hobt) _ hacc).2.symm
  · rintro hcond x (hx | hx)
    · exact carries_of_encode hK (ha x hx)
    · rcases hcond with rfl | hneg
      · obtain ⟨m', u, hacc⟩ := hx.signs hK ⟨m, user, family, kind, ht⟩
        exact carries_of_encode hK hacc
      · exact absurd hx (not_obtainedAccess_of_negative hK hneg ht)

/-- The default configuration, with tokens in the clear. -/
def plainService : AuthService (Claims ⊕ String) := ⟨plainKey, ⟨30, 7, 300, 5, 30, 0⟩⟩

def loginMoment : Moment := ⟨1700000000123, 100, 200⟩
def readScope : Option (List String) := some ["read:artifacts"]

/-- A pair restricted to repository 7: one rotation hands out an unrestricted access token. -/
theorem refresh_drops_allow_list : ∃ p p' : TokenPair (Claims ⊕ String),
    plainService.generateTokensWithScope loginMoment ciUser readScope (some [7]) = .ok p ∧
      (plainService.refreshTokens (immediateCall loginMoment ciUser 100) p.refreshToken).1 =
        .ok (ciUser, p') ∧
      ¬ (∀ x, some p.accessToken = some x ∨
        ObtainedAccess plainService loginMoment.nowMs p.refreshToken x →
        Carries plainService x readScope (some [7])) := by
  refine ⟨_, _, rfl, rfl, fun hall => ?_⟩
  have h := hall _ (.inr ⟨_, _, _, _, .start, Nat.le_refl loginMoment.nowMs,
    ⟨ciUser, .inl (rfl : (plainService.refreshTokens (immediateCall loginMoment ciUser 100) _).1 =
      .ok (ciUser, _))⟩, rfl⟩) _ rfl
  exact absurd h.2 (by simp [AuthService.accessClaims, AuthService.refreshClaims])

/-- A pair with scopes and no allow-list keeps the scopes through every chain. -/
theorem refresh_keeps_ceiling_scoped : ∃ p : TokenPair (Claims ⊕ String),
    plainService.generateTokensWithScope loginMoment ciUser readScope none = .ok p ∧
      ∀ x, some p.accessToken = some x ∨
        ObtainedAccess plainService loginMoment.nowMs p.refreshToken x →
        Carries plainService x readScope none :=
  have hmint : plainService.generateTokensWithScope loginMoment ciUser readScope none = .ok _ := rfl
  ⟨_, hmint, (refresh_keeps_ceiling_iff plainKey_lawful (.scope hmint)).mpr (.inl rfl)⟩

end ArtifactKeeper.Auth
