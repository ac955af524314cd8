import ArtifactKeeper.Machine
import ArtifactKeeper.Auth.Refresh

/-! `refresh_tokens` beside logins, logouts and revocations, statement by statement under READ
COMMITTED: a rotation holds the lock of the row it consumed until it commits, and a revocation
statement works on the rows that its snapshot shows. -/

namespace ArtifactKeeper.Auth
variable {τ : Type}

/-- A refresh of a token with these claims has succeeded, or a revocation has committed, with the
table its statement saw when it started. -/
inductive RefreshEvent where
  | rotated (claims : Claims)
  | revoked (target : RevokeTarget) (snapshot : JtiTable)

/-- The committed table, the row locks with their holders, the revocation statements that run, the
refresh tokens handed out, the identifiers drawn by `Uuid::new_v4`, and the events, newest first. -/
structure RotationState (τ : Type) where
  jtis : JtiTable
  locked : List (Uuid × ℕ)
  revoking : List (ℕ × RevokeTarget)
  issued : List τ
  drawn : List Uuid
  events : List RefreshEvent

/-- Where a call stands. `winner` holds the row lock; `revoking` has taken its snapshot. -/
inductive RotationProc (τ : Type) where
  | idle
  | consume (claims : Claims) (jti familyId : Uuid)
  | winner (claims : Claims) (jti familyId : Uuid) (consumedAt : ℤ)
  | loser (claims : Claims) (jti : Uuid) (familyId : Uuid)
  | unrecorded (claims : Claims) (familyId : Option Uuid)
  | revoke (target : RevokeTarget) (reply : Option AppError)
  | revoking (target : RevokeTarget) (snapshot : JtiTable) (reply : Option AppError)
  | returned (result : Except AppError (User × TokenPair τ))
  | finished

inductive RotationAction (τ : Type) where
  | present (e : Call) (refreshToken : τ)
  | consume (now : ℤ)
  | commit (e : Call)
  | fail (err : AppError)
  | classify (now : ℤ)
  | rotateUnrecorded (e : Call)
  | login (e : Call) (synced : Except AppError User)
  | logout (e : Call) (refreshToken : τ)
  | revokeAll (userId : Uuid)
  | begin
  | finish (now : ℤ)

/-- The statement's `WHERE` holds of the row in its snapshot. -/
def snapshotMatches (target : RevokeTarget) (snapshot : JtiTable) (jti : Uuid) : Bool :=
  (snapshot jti).any fun r => target.covers r && r.revokedAt.isNone

/-- The update re-checks the current version of every row that its snapshot matched; rows the
snapshot does not show are not touched. -/
def revokeMatched (tbl snapshot : JtiTable) (now : ℤ) (target : RevokeTarget) : JtiTable :=
  fun jti => if snapshotMatches target snapshot jti then (tbl jti).map (revokeRow now target)
    else tbl jti

namespace RotationState

def isLocked (s : RotationState τ) (jti : Uuid) : Bool := s.locked.any fun x => x.1 == jti

def unlock (s : RotationState τ) (jti : Uuid) : RotationState τ :=
  { s with locked := s.locked.filter fun x => x.1 != jti }

/-- `Uuid::new_v4` does not repeat an identifier. -/
def fresh (s : RotationState τ) (m : Moment) : Bool :=
  !s.drawn.contains m.newJti && !s.drawn.contains m.newFamily

/-- The table after a mint, with the new refresh token handed out. -/
def mint (s : RotationState τ) (m : Moment) (tbl : JtiTable) (refreshToken : τ)
    (events : List RefreshEvent) : RotationState τ :=
  { s with
    jtis := tbl
    issued := refreshToken :: s.issued
    drawn := m.newJti :: m.newFamily :: s.drawn
    events := events }

end RotationState

section Protocol
variable [DecidableEq τ] (S : AuthService τ)

/-- The checks of `refresh_tokens` before its transaction. -/
def presentStep (e : Call) (refreshToken : τ) : RotationProc τ :=
  match S.decodeToken e.moment.nowMs refreshToken with
  | .error err => .returned (.error err)
  | .ok claims =>
    if claims.tokenType ≠ .refresh then .returned (.error (.authentication "Invalid token type"))
    else if e.invalidated claims.sub claims.effectiveIatMs then
      .returned (.error (.authentication "Token invalidated by credential change"))
    else match claims.jti, claims.familyId with
      | some jti, some familyId => .consume claims jti familyId
      | _, _ => .unrecorded claims none

/-- The classifying read of a call that lost the conditional consume. -/
def classifyStep (tbl : JtiTable) (now : ℤ) (claims : Claims) (jti familyId : Uuid) :
    RotationProc τ :=
  match classifyLoser tbl now jti with
  | .rowMissing => .unrecorded claims (some familyId)
  | .revoked => .returned (.error (.authentication "Refresh token has been revoked"))
  | .genuineReplay family =>
    .revoke (.family family) (some (.authentication "Refresh token replay detected"))
  | .alreadyUsed => .returned (.error (.authentication "Refresh token already used"))

/-- `revoke_refresh_token_family_for` up to its statement. -/
def logoutStep (e : Call) (refreshToken : τ) : RotationProc τ :=
  match S.decodeToken e.moment.nowMs refreshToken with
  | .error err => .returned (.error err)
  | .ok claims =>
    if claims.tokenType ≠ .refresh then .returned (.error (.authentication "Invalid token type"))
    else match claims.familyId with
      | none => .finished
      | some familyId => .revoke (.family familyId) none

/-- Any number of calls on one database. Only tokens that were handed out are presented. -/
def rotationProtocol : Protocol (RotationState τ) (RotationProc τ) (RotationAction τ) where
  step p s l a :=
    match l, a with
    | .idle, .present e refreshToken =>
      if refreshToken ∈ s.issued then some (s, presentStep S e refreshToken) else none
    | .consume claims jti familyId, .consume now =>
      match consumeJti s.jtis now jti with
      | none => some (s, .loser claims jti familyId)
      | some _ =>
        -- the statement waits while another transaction holds the row
        if s.isLocked jti then none
        else some ({ s with locked := (jti, p) :: s.locked }, .winner claims jti familyId now)
    | .winner claims jti familyId consumedAt, .commit e =>
      if s.fresh e.moment then
        match consumeJti s.jtis consumedAt jti with
        | none => none
        | some consumed =>
          match S.rotateWinner e claims jti familyId consumed with
          | .error err => some (s.unlock jti, .returned (.error err))
          | .ok (pair, tbl) =>
            some ((s.unlock jti).mint e.moment tbl pair.2.refreshToken
              (.rotated claims :: s.events), .returned (.ok pair))
      else none
    | .winner _ jti _ _, .fail err => some (s.unlock jti, .returned (.error err))
    | .loser claims jti familyId, .classify now =>
      some (s, classifyStep s.jtis now claims jti familyId)
    | .unrecorded claims familyId, .rotateUnrecorded e =>
      if s.fresh e.moment then
        match S.rotateUnrecorded { e with jtis := s.jtis } claims
            (familyId.getD e.moment.newFamily) with
        | .error err => some (s, .returned (.error err))
        | .ok (pair, tbl) =>
          some (s.mint e.moment tbl pair.2.refreshToken (.rotated claims :: s.events),
            .returned (.ok pair))
      else none
    | .idle, .login e synced =>
      if s.fresh e.moment then
        match S.authenticateFederatedWithScope e.moment s.jtis synced none with
        | .error err => some (s, .returned (.error err))
        | .ok (pair, tbl) =>
          some (s.mint e.moment tbl pair.2.refreshToken s.events, .returned (.ok pair))
      else none
    | .idle, .logout e refreshToken =>
      if refreshToken ∈ s.issued then some (s, logoutStep S e refreshToken) else none
    | .idle, .revokeAll userId => some (s, .revoke (.user userId) none)
    | .revoke target reply, .begin =>
      some ({ s with revoking := (p, target) :: s.revoking }, .revoking target s.jtis reply)
    | .revoking target snapshot reply, .finish now =>
      if s.locked.any fun x => snapshotMatches target snapshot x.1 then none
      else some ({ s with
          jtis := revokeMatched s.jtis snapshot now target
          revoking := s.revoking.filter fun x => x.1 != p
          events := .revoked target snapshot :: s.events },
        match reply with
        | some err => .returned (.error err)
        | none => .finished)
    | _, _ => none

end Protocol

/-- The row a step tries to consume. -/
def consumedJti : RotationProc τ → RotationAction τ → Option Uuid
  | .consume _ jti _, .consume _ => some jti
  | _, _ => none

/-- The row a step classifies. -/
def classifiedJti : RotationProc τ → RotationAction τ → Option Uuid
  | .loser _ jti _, .classify _ => some jti
  | _, _ => none

/-- The revocation statement a step starts. -/
def begunRevocation : RotationProc τ → RotationAction τ → Option RevokeTarget
  | .revoke target _, .begin => some target
  | _, _ => none

/-- The step does not consume a row that a running revocation addresses, does not start a
revocation while a rotation of a row it addresses is uncommitted, and classifies recorded rows
only. -/
def apartStep (s : RotationState τ) (l : RotationProc τ) (a : RotationAction τ) : Prop :=
  (∀ jti ∈ consumedJti l a, ∀ r ∈ s.jtis jti, r.live = true →
      ∀ x ∈ s.revoking, x.2.covers r = false) ∧
    (∀ target ∈ begunRevocation l a, ∀ x ∈ s.locked, ∀ r ∈ s.jtis x.1, target.covers r = false) ∧
    ∀ jti ∈ classifiedJti l a, (s.jtis jti).isSome = true

def noOverlap (w : World (RotationState τ) (RotationProc τ)) (a : ℕ × RotationAction τ) : Prop :=
  apartStep w.shared (w.procs a.1) a.2

instance (w : World (RotationState τ) (RotationProc τ)) (a : ℕ × RotationAction τ) :
    Decidable (noOverlap w a) :=
  inferInstanceAs (Decidable (_ ∧ _ ∧ _))

/-- How often a refresh of the token `jti` has succeeded. -/
def rotations (events : List RefreshEvent) (jti : Uuid) : ℕ :=
  events.countP fun
    | .rotated claims => claims.jti == some jti
    | .revoked _ _ => false

/-- The families a revocation is about: the named one, or those in which its snapshot shows a row
of the user. -/
def RevokeTarget.hits (snapshot : JtiTable) (familyId : Uuid) : RevokeTarget → Prop
  | .family f => familyId = f
  | .user u => ∃ jti r, snapshot jti = some r ∧ r.userId = u ∧ r.familyId = familyId

/-- Once a revocation has committed, no refresh of a token of its families succeeds. -/
def NoRotationAfterRevocation (events : List RefreshEvent) : Prop :=
  ∀ later target snapshot earlier, events = later ++ .revoked target snapshot :: earlier →
    ∀ claims, .rotated claims ∈ later → ∀ familyId, claims.familyId = some familyId →
      ¬ target.hits snapshot familyId

section Mint
variable {S : AuthService τ} {e : Call} {claims : Claims} {family : Uuid} {user : User}
  {pair : TokenPair τ} {tbl tbl' : JtiTable}

/-- Recording a pair just minted inserts the row of its refresh claims. -/
theorem persistRefreshJtiFromPair_ok (hK : S.key.Lawful) {m : Moment}
    {repos : Option (List Uuid)} {scopes : Option (List String)} {userId : Uuid}
    (hpair : S.generateTokenPairTyped m user family repos scopes .refresh = .ok pair)
    (h : S.persistRefreshJtiFromPair m.nowMs tbl pair userId = .ok tbl') :
    S.key.encode (S.refreshClaims m user family scopes .refresh) = .ok pair.refreshToken ∧
      tbl' = recordRefreshTokenJti tbl m.newJti
        (mintedRow userId family (S.refreshClaims m user family scopes .refresh)) := by
  obtain ⟨-, hr⟩ := generateTokenPairTyped_ok hpair
  simp only [AuthService.persistRefreshJtiFromPair, Except.bind_eq_ok_iff] at h
  obtain ⟨c, hc, h⟩ := h
  obtain rfl := hK.decodeToken_eq hr hc
  simp only [AuthService.refreshClaims, Except.pure_eq_ok_iff] at h
  exact ⟨hr, h.symm⟩

/-- The winner consumes its row, inserts the successor of the same family and user, and links the
two. -/
theorem rotateWinner_ok (hK : S.key.Lawful) {jti : Uuid}
    (h : S.rotateWinner e claims jti family tbl = .ok ((user, pair), tbl')) :
    user.id = claims.sub ∧
      S.key.encode (S.refreshClaims e.moment user family claims.scopes .refresh) =
        .ok pair.refreshToken ∧
      tbl' = setSupersededBy (recordRefreshTokenJti tbl e.moment.newJti
        (mintedRow user.id family (S.refreshClaims e.moment user family claims.scopes .refresh)))
        jti e.moment.newJti := by
  simp only [AuthService.rotateWinner, Except.bind_eq_ok_iff] at h
  obtain ⟨u, hu, tokens, htok, succ, hsucc, h⟩ := h
  obtain ⟨-, hr⟩ := generateTokenPairTyped_ok htok
  obtain rfl := hK.decodeToken_eq hr hsucc
  simp only [AuthService.refreshClaims, Except.pure_eq_ok_iff, Prod.mk.injEq] at h
  obtain ⟨⟨rfl, rfl⟩, rfl⟩ := h
  exact ⟨(loadActiveUser_ok hu).1, hr, rfl⟩

theorem rotateUnrecorded_ok (hK : S.key.Lawful)
    (h : S.rotateUnrecorded e claims family = .ok ((user, pair), tbl')) :
    user.id = claims.sub ∧
      S.key.encode (S.refreshClaims e.moment user family claims.scopes .refresh) =
        .ok pair.refreshToken ∧
      tbl' = recordRefreshTokenJti e.jtis e.moment.newJti
        (mintedRow user.id family
          (S.refreshClaims e.moment user family claims.scopes .refresh)) := by
  simp only [AuthService.rotateUnrecorded, Except.bind_eq_ok_iff, Except.pure_eq_ok_iff,
    Prod.mk.injEq] at h
  obtain ⟨u, hu, tokens, htok, tbl₁, hp, ⟨rfl, rfl⟩, rfl⟩ := h
  exact ⟨(loadActiveUser_ok hu).1, persistRefreshJtiFromPair_ok hK htok hp⟩

theorem authenticateFederatedWithScope_ok (hK : S.key.Lawful) {m : Moment}
    {synced : Except AppError User} {repos : Option (List Uuid)}
    (h : S.authenticateFederatedWithScope m tbl synced repos = .ok ((user, pair), tbl')) :
    S.key.encode (S.refreshClaims m user m.newFamily none .refresh) = .ok pair.refreshToken ∧
      tbl' = recordRefreshTokenJti tbl m.newJti
        (mintedRow user.id m.newFamily (S.refreshClaims m user m.newFamily none .refresh)) := by
  simp only [AuthService.authenticateFederatedWithScope, Except.bind_eq_ok_iff,
    Except.pure_eq_ok_iff, Prod.mk.injEq] at h
  obtain ⟨u, -, tokens, htok, tbl₁, hp, ⟨rfl, rfl⟩, rfl⟩ := h
  exact persistRefreshJtiFromPair_ok hK htok hp

end Mint

section Table
variable {s s' : RotationState τ}

/-- What no step takes back: rows keep their family, their user and their revocation, and a new
row has an identifier that was not drawn before. -/
structure TableStep (s s' : RotationState τ) : Prop where
  drawn : ∀ id ∈ s.drawn, id ∈ s'.drawn
  kept : ∀ jti r, s.jtis jti = some r → ∃ r', s'.jtis jti = some r' ∧
    r'.familyId = r.familyId ∧ r'.userId = r.userId ∧
      (r.revokedAt.isSome = true → r'.revokedAt.isSome = true)
  new : ∀ jti, s.jtis jti = none → (s'.jtis jti).isSome = true → jti ∉ s.drawn

theorem TableStep.of_same (hj : s'.jtis = s.jtis) (hd : s'.drawn = s.drawn) : TableStep s s' where
  drawn id h := hd ▸ h
  kept jti r h := ⟨r, by rw [hj]; exact h, rfl, rfl, id⟩
  new jti h h' := by rw [hj, h] at h'; cases h'

/-- A row of the new table that was there before. -/
theorem TableStep.old (h : TableStep s s') {jti : Uuid} {r' : JtiRow}
    (hr' : s'.jtis jti = some r') (hdrawn : jti ∈ s.drawn) :
    ∃ r, s.jtis jti = some r ∧ r'.familyId = r.familyId ∧ r'.userId = r.userId := by
  cases hr : s.jtis jti with
  | none => exact absurd hdrawn (h.new jti hr (by rw [hr']; rfl))
  | some r =>
    obtain ⟨r'', hr'', hf, hu, -⟩ := h.kept jti r hr
    rw [hr', Option.some.injEq] at hr''
    exact ⟨r, rfl, hr'' ▸ hf, hr'' ▸ hu⟩

/-- The claims carry a `jti` and a family together, both drawn, and agree with the row. -/
structure TokenKnown (s : RotationState τ) (c : Claims) : Prop where
  together : c.jti = none ↔ c.familyId = none
  jti_drawn : ∀ jti, c.jti = some jti → jti ∈ s.drawn
  family_drawn : ∀ f, c.familyId = some f → f ∈ s.drawn
  row : ∀ jti r, c.jti = some jti → s.jtis jti = some r →
    c.familyId = some r.familyId ∧ c.sub = r.userId

theorem TokenKnown.mono (h : TableStep s s') {c : Claims} (hc : TokenKnown s c) :
    TokenKnown s' c where
  together := hc.together
  jti_drawn jti hj := h.drawn _ (hc.jti_drawn jti hj)
  family_drawn f hf := h.drawn _ (hc.family_drawn f hf)
  row jti r' hj hr' := by
    obtain ⟨r, hr, hf, hu⟩ := h.old hr' (hc.jti_drawn jti hj)
    obtain ⟨hcf, hcu⟩ := hc.row jti r hj hr
    exact ⟨by rw [hcf, hf], by rw [hcu, hu]⟩

variable (S : AuthService τ)

/-- What holds in every run. -/
structure RotationInv (s : RotationState τ) : Prop where
  locked_live : ∀ x ∈ s.locked, ∃ r, s.jtis x.1 = some r ∧ r.live = true
  locked_unique : ∀ x ∈ s.locked, ∀ y ∈ s.locked, x.1 = y.1 → x.2 = y.2
  rows_drawn : ∀ jti r, s.jtis jti = some r → jti ∈ s.drawn ∧ r.familyId ∈ s.drawn
  issued_known : ∀ t ∈ s.issued, ∃ c, S.key.encode c = .ok t ∧ TokenKnown s c
  rotated_drawn : ∀ c, .rotated c ∈ s.events → ∀ jti, c.jti = some jti → jti ∈ s.drawn
  once : ∀ jti r, s.jtis jti = some r → rotations s.events jti ≤ 1 ∧
    (r.consumedAt = none → rotations s.events jti = 0)

/-- What a call may rely on in every run. -/
def RotationProcOk (p : ℕ) (l : RotationProc τ) (s : RotationState τ) : Prop :=
  match l with
  | .consume c jti f | .loser c jti f => c.jti = some jti ∧ c.familyId = some f ∧ TokenKnown s c
  | .winner c jti f _ => c.jti = some jti ∧ c.familyId = some f ∧ TokenKnown s c ∧
      (jti, p) ∈ s.locked
  | .unrecorded c f => TokenKnown s c ∧ (∀ jti, c.jti = some jti → s.jtis jti = none) ∧
      ∀ f', f = some f' → f' ∈ s.drawn
  | .idle | .revoke _ _ | .revoking _ _ _ | .returned _ | .finished => True

/-- A step of `p` keeps the locks that others hold. -/
def KeepsLocks (p : ℕ) (s s' : RotationState τ) : Prop :=
  ∀ x ∈ s.locked, x.2 ≠ p → x ∈ s'.locked

theorem RotationProcOk.mono (h : TableStep s s') {p q : ℕ} (hlocks : KeepsLocks p s s')
    (hqp : q ≠ p) {l : RotationProc τ} (hl : RotationProcOk q l s) : RotationProcOk q l s' := by
  cases l with
  | consume c jti f | loser c jti f => exact ⟨hl.1, hl.2.1, hl.2.2.mono h⟩
  | winner c jti f now =>
    exact ⟨hl.1, hl.2.1, hl.2.2.1.mono h, hlocks _ hl.2.2.2 hqp⟩
  | unrecorded c f =>
    refine ⟨hl.1.mono h, fun jti hj => ?_, fun f' hf => h.drawn _ (hl.2.2 f' hf)⟩
    cases hr : s'.jtis jti with
    | none => rfl
    | some r =>
      obtain ⟨r₀, hr₀, -⟩ := h.old hr (hl.1.jti_drawn jti hj)
      rw [hl.2.1 jti hj] at hr₀
      cases hr₀
  | idle | revoke _ _ | revoking _ _ _ | returned _ | finished => trivial

theorem TableStep.trans {s'' : RotationState τ} (h : TableStep s s') (h' : TableStep s' s'') :
    TableStep s s'' where
  drawn id hid := h'.drawn id (h.drawn id hid)
  kept jti r hr := by
    obtain ⟨r', hr', hf, hu, hrev⟩ := h.kept jti r hr
    obtain ⟨r'', hr'', hf', hu', hrev'⟩ := h'.kept jti r' hr'
    exact ⟨r'', hr'', hf'.trans hf, hu'.trans hu, fun hh => hrev' (hrev hh)⟩
  new jti hnone hsome hdrawn := by
    cases hr : s'.jtis jti with
    | none => exact h'.new jti hr hsome (h.drawn jti hdrawn)
    | some r => exact h.new jti hnone (by rw [hr]; rfl) hdrawn

variable {S}

theorem fresh_iff {m : Moment} :
    s.fresh m = true ↔ m.newJti ∉ s.drawn ∧ m.newFamily ∉ s.drawn := by
  simp [RotationState.fresh]

theorem mem_unlock {jti : Uuid} {x : Uuid × ℕ} :
    x ∈ (s.unlock jti).locked ↔ x ∈ s.locked ∧ x.1 ≠ jti := by
  simp [RotationState.unlock]

theorem rotations_cons_rotated (events : List RefreshEvent) (c : Claims) (jti : Uuid) :
    rotations (.rotated c :: events) jti =
      rotations events jti + if c.jti = some jti then 1 else 0 := by
  simp [rotations, List.countP_cons]

theorem rotations_eq_zero {events : List RefreshEvent} {jti : Uuid}
    (h : ∀ c, .rotated c ∈ events → c.jti ≠ some jti) : rotations events jti = 0 := by
  rw [rotations, List.countP_eq_zero]
  rintro (c | _) hc
  · simpa using h c hc
  · simp

theorem RotationInv.lock (h : RotationInv S s) {jti : Uuid} {p : ℕ} {now : ℤ} {tbl : JtiTable}
    (hc : consumeJti s.jtis now jti = some tbl) (hfree : s.isLocked jti = false) :
    RotationInv S { s with locked := (jti, p) :: s.locked } where
  locked_live := by
    intro x hx
    rcases List.mem_cons.mp hx with rfl | hx
    · obtain ⟨r, hr, hlive, -⟩ := consumeJti_some hc
      exact ⟨r, hr, hlive⟩
    · exact h.locked_live x hx
  locked_unique := by
    have hne : ∀ y ∈ s.locked, y.1 ≠ jti := by
      simpa [RotationState.isLocked] using hfree
    intro x hx y hy hxy
    rcases List.mem_cons.mp hx with rfl | hx <;> rcases List.mem_cons.mp hy with rfl | hy
    · rfl
    · exact absurd hxy.symm (hne y hy)
    · exact absurd hxy (hne x hx)
    · exact h.locked_unique x hx y hy hxy
  rows_drawn := h.rows_drawn
  issued_known t ht := by
    obtain ⟨c, hc, hk⟩ := h.issued_known t ht
    refine ⟨c, hc, hk.mono ?_⟩
    exact .of_same rfl rfl
  rotated_drawn := h.rotated_drawn
  once := h.once

theorem RotationInv.unlock (h : RotationInv S s) (jti : Uuid) : RotationInv S (s.unlock jti) where
  locked_live x hx := h.locked_live x (mem_unlock.mp hx).1
  locked_unique x hx y hy := h.locked_unique x (mem_unlock.mp hx).1 y (mem_unlock.mp hy).1
  rows_drawn := h.rows_drawn
  issued_known t ht := by
    obtain ⟨c, hc, hk⟩ := h.issued_known t ht
    refine ⟨c, hc, hk.mono ?_⟩
    exact .of_same rfl rfl
  rotated_drawn := h.rotated_drawn
  once := h.once

theorem RotationInv.begin (h : RotationInv S s) (revoking : List (ℕ × RevokeTarget)) :
    RotationInv S { s with revoking := revoking } where
  locked_live := h.locked_live
  locked_unique := h.locked_unique
  rows_drawn := h.rows_drawn
  issued_known t ht := by
    obtain ⟨c, hc, hk⟩ := h.issued_known t ht
    refine ⟨c, hc, hk.mono ?_⟩
    exact .of_same rfl rfl
  rotated_drawn := h.rotated_drawn
  once := h.once

/-- The state between the two halves of a winner's commit: its row is spent and unlocked. -/
def RotationState.spend (s : RotationState τ) (jti : Uuid) (r : JtiRow) (now : ℤ) (succ : Uuid)
    (c : Claims) : RotationState τ :=
  { s.unlock jti with
    jtis := Function.update s.jtis jti
      (some { r with consumedAt := some now, supersededBy := some succ })
    events := .rotated c :: s.events }

theorem spend_jtis_self (s : RotationState τ) (jti : Uuid) (r : JtiRow) (now : ℤ) (succ : Uuid)
    (c : Claims) : (s.spend jti r now succ c).jtis jti =
      some { r with consumedAt := some now, supersededBy := some succ } :=
  Function.update_self ..

theorem spend_jtis_of_ne (s : RotationState τ) {j jti : Uuid} (hj : j ≠ jti) (r : JtiRow) (now : ℤ)
    (succ : Uuid) (c : Claims) : (s.spend jti r now succ c).jtis j = s.jtis j :=
  Function.update_of_ne hj ..

theorem spend_events (s : RotationState τ) (jti : Uuid) (r : JtiRow) (now : ℤ) (succ : Uuid)
    (c : Claims) : (s.spend jti r now succ c).events = .rotated c :: s.events := rfl

theorem mint_jtis (s : RotationState τ) (m : Moment) (tbl : JtiTable) (t : τ)
    (events : List RefreshEvent) : (s.mint m tbl t events).jtis = tbl := rfl

theorem TableStep.spend {jti : Uuid} {r : JtiRow} (now : ℤ) (succ : Uuid) (c : Claims)
    (hr : s.jtis jti = some r) : TableStep s (s.spend jti r now succ c) where
  drawn id h := h
  kept j r₀ hr₀ := by
    by_cases hj : j = jti
    · subst hj
      obtain rfl : r = r₀ := Option.some.inj (hr.symm.trans hr₀)
      exact ⟨_, spend_jtis_self .., rfl, rfl, id⟩
    · exact ⟨r₀, (spend_jtis_of_ne s hj ..).trans hr₀, rfl, rfl, id⟩
  new j hnone hsome := by
    by_cases hj : j = jti
    · rw [hj, hr] at hnone
      cases hnone
    · rw [spend_jtis_of_ne s hj, hnone] at hsome
      cases hsome

/-- A winner's row is spent for the first and only time. -/
theorem RotationInv.spend (h : RotationInv S s) {jti : Uuid} {r : JtiRow} {c : Claims} (now : ℤ)
    (succ : Uuid) (hr : s.jtis jti = some r) (hlive : r.live = true) (hc : c.jti = some jti) :
    RotationInv S (s.spend jti r now succ c) where
  locked_live x hx := by
    obtain ⟨hx, hne⟩ := mem_unlock.mp hx
    obtain ⟨r₀, hr₀, hl⟩ := h.locked_live x hx
    exact ⟨r₀, (spend_jtis_of_ne s hne ..).trans hr₀, hl⟩
  locked_unique x hx y hy := h.locked_unique x (mem_unlock.mp hx).1 y (mem_unlock.mp hy).1
  rows_drawn j r₀ hr₀ := by
    by_cases hj : j = jti
    · subst hj
      rw [spend_jtis_self, Option.some.injEq] at hr₀
      subst hr₀
      exact h.rows_drawn j r hr
    · exact h.rows_drawn j r₀ ((spend_jtis_of_ne s hj ..).symm.trans hr₀)
  issued_known t ht := by
    obtain ⟨c', hc', hk⟩ := h.issued_known t ht
    exact ⟨c', hc', hk.mono (.spend now succ c hr)⟩
  rotated_drawn c' hc' j hj := by
    rcases List.mem_cons.mp hc' with heq | hmem
    · cases heq
      rw [hc, Option.some.injEq] at hj
      exact hj ▸ (h.rows_drawn jti r hr).1
    · exact h.rotated_drawn c' hmem j hj
  once j r₀ hr₀ := by
    rw [spend_events, rotations_cons_rotated, hc]
    by_cases hj : j = jti
    · subst hj
      have hnone : r.consumedAt = none := by
        simp only [JtiRow.live, Bool.and_eq_true, Option.isNone_iff_eq_none] at hlive
        exact hlive.1
      rw [(h.once j r hr).2 hnone]
      refine ⟨by simp, fun hn => ?_⟩
      rw [spend_jtis_self, Option.some.injEq] at hr₀
      subst hr₀
      cases hn
    · have hne : some jti ≠ some j := fun heq => hj (Option.some.inj heq).symm
      rw [if_neg hne, Nat.add_zero]
      exact h.once j r₀ ((spend_jtis_of_ne s hj ..).symm.trans hr₀)

/-- A refresh whose presented row is missing succeeds. -/
theorem RotationInv.rotatedUnrecorded (h : RotationInv S s) {c : Claims} (hk : TokenKnown s c)
    (hmiss : ∀ jti, c.jti = some jti → s.jtis jti = none) :
    RotationInv S { s with events := .rotated c :: s.events } where
  locked_live := h.locked_live
  locked_unique := h.locked_unique
  rows_drawn := h.rows_drawn
  issued_known t ht := by
    obtain ⟨c', hc', hk'⟩ := h.issued_known t ht
    refine ⟨c', hc', hk'.mono ?_⟩
    exact .of_same rfl rfl
  rotated_drawn c' hc' j hj := by
    rcases List.mem_cons.mp hc' with heq | hmem
    · cases heq
      exact hk.jti_drawn j hj
    · exact h.rotated_drawn c' hmem j hj
  once j r hr := by
    have hne : c.jti ≠ some j := by
      intro hj
      rw [hmiss j hj] at hr
      cases hr
    dsimp only
    rw [rotations_cons_rotated, if_neg hne, Nat.add_zero]
    exact h.once j r hr

theorem TableStep.mint (h : RotationInv S s) {m : Moment} (hfresh : s.fresh m = true)
    (row : JtiRow) (t : τ) (events : List RefreshEvent) :
    TableStep s (s.mint m (Function.update s.jtis m.newJti (some row)) t events) where
  drawn id hid := List.mem_cons_of_mem _ (List.mem_cons_of_mem _ hid)
  kept j r hr := by
    have hj : j ≠ m.newJti := fun hj => (fresh_iff.mp hfresh).1 (hj ▸ (h.rows_drawn j r hr).1)
    exact ⟨r, (Function.update_of_ne hj ..).trans hr, rfl, rfl, id⟩
  new j hnone hsome := by
    by_cases hj : j = m.newJti
    · exact hj ▸ (fresh_iff.mp hfresh).1
    · simp only [RotationState.mint, Function.update_of_ne hj, hnone] at hsome
      cases hsome

/-- A new pair: its row agrees with the claims signed into its refresh token. -/
theorem RotationInv.mint (h : RotationInv S s) {m : Moment} (hfresh : s.fresh m = true)
    {row : JtiRow} {t : τ} {c : Claims}
    (hfam : row.familyId ∈ s.drawn ∨ row.familyId = m.newFamily) (hc : S.key.encode c = .ok t)
    (hjti : c.jti = some m.newJti) (hf : c.familyId = some row.familyId)
    (hu : c.sub = row.userId) :
    RotationInv S (s.mint m (Function.update s.jtis m.newJti (some row)) t s.events) where
  locked_live x hx := by
    obtain ⟨r, hr, hl⟩ := h.locked_live x hx
    have hj : x.1 ≠ m.newJti := fun hj => (fresh_iff.mp hfresh).1 (hj ▸ (h.rows_drawn _ r hr).1)
    exact ⟨r, (Function.update_of_ne hj ..).trans hr, hl⟩
  locked_unique := h.locked_unique
  rows_drawn j r hr := by
    by_cases hj : j = m.newJti
    · subst hj
      rw [mint_jtis, Function.update_self, Option.some.injEq] at hr
      subst hr
      refine ⟨List.mem_cons_self, ?_⟩
      rcases hfam with hd | hnew
      · exact List.mem_cons_of_mem _ (List.mem_cons_of_mem _ hd)
      · exact hnew ▸ List.mem_cons_of_mem _ List.mem_cons_self
    · have hd := h.rows_drawn j r ((Function.update_of_ne hj ..).symm.trans hr)
      exact ⟨List.mem_cons_of_mem _ (List.mem_cons_of_mem _ hd.1),
        List.mem_cons_of_mem _ (List.mem_cons_of_mem _ hd.2)⟩
  issued_known t' ht' := by
    rcases List.mem_cons.mp ht' with rfl | hmem
    · refine ⟨c, hc, ⟨by simp [hjti, hf], fun j hj => ?_, fun f hf' => ?_, fun j r hj hr => ?_⟩⟩
      · rw [hjti, Option.some.injEq] at hj
        exact hj ▸ List.mem_cons_self
      · rw [hf, Option.some.injEq] at hf'
        rcases hfam with hd | hnew
        · exact hf' ▸ List.mem_cons_of_mem _ (List.mem_cons_of_mem _ hd)
        · exact hf' ▸ hnew ▸ List.mem_cons_of_mem _ List.mem_cons_self
      · rw [hjti, Option.some.injEq] at hj
        subst hj
        rw [mint_jtis, Function.update_self, Option.some.injEq] at hr
        subst hr
        exact ⟨hf, hu⟩
    · obtain ⟨c', hc', hk⟩ := h.issued_known t' hmem
      exact ⟨c', hc', hk.mono (.mint h hfresh row t s.events)⟩
  rotated_drawn c' hc' j hj :=
    List.mem_cons_of_mem _ (List.mem_cons_of_mem _ (h.rotated_drawn c' hc' j hj))
  once j r hr := by
    by_cases hj : j = m.newJti
    · have hzero : rotations s.events j = 0 := rotations_eq_zero fun c' hc' hj' =>
        (fresh_iff.mp hfresh).1 (hj ▸ h.rotated_drawn c' hc' j hj')
      exact ⟨hzero.le.trans zero_le_one, fun _ => hzero⟩
    · exact h.once j r ((Function.update_of_ne hj ..).symm.trans hr)

theorem revokeMatched_of_some {tbl snapshot : JtiTable} {now : ℤ} {target : RevokeTarget}
    {jti : Uuid} {r : JtiRow} (h : tbl jti = some r) :
    revokeMatched tbl snapshot now target jti =
      some (if snapshotMatches target snapshot jti then revokeRow now target r else r) := by
  unfold revokeMatched
  split
  · rw [h]; rfl
  · exact h

theorem revokeMatched_eq_none {tbl snapshot : JtiTable} {now : ℤ} {target : RevokeTarget}
    {jti : Uuid} : revokeMatched tbl snapshot now target jti = none ↔ tbl jti = none := by
  unfold revokeMatched
  split <;> simp

/-- The state a revocation statement of `p` leaves. -/
def RotationState.revoke (s : RotationState τ) (p : ℕ) (snapshot : JtiTable) (now : ℤ)
    (target : RevokeTarget) : RotationState τ :=
  { s with
    jtis := revokeMatched s.jtis snapshot now target
    revoking := s.revoking.filter fun x => x.1 != p
    events := .revoked target snapshot :: s.events }

/-- A row after the statement is the row before it, revoked where the snapshot matched. -/
theorem revoke_old {p : ℕ} {snapshot : JtiTable} {now : ℤ} {target : RevokeTarget} {jti : Uuid}
    {r' : JtiRow} (h : (s.revoke p snapshot now target).jtis jti = some r') :
    ∃ r, s.jtis jti = some r ∧
      r' = if snapshotMatches target snapshot jti then revokeRow now target r else r := by
  cases hr : s.jtis jti with
  | none => cases (revokeMatched_eq_none.mpr hr).symm.trans h
  | some r => exact ⟨r, rfl, (Option.some.inj ((revokeMatched_of_some hr).symm.trans h)).symm⟩

theorem revoke_old_keys {p : ℕ} {snapshot : JtiTable} {now : ℤ} {target : RevokeTarget}
    {jti : Uuid} {r' : JtiRow} (h : (s.revoke p snapshot now target).jtis jti = some r') :
    ∃ r, s.jtis jti = some r ∧ r'.familyId = r.familyId ∧ r'.userId = r.userId ∧
      r'.consumedAt = r.consumedAt := by
  obtain ⟨r, hr, rfl⟩ := revoke_old h
  refine ⟨r, hr, ?_⟩
  split
  · exact ⟨revokeRow_familyId .., revokeRow_userId .., revokeRow_consumedAt ..⟩
  · exact ⟨rfl, rfl, rfl⟩

theorem TableStep.revoke (s : RotationState τ) (p : ℕ) (snapshot : JtiTable) (now : ℤ)
    (target : RevokeTarget) : TableStep s (s.revoke p snapshot now target) where
  drawn id h := h
  kept j r hr := by
    refine ⟨_, revokeMatched_of_some hr, ?_⟩
    split
    · refine ⟨revokeRow_familyId .., revokeRow_userId .., fun h => ?_⟩
      rw [revokeRow_keeps_revoked h]
      exact h
    · exact ⟨rfl, rfl, id⟩
  new j hnone hsome := by
    have hnone' : (s.revoke p snapshot now target).jtis j = none := revokeMatched_eq_none.mpr hnone
    rw [hnone'] at hsome
    cases hsome

theorem RotationInv.revoke (h : RotationInv S s) (p : ℕ) {snapshot : JtiTable} (now : ℤ)
    {target : RevokeTarget}
    (hfree : (s.locked.any fun x => snapshotMatches target snapshot x.1) = false) :
    RotationInv S (s.revoke p snapshot now target) where
  locked_live x hx := by
    obtain ⟨r, hr, hl⟩ := h.locked_live x hx
    have hno : snapshotMatches target snapshot x.1 = false := by
      simpa using List.any_eq_false.mp hfree x hx
    refine ⟨r, (revokeMatched_of_some hr).trans ?_, hl⟩
    simp [hno]
  locked_unique := h.locked_unique
  rows_drawn j r hr := by
    obtain ⟨r₀, hr₀, hf, -⟩ := revoke_old_keys hr
    exact hf ▸ h.rows_drawn j r₀ hr₀
  issued_known t ht := by
    obtain ⟨c, hc, hk⟩ := h.issued_known t ht
    exact ⟨c, hc, hk.mono (.revoke s p snapshot now target)⟩
  rotated_drawn c hc j hj := by
    rcases List.mem_cons.mp hc with heq | hmem
    · cases heq
    · exact h.rotated_drawn c hmem j hj
  once j r hr := by
    have hsame : rotations (s.revoke p snapshot now target).events j = rotations s.events j := by
      simp [RotationState.revoke, rotations]
    rw [hsame]
    obtain ⟨r₀, hr₀, -, -, hcons⟩ := revoke_old_keys hr
    rw [hcons]
    exact h.once j r₀ hr₀

/-- The row of a refresh token just minted. -/
def newRow (S : AuthService τ) (m : Moment) (user : User) (family : Uuid)
    (scopes : Option (List String)) : JtiRow :=
  mintedRow user.id family (S.refreshClaims m user family scopes .refresh)

/-- The mint of a pair in `family`, recorded under the new identifier. -/
def RotationState.issue (S : AuthService τ) (s : RotationState τ) (m : Moment) (user : User)
    (family : Uuid) (scopes : Option (List String)) (refreshToken : τ) : RotationState τ :=
  s.mint m (Function.update s.jtis m.newJti (some (newRow S m user family scopes))) refreshToken
    s.events

/-- The refresh token handed out signs the claims that its row records. -/
def Signs (S : AuthService τ) (m : Moment) (user : User) (family : Uuid)
    (scopes : Option (List String)) (refreshToken : τ) : Prop :=
  S.key.encode (S.refreshClaims m user family scopes .refresh) = .ok refreshToken

variable (S) in
/-- What a step of call `p` can do. -/
inductive RotationStep (p : ℕ) (s : RotationState τ) :
    RotationProc τ → RotationAction τ → RotationState τ → RotationProc τ → Prop
  | present {e : Call} {t : τ} : t ∈ s.issued →
      RotationStep p s .idle (.present e t) s (presentStep S e t)
  | lose {c : Claims} {jti f : Uuid} {now : ℤ} :
      RotationStep p s (.consume c jti f) (.consume now) s (.loser c jti f)
  | win {c : Claims} {jti f : Uuid} {now : ℤ} {tbl : JtiTable} :
      consumeJti s.jtis now jti = some tbl → s.isLocked jti = false →
      RotationStep p s (.consume c jti f) (.consume now)
        { s with locked := (jti, p) :: s.locked } (.winner c jti f now)
  | rollback {c : Claims} {jti f : Uuid} {now : ℤ} {a : RotationAction τ} {err : AppError} :
      RotationStep p s (.winner c jti f now) a (s.unlock jti) (.returned (.error err))
  | rotate {c : Claims} {jti f : Uuid} {now : ℤ} {e : Call} {r : JtiRow} {user : User}
      {pair : TokenPair τ} : s.fresh e.moment = true → s.jtis jti = some r → r.live = true →
      user.id = c.sub → Signs S e.moment user f c.scopes pair.refreshToken →
      RotationStep p s (.winner c jti f now) (.commit e)
        ((s.spend jti r now e.moment.newJti c).issue S e.moment user f c.scopes pair.refreshToken)
        (.returned (.ok (user, pair)))
  | classify {c : Claims} {jti f : Uuid} {now : ℤ} :
      RotationStep p s (.loser c jti f) (.classify now) s (classifyStep s.jtis now c jti f)
  | rotateUnrecorded {c : Claims} {f : Option Uuid} {e : Call} {user : User}
      {pair : TokenPair τ} : s.fresh e.moment = true → user.id = c.sub →
      Signs S e.moment user (f.getD e.moment.newFamily) c.scopes pair.refreshToken →
      RotationStep p s (.unrecorded c f) (.rotateUnrecorded e)
        (RotationState.issue S { s with events := .rotated c :: s.events } e.moment user
          (f.getD e.moment.newFamily) c.scopes pair.refreshToken) (.returned (.ok (user, pair)))
  | login {e : Call} {synced : Except AppError User} {user : User} {pair : TokenPair τ} :
      s.fresh e.moment = true →
      Signs S e.moment user e.moment.newFamily none pair.refreshToken →
      RotationStep p s .idle (.login e synced)
        (s.issue S e.moment user e.moment.newFamily none pair.refreshToken)
        (.returned (.ok (user, pair)))
  | refuse {l : RotationProc τ} {a : RotationAction τ} {err : AppError} :
      RotationStep p s l a s (.returned (.error err))
  | logout {e : Call} {t : τ} : t ∈ s.issued →
      RotationStep p s .idle (.logout e t) s (logoutStep S e t)
  | revokeAll {userId : Uuid} :
      RotationStep p s .idle (.revokeAll userId) s (.revoke (.user userId) none)
  | begin {target : RevokeTarget} {reply : Option AppError} :
      RotationStep p s (.revoke target reply) .begin
        { s with revoking := (p, target) :: s.revoking } (.revoking target s.jtis reply)
  | finish {target : RevokeTarget} {snapshot : JtiTable} {reply : Option AppError} {now : ℤ} :
      (s.locked.any fun x => snapshotMatches target snapshot x.1) = false →
      RotationStep p s (.revoking target snapshot reply) (.finish now)
        (s.revoke p snapshot now target)
        (match reply with
          | some err => .returned (.error err)
          | none => .finished)

theorem recordRefreshTokenJti_new {tbl : JtiTable} {jti : Uuid} (h : tbl jti = none)
    (row : JtiRow) : recordRefreshTokenJti tbl jti row = Function.update tbl jti (some row) := by
  simp [recordRefreshTokenJti, h]

theorem RotationInv.newJti_absent (h : RotationInv S s) {m : Moment} (hfresh : s.fresh m = true) :
    s.jtis m.newJti = none := by
  cases hr : s.jtis m.newJti with
  | none => rfl
  | some r => exact absurd (h.rows_drawn _ r hr).1 (fresh_iff.mp hfresh).1

/-- The winner's writes, as two updates. -/
theorem setSupersededBy_record {tbl : JtiTable} {jti n : Uuid} (r row : JtiRow)
    (hne : n ≠ jti) (hn : tbl n = none) :
    setSupersededBy (recordRefreshTokenJti (Function.update tbl jti (some r)) n row) jti n =
      Function.update (Function.update tbl jti (some { r with supersededBy := some n })) n
        (some row) := by
  rw [recordRefreshTokenJti_new (by rw [Function.update_of_ne hne, hn]), setSupersededBy]
  funext j
  by_cases hj : j = jti
  · subst hj
    simp [Function.update_of_ne hne.symm]
  · by_cases hjn : j = n
    · subst hjn
      simp [Function.update_of_ne hj]
    · simp [Function.update_of_ne hj, Function.update_of_ne hjn]

theorem rotationProtocol_step [DecidableEq τ] (hK : S.key.Lawful) (h : RotationInv S s) {p : ℕ}
    {l l' : RotationProc τ} {a : RotationAction τ} (hl : RotationProcOk p l s)
    (hs : (rotationProtocol S).step p s l a = some (s', l')) : RotationStep S p s l a s' l' := by
  cases l with
  | idle =>
    cases a with
    | present e t =>
      simp only [rotationProtocol, Option.ite_none_right_eq_some] at hs
      obtain ⟨ht, hs⟩ := hs
      cases hs
      exact .present ht
    | login e synced =>
      simp only [rotationProtocol, Option.ite_none_right_eq_some] at hs
      obtain ⟨hfresh, hs⟩ := hs
      split at hs
      · cases hs
        exact .refuse
      · next pair tbl hauth =>
        obtain ⟨hsigns, rfl⟩ := authenticateFederatedWithScope_ok hK hauth
        rw [recordRefreshTokenJti_new (h.newJti_absent hfresh)] at hs
        cases hs
        exact .login hfresh hsigns
    | logout e t =>
      simp only [rotationProtocol, Option.ite_none_right_eq_some] at hs
      obtain ⟨ht, hs⟩ := hs
      cases hs
      exact .logout ht
    | revokeAll userId =>
      cases hs
      exact .revokeAll
    | consume _ | commit _ | fail _ | classify _ | rotateUnrecorded _ | begin | finish _ => cases hs
  | consume c jti f =>
    cases a with
    | consume now =>
      simp only [rotationProtocol] at hs
      split at hs
      · cases hs
        exact .lose
      · next tbl hc =>
        simp only [Option.ite_none_left_eq_some, Bool.not_eq_true] at hs
        obtain ⟨hfree, hs⟩ := hs
        cases hs
        exact .win hc hfree
    | present _ _ | commit _ | fail _ | classify _ | rotateUnrecorded _ | login _ _ | logout _ _
    | revokeAll _ | begin | finish _ => cases hs
  | winner c jti f now =>
    cases a with
    | commit e =>
      simp only [rotationProtocol, Option.ite_none_right_eq_some] at hs
      obtain ⟨hfresh, hs⟩ := hs
      split at hs
      · cases hs
      next consumed hc =>
      split at hs
      · cases hs
        exact .rollback
      · next pair tbl hrot =>
        obtain ⟨r, hr, hlive, rfl⟩ := consumeJti_some hc
        obtain ⟨hsub, hsigns, rfl⟩ := rotateWinner_ok hK hrot
        have hne : e.moment.newJti ≠ jti := fun heq =>
          (fresh_iff.mp hfresh).1 (heq ▸ hl.2.2.1.jti_drawn jti hl.1)
        rw [setSupersededBy_record _ _ hne (h.newJti_absent hfresh)] at hs
        cases hs
        exact .rotate (r := r) hfresh hr hlive hsub hsigns
    | fail err =>
      cases hs
      exact .rollback
    | present _ _ | consume _ | classify _ | rotateUnrecorded _ | login _ _ | logout _ _
    | revokeAll _ | begin | finish _ => cases hs
  | loser c jti f =>
    cases a with
    | classify now =>
      cases hs
      exact .classify
    | present _ _ | consume _ | commit _ | fail _ | rotateUnrecorded _ | login _ _ | logout _ _
    | revokeAll _ | begin | finish _ => cases hs
  | unrecorded c f =>
    cases a with
    | rotateUnrecorded e =>
      simp only [rotationProtocol, Option.ite_none_right_eq_some] at hs
      obtain ⟨hfresh, hs⟩ := hs
      split at hs
      · cases hs
        exact .refuse
      · next pair tbl hrot =>
        obtain ⟨hsub, hsigns, rfl⟩ := rotateUnrecorded_ok hK hrot
        rw [recordRefreshTokenJti_new (h.newJti_absent hfresh)] at hs
        cases hs
        exact .rotateUnrecorded hfresh hsub hsigns
    | present _ _ | consume _ | commit _ | fail _ | classify _ | login _ _ | logout _ _
    | revokeAll _ | begin | finish _ => cases hs
  | revoke target reply =>
    cases a with
    | begin =>
      cases hs
      exact .begin
    | present _ _ | consume _ | commit _ | fail _ | classify _ | rotateUnrecorded _ | login _ _
    | logout _ _ | revokeAll _ | finish _ => cases hs
  | revoking target snapshot reply =>
    cases a with
    | finish now =>
      simp only [rotationProtocol, Option.ite_none_left_eq_some, Bool.not_eq_true] at hs
      obtain ⟨hfree, hs⟩ := hs
      cases hs
      exact .finish hfree
    | present _ _ | consume _ | commit _ | fail _ | classify _ | rotateUnrecorded _ | login _ _
    | logout _ _ | revokeAll _ | begin => cases hs
  | returned _ | finished => cases a <;> cases hs

/-- A new pair in `family`, of a row whose family is known or new. -/
theorem RotationInv.issue (h : RotationInv S s) {m : Moment} (hfresh : s.fresh m = true)
    {user : User} {family : Uuid} {scopes : Option (List String)} {t : τ}
    (hfam : family ∈ s.drawn ∨ family = m.newFamily) (hs : Signs S m user family scopes t) :
    RotationInv S (s.issue S m user family scopes t) :=
  h.mint hfresh hfam hs rfl rfl rfl

theorem getD_newFamily {f : Option Uuid} {m : Moment} (h : ∀ f', f = some f' → f' ∈ s.drawn) :
    f.getD m.newFamily ∈ s.drawn ∨ f.getD m.newFamily = m.newFamily := by
  cases f with
  | none => exact .inr rfl
  | some f' => exact .inl (h f' rfl)

theorem presentStep_ok (hK : S.key.Lawful) (h : RotationInv S s) (p : ℕ) (e : Call) {t : τ}
    (ht : t ∈ s.issued) : RotationProcOk p (presentStep S e t) s := by
  obtain ⟨c, hc, hk⟩ := h.issued_known t ht
  unfold presentStep
  split
  · trivial
  next c' hd =>
  obtain rfl := hK.decodeToken_eq hc hd
  split
  · trivial
  split
  · trivial
  split
  · next jti f hj hf => exact ⟨hj, hf, hk⟩
  · next hno =>
    refine ⟨hk, fun jti hj => ?_, fun _ hf => by cases hf⟩
    cases hr : s.jtis jti with
    | none => rfl
    | some r => exact absurd (hk.row jti r hj hr).1 (hno jti r.familyId hj)

theorem classifyStep_ok {p : ℕ} {c : Claims} {jti f : Uuid} {now : ℤ}
    (hl : RotationProcOk p (.loser c jti f) s) :
    RotationProcOk p (classifyStep s.jtis now c jti f) s := by
  obtain ⟨hj, hf, hk⟩ := hl
  unfold classifyStep
  split
  · next hmiss =>
    refine ⟨hk, fun j hj' => ?_, fun f' hf' => hk.family_drawn f' (hf.trans hf')⟩
    obtain rfl : jti = j := Option.some.inj (hj.symm.trans hj')
    cases hr : s.jtis jti with
    | none => rfl
    | some r => exact absurd hmiss (classifyLoser_of_some hr).1
  · trivial
  · trivial
  · trivial

/-- Every step keeps the invariant and the assertion of the call that moves. -/
theorem RotationStep.preserves (hK : S.key.Lawful) (h : RotationInv S s) {p : ℕ}
    {l l' : RotationProc τ} {a : RotationAction τ} (hl : RotationProcOk p l s)
    (hs : RotationStep S p s l a s' l') :
    RotationInv S s' ∧ RotationProcOk p l' s' ∧ TableStep s s' ∧ KeepsLocks p s s' := by
  have hsame : TableStep s s ∧ KeepsLocks p s s := ⟨.of_same rfl rfl, fun _ hx _ => hx⟩
  cases hs with
  | present ht => exact ⟨h, presentStep_ok hK h p _ ht, hsame⟩
  | lose => exact ⟨h, hl, hsame⟩
  | win hc hfree =>
    refine ⟨h.lock hc hfree, ⟨hl.1, hl.2.1, hl.2.2.mono ?_, List.mem_cons_self⟩, ?_, ?_⟩
    · exact .of_same rfl rfl
    · exact .of_same rfl rfl
    · exact fun x hx _ => List.mem_cons_of_mem _ hx
  | rollback =>
    refine ⟨h.unlock _, trivial, .of_same rfl rfl, fun x hx hp => mem_unlock.mpr ⟨hx, ?_⟩⟩
    exact fun heq => hp (h.locked_unique x hx _ hl.2.2.2 heq)
  | @rotate c jti f now e r user pair hfresh hr hlive hsub hsigns =>
    have hmid := h.spend now e.moment.newJti hr hlive hl.1
    refine ⟨hmid.issue hfresh (.inl (hl.2.2.1.family_drawn _ hl.2.1)) hsigns, trivial,
      (TableStep.spend _ _ _ hr).trans (.mint hmid hfresh _ _ _), ?_⟩
    exact fun x hx hp => mem_unlock.mpr ⟨hx, fun heq => hp (h.locked_unique x hx _ hl.2.2.2 heq)⟩
  | classify => exact ⟨h, classifyStep_ok hl, hsame⟩
  | rotateUnrecorded hfresh hsub hsigns =>
    have hmid := h.rotatedUnrecorded hl.1 hl.2.1
    refine ⟨hmid.issue hfresh (getD_newFamily hl.2.2) hsigns, trivial, ?_, fun _ hx _ => hx⟩
    refine .trans ?_ (.mint hmid hfresh _ _ _)
    exact .of_same rfl rfl
  | login hfresh hsigns =>
    exact ⟨h.issue hfresh (.inr rfl) hsigns, trivial, .mint h hfresh _ _ _, fun _ hx _ => hx⟩
  | refuse => exact ⟨h, trivial, hsame⟩
  | logout ht =>
    refine ⟨h, ?_, hsame⟩
    unfold logoutStep
    split
    · trivial
    · split
      · trivial
      · split <;> trivial
  | revokeAll => exact ⟨h, trivial, hsame⟩
  | begin => exact ⟨h.begin _, trivial, .of_same rfl rfl, fun _ hx _ => hx⟩
  | finish hfree =>
    refine ⟨h.revoke p _ hfree, ?_, .revoke s p _ _ _, fun _ hx _ => hx⟩
    split <;> trivial

/-! ### Revocations that do not overlap a rotation -/

/-- No row of the family can be consumed any more. -/
def FamilyClosed (s : RotationState τ) (f : Uuid) : Prop :=
  f ∈ s.drawn ∧ ∀ jti r, s.jtis jti = some r → r.familyId = f → r.revokedAt.isSome = true

/-- What holds in runs whose steps all meet `noOverlap`. -/
structure ClosedInv (s : RotationState τ) : Prop where
  same_user : ∀ jti r jti' r', s.jtis jti = some r → s.jtis jti' = some r' →
    r.familyId = r'.familyId → r.userId = r'.userId
  apart : ∀ x ∈ s.revoking, ∀ y ∈ s.locked, ∀ r, s.jtis y.1 = some r → x.2.covers r = false
  closed : ∀ target snapshot, .revoked target snapshot ∈ s.events →
    ∀ f, target.hits snapshot f → FamilyClosed s f
  ordered : NoRotationAfterRevocation s.events

/-- What a running revocation statement relies on: its snapshot shows every row of the families
that it is about. -/
structure Watches (p : ℕ) (target : RevokeTarget) (snapshot : JtiTable) (s : RotationState τ) :
    Prop where
  running : (p, target) ∈ s.revoking
  drawn : ∀ f, target.hits snapshot f → f ∈ s.drawn
  kept : ∀ jti r₀, snapshot jti = some r₀ → ∃ r, s.jtis jti = some r ∧
    r.familyId = r₀.familyId ∧ r.userId = r₀.userId ∧
      (r₀.revokedAt.isSome = true → r.revokedAt.isSome = true)
  shown : ∀ jti r, s.jtis jti = some r → target.hits snapshot r.familyId →
    (snapshot jti).isSome = true

def ClosedProcOk (p : ℕ) (l : RotationProc τ) (s : RotationState τ) : Prop :=
  match l with
  | .unrecorded c f => f = none ∧ c.familyId = none
  | .revoke target _ => ∀ f, target = .family f → f ∈ s.drawn
  | .revoking target snapshot _ => Watches p target snapshot s
  | .idle | .consume _ _ _ | .winner _ _ _ _ | .loser _ _ _ | .returned _ | .finished => True

theorem covers_congr {target : RevokeTarget} {r r' : JtiRow} (hf : r'.familyId = r.familyId)
    (hu : r'.userId = r.userId) : target.covers r' = target.covers r := by
  cases target with
  | family f => simp only [RevokeTarget.covers, hf]
  | user u => simp only [RevokeTarget.covers, hu]

/-- A row that the statement does not address lies outside the families it is about. -/
theorem Watches.not_hits {p : ℕ} {target : RevokeTarget} {snapshot : JtiTable}
    (h : Watches p target snapshot s) (hc : ClosedInv s) {jti : Uuid} {r : JtiRow}
    (hr : s.jtis jti = some r) (hcov : target.covers r = false) :
    ¬ target.hits snapshot r.familyId := by
  intro hhit
  cases target with
  | family f =>
    rw [RevokeTarget.hits] at hhit
    simp [RevokeTarget.covers, hhit] at hcov
  | user u =>
    obtain ⟨j, r₁, hr₁, hu, hf⟩ := hhit
    obtain ⟨r₂, hr₂, hf₂, hu₂, -⟩ := h.kept j r₁ hr₁
    have huser := hc.same_user j r₂ jti r hr₂ hr (hf₂.trans hf)
    simp [RevokeTarget.covers, ← huser, hu₂, hu] at hcov

/-- A statement addresses every row of the families it is about. -/
theorem Watches.covers_of_hits {p : ℕ} {target : RevokeTarget} {snapshot : JtiTable}
    (h : Watches p target snapshot s) (hc : ClosedInv s) {jti : Uuid} {r : JtiRow}
    (hr : s.jtis jti = some r) (hhit : target.hits snapshot r.familyId) :
    target.covers r = true := by
  by_contra hcov
  exact h.not_hits hc hr (Bool.not_eq_true _ ▸ hcov) hhit

theorem Watches.mono {p : ℕ} {target : RevokeTarget} {snapshot : JtiTable}
    (h : Watches p target snapshot s) (hstep : TableStep s s')
    (hrun : (p, target) ∈ s'.revoking)
    (hnew : ∀ jti r, s.jtis jti = none → s'.jtis jti = some r →
      ¬ target.hits snapshot r.familyId) : Watches p target snapshot s' where
  running := hrun
  drawn f hf := hstep.drawn f (h.drawn f hf)
  kept jti r₀ hr₀ := by
    obtain ⟨r, hr, hf, hu, hrev⟩ := h.kept jti r₀ hr₀
    obtain ⟨r', hr', hf', hu', hrev'⟩ := hstep.kept jti r hr
    exact ⟨r', hr', hf'.trans hf, hu'.trans hu, fun hh => hrev' (hrev hh)⟩
  shown jti r' hr' hhit := by
    cases hr : s.jtis jti with
    | none => exact absurd hhit (hnew jti r' hr hr')
    | some r =>
      obtain ⟨r'', hr'', hf, -⟩ := hstep.kept jti r hr
      obtain rfl : r' = r'' := Option.some.inj (hr'.symm.trans hr'')
      exact h.shown jti r hr (hf ▸ hhit)

theorem ClosedProcOk.mono {p : ℕ} {l : RotationProc τ} (h : ClosedProcOk p l s)
    (hstep : TableStep s s') (hrun : ∀ x ∈ s.revoking, x.1 = p → x ∈ s'.revoking)
    (hnew : ∀ target snapshot, Watches p target snapshot s → ∀ jti r, s.jtis jti = none →
      s'.jtis jti = some r → ¬ target.hits snapshot r.familyId) : ClosedProcOk p l s' := by
  cases l with
  | revoke target reply => exact fun f hf => hstep.drawn f (h f hf)
  | revoking target snapshot reply =>
    exact Watches.mono h hstep (hrun _ h.running rfl) (hnew target snapshot h)
  | unrecorded c f => exact h
  | idle | consume _ _ _ | winner _ _ _ _ | loser _ _ _ | returned _ | finished => trivial

theorem ClosedProcOk.of_same {p : ℕ} {l : RotationProc τ} (h : ClosedProcOk p l s)
    (hj : s'.jtis = s.jtis) (hd : s'.drawn = s.drawn)
    (hrun : ∀ x ∈ s.revoking, x.1 = p → x ∈ s'.revoking) : ClosedProcOk p l s' := by
  refine h.mono (.of_same hj hd) hrun fun target snapshot _ jti r hnone hsome => ?_
  rw [hj, hnone] at hsome
  cases hsome

theorem FamilyClosed.mono {f : Uuid} (h : FamilyClosed s f) (hstep : TableStep s s')
    (hnew : ∀ jti r, s.jtis jti = none → s'.jtis jti = some r → r.familyId ≠ f) :
    FamilyClosed s' f := by
  refine ⟨hstep.drawn f h.1, fun jti r' hr' hf => ?_⟩
  cases hr : s.jtis jti with
  | none => exact absurd hf (hnew jti r' hr hr')
  | some r =>
    obtain ⟨r'', hr'', hf', -, hrev⟩ := hstep.kept jti r hr
    obtain rfl : r' = r'' := Option.some.inj (hr'.symm.trans hr'')
    exact hrev (h.2 jti r hr (hf'.symm.trans hf))

theorem noRotationAfterRevocation_rotated {events : List RefreshEvent} {c : Claims}
    (h : NoRotationAfterRevocation events)
    (hc : ∀ target snapshot, .revoked target snapshot ∈ events → ∀ f, c.familyId = some f →
      ¬ target.hits snapshot f) : NoRotationAfterRevocation (.rotated c :: events) := by
  intro later target snapshot earlier heq c' hc' f hf
  cases later with
  | nil => cases heq
  | cons x rest =>
    simp only [List.cons_append, List.cons.injEq] at heq
    obtain ⟨rfl, heq⟩ := heq
    rcases List.mem_cons.mp hc' with hx | hrest
    · cases hx
      refine hc target snapshot ?_ f hf
      rw [heq]
      exact List.mem_append_right _ List.mem_cons_self
    · exact h rest target snapshot earlier heq c' hrest f hf

theorem noRotationAfterRevocation_revoked {events : List RefreshEvent} (target : RevokeTarget)
    (snapshot : JtiTable) (h : NoRotationAfterRevocation events) :
    NoRotationAfterRevocation (.revoked target snapshot :: events) := by
  intro later target' snapshot' earlier heq c hc f hf
  cases later with
  | nil => cases hc
  | cons x rest =>
    simp only [List.cons_append, List.cons.injEq] at heq
    obtain ⟨rfl, heq⟩ := heq
    rcases List.mem_cons.mp hc with hx | hrest
    · cases hx
    · exact h rest target' snapshot' earlier heq c hrest f hf

theorem ClosedInv.lock (h : ClosedInv s) {jti : Uuid} {p : ℕ} {now : ℤ} {tbl : JtiTable}
    (hc : consumeJti s.jtis now jti = some tbl)
    (hapart : ∀ r ∈ s.jtis jti, r.live = true → ∀ x ∈ s.revoking, x.2.covers r = false) :
    ClosedInv { s with locked := (jti, p) :: s.locked } where
  same_user := h.same_user
  apart x hx y hy r hr := by
    rcases List.mem_cons.mp hy with rfl | hy
    · obtain ⟨r', hr', hlive, -⟩ := consumeJti_some hc
      obtain rfl : r' = r := Option.some.inj (hr'.symm.trans hr)
      exact hapart r' hr' hlive x hx
    · exact h.apart x hx y hy r hr
  closed := h.closed
  ordered := h.ordered

theorem ClosedInv.unlock (h : ClosedInv s) (jti : Uuid) : ClosedInv (s.unlock jti) where
  same_user := h.same_user
  apart x hx y hy := h.apart x hx y (mem_unlock.mp hy).1
  closed := h.closed
  ordered := h.ordered

theorem ClosedInv.begin (h : ClosedInv s) {p : ℕ} {target : RevokeTarget}
    (hapart : ∀ x ∈ s.locked, ∀ r ∈ s.jtis x.1, target.covers r = false) :
    ClosedInv { s with revoking := (p, target) :: s.revoking } where
  same_user := h.same_user
  apart x hx y hy r hr := by
    rcases List.mem_cons.mp hx with rfl | hx
    · exact hapart y hy r hr
    · exact h.apart x hx y hy r hr
  closed := h.closed
  ordered := h.ordered

/-- A live row keeps its family open. -/
theorem ClosedInv.not_hits_live (h : ClosedInv s) {jti : Uuid} {r : JtiRow}
    (hr : s.jtis jti = some r) (hlive : r.live = true) {target : RevokeTarget}
    {snapshot : JtiTable} (hev : .revoked target snapshot ∈ s.events) :
    ¬ target.hits snapshot r.familyId := by
  intro hhit
  have hrev := (h.closed target snapshot hev r.familyId hhit).2 jti r hr rfl
  simp only [JtiRow.live, Bool.and_eq_true, Option.isNone_iff_eq_none] at hlive
  rw [hlive.2] at hrev
  cases hrev

theorem spend_eq_none {jti j : Uuid} {r : JtiRow} {now : ℤ} {succ : Uuid} {c : Claims}
    (hr : s.jtis jti = some r) : (s.spend jti r now succ c).jtis j = none ↔ s.jtis j = none := by
  by_cases hj : j = jti
  · subst hj
    simp [spend_jtis_self, hr]
  · rw [spend_jtis_of_ne s hj]

theorem ClosedInv.spend (h : ClosedInv s) {jti : Uuid} {r : JtiRow} {c : Claims} (now : ℤ)
    (succ : Uuid) (hr : s.jtis jti = some r) (hlive : r.live = true)
    (hf : c.familyId = some r.familyId) : ClosedInv (s.spend jti r now succ c) where
  same_user j r₁ j' r₂ hr₁ hr₂ hfam := by
    have old : ∀ j r', (s.spend jti r now succ c).jtis j = some r' → ∃ r₀, s.jtis j = some r₀ ∧
        r'.familyId = r₀.familyId ∧ r'.userId = r₀.userId := by
      intro j r' hr'
      by_cases hj : j = jti
      · subst hj
        rw [spend_jtis_self, Option.some.injEq] at hr'
        exact ⟨r, hr, hr' ▸ ⟨rfl, rfl⟩⟩
      · exact ⟨r', (spend_jtis_of_ne s hj ..).symm.trans hr', rfl, rfl⟩
    obtain ⟨q₁, hq₁, hf₁, hu₁⟩ := old j r₁ hr₁
    obtain ⟨q₂, hq₂, hf₂, hu₂⟩ := old j' r₂ hr₂
    rw [hu₁, hu₂]
    exact h.same_user j q₁ j' q₂ hq₁ hq₂ (hf₁.symm.trans (hfam.trans hf₂))
  apart x hx y hy r' hr' := by
    obtain ⟨hy, hne⟩ := mem_unlock.mp hy
    exact h.apart x hx y hy r' ((spend_jtis_of_ne s hne ..).symm.trans hr')
  closed target snapshot hev f hhit := by
    rcases List.mem_cons.mp hev with heq | hmem
    · cases heq
    · refine (h.closed target snapshot hmem f hhit).mono (.spend now succ c hr) ?_
      intro j r' hnone hsome
      rw [(spend_eq_none hr).mpr hnone] at hsome
      cases hsome
  ordered := by
    refine noRotationAfterRevocation_rotated h.ordered fun target snapshot hev f hf' => ?_
    obtain rfl : r.familyId = f := Option.some.inj (hf.symm.trans hf')
    exact h.not_hits_live hr hlive hev

theorem ClosedInv.rotatedUnrecorded (h : ClosedInv s) {c : Claims} (hf : c.familyId = none) :
    ClosedInv { s with events := .rotated c :: s.events } where
  same_user := h.same_user
  apart := h.apart
  closed target snapshot hev f hhit := by
    rcases List.mem_cons.mp hev with heq | hmem
    · cases heq
    · exact h.closed target snapshot hmem f hhit
  ordered := by
    refine noRotationAfterRevocation_rotated h.ordered fun target snapshot _ f hf' => ?_
    rw [hf] at hf'
    cases hf'

/-- The family of a new row is new, or that of a row of the same user that is not revoked. -/
def OpenFamily (s : RotationState τ) (family userId : Uuid) : Prop :=
  family ∉ s.drawn ∨ ∃ jti r, s.jtis jti = some r ∧ r.familyId = family ∧ r.userId = userId ∧
    r.revokedAt = none

theorem OpenFamily.not_closed {family userId : Uuid} (h : OpenFamily s family userId) :
    ¬ FamilyClosed s family := by
  rintro ⟨hd, hall⟩
  rcases h with hnew | ⟨jti, r, hr, hf, -, hrev⟩
  · exact hnew hd
  · have := hall jti r hr hf
    rw [hrev] at this
    cases this

theorem issue_new {m : Moment} {user : User} {family : Uuid} {scopes : Option (List String)}
    {t : τ} {jti : Uuid} {r : JtiRow} (hnone : s.jtis jti = none)
    (hr : (s.issue S m user family scopes t).jtis jti = some r) :
    jti = m.newJti ∧ r = newRow S m user family scopes := by
  rw [RotationState.issue, mint_jtis] at hr
  by_cases hj : jti = m.newJti
  · subst hj
    rw [Function.update_self, Option.some.injEq] at hr
    exact ⟨rfl, hr.symm⟩
  · rw [Function.update_of_ne hj, hnone] at hr
    cases hr

theorem issue_cases (h : RotationInv S s) {m : Moment} (hfresh : s.fresh m = true) {user : User}
    {family : Uuid} {scopes : Option (List String)} {t : τ} {jti : Uuid} {r : JtiRow}
    (hr : (s.issue S m user family scopes t).jtis jti = some r) :
    s.jtis jti = some r ∨ (jti = m.newJti ∧ r = newRow S m user family scopes) := by
  cases hold : s.jtis jti with
  | none => exact .inr (issue_new hold hr)
  | some r₀ =>
    have hj : jti ≠ m.newJti := fun hj =>
      (fresh_iff.mp hfresh).1 (hj ▸ (h.rows_drawn jti r₀ hold).1)
    rw [RotationState.issue, mint_jtis, Function.update_of_ne hj, hold] at hr
    exact .inl hr

theorem ClosedInv.issue (hinv : RotationInv S s) (h : ClosedInv s) {m : Moment}
    (hfresh : s.fresh m = true) {user : User} {family : Uuid} {scopes : Option (List String)}
    {t : τ} (hopen : OpenFamily s family user.id) :
    ClosedInv (s.issue S m user family scopes t) where
  same_user j r₁ j' r₂ hr₁ hr₂ hfam := by
    have same : ∀ j r, s.jtis j = some r → r.familyId = family → r.userId = user.id := by
      intro j r hr hf
      rcases hopen with hnew | ⟨j₀, r₀, hr₀, hf₀, hu₀, -⟩
      · exact absurd (hf ▸ (hinv.rows_drawn j r hr).2) hnew
      · exact (h.same_user j r j₀ r₀ hr hr₀ (hf.trans hf₀.symm)).trans hu₀
    rcases issue_cases hinv hfresh hr₁ with old₁ | ⟨-, rfl⟩ <;>
      rcases issue_cases hinv hfresh hr₂ with old₂ | ⟨-, rfl⟩
    · exact h.same_user j r₁ j' r₂ old₁ old₂ hfam
    · exact same j r₁ old₁ hfam
    · exact (same j' r₂ old₂ hfam.symm).symm
    · rfl
  apart x hx y hy r hr := by
    obtain ⟨r₀, hr₀, -⟩ := hinv.locked_live y hy
    rcases issue_cases hinv hfresh hr with old | ⟨hj, -⟩
    · exact h.apart x hx y hy r old
    · exact absurd (hj ▸ (hinv.rows_drawn _ r₀ hr₀).1) (fresh_iff.mp hfresh).1
  closed target snapshot hev f hhit := by
    have hcl := h.closed target snapshot hev f hhit
    refine hcl.mono (.mint hinv hfresh _ _ _) fun j r hnone hsome => ?_
    obtain ⟨-, rfl⟩ := issue_new hnone hsome
    rintro rfl
    exact hopen.not_closed hcl
  ordered := h.ordered

/-- The statement closes every family that it is about. -/
theorem ClosedInv.revoke (h : ClosedInv s) {p : ℕ}
    {target : RevokeTarget} {snapshot : JtiTable} (now : ℤ) (hw : Watches p target snapshot s) :
    ClosedInv (s.revoke p snapshot now target) where
  same_user j r₁ j' r₂ hr₁ hr₂ hfam := by
    obtain ⟨q₁, hq₁, hf₁, hu₁, -⟩ := revoke_old_keys hr₁
    obtain ⟨q₂, hq₂, hf₂, hu₂, -⟩ := revoke_old_keys hr₂
    rw [hu₁, hu₂]
    exact h.same_user j q₁ j' q₂ hq₁ hq₂ (hf₁.symm.trans (hfam.trans hf₂))
  apart x hx y hy r hr := by
    obtain ⟨r₀, hr₀, hf, hu, -⟩ := revoke_old_keys hr
    rw [covers_congr hf hu]
    exact h.apart x (List.mem_of_mem_filter hx) y hy r₀ hr₀
  closed target' snapshot' hev f hhit := by
    rcases List.mem_cons.mp hev with heq | hmem
    · cases heq
      refine ⟨hw.drawn f hhit, fun j r' hr' hf => ?_⟩
      obtain ⟨r, hr, rfl⟩ := revoke_old hr'
      have hfam : r.familyId = f := by
        obtain ⟨r₀, hr₀, hf', -⟩ := revoke_old_keys hr'
        obtain rfl : r = r₀ := Option.some.inj (hr.symm.trans hr₀)
        exact hf'.symm.trans hf
      subst hfam
      -- the snapshot shows the row, and addresses it
      have hcov := hw.covers_of_hits h hr hhit
      obtain ⟨r₀, hr₀⟩ := Option.isSome_iff_exists.mp (hw.shown j r hr hhit)
      obtain ⟨r₁, hr₁, hf₁, hu₁, hrev⟩ := hw.kept j r₀ hr₀
      obtain rfl : r = r₁ := Option.some.inj (hr.symm.trans hr₁)
      by_cases hold : r₀.revokedAt.isSome = true
      · split
        · exact revokeRow_revoked hcov
        · exact hrev hold
      · have hmatch : snapshotMatches target snapshot j = true := by
          rw [covers_congr hf₁ hu₁] at hcov
          simpa [snapshotMatches, hr₀, hcov] using hold
        rw [if_pos hmatch]
        exact revokeRow_revoked hcov
    · refine (h.closed target' snapshot' hmem f hhit).mono (.revoke s p snapshot now target) ?_
      intro j r hnone hsome
      obtain ⟨r₀, hr₀, -⟩ := revoke_old hsome
      rw [hnone] at hr₀
      cases hr₀
  ordered := noRotationAfterRevocation_revoked target snapshot h.ordered

theorem presentStep_closed (hK : S.key.Lawful) (h : RotationInv S s) (p : ℕ) (e : Call) {t : τ}
    (ht : t ∈ s.issued) : ClosedProcOk p (presentStep S e t) s := by
  obtain ⟨c, hc, hk⟩ := h.issued_known t ht
  unfold presentStep
  split
  · trivial
  next c' hd =>
  obtain rfl := hK.decodeToken_eq hc hd
  split
  · trivial
  split
  · trivial
  split
  · trivial
  · next hno =>
    refine ⟨rfl, ?_⟩
    cases hf : c'.familyId with
    | none => rfl
    | some f =>
      cases hj : c'.jti with
      | none => rw [hk.together.mp hj] at hf; cases hf
      | some jti => exact (hno jti f hj hf).elim

theorem logoutStep_closed (hK : S.key.Lawful) (h : RotationInv S s) (p : ℕ) (e : Call) {t : τ}
    (ht : t ∈ s.issued) : ClosedProcOk p (logoutStep S e t) s := by
  obtain ⟨c, hc, hk⟩ := h.issued_known t ht
  unfold logoutStep
  split
  · trivial
  next c' hd =>
  obtain rfl := hK.decodeToken_eq hc hd
  split
  · trivial
  split
  · trivial
  · next f hf =>
    intro f' hf'
    cases hf'
    exact hk.family_drawn f hf

theorem classifyStep_closed (h : RotationInv S s) {p : ℕ} {c : Claims} {jti f : Uuid} {now : ℤ}
    (hrec : (s.jtis jti).isSome = true) : ClosedProcOk p (classifyStep s.jtis now c jti f) s := by
  obtain ⟨r, hr⟩ := Option.isSome_iff_exists.mp hrec
  obtain ⟨hmiss, hreplay⟩ := @classifyLoser_of_some s.jtis now jti r hr
  unfold classifyStep
  split
  · next hm => exact absurd hm hmiss
  · trivial
  · next family hfam =>
    intro f' hf'
    cases hf'
    exact hreplay family hfam ▸ (h.rows_drawn jti r hr).2
  · trivial

/-- A statement starts with the whole table in view. -/
theorem Watches.start (h : RotationInv S s) {p : ℕ} {target : RevokeTarget}
    (hd : ∀ f, target = .family f → f ∈ s.drawn) :
    Watches p target s.jtis { s with revoking := (p, target) :: s.revoking } where
  running := List.mem_cons_self
  drawn f hhit := by
    cases target with
    | family f' => exact hd f (congrArg RevokeTarget.family hhit.symm)
    | user u =>
      obtain ⟨jti, r, hr, -, hf⟩ := hhit
      exact hf ▸ (h.rows_drawn jti r hr).2
  kept jti r hr := ⟨r, hr, rfl, rfl, id⟩
  shown jti r hr _ := by
    rw [show s.jtis jti = some r from hr]
    rfl

/-- A pair in an undrawn family does not disturb a running revocation. -/
theorem ClosedProcOk.issue_fresh (h : RotationInv S s) {m : Moment} (hfresh : s.fresh m = true)
    {user : User} {scopes : Option (List String)} {t : τ} {q : ℕ} {l : RotationProc τ}
    (hq : ClosedProcOk q l s) : ClosedProcOk q l (s.issue S m user m.newFamily scopes t) := by
  refine hq.mono (.mint h hfresh _ _ _) (fun _ hx _ => hx) ?_
  intro target snapshot hw jti r hnone hsome hhit
  obtain ⟨-, rfl⟩ := issue_new hnone hsome
  exact (fresh_iff.mp hfresh).2 (hw.drawn _ hhit)

/-- Apart steps keep the closed families closed, and what every call relies on. -/
theorem RotationStep.preserves_closed (hK : S.key.Lawful) (hinv : RotationInv S s)
    (h : ClosedInv s) {p : ℕ} {l l' : RotationProc τ} {a : RotationAction τ}
    (hl : RotationProcOk p l s) (hg : ClosedProcOk p l s) (hok : apartStep s l a)
    (hs : RotationStep S p s l a s' l') :
    ClosedInv s' ∧ ClosedProcOk p l' s' ∧
      ∀ q l₁, q ≠ p → ClosedProcOk q l₁ s → ClosedProcOk q l₁ s' := by
  have hsame : ∀ q l₁, q ≠ p → ClosedProcOk q l₁ s → ClosedProcOk q l₁ s := fun _ _ _ h => h
  cases hs with
  | present ht => exact ⟨h, presentStep_closed hK hinv p _ ht, hsame⟩
  | lose => exact ⟨h, trivial, hsame⟩
  | win hc hfree =>
    refine ⟨h.lock hc (hok.1 _ rfl), trivial, fun q l₁ _ hq => ?_⟩
    exact hq.of_same rfl rfl fun _ hx _ => hx
  | rollback =>
    refine ⟨h.unlock _, trivial, fun q l₁ _ hq => ?_⟩
    exact hq.of_same rfl rfl fun _ hx _ => hx
  | @rotate c jti f now e r user pair hfresh hr hlive hsub hsigns =>
    obtain ⟨hj, hf, hk, hlock⟩ := hl
    obtain ⟨hrf, hru⟩ := hk.row jti r hj hr
    obtain rfl : f = r.familyId := Option.some.inj (hf.symm.trans hrf)
    have hmid := hinv.spend now e.moment.newJti hr hlive hj
    have hlive' := hlive
    simp only [JtiRow.live, Bool.and_eq_true, Option.isNone_iff_eq_none] at hlive'
    refine ⟨(h.spend now e.moment.newJti hr hlive hrf).issue hmid hfresh (.inr ?_), trivial, ?_⟩
    · exact ⟨jti, _, spend_jtis_self .., rfl, hru.symm.trans hsub.symm, hlive'.2⟩
    · intro q l₁ _ hq
      refine hq.mono ((TableStep.spend _ _ _ hr).trans (.mint hmid hfresh _ _ _))
        (fun _ hx _ => hx) fun target snapshot hw j r' hnone hsome => ?_
      obtain ⟨-, rfl⟩ := issue_new ((spend_eq_none hr).mpr hnone) hsome
      have hnot := hw.not_hits h hr (h.apart _ hw.running _ hlock r hr)
      exact hnot
  | classify => exact ⟨h, classifyStep_closed hinv (hok.2.2 _ rfl), hsame⟩
  | rotateUnrecorded hfresh hsub hsigns =>
    obtain ⟨rfl, hf⟩ := hg
    have hmid := hinv.rotatedUnrecorded hl.1 hl.2.1
    refine ⟨(h.rotatedUnrecorded hf).issue hmid hfresh (.inl (fresh_iff.mp hfresh).2), trivial,
      fun q l₁ _ hq => ClosedProcOk.issue_fresh hmid hfresh (hq.of_same rfl rfl ?_)⟩
    exact fun _ hx _ => hx
  | login hfresh hsigns =>
    exact ⟨h.issue hinv hfresh (.inl (fresh_iff.mp hfresh).2), trivial,
      fun q l₁ _ hq => hq.issue_fresh hinv hfresh⟩
  | refuse => exact ⟨h, trivial, hsame⟩
  | logout ht => exact ⟨h, logoutStep_closed hK hinv p _ ht, hsame⟩
  | revokeAll =>
    refine ⟨h, ?_, hsame⟩
    intro f hf
    cases hf
  | begin =>
    refine ⟨h.begin (hok.2.1 _ rfl), Watches.start hinv hg, fun q l₁ _ hq => ?_⟩
    exact hq.of_same rfl rfl fun _ hx _ => List.mem_cons_of_mem _ hx
  | @finish target snapshot reply now hfree =>
    refine ⟨h.revoke now hg, ?_, fun q l₁ hqp hq => ?_⟩
    · split <;> trivial
    · refine hq.mono (.revoke s p snapshot now target) ?_ ?_
      · intro x hx hxq
        exact List.mem_filter.mpr ⟨hx, by simpa [hxq] using hqp⟩
      · intro _ _ _ jti r hnone hsome
        obtain ⟨r₀, hr₀, -⟩ := revoke_old hsome
        rw [hnone] at hr₀
        cases hr₀

end Table

/-- A table at rest, and tokens that agree with it. Rows may be in any state. -/
structure RotationStarted (S : AuthService τ) (s : RotationState τ) : Prop where
  locked : s.locked = []
  revoking : s.revoking = []
  events : s.events = []
  rows_drawn : ∀ jti r, s.jtis jti = some r → jti ∈ s.drawn ∧ r.familyId ∈ s.drawn
  issued_known : ∀ t ∈ s.issued, ∃ c, S.key.encode c = .ok t ∧ TokenKnown s c
  same_user : ∀ jti r jti' r', s.jtis jti = some r → s.jtis jti' = some r' →
    r.familyId = r'.familyId → r.userId = r'.userId

theorem RotationStarted.inv {S : AuthService τ} {s : RotationState τ} (h : RotationStarted S s) :
    RotationInv S s where
  locked_live := by rw [h.locked]; exact fun x hx => by cases hx
  locked_unique := by rw [h.locked]; exact fun x hx => by cases hx
  rows_drawn := h.rows_drawn
  issued_known := h.issued_known
  rotated_drawn := by rw [h.events]; exact fun c hc => by cases hc
  once jti r _ := by simp [h.events, rotations]

theorem RotationStarted.closed {S : AuthService τ} {s : RotationState τ}
    (h : RotationStarted S s) : ClosedInv s where
  same_user := h.same_user
  apart := by rw [h.revoking]; exact fun x hx => by cases hx
  closed := by rw [h.events]; exact fun _ _ hev => by cases hev
  ordered := by
    rw [h.events]
    intro later target snapshot earlier heq
    cases later <;> cases heq

section Result
variable [DecidableEq τ] {S : AuthService τ}

/-- In every run a recorded token is rotated at most once; in a run without overlap, no refresh of
a token of a revoked family succeeds after the revocation. -/
theorem rotation_once_and_revocation_final (hK : S.key.Lawful) {s₀ : RotationState τ}
    (h₀ : RotationStarted S s₀) {w : World (RotationState τ) (RotationProc τ)} :
    ((rotationProtocol S).machine.Reach Machine.anyStep ⟨s₀, fun _ => .idle⟩ w →
        ∀ jti, (w.shared.jtis jti).isSome = true → rotations w.shared.events jti ≤ 1) ∧
      ((rotationProtocol S).machine.Reach noOverlap ⟨s₀, fun _ => .idle⟩ w →
        NoRotationAfterRevocation w.shared.events) := by
  constructor
  · intro h jti hrec
    obtain ⟨hinv, -⟩ := Protocol.reach_rely_guarantee (I := RotationInv S) (A := RotationProcOk) h
      h₀.inv (fun _ => trivial) fun w p a s' l' hinv hl _ hs => by
        obtain ⟨hinv', hl', htable, hlocks⟩ :=
          (rotationProtocol_step hK hinv (hl p) hs).preserves hK hinv (hl p)
        exact ⟨hinv', hl', fun q hq => (hl q).mono htable hlocks hq⟩
    obtain ⟨r, hr⟩ := Option.isSome_iff_exists.mp hrec
    exact (hinv.once jti r hr).1
  · intro h
    obtain ⟨⟨-, hclosed⟩, -⟩ := Protocol.reach_rely_guarantee
      (I := fun s => RotationInv S s ∧ ClosedInv s)
      (A := fun p l s => RotationProcOk p l s ∧ ClosedProcOk p l s) h
      ⟨h₀.inv, h₀.closed⟩ (fun _ => ⟨trivial, trivial⟩) fun w p a s' l' hI hl hok hs => by
        obtain ⟨hinv, hclosed⟩ := hI
        have hstep := rotationProtocol_step hK hinv (hl p).1 hs
        obtain ⟨hinv', hl', htable, hlocks⟩ := hstep.preserves hK hinv (hl p).1
        obtain ⟨hclosed', hg', hothers⟩ :=
          hstep.preserves_closed hK hinv hclosed (hl p).1 (hl p).2 hok
        exact ⟨⟨hinv', hclosed'⟩, ⟨hl', hg'⟩, fun q hq =>
          ⟨(hl q).1.mono htable hlocks hq, hothers q _ hq (hl q).2⟩⟩
    exact hclosed.ordered

end Result

/-- An empty database. -/
def noTokens : RotationState (Claims ⊕ String) := ⟨fun _ => none, [], [], [], [], []⟩

theorem noTokens_started : RotationStarted plainService noTokens where
  locked := rfl
  revoking := rfl
  events := rfl
  rows_drawn jti r h := by cases h
  issued_known t h := by cases h
  same_user jti r jti' r' h := by cases h

def noTokensIdle : World (RotationState (Claims ⊕ String)) (RotationProc (Claims ⊕ String)) :=
  ⟨noTokens, fun _ => .idle⟩

/-- A call during which `Uuid::new_v4` returns the given identifiers. -/
def callDrawing (newFamily newJti : Uuid) : Call :=
  ⟨⟨1700000000123, newFamily, newJti⟩, 1700000000123, twoRepos, fun _ => none, fun _ _ => false,
    fun _ _ => false⟩

/-- The refresh token of a call above, in family 100. -/
def refreshDrawn (newFamily newJti : Uuid) : Claims ⊕ String :=
  .inl (plainService.refreshClaims (callDrawing newFamily newJti).moment ciUser 100 none .refresh)

/-- Call 2 starts to revoke family 100 while call 1 holds the row it rotates: the successor, not in
the snapshot, survives and call 3 refreshes it after the revocation has committed. -/
theorem rotation_after_revocation : ∃ w,
    (rotationProtocol plainService).machine.run noTokensIdle
      [(0, .login (callDrawing 100 200) (.ok ciUser)),
        (1, .present (callDrawing 0 0) (refreshDrawn 100 200)), (1, .consume 1700000000123),
        (2, .logout (callDrawing 0 0) (refreshDrawn 100 200)), (2, .begin),
        (1, .commit (callDrawing 101 201)), (2, .finish 1700000000123),
        (3, .present (callDrawing 0 0) (refreshDrawn 101 201)), (3, .consume 1700000000123),
        (3, .commit (callDrawing 102 202))] = some w ∧
      ¬ NoRotationAfterRevocation w.shared.events :=
  ⟨_, rfl, fun h => h [.rotated _] _ _ _ rfl _ List.mem_cons_self 100 rfl rfl⟩

/-- The same calls, with the rotation committed before the revocation starts. -/
def rotateThenLogout : List (ℕ × RotationAction (Claims ⊕ String)) :=
  [(0, .login (callDrawing 100 200) (.ok ciUser)),
    (1, .present (callDrawing 0 0) (refreshDrawn 100 200)), (1, .consume 1700000000123),
    (1, .commit (callDrawing 101 201)), (2, .logout (callDrawing 0 0) (refreshDrawn 100 200)),
    (2, .begin), (2, .finish 1700000000123),
    (3, .present (callDrawing 0 0) (refreshDrawn 101 201)), (3, .consume 1700000000123),
    (3, .classify 1700000000123)]

theorem rotation_final_after_logout : ∃ w,
    (rotationProtocol plainService).machine.run noTokensIdle rotateThenLogout =
        some w ∧
      (∀ jti, (w.shared.jtis jti).isSome = true → rotations w.shared.events jti ≤ 1) ∧
      NoRotationAfterRevocation w.shared.events := by
  have hmeets : (rotationProtocol plainService).machine.Meets noOverlap noTokensIdle
      rotateThenLogout := by
    decide
  have hreach := fun w h => @Machine.reach_of_run _ _ _ _ noTokensIdle w _ h hmeets
  have hfinal := fun w => @rotation_once_and_revocation_final _ _ plainService plainKey_lawful
    noTokens noTokens_started w
  exact ⟨_, rfl, (hfinal _).1 ((hreach _ rfl).mono fun _ _ _ => trivial),
    (hfinal _).2 (hreach _ rfl)⟩

end ArtifactKeeper.Auth
