import ArtifactKeeper.Auth.ApiToken

/-! The in-memory cache in front of `validate_api_token`, with token revocation (a tombstone per
token) and user deactivation (an instant per user) running beside it on one process. -/

namespace ArtifactKeeper.Auth
variable {τ : Type}

def apiTokenCacheTtlSecs : ℕ := 300

/-- `CachedApiTokenEntry` with the instant it was inserted at. -/
structure CachedEntry where
  validation : ApiTokenValidation
  tokenId : Uuid
  expiresAt : Option ℤ
  cachedAt : ℕ
  deriving DecidableEq, Repr

/-- `elapsed().as_secs() < secs` for an instant recorded at `at_`, in milliseconds. -/
def youngerThan (secs monoMs at_ : ℕ) : Bool := decide ((monoMs - at_) / 1000 < secs)

theorem youngerThan_iff {secs monoMs at_ : ℕ} (h : 0 < secs) :
    youngerThan secs monoMs at_ = true ↔ monoMs < at_ + secs * 1000 := by
  rw [youngerThan, decide_eq_true_iff]
  omega

/-- One process and the database. A cache belongs to an `AuthService` instance and is keyed by the
digest of the token text, here by the text. The last three fields record when the mark of a
completed revocation was set, when a deactivation of a user began, and which have completed. -/
structure CacheState (τ : Type) where
  wallMs : ℤ
  monoMs : ℕ
  db : TokenDb
  cache : ℕ → τ → Option CachedEntry
  registered : ℕ → Bool
  revokedApiTokens : Uuid → Option ℕ
  userInvalidations : Uuid → Option ℕ
  revokedAt : Uuid → Option ℕ
  deactivationBegun : Uuid → Option ℕ
  deactivated : Uuid → Bool

/-- `retain` of the two global maps: entries of twice the cache lifetime are dropped. -/
def retainYoung (monoMs : ℕ) (m : Uuid → Option ℕ) : Uuid → Option ℕ :=
  fun id => (m id).filter fun recordedAt => youngerThan (apiTokenCacheTtlSecs * 2) monoMs recordedAt

namespace TokenDb

/-- `UPDATE api_tokens SET revoked_at = NOW() WHERE id = $1 AND user_id = $2 AND revoked_at IS
NULL`. -/
def revokeToken (db : TokenDb) (tokenId userId : Uuid) (now : ℤ) : TokenDb :=
  { db with
    apiTokens := db.apiTokens.map fun t =>
      if t.id = tokenId ∧ t.userId = userId ∧ t.revokedAt = none then
        { t with revokedAt := some now } else t
    apiTokens_pk := by
      rw [List.map_map]
      convert db.apiTokens_pk using 2
      funext t
      simp only [Function.comp_apply]
      split <;> rfl
    tokenRepos_token := fun p hp => by
      obtain ⟨t, ht, he⟩ := db.tokenRepos_token p hp
      refine ⟨_, List.mem_map_of_mem ht, ?_⟩
      split <;> exact he }

def deactivateUser (db : TokenDb) (userId : Uuid) : TokenDb :=
  { db with
    users := db.users.map fun u => if u.id = userId then { u with isActive := false } else u }

end TokenDb

namespace CacheState

def markApiTokenRevoked (s : CacheState τ) (tokenId : Uuid) : CacheState τ :=
  { s with revokedApiTokens :=
      retainYoung s.monoMs (Function.update s.revokedApiTokens tokenId (some s.monoMs)) }

/-- Record the instant, then drop the user's entries from every registered cache. -/
def invalidateUserTokenCacheEntries (s : CacheState τ) (userId : Uuid) : CacheState τ :=
  { s with
    userInvalidations :=
      retainYoung s.monoMs (Function.update s.userInvalidations userId (some s.monoMs))
    cache := fun i text =>
      if s.registered i then (s.cache i text).filter fun e => e.validation.user.id != userId
      else s.cache i text }

def isUserApiTokensInvalidatedAfter (s : CacheState τ) (userId : Uuid) (cachedAt : ℕ) : Bool :=
  (s.userInvalidations userId).any fun invalidatedAt => decide (cachedAt ≤ invalidatedAt)

/-- The cache lookup that opens `validate_api_token`; `none` is a miss. -/
def cacheLookup (s : CacheState τ) (i : ℕ) (text : τ) :
    Option (Except AppError ApiTokenValidation) :=
  match s.cache i text with
  | none => none
  | some entry =>
    if !youngerThan apiTokenCacheTtlSecs s.monoMs entry.cachedAt then none
    else if (s.revokedApiTokens entry.tokenId).isSome then
      some (.error (.unauthorized "Token has been revoked"))
    else if entry.expiresAt.any fun exp => decide (exp < s.wallMs) then
      some (.error (.authentication "API token expired"))
    else if s.isUserApiTokensInvalidatedAfter entry.validation.user.id entry.cachedAt then
      some (.error (.authentication "User account is deactivated"))
    else some (.ok entry.validation)

variable [DecidableEq τ] in
/-- The insert that closes it, evicting stale entries of the same cache first. -/
def cacheInsert (s : CacheState τ) (i : ℕ) (text : τ) (row : ApiTokenRow)
    (validation : ApiTokenValidation) : CacheState τ :=
  { s with cache := Function.update s.cache i (Function.update
      (fun key => (s.cache i key).filter fun e =>
        youngerThan apiTokenCacheTtlSecs s.monoMs e.cachedAt)
      text (some ⟨validation, row.id, row.expiresAt, s.monoMs⟩)) }

end CacheState

/-- Where a `validate_api_token` call that missed the cache stands. -/
inductive ValidatePc where
  | readToken
  | verify (row : ApiTokenRow)
  | readUser (row : ApiTokenRow)
  | readRepos (row : ApiTokenRow) (user : User)
  | insert (row : ApiTokenRow) (validation : ApiTokenValidation)
  | returned (result : Except AppError ApiTokenValidation)

/-- The local state of a request. `late` records that when the call started, the revocation of its
token or the deactivation of its user had completed. -/
inductive CacheProc (τ : Type) where
  | idle
  | validating (inst : ℕ) (text : τ) (late : Bool) (pc : ValidatePc)
  | revoking (tokenId : Uuid)
  | deactivating (userId : Uuid)
  | finished

inductive CacheAction (τ : Type) where
  | tick (wall mono : ℕ)
  | prune
  | validate (inst : ℕ) (text : τ)
  | proceed
  | revoke (tokenId userId : Uuid)
  | mark
  | invalidate (userId : Uuid)
  | deactivate

/-- Revocation of the token that `text` belongs to, or deactivation of its user, has completed. -/
def CacheState.isLate (X : TokenText τ) (s : CacheState τ) (text : τ) : Bool :=
  (storedToken X s.db text).any fun row =>
    (s.revokedAt row.id).isSome || s.deactivated row.userId

section Protocol
variable [DecidableEq τ] (X : TokenText τ) (lower : String → String)

/-- The next step of a call past its cache lookup. -/
def validateStep (s : CacheState τ) (i : ℕ) (text : τ) :
    ValidatePc → Option (CacheState τ × ValidatePc)
  | .readToken =>
    match storedToken X s.db text with
    | none => some (s, .returned (.error (.authentication "Invalid API token")))
    | some row => some (s, .verify row)
  | .verify row =>
    match checkTokenValidationResult true row.revokedAt.isSome (X.verify text row.tokenHash) with
    | .error err => some (s, .returned (.error err))
    | .ok _ =>
      if row.expiresAt.any fun exp => decide (exp < s.wallMs) then
        some (s, .returned (.error (.authentication "API token expired")))
      else some (s, .readUser row)
  | .readUser row =>
    match loadActiveUser s.db.users row.userId with
    | .error err => some (s, .returned (.error err))
    | .ok user => some (s, .readRepos row user)
  | .readRepos row user =>
    some (s, .insert row ⟨user, row.scopes, .ofOption (tokenRepoIds lower s.db row)⟩)
  | .insert row validation => some (s.cacheInsert i text row validation, .returned (.ok validation))
  | .returned _ => none

/-- The SQL of `revoke_api_token` matches a row. -/
def revokeMatches (db : TokenDb) (tokenId userId : Uuid) : Bool :=
  db.apiTokens.any fun t => t.id == tokenId && t.userId == userId && t.revokedAt.isNone

/-- Any number of requests on one process. `revoke_api_token` runs its SQL and then sets the
tombstone; a deactivation marks the user first and then runs its SQL. -/
def cacheProtocol : Protocol (CacheState τ) (CacheProc τ) (CacheAction τ) where
  step _ s l a :=
    match l, a with
    | l, .tick wall mono =>
      some ({ s with wallMs := s.wallMs + wall, monoMs := s.monoMs + mono }, l)
    | l, .prune =>
      some ({ s with userInvalidations := retainYoung s.monoMs s.userInvalidations }, l)
    | .idle, .validate i text =>
      some (s, .validating i text (s.isLate X text)
        (match s.cacheLookup i text with
          | some r => .returned r
          | none => .readToken))
    | .validating i text late pc, .proceed =>
      (validateStep X lower s i text pc).map fun r => (r.1, .validating i text late r.2)
    | .idle, .revoke tokenId userId =>
      if revokeMatches s.db tokenId userId then
        some ({ s with db := s.db.revokeToken tokenId userId s.wallMs }, .revoking tokenId)
      else some (s, .finished)
    | .revoking tokenId, .mark =>
      some ({ s.markApiTokenRevoked tokenId with
        revokedAt := Function.update s.revokedAt tokenId
          ((s.revokedAt tokenId).or (some s.monoMs)) }, .finished)
    | .idle, .invalidate userId =>
      some ({ s.invalidateUserTokenCacheEntries userId with
        deactivationBegun := Function.update s.deactivationBegun userId
          ((s.deactivationBegun userId).or (some s.monoMs)) }, .deactivating userId)
    | .deactivating userId, .deactivate =>
      some ({ s with
        db := s.db.deactivateUser userId
        deactivated := Function.update s.deactivated userId true }, .finished)
    | _, _ => none

/-- The row whose validation the next step of a request inserts into a cache. -/
def insertedRow : CacheProc τ → CacheAction τ → Option ApiTokenRow
  | .validating _ _ _ (.insert row _), .proceed => some row
  | _, _ => none

/-- A cache insert happens no later than the beginning of a deactivation of its user, and no later
than one cache lifetime after the mark of a revocation of its token. -/
def timelyInsert (w : World (CacheState τ) (CacheProc τ)) (a : ℕ × CacheAction τ) : Prop :=
  ∀ row ∈ insertedRow (w.procs a.1) a.2,
    (∀ m ∈ w.shared.deactivationBegun row.userId, w.shared.monoMs ≤ m) ∧
      ∀ m ∈ w.shared.revokedAt row.id, w.shared.monoMs ≤ m + apiTokenCacheTtlSecs * 1000

instance (w : World (CacheState τ) (CacheProc τ)) (a : ℕ × CacheAction τ) :
    Decidable (timelyInsert w a) :=
  inferInstanceAs (Decidable (∀ row ∈ insertedRow (w.procs a.1) a.2, _))

end Protocol

section Invariant
variable (X : TokenText τ)

def RevokedRows (db : TokenDb) (tokenId : Uuid) : Prop :=
  ∀ row ∈ db.apiTokens, row.id = tokenId → row.revokedAt.isSome = true

def Inactive (db : TokenDb) (userId : Uuid) : Prop :=
  ∀ u ∈ db.users, u.id = userId → u.isActive = false

/-- The database rejects `text`: its row is revoked or its user inactive. -/
def Rejected (db : TokenDb) (row : ApiTokenRow) : Prop :=
  row.revokedAt.isSome = true ∨ Inactive db row.userId

/-- A mark set at `m` is in the map, possibly renewed, or has outlived twice the cache lifetime. -/
def MarkKept (monoMs : ℕ) (marks : Uuid → Option ℕ) (id : Uuid) (m : ℕ) : Prop :=
  m ≤ monoMs ∧ ((∃ m', m ≤ m' ∧ marks id = some m') ∨ m + 600000 ≤ monoMs)

/-- An entry agrees with the row of its text and is older than what would make it dangerous. -/
structure EntryOk (s : CacheState τ) (row : ApiTokenRow) (e : CachedEntry) : Prop where
  tokenId : e.tokenId = row.id
  userId : e.validation.user.id = row.userId
  cachedAt : e.cachedAt ≤ s.monoMs
  before_mark : ∀ m, s.revokedAt row.id = some m → e.cachedAt ≤ m + 300000
  before_deactivation : ∀ m, s.deactivationBegun row.userId = some m → e.cachedAt ≤ m

structure CacheInv (s : CacheState τ) : Prop where
  entries : ∀ i text e, s.cache i text = some e →
    ∃ row, storedToken X s.db text = some row ∧ EntryOk s row e
  tombstones : ∀ id m, s.revokedAt id = some m → MarkKept s.monoMs s.revokedApiTokens id m
  marks : ∀ u m, s.deactivationBegun u = some m → MarkKept s.monoMs s.userInvalidations u m
  revoked : ∀ id m, s.revokedAt id = some m → RevokedRows s.db id
  deactivated : ∀ u, s.deactivated u = true →
    Inactive s.db u ∧ (s.deactivationBegun u).isSome = true

/-- What a call that started late may still hold. -/
def LatePc (db : TokenDb) : ValidatePc → Prop
  | .readToken => True
  | .verify row => Rejected db row
  | .readUser row => Inactive db row.userId
  | .readRepos _ _ | .insert _ _ => False
  | .returned result => ∃ err, result = .error err

/-- What every call past its lookup holds. -/
def PcOk (db : TokenDb) (text : τ) : ValidatePc → Prop
  | .readToken | .returned _ => True
  | .verify row | .readUser row => ∃ row', storedToken X db text = some row' ∧ row'.id = row.id ∧
      row'.userId = row.userId
  | .readRepos row user => (∃ row', storedToken X db text = some row' ∧ row'.id = row.id ∧
      row'.userId = row.userId) ∧ user.id = row.userId
  | .insert row v => (∃ row', storedToken X db text = some row' ∧ row'.id = row.id ∧
      row'.userId = row.userId) ∧ v.user.id = row.userId

def ProcOk (_ : ℕ) (l : CacheProc τ) (s : CacheState τ) : Prop :=
  match l with
  | .validating _ text late pc => PcOk X s.db text pc ∧ (late = true → LatePc s.db pc ∧
      ∃ row, storedToken X s.db text = some row ∧ Rejected s.db row)
  | .revoking tokenId => RevokedRows s.db tokenId
  | .deactivating userId => (s.deactivationBegun userId).isSome = true
  | .idle | .finished => True

/-- What no step takes back. -/
structure Extends (s s' : CacheState τ) : Prop where
  stored : ∀ text row, storedToken X s.db text = some row →
    ∃ row', storedToken X s'.db text = some row' ∧ row'.id = row.id ∧ row'.userId = row.userId ∧
      (row.revokedAt.isSome = true → row'.revokedAt.isSome = true)
  revokedRows : ∀ id, RevokedRows s.db id → RevokedRows s'.db id
  inactive : ∀ u, Inactive s.db u → Inactive s'.db u
  begun : ∀ u, (s.deactivationBegun u).isSome = true → (s'.deactivationBegun u).isSome = true

variable {X} {s s' : CacheState τ}

theorem Extends.of_db_eq (hdb : s'.db = s.db)
    (hbegun : ∀ u, (s.deactivationBegun u).isSome = true →
      (s'.deactivationBegun u).isSome = true) : Extends X s s' where
  stored text row h := ⟨row, by rw [hdb]; exact h, rfl, rfl, id⟩
  revokedRows id h := by rw [hdb]; exact h
  inactive u h := by rw [hdb]; exact h
  begun := hbegun

theorem Rejected.mono (h : Extends X s s') {row row' : ApiTokenRow} (hid : row'.userId = row.userId)
    (hrev : row.revokedAt.isSome = true → row'.revokedAt.isSome = true)
    (hr : Rejected s.db row) : Rejected s'.db row' :=
  hr.imp hrev fun hin => by rw [hid]; exact h.inactive _ hin

theorem LatePc.mono (h : Extends X s s') {pc : ValidatePc} (hpc : LatePc s.db pc) :
    LatePc s'.db pc := by
  cases pc with
  | verify row => exact Rejected.mono h rfl id hpc
  | readUser row => exact h.inactive _ hpc
  | readToken | readRepos _ _ | insert _ _ | returned _ => exact hpc

theorem PcOk.mono (h : Extends X s s') {text : τ} {pc : ValidatePc} (hpc : PcOk X s.db text pc) :
    PcOk X s'.db text pc := by
  have same : ∀ row : ApiTokenRow, (∃ row', storedToken X s.db text = some row' ∧
      row'.id = row.id ∧ row'.userId = row.userId) → ∃ row', storedToken X s'.db text = some row' ∧
      row'.id = row.id ∧ row'.userId = row.userId := by
    rintro row ⟨row', hst, hid, hu⟩
    obtain ⟨row'', hst', hid', hu', -⟩ := h.stored text row' hst
    exact ⟨row'', hst', hid'.trans hid, hu'.trans hu⟩
  cases pc with
  | verify row | readUser row => exact same row hpc
  | readRepos row _ | insert row _ => exact ⟨same row hpc.1, hpc.2⟩
  | readToken | returned _ => trivial

/-- Assertions of a request are stable under the steps of all others. -/
theorem ProcOk.mono (h : Extends X s s') {p : ℕ} {l : CacheProc τ} (hl : ProcOk X p l s) :
    ProcOk X p l s' := by
  cases l with
  | validating i text late pc =>
    refine ⟨hl.1.mono h, fun hlate => ?_⟩
    obtain ⟨hpc, row, hst, hrej⟩ := hl.2 hlate
    obtain ⟨row', hst', -, hu, hrev⟩ := h.stored text row hst
    exact ⟨hpc.mono h, row', hst', hrej.mono h hu hrev⟩
  | revoking id => exact h.revokedRows id hl
  | deactivating u => exact h.begun u hl
  | idle | finished => trivial

theorem MarkKept.tick {mono mono' : ℕ} {marks : Uuid → Option ℕ} {id : Uuid} {m : ℕ}
    (hle : mono ≤ mono') (h : MarkKept mono marks id m) : MarkKept mono' marks id m := by
  obtain ⟨hm, hk⟩ := h
  exact ⟨hm.trans hle, hk.imp_right fun h => h.trans hle⟩

/-- Pruning only drops marks that have outlived twice the cache lifetime. -/
theorem MarkKept.retain {mono : ℕ} {marks : Uuid → Option ℕ} {id : Uuid} {m : ℕ}
    (h : MarkKept mono marks id m) : MarkKept mono (retainYoung mono marks) id m := by
  obtain ⟨hm, ⟨m', hle, hmark⟩ | hold⟩ := h
  · refine ⟨hm, ?_⟩
    by_cases hyoung : youngerThan (apiTokenCacheTtlSecs * 2) mono m' = true
    · exact .inl ⟨m', hle, by simp [retainYoung, hmark, Option.filter_some, hyoung]⟩
    · right
      rw [youngerThan_iff (by decide), apiTokenCacheTtlSecs] at hyoung
      omega
  · exact ⟨hm, .inr hold⟩

theorem MarkKept.renew {mono : ℕ} {marks : Uuid → Option ℕ} {id : Uuid} {m : ℕ}
    (h : MarkKept mono marks id m) (id' : Uuid) :
    MarkKept mono (Function.update marks id' (some mono)) id m := by
  by_cases hid : id = id'
  · subst hid
    exact ⟨h.1, .inl ⟨mono, h.1, by simp⟩⟩
  · obtain ⟨hm, hk⟩ := h
    exact ⟨hm, by simpa only [Function.update_of_ne hid] using hk⟩

theorem markKept_new (mono : ℕ) (marks : Uuid → Option ℕ) (id : Uuid) :
    MarkKept mono (Function.update marks id (some mono)) id mono :=
  ⟨le_rfl, .inl ⟨mono, le_rfl, by simp⟩⟩

/-- A first mark is kept from then on, whichever token or user is marked next. -/
theorem markKept_mark {mono : ℕ} {firsts marks : Uuid → Option ℕ} {id id' : Uuid} {m : ℕ}
    (hall : ∀ id m, firsts id = some m → MarkKept mono marks id m)
    (h : Function.update firsts id' ((firsts id').or (some mono)) id = some m) :
    MarkKept mono (retainYoung mono (Function.update marks id' (some mono))) id m := by
  by_cases hid : id = id'
  · subst hid
    rw [Function.update_self] at h
    cases hf : firsts id with
    | some m₀ =>
      rw [hf, Option.some_or, Option.some.injEq] at h
      exact ((hall id m (h ▸ hf)).renew id).retain
    | none =>
      rw [hf, Option.none_or, Option.some.injEq] at h
      exact h ▸ (markKept_new mono marks id).retain
  · rw [Function.update_of_ne hid] at h
    exact ((hall id m h).renew id').retain

/-- A call on a token whose revocation, or whose user's deactivation, has completed does not get
a cached validation. -/
theorem cacheLookup_late (hinv : CacheInv X s) {i : ℕ} {text : τ}
    (hlate : s.isLate X text = true) {r : Except AppError ApiTokenValidation}
    (h : s.cacheLookup i text = some r) : ∃ err, r = .error err := by
  unfold CacheState.cacheLookup at h
  split at h
  · cases h
  next e he =>
  obtain ⟨row, hst, hok⟩ := hinv.entries i text e he
  split at h
  · cases h
  next hyoung =>
  rw [Bool.not_eq_true', Bool.not_eq_false, youngerThan_iff (by decide),
    apiTokenCacheTtlSecs] at hyoung
  split at h
  · exact ⟨_, (Option.some.inj h).symm⟩
  next htomb =>
  split at h
  · exact ⟨_, (Option.some.inj h).symm⟩
  split at h
  · exact ⟨_, (Option.some.inj h).symm⟩
  next huser =>
  -- neither a tombstone nor a user mark covers the entry
  exfalso
  rw [CacheState.isLate, hst, Option.any_some, Bool.or_eq_true] at hlate
  rcases hlate with hrev | hdeact
  · obtain ⟨m, hm⟩ := Option.isSome_iff_exists.mp hrev
    have hbefore := hok.before_mark m hm
    obtain ⟨-, ⟨m', -, hmark⟩ | hold⟩ := hinv.tombstones row.id m hm
    · rw [hok.tokenId, hmark] at htomb
      exact htomb rfl
    · omega
  · obtain ⟨m, hm⟩ := Option.isSome_iff_exists.mp (hinv.deactivated row.userId hdeact).2
    have hbefore := hok.before_deactivation m hm
    obtain ⟨-, ⟨m', hle, hmark⟩ | hold⟩ := hinv.marks row.userId m hm
    · have hcov : e.cachedAt ≤ m' := hbefore.trans hle
      simp [CacheState.isUserApiTokensInvalidatedAfter, hok.userId, hmark, hcov] at huser
    · omega

theorem first_mark_cases {firsts : Uuid → Option ℕ} {mono : ℕ} {id id' : Uuid} {m : ℕ}
    (h : Function.update firsts id' ((firsts id').or (some mono)) id = some m) :
    firsts id = some m ∨ mono ≤ m := by
  by_cases hid : id = id'
  · subst hid
    rw [Function.update_self] at h
    cases hf : firsts id with
    | some m₀ => exact .inl (by rwa [hf, Option.some_or] at h)
    | none =>
      rw [hf, Option.none_or, Option.some.injEq] at h
      exact .inr h.le
  · exact .inl (by rwa [Function.update_of_ne hid] at h)

/-- Entries stay right while caches only shrink, rows keep their identity, and new marks are not
set in the past. -/
theorem CacheInv.entries_of_shrink (hinv : CacheInv X s) (hext : Extends X s s')
    (hcache : ∀ i text e, s'.cache i text = some e → s.cache i text = some e)
    (hmono : s.monoMs ≤ s'.monoMs)
    (hrev : ∀ id m, s'.revokedAt id = some m → s.revokedAt id = some m ∨ s.monoMs ≤ m)
    (hbegun : ∀ u m, s'.deactivationBegun u = some m →
      s.deactivationBegun u = some m ∨ s.monoMs ≤ m) :
    ∀ i text e, s'.cache i text = some e →
      ∃ row, storedToken X s'.db text = some row ∧ EntryOk s' row e := by
  intro i text e he
  obtain ⟨row, hst, hok⟩ := hinv.entries i text e (hcache i text e he)
  obtain ⟨row', hst', hid, hu, -⟩ := hext.stored text row hst
  refine ⟨row', hst', hok.tokenId.trans hid.symm, hok.userId.trans hu.symm,
    hok.cachedAt.trans hmono, fun m hm => ?_, fun m hm => ?_⟩
  · rcases hrev _ m hm with hold | hnew
    · exact hok.before_mark m (hid ▸ hold)
    · exact (hok.cachedAt.trans hnew).trans (Nat.le_add_right m 300000)
  · rcases hbegun _ m hm with hold | hnew
    · exact hok.before_deactivation m (hu ▸ hold)
    · exact hok.cachedAt.trans hnew

theorem storedToken_revokeToken (db : TokenDb) (tokenId userId : Uuid) (now : ℤ) (text : τ) :
    storedToken X (db.revokeToken tokenId userId now) text =
      (storedToken X db text).map fun t =>
        if t.id = tokenId ∧ t.userId = userId ∧ t.revokedAt = none then
          { t with revokedAt := some now } else t := by
  unfold storedToken
  cases X.tokenPrefix text with
  | none => rfl
  | some pre =>
    simp only [Option.bind_some, findByPrefix, TokenDb.revokeToken, List.find?_map]
    congr 2
    funext t
    simp only [Function.comp_apply]
    split <;> rfl

/-- The SQL of a revocation keeps what others rely on and revokes the row it matched. -/
theorem revokeToken_extends (tokenId userId : Uuid) (now : ℤ) :
    Extends X s { s with db := s.db.revokeToken tokenId userId now } where
  stored text row h := by
    refine ⟨_, by rw [storedToken_revokeToken, h]; rfl, ?_⟩
    dsimp only
    split
    · exact ⟨rfl, rfl, fun _ => rfl⟩
    · exact ⟨rfl, rfl, id⟩
  revokedRows id h := by
    intro row hrow hid
    obtain ⟨t, ht, rfl⟩ := List.mem_map.mp hrow
    split at hid
    · next hc => rw [if_pos hc]; rfl
    · next hc => rw [if_neg hc]; exact h t ht hid
  inactive u h := h
  begun u h := h

theorem revokeToken_revokedRows {db : TokenDb} {tokenId userId : Uuid} {now : ℤ}
    (h : revokeMatches db tokenId userId = true) :
    RevokedRows (db.revokeToken tokenId userId now) tokenId := by
  simp only [revokeMatches, List.any_eq_true, Bool.and_eq_true, beq_iff_eq,
    Option.isNone_iff_eq_none] at h
  obtain ⟨t, ht, ⟨hid, hu⟩, hnone⟩ := h
  intro row hrow hrid
  obtain ⟨t', ht', rfl⟩ := List.mem_map.mp hrow
  have hid' : t'.id = tokenId := by split at hrid <;> exact hrid
  -- by the primary key it is the row that matched
  obtain rfl : t' = t := List.inj_on_of_nodup_map db.apiTokens_pk ht' ht (hid'.trans hid.symm)
  rw [if_pos ⟨hid, hu, hnone⟩]
  rfl

theorem deactivateUser_inactive (db : TokenDb) (userId : Uuid) :
    Inactive (db.deactivateUser userId) userId := by
  intro u hu hid
  obtain ⟨v, hv, rfl⟩ := List.mem_map.mp hu
  split at hid
  · next hc => rw [if_pos hc]
  · next hc => exact absurd hid hc

theorem deactivateUser_extends (userId : Uuid) (d : Uuid → Bool) :
    Extends X s { s with db := s.db.deactivateUser userId, deactivated := d } where
  stored text row h := ⟨row, h, rfl, rfl, id⟩
  revokedRows id h := h
  inactive u h := by
    intro v hv hid
    obtain ⟨w, hw, rfl⟩ := List.mem_map.mp hv
    split at hid
    · next hc => rw [if_pos hc]
    · next hc => rw [if_neg hc]; exact h w hw hid
  begun u h := h

theorem loadActiveUser_of_inactive {db : TokenDb} {userId : Uuid} (h : Inactive db userId) :
    ∃ err, loadActiveUser db.users userId = .error err := by
  cases hl : loadActiveUser db.users userId with
  | error err => exact ⟨err, rfl⟩
  | ok u =>
    obtain ⟨hid, hact⟩ := loadActiveUser_ok hl
    unfold loadActiveUser at hl
    split at hl
    · next v hv =>
      cases hl
      rw [h _ (List.mem_of_find?_eq_some hv) hid] at hact
      cases hact
    · cases hl

/-- The steps that change neither the database nor a mark that others rely on. -/
theorem CacheInv.of_same_db (hinv : CacheInv X s) (hdb : s'.db = s.db)
    (hcache : ∀ i text e, s'.cache i text = some e → s.cache i text = some e)
    (hmono : s.monoMs ≤ s'.monoMs) (hrev : s'.revokedAt = s.revokedAt)
    (hbegun : s'.deactivationBegun = s.deactivationBegun) (hdeact : s'.deactivated = s.deactivated)
    (htomb : ∀ id m, s.revokedAt id = some m → MarkKept s'.monoMs s'.revokedApiTokens id m)
    (hmark : ∀ u m, s.deactivationBegun u = some m → MarkKept s'.monoMs s'.userInvalidations u m) :
    CacheInv X s' where
  entries := hinv.entries_of_shrink (.of_db_eq hdb (by rw [hbegun]; exact fun _ h => h)) hcache
    hmono (fun id m h => .inl (hrev ▸ h)) (fun u m h => .inl (hbegun ▸ h))
  tombstones := by rw [hrev]; exact htomb
  marks := by rw [hbegun]; exact hmark
  revoked := by rw [hrev, hdb]; exact hinv.revoked
  deactivated := by rw [hdeact, hdb, hbegun]; exact hinv.deactivated

theorem CacheInv.mark (hinv : CacheInv X s) {tokenId : Uuid} (hrows : RevokedRows s.db tokenId) :
    CacheInv X { s.markApiTokenRevoked tokenId with
      revokedAt := Function.update s.revokedAt tokenId
        ((s.revokedAt tokenId).or (some s.monoMs)) } where
  entries := hinv.entries_of_shrink (.of_db_eq rfl fun _ h => h) (fun _ _ _ h => h) le_rfl
    (fun id m h => first_mark_cases h) (fun u m h => .inl h)
  tombstones id m h := markKept_mark hinv.tombstones h
  marks := hinv.marks
  revoked id m h := by
    by_cases hid : id = tokenId
    · rw [hid]
      exact hrows
    · dsimp only at h
      rw [Function.update_of_ne hid] at h
      exact hinv.revoked id m h
  deactivated := hinv.deactivated

theorem begun_update_isSome {firsts : Uuid → Option ℕ} {userId u : Uuid} {mono : ℕ}
    (h : (firsts u).isSome = true) :
    (Function.update firsts userId ((firsts userId).or (some mono)) u).isSome = true := by
  by_cases hu : u = userId
  · subst hu
    simp
  · rwa [Function.update_of_ne hu]

theorem CacheInv.invalidate (hinv : CacheInv X s) (userId : Uuid) :
    CacheInv X { s.invalidateUserTokenCacheEntries userId with
      deactivationBegun := Function.update s.deactivationBegun userId
        ((s.deactivationBegun userId).or (some s.monoMs)) } where
  entries := by
    refine hinv.entries_of_shrink (.of_db_eq rfl fun _ h => begun_update_isSome h) ?_ le_rfl
      (fun id m h => .inl h) (fun u m h => first_mark_cases h)
    intro i text e he
    simp only [CacheState.invalidateUserTokenCacheEntries] at he
    split at he
    · exact (Option.filter_eq_some_iff.mp he).1
    · exact he
  tombstones := hinv.tombstones
  marks u m h := markKept_mark hinv.marks h
  revoked := hinv.revoked
  deactivated u h := ⟨(hinv.deactivated u h).1, begun_update_isSome (hinv.deactivated u h).2⟩

theorem CacheInv.deactivate (hinv : CacheInv X s) {userId : Uuid}
    (hbegun : (s.deactivationBegun userId).isSome = true) :
    CacheInv X { s with
      db := s.db.deactivateUser userId
      deactivated := Function.update s.deactivated userId true } where
  entries := hinv.entries_of_shrink (deactivateUser_extends userId _) (fun _ _ _ h => h) le_rfl
    (fun id m h => .inl h) (fun u m h => .inl h)
  tombstones := hinv.tombstones
  marks := hinv.marks
  revoked := hinv.revoked
  deactivated u h := by
    by_cases hu : u = userId
    · rw [hu]
      exact ⟨deactivateUser_inactive s.db userId, hbegun⟩
    · dsimp only at h
      rw [Function.update_of_ne hu] at h
      exact ⟨(deactivateUser_extends (X := X) userId s.deactivated).inactive u
        (hinv.deactivated u h).1, (hinv.deactivated u h).2⟩

theorem CacheInv.revoke (hinv : CacheInv X s) (tokenId userId : Uuid) (now : ℤ) :
    CacheInv X { s with db := s.db.revokeToken tokenId userId now } where
  entries := hinv.entries_of_shrink (revokeToken_extends tokenId userId now) (fun _ _ _ h => h)
    le_rfl (fun _ _ h => .inl h) (fun _ _ h => .inl h)
  tombstones := hinv.tombstones
  marks := hinv.marks
  revoked id m h := (revokeToken_extends (X := X) tokenId userId now).revokedRows id
    (hinv.revoked id m h)
  deactivated := hinv.deactivated

/-- A timely insert puts an entry in the cache that no later revocation is blind to. -/
theorem CacheInv.insert [DecidableEq τ] (hinv : CacheInv X s) {i : ℕ} {text : τ}
    {row row' : ApiTokenRow} {v : ApiTokenValidation} (hst : storedToken X s.db text = some row')
    (hid : row'.id = row.id) (hu : row'.userId = row.userId) (hv : v.user.id = row.userId)
    (hbegun : ∀ m, s.deactivationBegun row.userId = some m → s.monoMs ≤ m)
    (hrev : ∀ m, s.revokedAt row.id = some m → s.monoMs ≤ m + apiTokenCacheTtlSecs * 1000) :
    CacheInv X (s.cacheInsert i text row v) where
  entries j text' e he := by
    have keep : (∃ r, storedToken X s.db text' = some r ∧ EntryOk s r e) → ∃ r,
        storedToken X s.db text' = some r ∧ EntryOk (s.cacheInsert i text row v) r e := by
      rintro ⟨r, hr, hok⟩
      exact ⟨r, hr, hok.1, hok.2, hok.3, hok.4, hok.5⟩
    simp only [CacheState.cacheInsert] at he
    by_cases hj : j = i
    · subst hj
      rw [Function.update_self] at he
      by_cases htext : text' = text
      · subst htext
        rw [Function.update_self] at he
        cases he
        refine ⟨row', hst, hid.symm, hv.trans hu.symm, le_rfl, ?_, ?_⟩
        · rw [hid]
          exact hrev
        · rw [hu]
          exact hbegun
      · rw [Function.update_of_ne htext] at he
        exact keep (hinv.entries j text' e (Option.filter_eq_some_iff.mp he).1)
    · rw [Function.update_of_ne hj] at he
      exact keep (hinv.entries j text' e he)
  tombstones := hinv.tombstones
  marks := hinv.marks
  revoked := hinv.revoked
  deactivated := hinv.deactivated

/-- A step of a validation keeps its assertions; only the insert changes the shared state. -/
theorem validateStep_ok [DecidableEq τ] {lower : String → String} {i : ℕ} {text : τ} {late : Bool}
    {pc pc' : ValidatePc} (hinv : CacheInv X s) (hpc : PcOk X s.db text pc)
    (hlate : late = true → LatePc s.db pc ∧
      ∃ row, storedToken X s.db text = some row ∧ Rejected s.db row)
    (htimely : ∀ row v, pc = .insert row v →
      (∀ m, s.deactivationBegun row.userId = some m → s.monoMs ≤ m) ∧
        ∀ m, s.revokedAt row.id = some m → s.monoMs ≤ m + apiTokenCacheTtlSecs * 1000)
    (h : validateStep X lower s i text pc = some (s', pc')) :
    CacheInv X s' ∧ s'.db = s.db ∧ s'.deactivationBegun = s.deactivationBegun ∧
      PcOk X s.db text pc' ∧ (late = true → LatePc s.db pc') := by
  cases pc with
  | readToken =>
    simp only [validateStep] at h
    split at h
    · cases h
      exact ⟨hinv, rfl, rfl, trivial, fun _ => ⟨_, rfl⟩⟩
    · next row hst =>
      cases h
      refine ⟨hinv, rfl, rfl, ⟨row, hst, rfl, rfl⟩, fun hl => ?_⟩
      obtain ⟨-, row', hst', hrej⟩ := hlate hl
      rw [hst, Option.some.injEq] at hst'
      exact hst' ▸ hrej
  | verify row =>
    simp only [validateStep] at h
    split at h
    · cases h
      exact ⟨hinv, rfl, rfl, trivial, fun _ => ⟨_, rfl⟩⟩
    · next hcheck =>
      split at h
      · cases h
        exact ⟨hinv, rfl, rfl, trivial, fun _ => ⟨_, rfl⟩⟩
      · cases h
        refine ⟨hinv, rfl, rfl, hpc, fun hl => (hlate hl).1.resolve_left ?_⟩
        rw [(checkTokenValidationResult_ok hcheck).2.1]
        decide
  | readUser row =>
    simp only [validateStep] at h
    split at h
    · cases h
      exact ⟨hinv, rfl, rfl, trivial, fun _ => ⟨_, rfl⟩⟩
    · next user huser =>
      cases h
      refine ⟨hinv, rfl, rfl, ⟨hpc, (loadActiveUser_ok huser).1⟩, fun hl => ?_⟩
      obtain ⟨err, herr⟩ := loadActiveUser_of_inactive (hlate hl).1
      rw [huser] at herr
      cases herr
  | readRepos row user =>
    cases h
    exact ⟨hinv, rfl, rfl, hpc, fun hl => (hlate hl).1⟩
  | insert row v =>
    cases h
    obtain ⟨⟨row', hst, hid, hu⟩, hv⟩ := hpc
    obtain ⟨hbegun, hrev⟩ := htimely row v rfl
    exact ⟨hinv.insert hst hid hu hv hbegun hrev, rfl, rfl, trivial, fun hl => (hlate hl).1.elim⟩
  | returned r => cases h

/-- A row that is late is rejected by the database. -/
theorem CacheInv.rejected_of_late (hinv : CacheInv X s) {text : τ}
    (hlate : s.isLate X text = true) :
    ∃ row, storedToken X s.db text = some row ∧ Rejected s.db row := by
  cases hst : storedToken X s.db text with
  | none => simp [CacheState.isLate, hst] at hlate
  | some row =>
    rw [CacheState.isLate, hst, Option.any_some, Bool.or_eq_true] at hlate
    refine ⟨row, rfl, hlate.imp (fun hrev => ?_) fun h => (hinv.deactivated _ h).1⟩
    obtain ⟨m, hm⟩ := Option.isSome_iff_exists.mp hrev
    obtain ⟨pre, -, hfind⟩ := Option.bind_eq_some_iff.mp hst
    exact hinv.revoked row.id m hm row (List.mem_of_find?_eq_some hfind) rfl

/-- Every guarded step keeps the invariant, re-establishes the assertion of the request that moves
and extends what the others rely on. -/
theorem cacheProtocol_step [DecidableEq τ] {lower : String → String}
    {w : World (CacheState τ) (CacheProc τ)} {p : ℕ} {a : CacheAction τ} {s' : CacheState τ}
    {l' : CacheProc τ} (hinv : CacheInv X w.shared) (hl : ProcOk X p (w.procs p) w.shared)
    (hok : timelyInsert w (p, a))
    (h : (cacheProtocol X lower).step p w.shared (w.procs p) a = some (s', l')) :
    CacheInv X s' ∧ ProcOk X p l' s' ∧ Extends X w.shared s' := by
  cases a with
  | tick wall mono =>
    cases h
    have hle : w.shared.monoMs ≤ w.shared.monoMs + mono := Nat.le_add_right _ _
    have hext : Extends X w.shared { w.shared with
        wallMs := w.shared.wallMs + wall, monoMs := w.shared.monoMs + mono } :=
      .of_db_eq rfl fun _ hu => hu
    refine ⟨hinv.of_same_db rfl (fun _ _ _ he => he) hle rfl rfl rfl ?_ ?_, hl.mono hext, hext⟩
    · exact fun id m hm => (hinv.tombstones id m hm).tick hle
    · exact fun u m hm => (hinv.marks u m hm).tick hle
  | prune =>
    cases h
    have hext : Extends X w.shared { w.shared with
        userInvalidations := retainYoung w.shared.monoMs w.shared.userInvalidations } :=
      .of_db_eq rfl fun _ hu => hu
    refine ⟨hinv.of_same_db rfl (fun _ _ _ he => he) le_rfl rfl rfl rfl hinv.tombstones ?_,
      hl.mono hext, hext⟩
    exact fun u m hm => (hinv.marks u m hm).retain
  | validate i text =>
    cases hp : w.procs p <;> rw [hp] at h <;> cases h
    refine ⟨hinv, ⟨?_, fun hlate => ⟨?_, hinv.rejected_of_late hlate⟩⟩,
      .of_db_eq rfl fun _ hu => hu⟩
    · split <;> trivial
    · split
      · next r hr => exact cacheLookup_late hinv hlate hr
      · trivial
  | proceed =>
    cases hp : w.procs p with
    | validating i text late pc =>
      rw [hp] at h hl
      simp only [cacheProtocol, Option.map_eq_some_iff, Prod.mk.injEq] at h
      obtain ⟨⟨s'', pc'⟩, hstep, rfl, rfl⟩ := h
      have htimely : ∀ row v, pc = .insert row v →
          (∀ m, w.shared.deactivationBegun row.userId = some m → w.shared.monoMs ≤ m) ∧
            ∀ m, w.shared.revokedAt row.id = some m →
              w.shared.monoMs ≤ m + apiTokenCacheTtlSecs * 1000 := by
        rintro row v rfl
        exact hok row (by rw [hp]; rfl)
      obtain ⟨hinv', hdb, hbegun, hpc, hlate⟩ := validateStep_ok hinv hl.1 hl.2 htimely hstep
      refine ⟨hinv', ⟨hdb ▸ hpc, fun hlt => ?_⟩, .of_db_eq hdb (hbegun ▸ fun _ hu => hu)⟩
      exact hdb ▸ ⟨hlate hlt, (hl.2 hlt).2⟩
    | idle | revoking _ | deactivating _ | finished =>
      rw [hp] at h
      cases h
  | revoke tokenId userId =>
    cases hp : w.procs p <;> rw [hp] at h <;> try cases h
    simp only [cacheProtocol] at h
    split at h
    · next hmatch =>
      cases h
      exact ⟨hinv.revoke tokenId userId _, revokeToken_revokedRows hmatch,
        revokeToken_extends tokenId userId _⟩
    · cases h
      exact ⟨hinv, trivial, .of_db_eq rfl fun _ hu => hu⟩
  | mark =>
    cases hp : w.procs p <;> rw [hp] at h hl <;> cases h
    exact ⟨hinv.mark hl, trivial, .of_db_eq rfl fun _ hu => hu⟩
  | invalidate userId =>
    cases hp : w.procs p <;> rw [hp] at h <;> cases h
    refine ⟨hinv.invalidate userId, ?_, .of_db_eq rfl fun _ hu => begun_update_isSome hu⟩
    simp [ProcOk]
  | deactivate =>
    cases hp : w.procs p <;> rw [hp] at h hl <;> cases h
    exact ⟨hinv.deactivate hl, trivial, deactivateUser_extends _ _⟩

end Invariant

/-- A process that has just started: no cache holds anything and nothing has been marked. -/
def CacheState.started (db : TokenDb) (wallMs : ℤ) (registered : ℕ → Bool) : CacheState τ where
  wallMs := wallMs
  monoMs := 0
  db := db
  cache _ _ := none
  registered := registered
  revokedApiTokens _ := none
  userInvalidations _ := none
  revokedAt _ := none
  deactivationBegun _ := none
  deactivated _ := false

theorem CacheState.started_inv (X : TokenText τ) (db : TokenDb) (wallMs : ℤ)
    (registered : ℕ → Bool) : CacheInv X (CacheState.started (τ := τ) db wallMs registered) where
  entries i text e h := by cases h
  tombstones id m h := by cases h
  marks u m h := by cases h
  revoked id m h := by cases h
  deactivated u h := by cases h

section Result
variable [DecidableEq τ]

/-- While every insert is timely, a call that starts after the revocation of its token or the
deactivation of its user has completed returns an error. -/
theorem late_validation_errors (X : TokenText τ) (lower : String → String) {db : TokenDb}
    {wallMs : ℤ} {registered : ℕ → Bool} {w : World (CacheState τ) (CacheProc τ)}
    (h : (cacheProtocol X lower).machine.Reach timelyInsert
      ⟨.started db wallMs registered, fun _ => .idle⟩ w)
    {p i : ℕ} {text : τ} {r : Except AppError ApiTokenValidation}
    (hp : w.procs p = .validating i text true (.returned r)) : ∃ err, r = .error err := by
  have hall := Protocol.reach_rely_guarantee (I := CacheInv X) (A := ProcOk X) h
    (CacheState.started_inv X db wallMs registered) (fun _ => trivial) ?_
  · have hl := hall.2 p
    rw [hp] at hl
    exact (hl.2 rfl).1
  · intro w p a s' l' hinv hl hok hs
    obtain ⟨hinv', hl', hext⟩ := cacheProtocol_step hinv (hl p) hok hs
    exact ⟨hinv', hl', fun q _ => (hl q).mono hext⟩

end Result

/-- One repository reader and its API token, on a process with one registered cache. -/
def oneToken : TokenDb where
  users := [ciUser]
  apiTokens := [ciTokenRow]
  repositories := [⟨7, "libs", "docker"⟩]
  labels := []
  tokenRepos := []
  apiTokens_pk := by simp
  tokenRepos_token := by simp
  tokenRepos_repo := by simp

def oneTokenStarted : World (CacheState (Claims ⊕ String)) (CacheProc (Claims ⊕ String)) :=
  ⟨.started oneToken 0 (fun i => i == 0), fun _ => .idle⟩

/-- Request 0 has read the active user when request 1 deactivates it; request 0 inserts a
millisecond after the mark, and request 2, started after the deactivation, is let in. -/
theorem late_validation_succeeds : ∃ w v,
    (cacheProtocol plainTokenText id).machine.run oneTokenStarted
      [(0, .validate 0 ciToken), (0, .proceed), (0, .proceed), (0, .proceed), (0, .proceed),
        (1, .invalidate 1), (1, .deactivate), (0, .tick 1 1), (0, .proceed),
        (2, .validate 0 ciToken)] = some w ∧
      w.procs 2 = .validating 0 ciToken true (.returned (.ok v)) :=
  ⟨_, _, rfl, rfl⟩

/-- The same requests with the insert before the mark. -/
def insertThenDeactivate : List (ℕ × CacheAction (Claims ⊕ String)) :=
  [(0, .validate 0 ciToken), (0, .proceed), (0, .proceed), (0, .proceed), (0, .proceed),
    (0, .proceed), (1, .invalidate 1), (1, .deactivate), (2, .validate 0 ciToken), (2, .proceed),
    (2, .proceed), (2, .proceed)]

theorem late_validation_errors_after_insert : ∃ w r,
    (cacheProtocol plainTokenText id).machine.run oneTokenStarted insertThenDeactivate = some w ∧
      w.procs 2 = .validating 0 ciToken true (.returned r) ∧ ∃ err, r = .error err := by
  have hmeets : (cacheProtocol plainTokenText id).machine.Meets timelyInsert oneTokenStarted
      insertThenDeactivate := by
    decide
  have hrun := fun w h => @Machine.reach_of_run _ _ _ _ oneTokenStarted w _ h hmeets
  exact ⟨_, _, rfl, rfl, late_validation_errors plainTokenText id (hrun _ rfl) (p := 2) rfl⟩

end ArtifactKeeper.Auth
