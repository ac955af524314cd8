import ArtifactKeeper.Machine
import ArtifactKeeper.Result
import ArtifactKeeper.Auth.RepoSelector
import Mathlib.Data.Fintype.EquivFin

/-! API tokens: the tables behind them, the database path of `validate_api_token`, and what
repository deletions do to the scope of a token created with an explicit repository list. -/

namespace ArtifactKeeper.Auth
variable {τ : Type}

structure ApiTokenRow where
  id : Uuid
  tokenHash : String
  tokenPrefix : String
  userId : Uuid
  scopes : List String
  expiresAt : Option ℤ
  /-- The `repo_selector` column; `some none` is JSON that does not parse as a selector. -/
  repoSelector : Option (Option RepoSelector)
  revokedAt : Option ℤ
  deriving DecidableEq, Repr

/-- The tables read by API-token validation. `tokenRepos` is `api_token_repositories`, whose
foreign keys, like the primary key of `api_tokens`, are fields of the structure. -/
structure TokenDb where
  users : List User
  apiTokens : List ApiTokenRow
  repositories : List RepoRow
  labels : List LabelRow
  tokenRepos : List (Uuid × Uuid)
  apiTokens_pk : (apiTokens.map ApiTokenRow.id).Nodup
  tokenRepos_token : ∀ p ∈ tokenRepos, ∃ t ∈ apiTokens, t.id = p.1
  tokenRepos_repo : ∀ p ∈ tokenRepos, ∃ r ∈ repositories, r.id = p.2

/-- What the code computes on token texts outside the database: the first eight characters
(`none` for a shorter text) and bcrypt verification against a stored hash. -/
structure TokenText (τ : Type) where
  tokenPrefix : τ → Option String
  verify : τ → String → Bool

structure ApiTokenValidation where
  user : User
  scopes : List String
  allowedRepoIds : AccessScope
  deriving DecidableEq, Repr

/-- `fetch_optional … WHERE token_prefix = $1`. -/
def findByPrefix (db : TokenDb) (pre : String) : Option ApiTokenRow :=
  db.apiTokens.find? fun t => t.tokenPrefix == pre

def checkTokenValidationResult (tokenExists isRevoked hashMatches : Bool) : Except AppError Unit :=
  if !tokenExists then .error (.authentication "Invalid API token")
  else if isRevoked then .error (.unauthorized "Token has been revoked")
  else if !hashMatches then .error (.authentication "Invalid API token")
  else .ok ()

theorem checkTokenValidationResult_ok {tokenExists isRevoked hashMatches : Bool} {u : Unit}
    (h : checkTokenValidationResult tokenExists isRevoked hashMatches = .ok u) :
    tokenExists = true ∧ isRevoked = false ∧ hashMatches = true := by
  cases tokenExists <;> cases isRevoked <;> cases hashMatches <;>
    simp [checkTokenValidationResult] at h ⊢

/-- The repository restriction of a stored token; `none` is unrestricted. -/
def tokenRepoIds (lower : String → String) (db : TokenDb) (row : ApiTokenRow) :
    Option (List Uuid) :=
  match row.repoSelector with
  | some json =>
    let selector := json.getD .default
    if selector.isEmpty then none
    else some (resolveIds lower db.repositories db.labels selector)
  | none =>
    let repoRows := db.tokenRepos.filter fun p => p.1 == row.id
    if repoRows.isEmpty then none else some (repoRows.map Prod.snd)

/-- `validate_api_token` past its cache: prefix lookup, bcrypt, revocation, expiry, user, scope. -/
def validateApiToken (X : TokenText τ) (lower : String → String) (db : TokenDb) (now : ℤ)
    (token : τ) : Except AppError ApiTokenValidation :=
  match X.tokenPrefix token with
  | none => .error (.authentication "Invalid API token")
  | some pre =>
    match findByPrefix db pre with
    | none => .error (.authentication "Invalid API token")
    | some row => do
      checkTokenValidationResult true row.revokedAt.isSome (X.verify token row.tokenHash)
      if row.expiresAt.any fun exp => decide (exp < now) then
        throw (.authentication "API token expired")
      else
        let user ← loadActiveUser db.users row.userId
        return ⟨user, row.scopes, .ofOption (tokenRepoIds lower db row)⟩

namespace TokenDb

def insertApiToken (db : TokenDb) (row : ApiTokenRow) : Except AppError TokenDb :=
  if h : db.apiTokens.any fun t => t.id == row.id then
    .error (.database "duplicate key value violates unique constraint")
  else .ok { db with
    apiTokens := row :: db.apiTokens
    apiTokens_pk := by
      rw [List.map_cons, List.nodup_cons]
      exact ⟨by simpa using h, db.apiTokens_pk⟩
    tokenRepos_token := fun p hp =>
      let ⟨t, ht, he⟩ := db.tokenRepos_token p hp
      ⟨t, List.mem_cons_of_mem _ ht, he⟩ }

/-- `INSERT INTO api_token_repositories`, under its primary key and foreign keys. -/
def insertTokenRepo (db : TokenDb) (tokenId repoId : Uuid) : Except AppError TokenDb :=
  if h : (∃ t ∈ db.apiTokens, t.id = tokenId) ∧ (∃ r ∈ db.repositories, r.id = repoId) then
    if (tokenId, repoId) ∈ db.tokenRepos then
      .error (.database "duplicate key value violates unique constraint")
    else .ok { db with
      tokenRepos := (tokenId, repoId) :: db.tokenRepos
      tokenRepos_token := fun p hp => (List.mem_cons.mp hp).elim (fun he => he ▸ h.1)
        (db.tokenRepos_token p)
      tokenRepos_repo := fun p hp => (List.mem_cons.mp hp).elim (fun he => he ▸ h.2)
        (db.tokenRepos_repo p) }
  else .error (.database "insert or update violates foreign key constraint")

def setRepoSelector (db : TokenDb) (tokenId : Uuid) (json : Option RepoSelector) : TokenDb :=
  { db with
    apiTokens := db.apiTokens.map fun t =>
      if t.id = tokenId then { t with repoSelector := some json } else t
    apiTokens_pk := by
      rw [List.map_map]
      convert db.apiTokens_pk using 2
      funext t
      simp only [Function.comp_apply]
      split <;> rfl
    tokenRepos_token := fun p hp => by
      obtain ⟨t, ht, he⟩ := db.tokenRepos_token p hp
      refine ⟨_, List.mem_map_of_mem ht, ?_⟩
      split <;> exact he }

/-- The writes of `create_token`: the token row, then either the selector or one join row for each
listed repository. -/
def createToken (db : TokenDb) (row : ApiTokenRow) (selector : Option (Option RepoSelector))
    (repositoryIds : Option (List Uuid)) : Except AppError TokenDb :=
  if selector.isSome && repositoryIds.isSome then
    .error (.validation "Cannot specify both repo_selector and repository_ids")
  else do
    let db' ← db.insertApiToken { row with repoSelector := none, revokedAt := none }
    match selector, repositoryIds with
    | some json, _ => return db'.setRepoSelector row.id json
    | none, some ids => ids.foldlM (fun d repoId => d.insertTokenRepo row.id repoId) db'
    | none, none => return db'

def createRepository (db : TokenDb) (row : RepoRow) : Option TokenDb :=
  if db.repositories.any fun r => r.id == row.id then none
  else some { db with
    repositories := row :: db.repositories
    tokenRepos_repo := fun p hp =>
      let ⟨r, hr, he⟩ := db.tokenRepos_repo p hp
      ⟨r, List.mem_cons_of_mem _ hr, he⟩ }

/-- Deleting a repository takes its labels and its `api_token_repositories` rows with it
(`ON DELETE CASCADE`). -/
def deleteRepository (db : TokenDb) (repoId : Uuid) : TokenDb :=
  { db with
    repositories := db.repositories.filter fun r => r.id != repoId
    labels := db.labels.filter fun l => l.repositoryId != repoId
    tokenRepos := db.tokenRepos.filter fun p => p.2 != repoId
    tokenRepos_token := fun p hp => db.tokenRepos_token p (List.mem_of_mem_filter hp)
    tokenRepos_repo := fun p hp => by
      obtain ⟨hp, hne⟩ := List.mem_filter.mp hp
      obtain ⟨r, hr, he⟩ := db.tokenRepos_repo p hp
      exact ⟨r, List.mem_filter.mpr ⟨hr, by rw [he]; exact hne⟩, he⟩ }

end TokenDb

/-- What may happen to the tables between two validations of a token. -/
inductive RepoAction (τ : Type) where
  | create (row : RepoRow)
  | delete (repoId : Uuid)
  | validate (token : τ)
  deriving DecidableEq

def repoMachine (τ : Type) : Machine TokenDb (RepoAction τ) where
  step db
    | .create row => db.createRepository row
    | .delete repoId => some (db.deleteRepository repoId)
    | .validate _ => some db

/-- The stored row that the database path finds for `token`. -/
def storedToken (X : TokenText τ) (db : TokenDb) (token : τ) : Option ApiTokenRow :=
  (X.tokenPrefix token).bind (findByPrefix db)

theorem validateApiToken_ok {X : TokenText τ} {lower : String → String} {db : TokenDb} {now : ℤ}
    {token : τ} {v : ApiTokenValidation} (h : validateApiToken X lower db now token = .ok v) :
    ∃ row, storedToken X db token = some row ∧ row.revokedAt = none ∧
      X.verify token row.tokenHash = true ∧ loadActiveUser db.users row.userId = .ok v.user ∧
      v.scopes = row.scopes ∧ v.allowedRepoIds = .ofOption (tokenRepoIds lower db row) := by
  unfold validateApiToken at h
  unfold storedToken
  cases hpre : X.tokenPrefix token with
  | none => simp [hpre] at h
  | some pre =>
    simp only [hpre] at h
    cases hrow : findByPrefix db pre with
    | none => simp [hrow] at h
    | some row =>
      simp only [hrow, Except.bind_eq_ok_iff] at h
      obtain ⟨_, hcheck, h⟩ := h
      split at h
      · simp at h
      · simp only [Except.bind_eq_ok_iff, Except.pure_eq_ok_iff] at h
        obtain ⟨user, hu, rfl⟩ := h
        obtain ⟨-, hrev, hver⟩ := checkTokenValidationResult_ok hcheck
        exact ⟨row, by simp [hrow], by simpa using hrev, hver, hu, rfl, rfl⟩

theorem tokenRepoIds_explicit {lower : String → String} {db : TokenDb} {row : ApiTokenRow}
    (hsel : row.repoSelector = none) (hrow : ∃ r, (row.id, r) ∈ db.tokenRepos) :
    tokenRepoIds lower db row =
      some ((db.tokenRepos.filter fun p => p.1 == row.id).map Prod.snd) := by
  obtain ⟨r, hr⟩ := hrow
  have hne : (db.tokenRepos.filter fun p => p.1 == row.id).isEmpty = false := by
    rw [List.isEmpty_eq_false_iff]
    exact List.ne_nil_of_mem (List.mem_filter.mpr ⟨hr, by simp⟩)
  simp [tokenRepoIds, hsel, hne]

/-- With neither a selector nor join rows, a token is unrestricted. -/
theorem tokenRepoIds_no_rows {lower : String → String} {db : TokenDb} {row : ApiTokenRow}
    (hsel : row.repoSelector = none) (hrow : ∀ r, (row.id, r) ∉ db.tokenRepos) :
    tokenRepoIds lower db row = none := by
  have hempty : db.tokenRepos.filter (fun p => p.1 == row.id) = [] := by
    rw [List.filter_eq_nil_iff]
    rintro ⟨t, r⟩ hp ht
    simp only [beq_iff_eq] at ht
    exact hrow r (ht ▸ hp)
  simp [tokenRepoIds, hsel, hempty]

namespace TokenDb

theorem insertTokenRepo_ok {db db' : TokenDb} {tokenId repoId : Uuid}
    (h : db.insertTokenRepo tokenId repoId = .ok db') :
    db'.apiTokens = db.apiTokens ∧ db'.tokenRepos = (tokenId, repoId) :: db.tokenRepos := by
  unfold insertTokenRepo at h
  split at h
  · split at h
    · cases h
    · cases h
      exact ⟨rfl, rfl⟩
  · cases h

theorem insertTokenRepos_ok {tokenId : Uuid} {ids : List Uuid} {db db' : TokenDb}
    (h : ids.foldlM (fun d repoId => d.insertTokenRepo tokenId repoId) db = .ok db') :
    db'.apiTokens = db.apiTokens ∧
      ∀ p, p ∈ db'.tokenRepos ↔ p ∈ db.tokenRepos ∨ (p.1 = tokenId ∧ p.2 ∈ ids) := by
  induction ids generalizing db with
  | nil =>
    simp only [List.foldlM_nil, Except.pure_eq_ok_iff] at h
    subst h
    simp
  | cons id ids ih =>
    simp only [List.foldlM_cons, Except.bind_eq_ok_iff] at h
    obtain ⟨mid, hmid, h⟩ := h
    obtain ⟨htok, hrepos⟩ := insertTokenRepo_ok hmid
    obtain ⟨htok', hrepos'⟩ := ih h
    refine ⟨htok'.trans htok, fun p => ?_⟩
    rw [hrepos' p, hrepos, List.mem_cons, List.mem_cons, Prod.ext_iff]
    tauto

/-- After `create_token` with an explicit list, the token has exactly the listed join rows and no
selector. -/
theorem createToken_explicit {db db' : TokenDb} {row : ApiTokenRow} {ids : List Uuid}
    (h : db.createToken row none (some ids) = .ok db') :
    (∀ r, (row.id, r) ∈ db'.tokenRepos ↔ r ∈ ids) ∧
      ∀ t ∈ db'.apiTokens, t.id = row.id → t.repoSelector = none := by
  simp only [createToken, Option.isSome_none, Bool.false_and, Bool.false_eq_true, if_false,
    Except.bind_eq_ok_iff] at h
  obtain ⟨mid, hmid, h⟩ := h
  unfold insertApiToken at hmid
  split at hmid
  · cases hmid
  next hnew =>
  cases hmid
  simp only [List.any_eq_true, beq_iff_eq, not_exists, not_and] at hnew
  obtain ⟨htok, hrepos⟩ := insertTokenRepos_ok h
  constructor
  · intro r
    rw [hrepos]
    -- a fresh token has no join rows, by the foreign key
    have hfresh : (row.id, r) ∉ db.tokenRepos := by
      intro hr
      obtain ⟨t, ht, he⟩ := db.tokenRepos_token _ hr
      exact hnew t ht he
    simp [hfresh]
  · intro t ht hid
    rw [htok, List.mem_cons] at ht
    rcases ht with rfl | ht
    · rfl
    · exact absurd hid (hnew t ht)

end TokenDb

/-- Over any sequence of actions the token rows stay, and exactly the join rows of repositories
that were not deleted remain. -/
theorem repoMachine_run {db db' : TokenDb} {actions : List (RepoAction τ)}
    (h : (repoMachine τ).run db actions = some db') :
    db'.apiTokens = db.apiTokens ∧ ∀ p, p ∈ db'.tokenRepos ↔
      p ∈ db.tokenRepos ∧ RepoAction.delete p.2 ∉ actions := by
  induction actions generalizing db with
  | nil =>
    simp only [Machine.run, Option.some.injEq] at h
    subst h
    simp
  | cons a rest ih =>
    simp only [Machine.run] at h
    split at h
    · cases h
    next mid hmid =>
    obtain ⟨htok, hrepos⟩ := ih h
    cases a with
    | create row =>
      simp only [repoMachine, TokenDb.createRepository] at hmid
      split at hmid
      · cases hmid
      · cases hmid
        exact ⟨htok, fun p => by simpa using hrepos p⟩
    | delete repoId =>
      simp only [repoMachine, TokenDb.deleteRepository, Option.some.injEq] at hmid
      subst hmid
      refine ⟨htok, fun p => ?_⟩
      rw [hrepos p]
      simp only [List.mem_filter, bne_iff_ne, List.mem_cons, RepoAction.delete.injEq]
      tauto
    | validate token =>
      simp only [repoMachine, Option.some.injEq] at hmid
      subst hmid
      exact ⟨htok, fun p => by simpa using hrepos p⟩

/-- A token created with an explicit repository list stays inside that list exactly as long as
some listed repository has not been deleted. -/
theorem explicit_scope_stays_within_iff (X : TokenText τ) (lower : String → String)
    {db db' db'' : TokenDb} {row stored : ApiTokenRow} {ids : List Uuid}
    {actions : List (RepoAction τ)} {now : ℤ} {token : τ} {v : ApiTokenValidation}
    (hcreate : db.createToken row none (some ids) = .ok db')
    (hrun : (repoMachine τ).run db' actions = some db'')
    (hstored : storedToken X db'' token = some stored) (hid : stored.id = row.id)
    (hv : validateApiToken X lower db'' now token = .ok v) :
    (∀ repo, v.allowedRepoIds.grants repo = true → repo ∈ ids) ↔
      ∃ r ∈ ids, RepoAction.delete r ∉ actions := by
  obtain ⟨hrows, hsel⟩ := TokenDb.createToken_explicit hcreate
  obtain ⟨htok, hrepos⟩ := repoMachine_run hrun
  obtain ⟨row', hrow', -, -, -, -, hscope⟩ := validateApiToken_ok hv
  obtain rfl : stored = row' := Option.some.inj (hstored.symm.trans hrow')
  have hnosel : stored.repoSelector = none := by
    apply hsel stored _ hid
    rw [← htok]
    obtain ⟨pre, -, hfind⟩ := Option.bind_eq_some_iff.mp hstored
    exact List.mem_of_find?_eq_some hfind
  have hleft : ∀ r, (stored.id, r) ∈ db''.tokenRepos ↔ r ∈ ids ∧ RepoAction.delete r ∉ actions := by
    intro r
    rw [hrepos, hid, hrows]
  by_cases hempty : ∃ r ∈ ids, RepoAction.delete r ∉ actions
  · obtain ⟨r, hr, hkept⟩ := hempty
    refine iff_of_true ?_ ⟨r, hr, hkept⟩
    rw [hscope, tokenRepoIds_explicit hnosel ⟨r, (hleft r).mpr ⟨hr, hkept⟩⟩]
    intro repo hrepo
    simp only [AccessScope.ofOption, AccessScope.grants, List.contains_iff_mem, List.mem_map,
      List.mem_filter, beq_iff_eq] at hrepo
    obtain ⟨⟨_, _⟩, ⟨hp, rfl⟩, rfl⟩ := hrepo
    exact ((hleft _).mp hp).1
  · refine iff_of_false ?_ hempty
    have hnone : ∀ r, (stored.id, r) ∉ db''.tokenRepos := fun r hr =>
      hempty ⟨r, (hleft r).mp hr⟩
    rw [hscope, tokenRepoIds_no_rows hnosel hnone]
    intro hall
    obtain ⟨repo, hrepo⟩ := Infinite.exists_notMem_finset ids.toFinset
    exact hrepo (List.mem_toFinset.mpr (hall repo rfl))

/-- Texts of signed claims or API tokens, with a stored hash that shows the text. -/
def plainTokenText : TokenText (Claims ⊕ String) where
  tokenPrefix
    | .inl _ => some "eyJ0eXAi"
    | .inr s => if s.length < 8 then none else some (String.ofList (s.toList.take 8))
  verify
    | .inl _, _ => false
    | .inr s, hash => hash == "$2b$" ++ s

def ciToken : Claims ⊕ String := .inr "1a2b3c4d_secret"

def ciTokenRow : ApiTokenRow :=
  ⟨50, "$2b$1a2b3c4d_secret", "1a2b3c4d", 1, ["read:artifacts"], none, none, none⟩

theorem noTokens_pk : (([] : List ApiTokenRow).map ApiTokenRow.id).Nodup := List.nodup_nil

theorem noTokenRepos_token :
    ∀ p ∈ ([] : List (Uuid × Uuid)), ∃ t ∈ ([] : List ApiTokenRow), t.id = p.1 :=
  List.forall_mem_nil _

theorem ciTokenRow_pk : ([ciTokenRow].map ApiTokenRow.id).Nodup := List.nodup_singleton _

/-- Two repositories and no API token yet. -/
def twoRepos : TokenDb where
  users := [ciUser]
  apiTokens := []
  repositories := [⟨7, "libs", "docker"⟩, ⟨8, "secret", "docker"⟩]
  labels := []
  tokenRepos := []
  apiTokens_pk := by simp
  tokenRepos_token := by simp
  tokenRepos_repo := by simp

/-- A token listing repository 7 only: once that repository is deleted it reaches repository 8. -/
theorem explicit_scope_becomes_unrestricted : ∃ db' db'' stored v,
    twoRepos.createToken ciTokenRow none (some [7]) = .ok db' ∧
      (repoMachine (Claims ⊕ String)).run db' [.delete 7] = some db'' ∧
      storedToken plainTokenText db'' ciToken = some stored ∧ stored.id = ciTokenRow.id ∧
      validateApiToken plainTokenText id db'' 0 ciToken = .ok v ∧
      v.allowedRepoIds.grants 8 = true ∧ 8 ∉ [7] :=
  ⟨_, _, _, _, rfl, rfl, rfl, rfl, rfl, rfl, by decide⟩

/-- Deleting the other repository leaves the token inside its list. -/
theorem explicit_scope_stays_within_delete_other : ∃ db' db'' v,
    twoRepos.createToken ciTokenRow none (some [7]) = .ok db' ∧
      (repoMachine (Claims ⊕ String)).run db' [.delete 8, .validate ciToken] = some db'' ∧
      validateApiToken plainTokenText id db'' 0 ciToken = .ok v ∧
      ∀ repo, v.allowedRepoIds.grants repo = true → repo ∈ [7] := by
  have h := @explicit_scope_stays_within_iff _ plainTokenText id twoRepos _ _ ciTokenRow _ [7]
    [.delete 8, .validate ciToken] 0 ciToken _ rfl rfl rfl rfl rfl
  exact ⟨_, _, _, rfl, rfl, rfl, h.mpr ⟨7, by decide, by decide⟩⟩

end ArtifactKeeper.Auth
