import ArtifactKeeper.Debian.Release
import ArtifactKeeper.Repositories.VirtualMembers

/-! The two doors to the `dists/` files of a remote repository: the direct one, which checks what it
fetched against the signed `Release`, and the one through a virtual repository. The proxy with its
cache and the upstreams behind it is a state that every fetch may change. -/

namespace ArtifactKeeper.Debian

open Text Repositories

section Paths

/-- `by_hash_sha256`: the digest in a `by-hash/SHA256/` path. -/
def byHashSha256 (path : List Char) : Option (List Char) :=
  (afterFirst "by-hash/SHA256/".toList path).bind fun tail =>
    let hex := tail.takeWhile (· != '/')
    if hex.isEmpty then none else some hex

def catchallComponent (distsPath : List Char) : Option (List Char) :=
  match splitOnce '/' distsPath with
  | none => none
  | some (first, _) =>
    if first = "by-hash".toList || "Contents-".toList.isPrefixOf first then none else some first

def stripIndexCompressionSuffix (name : List Char) : List Char :=
  let suffixes := [".gz", ".xz", ".bz2", ".zst", ".zstd", ".lz4"].map String.toList
  match suffixes.find? (·.isSuffixOf name) with
  | some suffix => name.take (name.length - suffix.length)
  | none => name

/-- The architecture that one segment of a path names. -/
def segmentArch (seg : List Char) : Option (List Char) :=
  match stripPrefix "binary-".toList seg with
  | some rest => some rest
  | none =>
    match stripPrefix "Contents-".toList seg with
    | some rest => ((stripIndexCompressionSuffix rest).splitOn '-').getLast?
    | none => (stripPrefix "Components-".toList seg).map (·.takeWhile (· != '.'))

/-- `catchall_arch`: the first segment that names one decides. -/
def catchallArch (distsPath : List Char) : Option (List Char) :=
  ((distsPath.splitOn '/').findSome? segmentArch).filter fun arch =>
    !(arch.isEmpty || arch = "all".toList || arch = "source".toList)

end Paths

section Doors

inductive RepositoryFormat where
  | debian | generic
  deriving DecidableEq, Repr

/-- The repository that is handed to the proxy. -/
structure RemoteRepo where
  id : Uuid
  key : List Char
  upstreamUrl : List Char
  format : RepositoryFormat
  deriving DecidableEq, Repr

/-- A row of `repositories`. -/
structure MemberRepo where
  id : Uuid
  key : List Char
  repoType : RepositoryType
  upstreamUrl : Option (List Char)
  deriving DecidableEq, Repr

inductive AppError where
  | notFound (message : List Char)
  | other (display : List Char)
  deriving DecidableEq, Repr

inductive Response where
  | content (contentType : List Char) (body : List UInt8)
  | status (code : ℕ) (message : List Char)
  deriving DecidableEq, Repr

/-- The allowlists of a repository, of which an empty one selects everything. -/
structure DebianRepositoryConfig where
  distributionPaths : List (List Char)
  components : List (List Char)
  architectures : List (List Char)
  allowEncodedSeparators : Bool

/-- The proxy service on its state, the database, the URL parser and the digest. -/
structure Backend (σ : Type) where
  hasProxyService : Bool
  fetchVirtualMembers : σ → Uuid → σ × Except Response (List MemberRepo)
  loadDebianFilter : σ → Uuid → σ × Except Response DebianRepositoryConfig
  normalizedDistsParts : List Char → List Char → List Char → Bool →
    Except Response (List Char × List Char)
  fetchArtifactCapped : σ → RemoteRepo → List Char →
    σ × Except AppError (List UInt8 × Option (List Char))
  fetchDistsWithRevalidation : σ → RemoteRepo → List Char → List Char →
    σ × Except AppError (List UInt8 × Option (List Char) × Bool)
  maybeInvalidateByEpoch : σ → List Char → List Char → List Char → σ
  invalidateCacheByKey : σ → List Char → List Char → σ
  sha256Hex : List UInt8 → List Char
  fromUtf8Lossy : List UInt8 → List Char

def listSelects (list : List (List Char)) (value : List Char) : Bool :=
  list.isEmpty || list.any fun v => v == "*".toList || v == value

def archSelected (filter : DebianRepositoryConfig) (arch : List Char) : Bool :=
  arch == "all".toList || listSelects filter.architectures arch

def debianFilterDenied : Response := .status 404 "Not found".toList

def debianFilterDecision (filter : DebianRepositoryConfig)
    (distribution component arch : Option (List Char)) : Except Response Unit := do
  if distribution.any fun d => !listSelects filter.distributionPaths d then
    throw debianFilterDenied
  if component.any fun c => !listSelects filter.components c then throw debianFilterDenied
  if arch.any fun a => !archSelected filter a then throw debianFilterDenied

/-- `by_hash_arch_allowed`: the digest is listed, and every path it is listed for is allowed. -/
def byHashArchAllowed (table : ChecksumTable) (wantHash : List Char)
    (filter : DebianRepositoryConfig) : Bool :=
  table.any (fun _ entry => eqIgnoreAsciiCase entry.1 wantHash) &&
    table.all fun path entry => !eqIgnoreAsciiCase entry.1 wantHash ||
      (catchallArch path).all (archSelected filter)

variable {σ : Type} (backend : Backend σ)

def gateDebianDists (filter : DebianRepositoryConfig) (baseUrl distribution rawSuffix : List Char) :
    Except Response Unit := do
  let (dist, suffix) ← backend.normalizedDistsParts baseUrl distribution rawSuffix
    filter.allowEncodedSeparators
  debianFilterDecision filter (some dist) (catchallComponent suffix) (catchallArch suffix)

inductive IndexVerification where
  | verified | notCovered | mismatch
  deriving DecidableEq, Repr

def verifyIndexAgainstRelease (releaseChecksums : ChecksumTable) (distRelativePath : List Char)
    (content : List UInt8) : IndexVerification :=
  let actualSha := backend.sha256Hex content
  match byHashSha256 distRelativePath with
  | some expected => if eqIgnoreAsciiCase actualSha expected then .verified else .mismatch
  | none =>
    match releaseChecksums.lookup distRelativePath with
    | some (sha, size) =>
      if eqIgnoreAsciiCase actualSha sha && content.length == size then .verified else .mismatch
    | none => .notCovered

/-- The loop of `load_release_checksums` over the names that are left. -/
def loadReleaseChecksumsFrom (repo : RemoteRepo) (distribution : List Char) :
    List String → σ → σ × Option ChecksumTable
  | [], w => (w, none)
  | name :: names, w =>
    let path := "dists/".toList ++ distribution ++ "/".toList ++ name.toList
    match backend.fetchDistsWithRevalidation w repo path distribution with
    | (w, .ok (bytes, _, _)) =>
      let table := parseReleaseChecksums (backend.fromUtf8Lossy bytes)
      if table = ∅ then loadReleaseChecksumsFrom repo distribution names w else (w, some table)
    | (w, .error _) => loadReleaseChecksumsFrom repo distribution names w

def loadReleaseChecksums (w : σ) (repoId : Uuid) (repoKey upstreamUrl distribution : List Char) :
    σ × Option ChecksumTable :=
  loadReleaseChecksumsFrom backend ⟨repoId, repoKey, upstreamUrl, .generic⟩ distribution
    ["InRelease", "Release"] w

def enforceByHashArch (w : σ) (repoId : Uuid) (repoKey upstreamUrl : List Char)
    (filter : DebianRepositoryConfig) (distribution rawSuffix : List Char) :
    σ × Except Response Unit :=
  if filter.architectures.isEmpty then (w, .ok ())
  else
    match backend.normalizedDistsParts upstreamUrl distribution rawSuffix
      filter.allowEncodedSeparators with
    | .error e => (w, .error e)
    | .ok (ndist, suffix) =>
      if (afterFirst "by-hash/".toList suffix).isNone then (w, .ok ())
      else
        match byHashSha256 suffix with
        | none => (w, .error debianFilterDenied)
        | some wantHash =>
          match loadReleaseChecksums backend w repoId repoKey upstreamUrl ndist with
          | (w, none) => (w, .error debianFilterDenied)
          | (w, some table) =>
            if byHashArchAllowed table wantHash filter then (w, .ok ())
            else (w, .error debianFilterDenied)

def enforceDistsIntegrity (w : σ) (repoId : Uuid)
    (repoKey upstreamUrl distribution upstreamPath distRelativePath : List Char)
    (content : List UInt8) : σ × Except Response Unit :=
  match loadReleaseChecksums backend w repoId repoKey upstreamUrl distribution with
  | (w, none) => (w, .ok ())
  | (w, some table) =>
    if verifyIndexAgainstRelease backend table distRelativePath content = .mismatch then
      (backend.invalidateCacheByKey w repoKey upstreamPath, .error (.status 502
        "Upstream index failed integrity verification against the signed Release".toList))
    else (w, .ok ())

def buildDistsResponse (content : List UInt8) (upstreamCt : Option (List Char))
    (defaultContentType : List Char) : Response :=
  .content (upstreamCt.getD defaultContentType) content

def mapProxyErr : AppError → Response
  | .notFound msg => .status 404 msg
  | .other display => .status 502 ("Upstream fetch failed: ".toList ++ display)

def remoteMemberUpstream (member : MemberRepo) : Option (List Char) :=
  if member.repoType = .remote then member.upstreamUrl else none

def virtualMemberDistsAllowed (w : σ) (member : MemberRepo)
    (upstreamUrl distribution distsSuffix : List Char) : σ × Bool :=
  match backend.loadDebianFilter w member.id with
  | (w, .error _) => (w, false)
  | (w, .ok filter) =>
    match gateDebianDists backend filter upstreamUrl distribution distsSuffix with
    | .error _ => (w, false)
    | .ok () =>
      let (w, outcome) := enforceByHashArch backend w member.id member.key upstreamUrl filter
        distribution distsSuffix
      (w, outcome.isOk)

/-- The loop of `try_virtual_dists` over the members that are left. -/
def tryMembers (distribution upstreamPath distsSuffix defaultContentType : List Char) :
    List MemberRepo → Option Response → σ → σ × Except Response (Option Response)
  | [], firstErr, w =>
    match firstErr with
    | some err => (w, .error err)
    | none => (w, .ok none)
  | member :: members, firstErr, w =>
    match remoteMemberUpstream member with
    | none =>
      tryMembers distribution upstreamPath distsSuffix defaultContentType members firstErr w
    | some upstreamUrl =>
      match virtualMemberDistsAllowed backend w member upstreamUrl distribution distsSuffix with
      | (w, false) =>
        tryMembers distribution upstreamPath distsSuffix defaultContentType members firstErr w
      | (w, true) =>
        let w := backend.maybeInvalidateByEpoch w member.key distribution upstreamPath
        match backend.fetchArtifactCapped w ⟨member.id, member.key, upstreamUrl, .debian⟩
          upstreamPath with
        | (w, .ok (content, upstreamCt)) =>
          (w, .ok (some (buildDistsResponse content upstreamCt defaultContentType)))
        | (w, .error (.notFound _)) =>
          tryMembers distribution upstreamPath distsSuffix defaultContentType members firstErr w
        | (w, .error e) =>
          tryMembers distribution upstreamPath distsSuffix defaultContentType members
            (some (firstErr.getD (mapProxyErr e))) w

def tryVirtualDists (w : σ) (virtualRepoId : Uuid)
    (distribution upstreamPath defaultContentType : List Char) :
    σ × Except Response (Option Response) :=
  match backend.fetchVirtualMembers w virtualRepoId with
  | (w, .error e) => (w, .error e)
  | (w, .ok members) =>
    if !backend.hasProxyService then (w, .ok none)
    else
      match stripPrefix ("dists/".toList ++ distribution ++ "/".toList) upstreamPath with
      | none => (w, .ok none)
      | some distsSuffix =>
        tryMembers backend distribution upstreamPath distsSuffix defaultContentType members none w

/-- The repository a request names. -/
structure RepoInfo where
  id : Uuid
  repoType : RepositoryType
  upstreamUrl : Option (List Char)

/-- `DebianProxy::dists`: an error is the response that is sent, and `ok` sends nothing yet. -/
def dists (w : σ) (repo : RepoInfo) (repoKey distribution suffix contentType : List Char) :
    σ × Except Response Unit :=
  let upstreamPath := "dists/".toList ++ distribution ++ "/".toList ++ suffix
  match repo.repoType, repo.upstreamUrl, backend.hasProxyService with
  | .virtual, _, _ =>
    match tryVirtualDists backend w repo.id distribution upstreamPath contentType with
    | (w, .error e) => (w, .error e)
    | (w, .ok (some resp)) => (w, .error resp)
    | (w, .ok none) => (w, .ok ())
  | .remote, some upstreamUrl, true =>
    let w := backend.maybeInvalidateByEpoch w repoKey distribution upstreamPath
    match backend.fetchArtifactCapped w ⟨repo.id, repoKey, upstreamUrl, .debian⟩ upstreamPath with
    | (w, .error e) => (w, .error (mapProxyErr e))
    | (w, .ok (content, upstreamCt)) =>
      match enforceDistsIntegrity backend w repo.id repoKey upstreamUrl distribution upstreamPath
        suffix content with
      | (w, .error e) => (w, .error e)
      | (w, .ok ()) => (w, .error (buildDistsResponse content upstreamCt contentType))
  | _, _, _ => (w, .ok ())

end Doors

section Check

/-- The upstream's own words on an index: the digest in its `by-hash` path, else the digest and the
size that its `Release` lists for the path, if it lists the path. -/
def Vouches (sha256Hex : List UInt8 → List Char) (table : ChecksumTable) (suffix : List Char)
    (content : List UInt8) : Prop :=
  match byHashSha256 suffix with
  | some digest => eqIgnoreAsciiCase (sha256Hex content) digest = true
  | none => ∀ digest size, table.lookup suffix = some (digest, size) →
      eqIgnoreAsciiCase (sha256Hex content) digest = true ∧ content.length = size

variable {σ : Type} {backend : Backend σ}

theorem verifyIndexAgainstRelease_ne_mismatch_iff {table : ChecksumTable} {suffix : List Char}
    {content : List UInt8} :
    verifyIndexAgainstRelease backend table suffix content ≠ .mismatch ↔
      Vouches backend.sha256Hex table suffix content := by
  unfold verifyIndexAgainstRelease Vouches
  cases byHashSha256 suffix with
  | some digest =>
    show (if eqIgnoreAsciiCase (backend.sha256Hex content) digest then IndexVerification.verified
      else .mismatch) ≠ .mismatch ↔ eqIgnoreAsciiCase (backend.sha256Hex content) digest = true
    split_ifs with h <;> simp [h]
  | none =>
    cases table.lookup suffix with
    | none => simp
    | some entry =>
      obtain ⟨digest, size⟩ := entry
      simp only [Bool.and_eq_true, beq_iff_eq]
      split_ifs with h
      · simp [h]
      · simpa using h

theorem enforceDistsIntegrity_eq_ok_iff {w : σ} {repoId : Uuid}
    {repoKey upstreamUrl distribution upstreamPath suffix : List Char} {content : List UInt8} :
    (enforceDistsIntegrity backend w repoId repoKey upstreamUrl distribution upstreamPath suffix
        content).2 = .ok () ↔
      ∀ table, (loadReleaseChecksums backend w repoId repoKey upstreamUrl distribution).2 =
        some table → Vouches backend.sha256Hex table suffix content := by
  unfold enforceDistsIntegrity
  obtain ⟨w₁, loaded⟩ := loadReleaseChecksums backend w repoId repoKey upstreamUrl distribution
  cases loaded with
  | none => simp
  | some table =>
    simp only [Option.some.injEq, forall_eq', ← verifyIndexAgainstRelease_ne_mismatch_iff]
    split_ifs with h <;> simp [h]

theorem mapProxyErr_ne_content {e : AppError} {contentType : List Char} {body : List UInt8} :
    mapProxyErr e ≠ .content contentType body := by
  cases e with
  | notFound message => simp [mapProxyErr]
  | other display => simp [mapProxyErr]

theorem enforceDistsIntegrity_ne_content {w : σ} {repoId : Uuid}
    {repoKey upstreamUrl distribution upstreamPath suffix contentType : List Char}
    {content body : List UInt8} :
    (enforceDistsIntegrity backend w repoId repoKey upstreamUrl distribution upstreamPath suffix
      content).2 ≠ .error (.content contentType body) := by
  unfold enforceDistsIntegrity
  obtain ⟨w₁, loaded⟩ := loadReleaseChecksums backend w repoId repoKey upstreamUrl distribution
  cases loaded with
  | none => simp
  | some table =>
    dsimp only
    split_ifs <;> simp

/-- The direct door sends no bytes that its check has not passed. -/
theorem dists_remote_checked {w : σ} {repo : RepoInfo}
    {repoKey upstreamUrl distribution suffix contentType ct : List Char} {body : List UInt8}
    (hremote : repo.repoType = .remote) (hurl : repo.upstreamUrl = some upstreamUrl)
    (h : (dists backend w repo repoKey distribution suffix contentType).2 =
      .error (.content ct body)) :
    ∃ w₁, (enforceDistsIntegrity backend w₁ repo.id repoKey upstreamUrl distribution
      ("dists/".toList ++ distribution ++ "/".toList ++ suffix) suffix body).2 = .ok () := by
  revert h
  unfold dists
  rw [hremote, hurl]
  cases backend.hasProxyService with
  | false => simp
  | true =>
    dsimp only
    split
    case h_1 w₁ e fetched =>
      intro h
      exact absurd (Except.error.inj h) mapProxyErr_ne_content
    case h_2 w₁ content upstreamCt fetched =>
      split
      case h_1 w₂ e checked =>
        intro h
        rw [show e = .content ct body from Except.error.inj h] at checked
        exact absurd (congrArg Prod.snd checked) enforceDistsIntegrity_ne_content
      case h_2 w₂ checked =>
        intro h
        have hbody : content = body := (Response.content.inj (Except.error.inj h)).2
        exact ⟨w₁, by rw [← hbody, checked]⟩

end Check

section Loop

/-- The bytes of a remote member, and where they came from. -/
structure Answer where
  member : MemberRepo
  upstreamUrl : List Char
  content : List UInt8
  contentType : Option (List Char)
  deriving DecidableEq

variable {σ : Type} (backend : Backend σ) (distribution upstreamPath distsSuffix : List Char)

/-- What one member contributes: nothing if it is no remote one, if its filter denies the path, or
if its upstream fails. -/
def askMember (w : σ) (member : MemberRepo) : σ × Option Answer :=
  match remoteMemberUpstream member with
  | none => (w, none)
  | some upstreamUrl =>
    match virtualMemberDistsAllowed backend w member upstreamUrl distribution distsSuffix with
    | (w, false) => (w, none)
    | (w, true) =>
      match backend.fetchArtifactCapped
        (backend.maybeInvalidateByEpoch w member.key distribution upstreamPath)
        ⟨member.id, member.key, upstreamUrl, .debian⟩ upstreamPath with
      | (w, .ok (content, ct)) => (w, some ⟨member, upstreamUrl, content, ct⟩)
      | (w, .error _) => (w, none)

/-- The first member in order that contributes, and the state it leaves. -/
inductive FirstAnswer : σ → List MemberRepo → Answer → σ → Prop where
  | here {w w' : σ} {member : MemberRepo} {members : List MemberRepo} {answer : Answer} :
      askMember backend distribution upstreamPath distsSuffix w member = (w', some answer) →
      FirstAnswer w (member :: members) answer w'
  | later {w w₁ w' : σ} {member : MemberRepo} {members : List MemberRepo} {answer : Answer} :
      askMember backend distribution upstreamPath distsSuffix w member = (w₁, none) →
      FirstAnswer w₁ members answer w' → FirstAnswer w (member :: members) answer w'

variable {backend distribution upstreamPath distsSuffix}

theorem FirstAnswer.unique {w w' w'' : σ} {members : List MemberRepo} {a b : Answer}
    (ha : FirstAnswer backend distribution upstreamPath distsSuffix w members a w')
    (hb : FirstAnswer backend distribution upstreamPath distsSuffix w members b w'') :
    a = b ∧ w' = w'' := by
  induction ha with
  | here asked =>
    cases hb with
    | here asked' => simp_all
    | later passed _ => simp_all
  | later passed _ ih =>
    cases hb with
    | here asked => simp_all
    | later passed' rest =>
      obtain ⟨rfl, -⟩ := Prod.mk.inj (passed.symm.trans passed')
      exact ih rest

/-- One round of the loop either stops with the member's bytes or goes on with the next member;
the error it keeps never stops it. -/
theorem tryMembers_cons (defaultContentType : List Char) (member : MemberRepo)
    (members : List MemberRepo) (firstErr : Option Response) (w : σ) :
    (∃ w' answer, askMember backend distribution upstreamPath distsSuffix w member =
        (w', some answer) ∧
      tryMembers backend distribution upstreamPath distsSuffix defaultContentType
        (member :: members) firstErr w =
        (w', .ok (some (buildDistsResponse answer.content answer.contentType
          defaultContentType)))) ∨
    ∃ w₁ firstErr', askMember backend distribution upstreamPath distsSuffix w member =
        (w₁, none) ∧
      tryMembers backend distribution upstreamPath distsSuffix defaultContentType
        (member :: members) firstErr w =
      tryMembers backend distribution upstreamPath distsSuffix defaultContentType members
        firstErr' w₁ := by
  unfold askMember
  rw [tryMembers]
  cases remoteMemberUpstream member with
  | none => exact .inr ⟨w, firstErr, rfl, rfl⟩
  | some upstreamUrl =>
    dsimp only
    obtain ⟨w₁, allowed⟩ :=
      virtualMemberDistsAllowed backend w member upstreamUrl distribution distsSuffix
    cases allowed with
    | false => exact .inr ⟨w₁, firstErr, rfl, rfl⟩
    | true =>
      dsimp only
      obtain ⟨w₂, fetched⟩ := backend.fetchArtifactCapped
        (backend.maybeInvalidateByEpoch w₁ member.key distribution upstreamPath)
        ⟨member.id, member.key, upstreamUrl, .debian⟩ upstreamPath
      match fetched with
      | .ok (content, ct) => exact .inl ⟨w₂, ⟨member, upstreamUrl, content, ct⟩, rfl, rfl⟩
      | .error (.notFound _) => exact .inr ⟨w₂, firstErr, rfl, rfl⟩
      | .error (.other display) =>
        exact .inr ⟨w₂, some (firstErr.getD (mapProxyErr (.other display))), rfl, rfl⟩

theorem tryMembers_eq_some_iff {defaultContentType : List Char} {members : List MemberRepo}
    {firstErr : Option Response} {w w' : σ} {resp : Response} :
    tryMembers backend distribution upstreamPath distsSuffix defaultContentType members firstErr w =
        (w', .ok (some resp)) ↔
      ∃ answer, FirstAnswer backend distribution upstreamPath distsSuffix w members answer w' ∧
        resp = buildDistsResponse answer.content answer.contentType defaultContentType := by
  -- induction over the members that are left, with the state and the kept error free
  induction members generalizing firstErr w with
  | nil =>
    constructor
    · intro h
      cases firstErr <;> simp [tryMembers] at h
    · rintro ⟨answer, hanswer, -⟩
      cases hanswer
  | cons member members ih =>
    obtain ⟨w₁, answer, hask, heq⟩ | ⟨w₁, firstErr', hask, heq⟩ :=
      @tryMembers_cons _ backend distribution upstreamPath distsSuffix defaultContentType member
        members firstErr w
    · rw [heq]
      constructor
      · intro h
        obtain ⟨rfl, hresp⟩ := Prod.mk.inj h
        exact ⟨answer, .here hask, (Option.some.inj (Except.ok.inj hresp)).symm⟩
      · rintro ⟨answer', hfirst, rfl⟩
        obtain ⟨rfl, rfl⟩ := hfirst.unique (.here hask)
        rfl
    · rw [heq, ih]
      constructor
      · rintro ⟨answer, hfirst, hresp⟩
        exact ⟨answer, .later hask hfirst, hresp⟩
      · rintro ⟨answer, hfirst, hresp⟩
        cases hfirst with
        | here asked => simp_all
        | later passed rest =>
          obtain ⟨rfl, -⟩ := Prod.mk.inj (hask.symm.trans passed)
          exact ⟨answer, rest, hresp⟩

theorem askMember_eq_some {w w' : σ} {member : MemberRepo} {answer : Answer}
    (h : askMember backend distribution upstreamPath distsSuffix w member = (w', some answer)) :
    answer.member = member ∧ remoteMemberUpstream member = some answer.upstreamUrl ∧
      ∃ w₁, virtualMemberDistsAllowed backend w member answer.upstreamUrl distribution
          distsSuffix = (w₁, true) ∧
        backend.fetchArtifactCapped
            (backend.maybeInvalidateByEpoch w₁ member.key distribution upstreamPath)
            ⟨member.id, member.key, answer.upstreamUrl, .debian⟩ upstreamPath =
          (w', .ok (answer.content, answer.contentType)) := by
  unfold askMember at h
  cases hurl : remoteMemberUpstream member with
  | none => simp [hurl] at h
  | some upstreamUrl =>
    rw [hurl] at h
    dsimp only at h
    split at h
    · simp at h
    · next w₁ hallowed =>
      split at h
      · next w₂ content ct hfetched =>
        obtain ⟨rfl, heq⟩ := Prod.mk.inj h
        obtain rfl := Option.some.inj heq
        exact ⟨rfl, rfl, w₁, hallowed, hfetched⟩
      · simp at h

end Loop

section Mirrors

variable {σ : Type} (backend : Backend σ) (distribution upstreamPath distsSuffix : List Char)

/-- At some time the upstream of the member, or the cache of it, hands out the bytes. -/
def HandsOut (member : MemberRepo) (upstreamUrl : List Char) (content : List UInt8) : Prop :=
  ∃ w ct, (backend.fetchArtifactCapped w ⟨member.id, member.key, upstreamUrl, .debian⟩
    upstreamPath).2 = .ok (content, ct)

/-- At some time the member's `InRelease`, else its `Release`, has the table. -/
def ListsIn (member : MemberRepo) (upstreamUrl : List Char) (table : ChecksumTable) : Prop :=
  ∃ w, (loadReleaseChecksums backend w member.id member.key upstreamUrl distribution).2 =
    some table

/-- At some time the allowlists of the member let the path through. -/
def MayAllow (member : MemberRepo) (upstreamUrl : List Char) : Prop :=
  ∃ w, (virtualMemberDistsAllowed backend w member upstreamUrl distribution distsSuffix).2 = true

/-- A member that may leave the path to those behind it: it is no remote one, or at some time its
allowlists deny the path or its upstream fails. -/
def MayPass (member : MemberRepo) : Prop :=
  ∀ upstreamUrl, remoteMemberUpstream member = some upstreamUrl →
    (∃ w, (virtualMemberDistsAllowed backend w member upstreamUrl distribution
      distsSuffix).2 = false) ∨
    ∃ w e, (backend.fetchArtifactCapped w ⟨member.id, member.key, upstreamUrl, .debian⟩
      upstreamPath).2 = .error e

/-- A member that the path may be left to hands out for it, whenever it is asked, what its own
documents list, whenever they are loaded. -/
def ConsistentMirrors (members : List MemberRepo) : Prop :=
  ∀ before member after upstreamUrl, members = before ++ member :: after →
    (∀ m ∈ before, MayPass backend distribution upstreamPath distsSuffix m) →
    remoteMemberUpstream member = some upstreamUrl →
    MayAllow backend distribution distsSuffix member upstreamUrl →
    ∀ content table, HandsOut backend upstreamPath member upstreamUrl content →
      ListsIn backend distribution member upstreamUrl table →
      Vouches backend.sha256Hex table distsSuffix content

/-- The database, the upstreams and the caches answer the same at any time. -/
structure Steady : Prop where
  loadDebianFilter : ∀ w w' id,
    (backend.loadDebianFilter w id).2 = (backend.loadDebianFilter w' id).2
  fetchArtifactCapped : ∀ w w' repo path, (backend.fetchArtifactCapped w repo path).2 =
    (backend.fetchArtifactCapped w' repo path).2
  fetchDistsWithRevalidation : ∀ w w' repo path distribution,
    (backend.fetchDistsWithRevalidation w repo path distribution).2 =
      (backend.fetchDistsWithRevalidation w' repo path distribution).2

variable {backend distribution upstreamPath distsSuffix}

theorem mayPass_of_askMember {w w' : σ} {member : MemberRepo}
    (h : askMember backend distribution upstreamPath distsSuffix w member = (w', none)) :
    MayPass backend distribution upstreamPath distsSuffix member := by
  intro upstreamUrl hurl
  unfold askMember at h
  rw [hurl] at h
  dsimp only at h
  split at h
  · next w₁ hallowed => exact .inl ⟨w, by rw [hallowed]⟩
  · split at h
    · simp at h
    · next w₁ e hfetched => exact .inr ⟨_, e, by rw [hfetched]⟩

/-- Where the bytes of the loop come from. -/
theorem FirstAnswer.source {w w' : σ} {members : List MemberRepo} {answer : Answer}
    (h : FirstAnswer backend distribution upstreamPath distsSuffix w members answer w') :
    (∃ before after, members = before ++ answer.member :: after ∧
      ∀ m ∈ before, MayPass backend distribution upstreamPath distsSuffix m) ∧
    remoteMemberUpstream answer.member = some answer.upstreamUrl ∧
    MayAllow backend distribution distsSuffix answer.member answer.upstreamUrl ∧
    HandsOut backend upstreamPath answer.member answer.upstreamUrl answer.content := by
  induction h with
  | here asked =>
    obtain ⟨rfl, hurl, w₁, hallowed, hfetched⟩ := askMember_eq_some asked
    exact ⟨⟨[], _, rfl, by simp⟩, hurl, ⟨_, congrArg Prod.snd hallowed⟩,
      ⟨_, _, congrArg Prod.snd hfetched⟩⟩
  | @later w w₁ w' member members answer passed _ ih =>
    obtain ⟨⟨before, after, rfl, hbefore⟩, hsource⟩ := ih
    refine ⟨⟨member :: before, after, rfl, ?_⟩, hsource⟩
    intro m hm
    rcases List.mem_cons.mp hm with rfl | hm
    · exact mayPass_of_askMember passed
    · exact hbefore m hm

section Steady
variable (hsteady : Steady backend)
include hsteady

theorem Steady.loadReleaseChecksumsFrom (distribution : List Char) (w w' : σ) (repo : RemoteRepo)
    (names : List String) :
    (loadReleaseChecksumsFrom backend repo distribution names w).2 =
      (loadReleaseChecksumsFrom backend repo distribution names w').2 := by
  induction names generalizing w w' with
  | nil => rfl
  | cons name names ih =>
    have hsame := hsteady.fetchDistsWithRevalidation w w' repo
      ("dists/".toList ++ distribution ++ "/".toList ++ name.toList) distribution
    rw [Debian.loadReleaseChecksumsFrom, Debian.loadReleaseChecksumsFrom]
    dsimp only
    generalize backend.fetchDistsWithRevalidation w repo _ distribution = fetched at hsame ⊢
    generalize backend.fetchDistsWithRevalidation w' repo _ distribution = fetched' at hsame ⊢
    obtain ⟨w₁, reply⟩ := fetched
    obtain ⟨w₁', reply'⟩ := fetched'
    obtain rfl : reply = reply' := hsame
    cases reply with
    | error e => exact ih w₁ w₁'
    | ok bytes =>
      dsimp only
      split_ifs
      · exact ih w₁ w₁'
      · rfl

theorem Steady.enforceByHashArch (w w' : σ) (repoId : Uuid)
    (repoKey upstreamUrl rawSuffix : List Char) (filter : DebianRepositoryConfig) :
    (enforceByHashArch backend w repoId repoKey upstreamUrl filter distribution rawSuffix).2 =
      (enforceByHashArch backend w' repoId repoKey upstreamUrl filter distribution
        rawSuffix).2 := by
  unfold Debian.enforceByHashArch
  split_ifs
  · rfl
  · split
    · rfl
    · next ndist suffix _ =>
      split_ifs
      · rfl
      · split
        · rfl
        · have hsame := hsteady.loadReleaseChecksumsFrom ndist w w'
            ⟨repoId, repoKey, upstreamUrl, .generic⟩ ["InRelease", "Release"]
          unfold loadReleaseChecksums
          generalize Debian.loadReleaseChecksumsFrom backend _ ndist _ w = loads at hsame ⊢
          generalize Debian.loadReleaseChecksumsFrom backend _ ndist _ w' = loads' at hsame ⊢
          obtain ⟨w₁, loaded⟩ := loads
          obtain ⟨w₁', loaded'⟩ := loads'
          obtain rfl : loaded = loaded' := hsame
          cases loaded with
          | none => rfl
          | some table =>
            dsimp only
            split_ifs <;> rfl

theorem Steady.virtualMemberDistsAllowed (distribution distsSuffix : List Char) (w w' : σ)
    (member : MemberRepo) (upstreamUrl : List Char) :
    (virtualMemberDistsAllowed backend w member upstreamUrl distribution distsSuffix).2 =
      (virtualMemberDistsAllowed backend w' member upstreamUrl distribution distsSuffix).2 := by
  have hsame := hsteady.loadDebianFilter w w' member.id
  unfold Debian.virtualMemberDistsAllowed
  generalize backend.loadDebianFilter w member.id = loads at hsame ⊢
  generalize backend.loadDebianFilter w' member.id = loads' at hsame ⊢
  obtain ⟨w₁, loaded⟩ := loads
  obtain ⟨w₁', loaded'⟩ := loads'
  obtain rfl : loaded = loaded' := hsame
  cases loaded with
  | error e => rfl
  | ok filter =>
    dsimp only
    split
    · rfl
    · exact congrArg Except.isOk (hsteady.enforceByHashArch w₁ w₁' member.id member.key upstreamUrl
        distsSuffix filter)

/-- Then a member that may leave the path to the next one does so, -/
theorem Steady.askMember_passes {member : MemberRepo}
    (h : MayPass backend distribution upstreamPath distsSuffix member) (w : σ) :
    ∃ w', askMember backend distribution upstreamPath distsSuffix w member = (w', none) := by
  unfold askMember
  cases hurl : remoteMemberUpstream member with
  | none => exact ⟨w, rfl⟩
  | some upstreamUrl =>
    dsimp only
    have hsame := fun w' =>
      hsteady.virtualMemberDistsAllowed distribution distsSuffix w w' member upstreamUrl
    generalize Debian.virtualMemberDistsAllowed backend w member upstreamUrl distribution
      distsSuffix = gate at hsame ⊢
    obtain ⟨w₁, allowed⟩ := gate
    cases allowed with
    | false => exact ⟨w₁, rfl⟩
    | true =>
      dsimp only at hsame ⊢
      obtain ⟨w₂, hdenied⟩ | ⟨w₂, e, hfailed⟩ := h upstreamUrl hurl
      · cases (hsame w₂).trans hdenied
      · have hsame := hsteady.fetchArtifactCapped
          (backend.maybeInvalidateByEpoch w₁ member.key distribution upstreamPath) w₂
          ⟨member.id, member.key, upstreamUrl, .debian⟩ upstreamPath
        generalize backend.fetchArtifactCapped (backend.maybeInvalidateByEpoch w₁ _ _ _) _ _ =
          fetches at hsame ⊢
        obtain ⟨w₃, fetched⟩ := fetches
        obtain rfl : fetched = .error e := hsame.trans hfailed
        exact ⟨w₃, rfl⟩

/-- and one that may answer answers. -/
theorem Steady.askMember_answers {member : MemberRepo} {upstreamUrl : List Char}
    {content : List UInt8} (hurl : remoteMemberUpstream member = some upstreamUrl)
    (hallowed : MayAllow backend distribution distsSuffix member upstreamUrl)
    (hcontent : HandsOut backend upstreamPath member upstreamUrl content) (w : σ) :
    ∃ w' ct, askMember backend distribution upstreamPath distsSuffix w member =
      (w', some ⟨member, upstreamUrl, content, ct⟩) := by
  obtain ⟨w₀, hallowed⟩ := hallowed
  obtain ⟨w₁, ct, hcontent⟩ := hcontent
  unfold askMember
  rw [hurl]
  dsimp only
  have hsame :=
    hsteady.virtualMemberDistsAllowed distribution distsSuffix w w₀ member upstreamUrl
  generalize Debian.virtualMemberDistsAllowed backend w member upstreamUrl distribution
    distsSuffix = gate at hsame ⊢
  obtain ⟨w₂, allowed⟩ := gate
  obtain rfl : allowed = true := hsame.trans hallowed
  dsimp only
  have hsame := hsteady.fetchArtifactCapped
    (backend.maybeInvalidateByEpoch w₂ member.key distribution upstreamPath) w₁
    ⟨member.id, member.key, upstreamUrl, .debian⟩ upstreamPath
  generalize backend.fetchArtifactCapped (backend.maybeInvalidateByEpoch w₂ _ _ _) _ _ =
    fetches at hsame ⊢
  obtain ⟨w₃, fetched⟩ := fetches
  obtain rfl : fetched = .ok (content, ct) := hsame.trans hcontent
  exact ⟨w₃, ct, rfl⟩

theorem Steady.firstAnswer {before : List MemberRepo} (after : List MemberRepo)
    {member : MemberRepo} {upstreamUrl : List Char} {content : List UInt8}
    (hbefore : ∀ m ∈ before, MayPass backend distribution upstreamPath distsSuffix m)
    (hurl : remoteMemberUpstream member = some upstreamUrl)
    (hallowed : MayAllow backend distribution distsSuffix member upstreamUrl)
    (hcontent : HandsOut backend upstreamPath member upstreamUrl content) (w : σ) :
    ∃ w' ct, FirstAnswer backend distribution upstreamPath distsSuffix w
      (before ++ member :: after) ⟨member, upstreamUrl, content, ct⟩ w' := by
  induction before generalizing w with
  | nil =>
    obtain ⟨w', ct, hask⟩ := hsteady.askMember_answers hurl hallowed hcontent w
    exact ⟨w', ct, .here hask⟩
  | cons m before ih =>
    obtain ⟨w₁, hask⟩ := hsteady.askMember_passes (hbefore m (.head _)) w
    obtain ⟨w', ct, hfirst⟩ := ih (fun m hm => hbefore m (.tail _ hm)) w₁
    exact ⟨w', ct, .later hask hfirst⟩

end Steady

end Mirrors

section Virtual

variable {σ : Type} (backend : Backend σ) (w : σ) (virtualRepoId : Uuid)
  (distribution upstreamPath : List Char)

/-- The member of a virtual repository that answers for a path first, with its state. -/
def AnswersFirst (distsSuffix : List Char) (answer : Answer) (w' : σ) : Prop :=
  ∃ w₁ members, backend.fetchVirtualMembers w virtualRepoId = (w₁, .ok members) ∧
    backend.hasProxyService = true ∧
    stripPrefix ("dists/".toList ++ distribution ++ "/".toList) upstreamPath = some distsSuffix ∧
    FirstAnswer backend distribution upstreamPath distsSuffix w₁ members answer w'

/-- What is served from a remote member passes the check that the direct door would make of it in
the state in which it is served. -/
def ServedChecked (defaultContentType : List Char) : Prop :=
  ∀ w' resp, tryVirtualDists backend w virtualRepoId distribution upstreamPath defaultContentType =
      (w', .ok (some resp)) →
    ∃ distsSuffix answer,
      AnswersFirst backend w virtualRepoId distribution upstreamPath distsSuffix answer w' ∧
      answer.member.repoType = .remote ∧
      resp = buildDistsResponse answer.content answer.contentType defaultContentType ∧
      (enforceDistsIntegrity backend w' answer.member.id answer.member.key answer.upstreamUrl
        distribution upstreamPath distsSuffix answer.content).2 = .ok ()

/-- The mirrors among the members of the virtual repository are consistent for the path. -/
def MirrorsAgree : Prop :=
  ∀ members distsSuffix, (backend.fetchVirtualMembers w virtualRepoId).2 = .ok members →
    backend.hasProxyService = true →
    stripPrefix ("dists/".toList ++ distribution ++ "/".toList) upstreamPath = some distsSuffix →
    ConsistentMirrors backend distribution upstreamPath distsSuffix members

variable {backend w virtualRepoId distribution upstreamPath}

theorem tryVirtualDists_eq_some_iff {defaultContentType : List Char} {w' : σ} {resp : Response} :
    tryVirtualDists backend w virtualRepoId distribution upstreamPath defaultContentType =
        (w', .ok (some resp)) ↔
      ∃ distsSuffix answer,
        AnswersFirst backend w virtualRepoId distribution upstreamPath distsSuffix answer w' ∧
        resp = buildDistsResponse answer.content answer.contentType defaultContentType := by
  unfold tryVirtualDists AnswersFirst
  obtain ⟨w₁, fetched⟩ := backend.fetchVirtualMembers w virtualRepoId
  cases fetched with
  | error e => simp
  | ok members =>
    cases backend.hasProxyService with
    | false => simp
    | true =>
      cases stripPrefix ("dists/".toList ++ distribution ++ "/".toList) upstreamPath with
      | none => simp
      | some distsSuffix => simp [tryMembers_eq_some_iff]

theorem AnswersFirst.unique {suffix₁ suffix₂ : List Char} {a b : Answer} {w' w'' : σ}
    (ha : AnswersFirst backend w virtualRepoId distribution upstreamPath suffix₁ a w')
    (hb : AnswersFirst backend w virtualRepoId distribution upstreamPath suffix₂ b w'') :
    suffix₁ = suffix₂ ∧ a = b ∧ w' = w'' := by
  obtain ⟨w₁, members, hmembers, -, hsuffix, hfirst⟩ := ha
  obtain ⟨w₂, members', hmembers', -, hsuffix', hfirst'⟩ := hb
  obtain ⟨rfl, heq⟩ := Prod.mk.inj (hmembers.symm.trans hmembers')
  obtain rfl := Except.ok.inj heq
  obtain rfl := Option.some.inj (hsuffix.symm.trans hsuffix')
  exact ⟨rfl, hfirst.unique hfirst'⟩

theorem AnswersFirst.repoType_eq {distsSuffix : List Char} {answer : Answer} {w' : σ}
    (h : AnswersFirst backend w virtualRepoId distribution upstreamPath distsSuffix answer w') :
    answer.member.repoType = .remote := by
  obtain ⟨w₁, members, -, -, -, hfirst⟩ := h
  have hurl := hfirst.source.2.1
  rw [remoteMemberUpstream] at hurl
  split_ifs at hurl with hremote
  exact hremote

theorem AnswersFirst.vouched {distsSuffix : List Char} {answer : Answer} {w' : σ}
    (h : AnswersFirst backend w virtualRepoId distribution upstreamPath distsSuffix answer w')
    (hagree : MirrorsAgree backend w virtualRepoId distribution upstreamPath)
    {table : ChecksumTable}
    (htable : ListsIn backend distribution answer.member answer.upstreamUrl table) :
    Vouches backend.sha256Hex table distsSuffix answer.content := by
  obtain ⟨w₁, members, hmembers, hproxy, hsuffix, hfirst⟩ := h
  obtain ⟨⟨before, after, hsplit, hbefore⟩, hurl, hallowed, hcontent⟩ := hfirst.source
  exact hagree members distsSuffix (congrArg Prod.snd hmembers) hproxy hsuffix before _ after _
    hsplit hbefore hurl hallowed _ _ hcontent htable

/-- In a steady world the members that a path may be left to are the ones that answer for it. -/
theorem MirrorsAgree.of_checked (hsteady : Steady backend)
    (h : ∀ distsSuffix answer w',
      AnswersFirst backend w virtualRepoId distribution upstreamPath distsSuffix answer w' →
      ∀ table, (loadReleaseChecksums backend w' answer.member.id answer.member.key
        answer.upstreamUrl distribution).2 = some table →
      Vouches backend.sha256Hex table distsSuffix answer.content) :
    MirrorsAgree backend w virtualRepoId distribution upstreamPath := by
  intro members distsSuffix hmembers hproxy hsuffix before member after upstreamUrl hsplit hbefore
    hurl hallowed content table hcontent ⟨w₀, htable⟩
  have hfetched : backend.fetchVirtualMembers w virtualRepoId =
      ((backend.fetchVirtualMembers w virtualRepoId).1, .ok members) := by rw [← hmembers]
  obtain ⟨w', ct, hfirst⟩ := hsteady.firstAnswer after hbefore hurl hallowed hcontent
    (backend.fetchVirtualMembers w virtualRepoId).1
  rw [← hsplit] at hfirst
  refine h distsSuffix _ w' ⟨_, members, hfetched, hproxy, hsuffix, hfirst⟩ table ?_
  exact (hsteady.loadReleaseChecksumsFrom _ w' w₀ _ _).trans htable

/-- A mirror whose `InRelease` lists an index of 1024 bytes, and which hands out an empty one. -/
def poisonedBackend : Backend Unit where
  hasProxyService := true
  fetchVirtualMembers _ _ := ((), .ok [⟨1, "debian-remote".toList, .remote,
    some "http://deb.debian.org/debian".toList⟩])
  loadDebianFilter _ _ := ((), .ok ⟨[], [], [], false⟩)
  normalizedDistsParts _ distribution suffix _ := .ok (distribution, suffix)
  fetchArtifactCapped _ _ _ := ((), .ok ([], none))
  fetchDistsWithRevalidation _ _ _ _ := ((), .ok ((("SHA256:\n " ++
    "5f70bf18a086007016e948b04aed3b82103a36bea41755b6cddfaf10ace3c6ef" ++
    " 1024 main/binary-amd64/Packages\n").toList.map fun c => UInt8.ofNat c.toNat), none, false))
  maybeInvalidateByEpoch _ _ _ _ := ()
  invalidateCacheByKey _ _ _ := ()
  sha256Hex _ := "e3b0c44298fc1c149afbf4c8996fb92427ae41e4649b934ca495991b7852b855".toList
  fromUtf8Lossy bytes := bytes.map fun b => Char.ofNat b.toNat

end Virtual

end ArtifactKeeper.Debian
