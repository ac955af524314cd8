import ArtifactKeeper.Result
import ArtifactKeeper.Uploads.TerminalStatus

/-! The `complete` handler of a chunked upload, alone, with an error at any of its steps.
`complete_session` marks the session as completed before the handler checks the permission again,
looks up the repository and stores the file, and the temp file is removed before the quota is
checked and the artifact row is inserted. -/

namespace ArtifactKeeper.Uploads
open Chunking Sync Except

inductive RepositoryFormat where
  | generic
  | native (name : String)
  deriving DecidableEq, Repr

/-- A row of `artifacts`. -/
structure ArtifactRow where
  repositoryId : Uuid
  path : String
  name : String
  version : Option String
  sizeBytes : ℤ
  checksumSha256 : String
  contentType : String
  storageKey : String
  uploadedBy : Uuid
  isDeleted : Bool
  deriving DecidableEq, Repr

/-- The columns of the session row that only the end of the upload reads. -/
structure UploadTarget where
  repositoryId : Uuid
  artifactPath : String
  artifactName : Option String
  artifactVersion : Option String
  contentType : String
  artifactMetadataFormat : Option String
  artifactMetadata : Option String
  deriving DecidableEq, Repr

structure FinalizeState where
  upload : UploadState
  target : UploadTarget
  artifacts : List ArtifactRow
  objects : String → Option Bytes

/-- The steps of the handler that can fail. -/
inductive FinalizeStep where
  | readSession | countChunks | statFile | hashFile | markFailed | markCompleted
  | permission | repository | storage | putFile | beginTx | quota | insert | commit | metadata
  deriving DecidableEq, Repr

/-- What the handler meets: the errors of its steps, the scope of the token, whether this is a
replication request, the repository's format, the decision on the quota and whether the temp file
can be removed. -/
structure Surroundings where
  fault : FinalizeStep → Option String
  scope : Bool
  isReplicationRequest : Bool
  format : RepositoryFormat
  quotaAllowed : Bool
  removed : Bool

inductive FinalizeError where
  | forbidden (message : String)
  | upload (e : UploadFailure)
  | failed (step : FinalizeStep) (message : String)
  | insufficientStorage (message : String)
  deriving DecidableEq, Repr

/-- The state at the end of a request, with the error if there is one. -/
abbrev Outcome := Except (FinalizeError × FinalizeState) FinalizeState

def Surroundings.attempt (env : Surroundings) (step : FinalizeStep) (s : FinalizeState) : Outcome :=
  match env.fault step with
  | none => .ok s
  | some message => .error (.failed step message, s)

def artifactNameFromPath (path : String) : String :=
  String.ofList ((path.toList.splitOn '/').getLastD path.toList)

def completedArtifactName (t : UploadTarget) : String :=
  (t.artifactName.filter (· ≠ "")).getD (artifactNameFromPath t.artifactPath)

def completedArtifactVersion (t : UploadTarget) : Option String := t.artifactVersion.filter (· ≠ "")

def versionFromArtifactPath (path : String) : Option String :=
  let segments := (path.toList.splitOn '/').filter (· ≠ [])
  if 3 ≤ segments.length then segments[segments.length - 2]?.map String.ofList else none

def completedFormatArtifactVersion (t : UploadTarget) (checksum : String)
    (format : RepositoryFormat) : Option String :=
  match completedArtifactVersion t with
  | some explicit => some explicit
  | none =>
    if format = .generic then none
    else match versionFromArtifactPath t.artifactPath with
      | some derived => some derived
      | none => some ("sha256-" ++ String.ofList (checksum.toList.take 12))

def storageKeyFromChecksum (checksum : String) : String :=
  String.ofList (checksum.toList.take 2) ++ "/" ++
    String.ofList ((checksum.toList.drop 2).take 2) ++ "/" ++ checksum

namespace FinalizeState
variable (s : FinalizeState)

def setStatus (status : SessionStatus) : FinalizeState :=
  { s with upload := s.upload.setStatus status }

/-- `UploadService::complete_session`. The error of the statement that records a wrong checksum is
dropped. -/
def completeSession (sha256 : Bytes → String) (env : Surroundings) (user : Uuid) : Outcome := do
  let s ← env.attempt .readSession s
  let seen ← (s.upload.getSession user).mapError fun e => (.upload e, s)
  ensure (seen.status ≠ .completed) (.upload (refused (.invalidStatus "already completed")), s)
  ensure (seen.status ≠ .cancelled) (.upload (refused (.invalidStatus "cancelled")), s)
  let s ← env.attempt .countChunks s
  ensure (s.upload.incomplete = 0)
    (.upload (.incompleteChunks seen.completedChunks seen.totalChunks), s)
  let s ← env.attempt .statFile s
  ensure (s.upload.linked = true) (.upload (.backend "No such file or directory"), s)
  ensure ((s.upload.bytes.length : ℤ) = seen.totalSize)
    (.upload (.sizeMismatch seen.totalSize s.upload.bytes.length), s)
  let s ← env.attempt .hashFile s
  ensure (sha256 s.upload.bytes = s.upload.checksum)
    (.upload (.checksumMismatch s.upload.checksum (sha256 s.upload.bytes)),
      if env.fault .markFailed = none then s.setStatus .failed else s)
  let s ← env.attempt .markCompleted s
  return s.setStatus .completed

/-- `put_file` reads the temp file by its name. -/
def putFile (env : Surroundings) (storageKey : String) : Outcome := do
  let s ← env.attempt .putFile s
  ensure (s.upload.linked = true) (.failed .putFile "No such file or directory", s)
  return { s with objects := Function.update s.objects storageKey (some s.upload.bytes) }

/-- `let _ = remove_file(…)`. -/
def removeTempFile (env : Surroundings) : FinalizeState :=
  { s with upload := { s.upload with linked := s.upload.linked && !env.removed } }

/-- `INSERT INTO artifacts … ON CONFLICT (repository_id, path) DO UPDATE`. -/
def upsertArtifact (row : ArtifactRow) : FinalizeState :=
  let same := fun r : ArtifactRow => r.repositoryId == row.repositoryId && r.path == row.path
  { s with artifacts := if s.artifacts.any same
      then s.artifacts.map fun r => if same r then row else r else s.artifacts ++ [row] }

def artifactRow (env : Surroundings) (user : Uuid) : ArtifactRow where
  repositoryId := s.target.repositoryId
  path := s.target.artifactPath
  name := completedArtifactName s.target
  version := completedFormatArtifactVersion s.target s.upload.checksum env.format
  sizeBytes := s.upload.session.totalSize
  checksumSha256 := s.upload.checksum
  contentType := s.target.contentType
  storageKey := storageKeyFromChecksum s.upload.checksum
  uploadedBy := user
  isDeleted := false

@[simp] theorem target_removeTempFile (env : Surroundings) :
    (s.removeTempFile env).target = s.target := rfl

@[simp] theorem target_upsertArtifact (row : ArtifactRow) :
    (s.upsertArtifact row).target = s.target := rfl

/-- The quota admission, in the transaction of the insert. -/
def admitQuota (env : Surroundings) : Outcome :=
  if env.isReplicationRequest then .ok s
  else do
    let s ← env.attempt .quota s
    ensure (env.quotaAllowed = true)
      (.insufficientStorage "Repository storage quota exceeded", s)
    return s

/-- The metadata that a replication session carries is recorded after the artifact row is there. -/
def recordMetadata (env : Surroundings) : Outcome :=
  if s.target.artifactMetadataFormat.isSome ∧ s.target.artifactMetadata.isSome then
    env.attempt .metadata s
  else .ok s

/-- The handler after `complete_session`. -/
def finishUpload (env : Surroundings) (user : Uuid) : Outcome := do
  let s ← env.attempt .permission s
  let s ← env.attempt .repository s
  let s ← env.attempt .storage s
  let s ← s.putFile env (storageKeyFromChecksum s.upload.checksum)
  let s := s.removeTempFile env
  let s ← env.attempt .beginTx s
  let s ← s.admitQuota env
  let s ← env.attempt .insert s
  -- the inserted row is there once the transaction commits
  let s ← env.attempt .commit s
  (s.upsertArtifact (s.artifactRow env user)).recordMetadata env

/-- The `complete` handler. -/
def complete (sha256 : Bytes → String) (env : Surroundings) (user : Uuid) : Outcome := do
  ensure (env.scope = true) (.forbidden "Token does not have required scope: write:artifacts", s)
  let s ← s.completeSession sha256 env user
  s.finishUpload env user

end FinalizeState

/-- What lets a later call succeed: the session is not completed and the temp file is there with
the bytes of the checksum. -/
def Recoverable (sha256 : Bytes → String) (s : FinalizeState) : Prop :=
  s.upload.session.status ≠ .completed ∧ s.upload.linked = true ∧
    sha256 s.upload.bytes = s.upload.checksum

/-- A call that ends with an error has created no artifact row, and leaves a session that could be
completed as one that still can. -/
def AllOrNothing (sha256 : Bytes → String) (env : Surroundings) (user : Uuid)
    (s : FinalizeState) : Prop :=
  ∀ e s', s.complete sha256 env user = .error (e, s') →
    s'.artifacts = s.artifacts ∧ (Recoverable sha256 s → Recoverable sha256 s')

/-- `complete_session` gets to its last statement, and it succeeds. -/
structure Verifies (sha256 : Bytes → String) (env : Surroundings) (user : Uuid)
    (s : FinalizeState) : Prop where
  faultless : ∀ step ∈ [FinalizeStep.readSession, .countChunks, .statFile, .hashFile,
    .markCompleted], env.fault step = none
  owner : s.upload.userId = user
  unexpired : s.upload.now ≤ s.upload.expiresAt
  unended : ¬ terminal s.upload.session.status
  uploaded : s.upload.incomplete = 0
  linked : s.upload.linked = true
  size : (s.upload.bytes.length : ℤ) = s.upload.session.totalSize
  checksum : sha256 s.upload.bytes = s.upload.checksum

/-- The steps after `complete_session` that this request takes. -/
def laterSteps (env : Surroundings) (t : UploadTarget) : List FinalizeStep :=
  [.permission, .repository, .storage, .putFile, .beginTx, .insert, .commit] ++
    (if env.isReplicationRequest then [] else [.quota]) ++
    if t.artifactMetadataFormat.isSome ∧ t.artifactMetadata.isSome then [.metadata] else []

/-- No step after `complete_session` fails, and the quota admits the artifact. -/
def Finishes (env : Surroundings) (t : UploadTarget) : Prop :=
  (∀ step ∈ laterSteps env t, env.fault step = none) ∧
    (env.isReplicationRequest = true ∨ env.quotaAllowed = true)

section
variable {sha256 : Bytes → String} {env : Surroundings} {user : Uuid} {s s' : FinalizeState}
  {step : FinalizeStep}

theorem attempt_eq_ok_iff : env.attempt step s = .ok s' ↔ env.fault step = none ∧ s = s' := by
  unfold Surroundings.attempt
  cases env.fault step <;> simp

theorem raisesOnly_attempt {P : FinalizeError × FinalizeState → Prop}
    (h : ∀ message, P (.failed step message, s)) : RaisesOnly P (env.attempt step s) := by
  unfold Surroundings.attempt
  cases env.fault step with
  | none => exact .ok s
  | some message => exact .throw (h message)

theorem raisesOnly_attempt_bind {P : FinalizeError × FinalizeState → Prop}
    {f : FinalizeState → Outcome} (h : ∀ message, P (.failed step message, s))
    (hf : RaisesOnly P (f s)) : RaisesOnly P (env.attempt step s >>= f) := by
  refine (raisesOnly_attempt h).bind fun t ht => ?_
  obtain ⟨-, rfl⟩ := attempt_eq_ok_iff.mp ht
  exact hf

theorem getSession_eq_ok_iff {u : UploadState} {session : UploadSession} :
    u.getSession user = .ok session ↔
      u.userId = user ∧ u.now ≤ u.expiresAt ∧ u.session = session := by
  unfold UploadState.getSession
  split
  · simp_all
  · split
    · simp_all
    · simp_all

theorem completeSession_eq_ok_iff : s.completeSession sha256 env user = .ok s' ↔
    Verifies sha256 env user s ∧ s' = s.setStatus .completed := by
  unfold FinalizeState.completeSession
  simp only [bind_eq_ok_iff, pure_eq_ok_iff, ensure_eq_ok_iff, attempt_eq_ok_iff,
    mapError_eq_ok_iff, getSession_eq_ok_iff, and_assoc, exists_and_left, exists_eq_left',
    exists_const]
  constructor
  · rintro ⟨hread, howner, htime, hopen, hlive, hcount, hnone, hstat, hlinked, hsize, hhash, hsum,
      hmark, rfl⟩
    refine ⟨⟨?_, howner, htime, ?_, hnone, hlinked, hsize, hsum⟩, rfl⟩
    · simp [hread, hcount, hstat, hhash, hmark]
    · rintro (hcompleted | hcancelled)
      · exact hopen hcompleted
      · exact hlive hcancelled
  · rintro ⟨h, rfl⟩
    have hfaults := h.faultless
    simp only [List.forall_mem_cons, List.not_mem_nil, false_implies, implies_true,
      and_true] at hfaults
    obtain ⟨hread, hcount, hstat, hhash, hmark⟩ := hfaults
    exact ⟨hread, h.owner, h.unexpired, fun hc => h.unended (.inl hc),
      fun hc => h.unended (.inr hc), hcount, h.uploaded, hstat, h.linked, h.size, hhash,
      h.checksum, hmark, rfl⟩

theorem readMore_take (file : Bytes) (m n : ℕ) :
    readMore file (file.take m) n = file.take (m + n) := by
  rw [readMore, List.take_add, List.length_take]
  rcases le_total m file.length with hm | hm
  · rw [min_eq_left hm]
  · rw [min_eq_right hm, List.drop_length, List.drop_eq_nil_of_le hm]

/-- Blocks of the size of the buffer, read one after the other. -/
theorem readBlocks_reach {u : UploadState} {p : ℕ} (k : ℕ) :
    ((uploadProtocol sha256).solo p).Reach Machine.anyStep (u, .hashing [])
      (u, .hashing (u.bytes.take (k * sha256BufSize))) := by
  induction k with
  | zero =>
    rw [Nat.zero_mul, List.take_zero]
    exact .refl
  | succ k ih =>
    refine ih.tail (a := .readBlock sha256BufSize) trivial ?_
    show (if 0 < sha256BufSize ∧ sha256BufSize ≤ sha256BufSize then some (u, UploadCall.hashing
      (readMore u.bytes (u.bytes.take (k * sha256BufSize)) sha256BufSize)) else none) = _
    rw [if_pos ⟨by decide, Nat.le_refl _⟩, readMore_take, Nat.succ_mul]

/-- The reads and checks of `complete_session` before the file is hashed. -/
theorem Verifies.hashing (h : Verifies sha256 env user s) (p : ℕ) :
    ((uploadProtocol sha256).solo p).Reach Machine.anyStep (s.upload, .idle)
      ({ s.upload with observed := true }, .hashing []) := by
  have hread : s.upload.beginComplete user = .counting s.upload.session := by
    have hunended := h.unended
    rw [UploadState.beginComplete, getSession_eq_ok_iff.mpr ⟨h.owner, h.unexpired, rfl⟩]
    dsimp only
    cases hstatus : s.upload.session.status with
    | completed => exact absurd (.inl hstatus) hunended
    | cancelled => exact absurd (.inr hstatus) hunended
    | _ => rfl
  have hcount : s.upload.countChunks s.upload.session =
      ({ s.upload with observed := true }, .sizing) := by
    rw [UploadState.countChunks, if_neg (by rw [h.uploaded]; decide)]
  have hsize : UploadState.checkSize { s.upload with observed := true } = .sized := by
    simp [UploadState.checkSize, h.linked, h.size]
  refine Machine.Reach.tail (a := .openFile) (Machine.Reach.tail (a := .checkSize)
    (Machine.Reach.tail (a := .countChunks) (Machine.Reach.tail (a := .complete user) .refl
      trivial (congrArg (fun l => some (s.upload, l)) hread)) trivial (congrArg some hcount))
    trivial (congrArg (fun l => some (_, l)) hsize)) trivial ?_
  show some (_, if s.upload.linked = true then UploadCall.hashing [] else _) = _
  rw [if_pos h.linked]

/-- A `complete_session` that succeeds is a run of one call of the protocol. -/
theorem completeSession_reached (h : s.completeSession sha256 env user = .ok s') {p : ℕ}
    {procs : ℕ → UploadCall} (hidle : procs p = .idle) :
    ∃ w, (uploadProtocol sha256).machine.Reach Machine.anyStep ⟨s.upload, procs⟩ w ∧
      w.shared.session = s'.upload.session ∧ w.procs p = .storing s.upload.bytes := by
  obtain ⟨hverifies, rfl⟩ := completeSession_eq_ok_iff.mp h
  have hread := (hverifies.hashing p).trans (readBlocks_reach s.upload.bytes.length)
  have hwhole : s.upload.bytes.take (s.upload.bytes.length * sha256BufSize) = s.upload.bytes :=
    List.take_of_length_le (Nat.le_mul_of_pos_right _ (by decide))
  dsimp only at hread
  rw [hwhole] at hread
  have hcompared : ((uploadProtocol sha256).solo p).Reach Machine.anyStep (s.upload, .idle)
      ({ s.upload with observed := true }, .markingCompleted s.upload.bytes) := by
    refine hread.tail (a := .compareChecksum) trivial ?_
    show (if s.upload.bytes.length ≤ s.upload.bytes.length then
      some (_, if sha256 s.upload.bytes = s.upload.checksum then
        UploadCall.markingCompleted s.upload.bytes else UploadCall.markingFailed _) else none) = _
    rw [if_pos (Nat.le_refl _), if_pos hverifies.checksum]
  have hmarked := hcompared.tail (a := .updateStatus) trivial rfl
  rw [← hidle] at hmarked
  exact ⟨_, Protocol.reach_of_solo hmarked, rfl, Function.update_self ..⟩

/-- An error of `complete_session` leaves everything but the status of a file with a wrong
checksum. -/
theorem completeSession_raises : RaisesOnly (fun r => r.2 = s ∨
      sha256 s.upload.bytes ≠ s.upload.checksum ∧ r.2 = s.setStatus .failed)
    (s.completeSession sha256 env user) := by
  unfold FinalizeState.completeSession
  refine raisesOnly_attempt_bind (fun _ => .inl rfl) ?_
  refine RaisesOnly.bind (.mapError fun _ => .inl rfl) fun seen _ => ?_
  refine .ensure_bind (fun _ => .inl rfl) fun _ => ?_
  refine .ensure_bind (fun _ => .inl rfl) fun _ => ?_
  refine raisesOnly_attempt_bind (fun _ => .inl rfl) ?_
  refine .ensure_bind (fun _ => .inl rfl) fun _ => ?_
  refine raisesOnly_attempt_bind (fun _ => .inl rfl) ?_
  refine .ensure_bind (fun _ => .inl rfl) fun _ => ?_
  refine .ensure_bind (fun _ => .inl rfl) fun _ => ?_
  refine raisesOnly_attempt_bind (fun _ => .inl rfl) ?_
  refine .ensure_bind (fun hsum => ?_) fun _ => ?_
  · by_cases hfault : env.fault .markFailed = none
    · exact .inr ⟨hsum, if_pos hfault⟩
    · exact .inl (if_neg hfault)
  · exact raisesOnly_attempt_bind (fun _ => .inl rfl) (.ok _)

theorem putFile_eq_ok_iff {storageKey : String} : s.putFile env storageKey = .ok s' ↔
    env.fault .putFile = none ∧ s.upload.linked = true ∧
      { s with objects := Function.update s.objects storageKey (some s.upload.bytes) } = s' := by
  simp only [FinalizeState.putFile, bind_eq_ok_iff, attempt_eq_ok_iff, ensure_eq_ok_iff,
    pure_eq_ok_iff, and_assoc, exists_and_left, exists_eq_left', exists_const]

theorem admitQuota_eq_ok_iff : s.admitQuota env = .ok s' ↔
    (env.isReplicationRequest = true ∨ env.fault .quota = none ∧ env.quotaAllowed = true) ∧
      s = s' := by
  unfold FinalizeState.admitQuota
  cases env.isReplicationRequest with
  | true => simp
  | false =>
    simp only [Bool.false_eq_true, if_false, bind_eq_ok_iff, attempt_eq_ok_iff, ensure_eq_ok_iff,
      pure_eq_ok_iff, and_assoc, exists_and_left, exists_eq_left', exists_const, false_or]

theorem recordMetadata_eq_ok_iff : s.recordMetadata env = .ok s' ↔
    ((s.target.artifactMetadataFormat.isSome ∧ s.target.artifactMetadata.isSome) →
      env.fault .metadata = none) ∧ s = s' := by
  unfold FinalizeState.recordMetadata
  split
  · next hmeta => simp only [attempt_eq_ok_iff, hmeta, and_self, true_implies]
  · next hmeta => simp only [hmeta, false_implies, true_and, Except.ok.injEq]

theorem finishes_iff {t : UploadTarget} : Finishes env t ↔
    env.fault .permission = none ∧ env.fault .repository = none ∧ env.fault .storage = none ∧
      env.fault .putFile = none ∧ env.fault .beginTx = none ∧
      (env.isReplicationRequest = true ∨ env.fault .quota = none ∧ env.quotaAllowed = true) ∧
      env.fault .insert = none ∧ env.fault .commit = none ∧
      ((t.artifactMetadataFormat.isSome ∧ t.artifactMetadata.isSome) →
        env.fault .metadata = none) := by
  have hmetadata : (∀ step ∈ (if t.artifactMetadataFormat.isSome ∧ t.artifactMetadata.isSome
      then [FinalizeStep.metadata] else []), env.fault step = none) ↔
      ((t.artifactMetadataFormat.isSome ∧ t.artifactMetadata.isSome) →
        env.fault .metadata = none) := by
    split <;> simp_all
  unfold Finishes laterSteps
  simp only [List.forall_mem_append, hmetadata, List.forall_mem_cons, List.not_mem_nil,
    false_implies, implies_true, and_true]
  cases env.isReplicationRequest with
  | true => simp [and_assoc]
  | false =>
    simp only [Bool.false_eq_true, if_false, List.forall_mem_cons, List.not_mem_nil,
      false_implies, implies_true, and_true, false_or]
    tauto

/-- With the temp file in place, the handler ends well if and only if no later step fails. -/
theorem finishUpload_ok_iff (user : Uuid) (hlinked : s.upload.linked = true) :
    (∃ s', s.finishUpload env user = .ok s') ↔ Finishes env s.target := by
  unfold FinalizeState.finishUpload
  simp only [bind_eq_ok_iff, attempt_eq_ok_iff, putFile_eq_ok_iff, admitQuota_eq_ok_iff,
    recordMetadata_eq_ok_iff, and_assoc, exists_and_left, exists_eq_left', hlinked, true_and,
    FinalizeState.target_upsertArtifact, FinalizeState.target_removeTempFile, exists_eq', and_true,
    finishes_iff]

/-- An error after `complete_session` leaves the status that it has set. -/
theorem finishUpload_raises :
    RaisesOnly (fun r => r.2.upload.session.status = s.upload.session.status)
      (s.finishUpload env user) := by
  unfold FinalizeState.finishUpload
  refine raisesOnly_attempt_bind (fun _ => rfl) ?_
  refine raisesOnly_attempt_bind (fun _ => rfl) ?_
  refine raisesOnly_attempt_bind (fun _ => rfl) ?_
  refine RaisesOnly.bind ?_ fun t ht => ?_
  · refine raisesOnly_attempt_bind (fun _ => rfl) ?_
    exact .ensure_bind (fun _ => rfl) fun _ => .ok _
  obtain ⟨-, -, rfl⟩ := putFile_eq_ok_iff.mp ht
  refine raisesOnly_attempt_bind (fun _ => rfl) ?_
  refine RaisesOnly.bind ?_ fun u hu => ?_
  · unfold FinalizeState.admitQuota
    split
    · exact .ok _
    · refine raisesOnly_attempt_bind (fun _ => rfl) ?_
      exact .ensure_bind (fun _ => rfl) fun _ => .ok _
  obtain ⟨-, rfl⟩ := admitQuota_eq_ok_iff.mp hu
  refine raisesOnly_attempt_bind (fun _ => rfl) ?_
  refine raisesOnly_attempt_bind (fun _ => rfl) ?_
  unfold FinalizeState.recordMetadata
  split
  · exact raisesOnly_attempt fun _ => rfl
  · exact .ok _

theorem Verifies.recoverable (h : Verifies sha256 env user s) : Recoverable sha256 s :=
  ⟨fun hcompleted => h.unended (.inl hcompleted), h.linked, h.checksum⟩

/-- Finalizing is all or nothing if and only if the call does not get past the statement that marks
the session as completed, or no later step fails. -/
theorem all_or_nothing_iff : AllOrNothing sha256 env user s ↔
    (env.scope = true ∧ Verifies sha256 env user s → Finishes env s.target) := by
  constructor
  · rintro hlaw ⟨hscope, hverifies⟩
    by_contra hfails
    have hsession := completeSession_eq_ok_iff.mpr ⟨hverifies, rfl⟩
    have hfinish : ¬ ∃ s', (s.setStatus .completed).finishUpload env user = .ok s' := fun hok =>
      hfails ((finishUpload_ok_iff user (s := s.setStatus .completed) hverifies.linked).mp hok)
    cases hrest : (s.setStatus .completed).finishUpload env user with
    | ok s' => exact hfinish ⟨s', hrest⟩
    | error r =>
      have hcomplete : s.complete sha256 env user = .error r := by
        unfold FinalizeState.complete
        rw [hsession]
        simpa [ensure, hscope, bind, Except.bind] using hrest
      have hstatus : r.2.upload.session.status = .completed := finishUpload_raises r hrest
      exact ((hlaw r.1 r.2 hcomplete).2 hverifies.recoverable).1 hstatus
  · intro hcond e s' herror
    have hraises : RaisesOnly (fun r => r.2 = s ∨
        sha256 s.upload.bytes ≠ s.upload.checksum ∧ r.2 = s.setStatus .failed)
        (s.complete sha256 env user) := by
      unfold FinalizeState.complete
      refine .ensure_bind (fun _ => .inl rfl) fun hscope => ?_
      refine completeSession_raises.bind fun t ht => ?_
      obtain ⟨hverifies, rfl⟩ := completeSession_eq_ok_iff.mp ht
      obtain ⟨s', hfinish⟩ := (finishUpload_ok_iff user (s := s.setStatus .completed)
        hverifies.linked).mpr (hcond ⟨hscope, hverifies⟩)
      rw [hfinish]
      exact .ok s'
    obtain hsame | ⟨hsum, hfailed⟩ := hraises _ herror
    · have hsame' : s' = s := hsame
      subst hsame'
      exact ⟨rfl, id⟩
    · have hfailed' : s' = s.setStatus .failed := hfailed
      subst hfailed'
      exact ⟨rfl, fun hrecoverable => absurd hrecoverable.2.2 hsum⟩

end

/-- The byte `a` uploaded by a replication session and not yet completed. -/
def uploadedByte : FinalizeState where
  upload := { openedState oneByteSession (fun _ => none) 7 0 86400000 (sha256OfA [0x61]) with
    session := oneByteSession.completeChunk 0 1
    bytes := [0x61] }
  target :=
    { repositoryId := 3
      artifactPath := "a.txt"
      artifactName := none
      artifactVersion := none
      contentType := "text/plain"
      artifactMetadataFormat := some "generic"
      artifactMetadata := some "x" }
  artifacts := []
  objects := fun _ => none

/-- Only this step fails. -/
def failingAt (step : FinalizeStep) (message : String) : Surroundings where
  fault := fun other => if other = step then some message else none
  scope := true
  isReplicationRequest := false
  format := .generic
  quotaAllowed := true
  removed := true

/-- A permission that was revoked leaves the session completed, without an artifact; metadata that
cannot be written leave the artifact row behind. -/
theorem refused_completion_keeps_status :
    Recoverable sha256OfA uploadedByte ∧
    (∃ e s', uploadedByte.complete sha256OfA (failingAt .permission "no permission") 7 =
        .error (e, s') ∧ s'.artifacts = [] ∧ s'.upload.session.status = .completed) ∧
    ∃ e s', uploadedByte.complete sha256OfA (failingAt .metadata "connection lost") 7 =
        .error (e, s') ∧ s'.artifacts ≠ [] ∧ s'.upload.linked = false := by
  refine ⟨⟨by decide, rfl, by decide⟩, ⟨_, _, rfl, rfl, rfl⟩, ⟨_, _, rfl, ?_, rfl⟩⟩
  exact List.cons_ne_nil _ _

end ArtifactKeeper.Uploads
