import ArtifactKeeper.Machine
import ArtifactKeeper.Auth.Claims
import Mathlib.Algebra.Group.Nat.Defs
import Mathlib.Algebra.GroupWithZero.Nat
import Mathlib.Data.List.Dedup
import Mathlib.Data.List.Sort

/-! The OCI chunked upload: POST, PATCH, completing PUT, cancelling DELETE and the sweep of
abandoned sessions, as request processes over one upload session. A step is one SQL statement or
transaction, or one storage call, together with its outcome. -/

namespace ArtifactKeeper.Oci

abbrev Bytes := List UInt8

/-- The bare lower-case hex of a SHA-256. -/
structure Sha256Digest where
  hex : String
  deriving DecidableEq, Repr

def Sha256Digest.asPrefixed (d : Sha256Digest) : String := "sha256:" ++ d.hex

structure UploadConfig where
  sha256 : Bytes → Sha256Digest
  maxUploadSizeBytes : ℕ

/-- A key under `oci-uploads/<session>`: the key itself, `.part.<index>.<id>` or `.complete.<id>`.
The fresh `id` is the number of the request that draws it. -/
inductive UploadKey where
  | temp
  | part (index : ℕ) (id : Uuid)
  | complete (id : Uuid)
  deriving DecidableEq, Repr

def UploadKey.owner : UploadKey → Option Uuid
  | .temp => none
  | .part _ id | .complete id => some id

inductive UploadSessionState where
  | opened | committing
  deriving DecidableEq, Repr

/-- The row of the session in `oci_upload_sessions`. -/
structure SessionRow where
  bytesReceived : ℕ
  computedDigest : Option Sha256Digest
  state : UploadSessionState
  stateToken : Option Uuid
  updatedAt : ℕ
  deriving DecidableEq, Repr

/-- A row of `oci_upload_parts`. -/
structure PartRow where
  partIndex : ℕ
  storageKey : UploadKey
  sizeBytes : ℕ
  deriving DecidableEq, Repr

structure OciUploadSessionRecord where
  bytesReceived : ℕ
  computedDigest : Option Sha256Digest
  state : UploadSessionState
  partCount : ℕ
  deriving DecidableEq, Repr

structure OciUploadPartRecord where
  storageKey : UploadKey
  sizeBytes : ℕ
  deriving DecidableEq, Repr

/-- The `FOR UPDATE` lock of a sweep; `deleted` once it has removed an object of the session. -/
structure RowLock where
  holder : ℕ
  deleted : Bool
  deriving DecidableEq, Repr

/-- The database and the store of one repository, as far as one upload session reaches. The last
five fields record the past and are read by no handler: the POST that drew the session id, whether
its row was ever inserted, what was written under each upload key, the body of the POST and the
bodies of the PATCH requests in the order their transactions took effect. -/
structure UploadState where
  session : Option SessionRow
  parts : List PartRow
  uploads : UploadKey → Option Bytes
  blobs : Sha256Digest → Option ℕ
  blobObjects : Sha256Digest → Option Bytes
  rowLock : Option RowLock
  now : ℕ
  poster : Option ℕ
  created : Bool
  written : UploadKey → Option Bytes
  initial : Bytes
  accepted : List Bytes

/-! ### Request headers and responses -/

/-- A parsed `Content-Range`. -/
structure ContentRange where
  first : ℕ
  last : ℕ
  first_le_last : first ≤ last
  last_lt : last < 2 ^ 63
  deriving DecidableEq, Repr

/-- `contentRange` is `some none` where the header is there and does not parse. -/
structure UploadHeaders where
  contentRange : Option (Option ContentRange)
  contentLength : Option ℕ
  deriving DecidableEq, Repr

inductive Response where
  | accepted (bytesReceived : ℕ)
  | created (digest : Sha256Digest)
  | noContent
  | error (status : ℕ) (code message : String)
  /-- A failure that carries the text of the database or of the store. -/
  | backendError
  | swept
  deriving DecidableEq, Repr

def uploadSessionConflict (message : String) : Response :=
  .error 409 "BLOB_UPLOAD_INVALID" message

def completionLeaseLost : Response :=
  uploadSessionConflict "upload completion lease was lost"

def sessionNotFound : Response :=
  .error 404 "BLOB_UPLOAD_UNKNOWN" "upload session not found"

def ociInternalError (message : String) : Response :=
  .error 500 "INTERNAL_ERROR" message

def uploadSessionSizeError (maxUploadSizeBytes : ℕ) : Response :=
  .error 413 "BLOB_UPLOAD_INVALID" ("upload session exceeds configured max upload size of " ++
    toString maxUploadSizeBytes ++ " bytes")

def rangeNotSatisfiable (message : String) : Response :=
  .error 416 "BLOB_UPLOAD_INVALID" message

def digestMismatch (computed provided : Sha256Digest) : Response :=
  .error 400 "DIGEST_INVALID" ("digest mismatch: computed " ++ computed.asPrefixed ++
    " != provided " ++ provided.asPrefixed)

def usizeMax : ℕ := 2 ^ 64 - 1

def uploadSessionBodyLimit (existingBytes maxUploadSizeBytes : ℕ) : ℕ :=
  if maxUploadSizeBytes = 0 then usizeMax else min (maxUploadSizeBytes - existingBytes) usizeMax

def rejectOversizedContentLength (h : UploadHeaders) (bodyLimit maxUploadSizeBytes : ℕ) :
    Option Response :=
  if bodyLimit = usizeMax then none
  else match h.contentLength with
    | some n =>
      if n < 2 ^ 64 ∧ bodyLimit < n then some (uploadSessionSizeError maxUploadSizeBytes) else none
    | none => none

def validatePatchContentRange (h : UploadHeaders) (expectedStart : ℕ) : Option Response :=
  match h.contentRange with
  | none => none
  | some none => some (rangeNotSatisfiable "invalid Content-Range header")
  | some (some r) =>
    if r.first ≠ expectedStart then
      some (rangeNotSatisfiable ("Content-Range starts at " ++ toString r.first ++
        ", expected " ++ toString expectedStart))
    else match h.contentLength with
      | none => none
      | some n =>
        -- a length that is no `i64` does not parse and is not compared
        if 2 ^ 63 ≤ n then none
        else if 2 ^ 63 ≤ r.last - r.first + 1 then
          some (rangeNotSatisfiable "Content-Range is out of range")
        else if r.last - r.first + 1 ≠ n then
          some (rangeNotSatisfiable "Content-Range length does not match Content-Length")
        else none

/-- The check of `request_body_stream`, which looks at the count after each chunk of data. -/
def bodyExceeds (maxUploadSizeBytes existingBytes : ℕ) (body : Bytes) : Bool :=
  maxUploadSizeBytes ≠ 0 ∧ body ≠ [] ∧ maxUploadSizeBytes < existingBytes + body.length

def bodyTooLarge (maxUploadSizeBytes : ℕ) : Response :=
  .error 413 "BLOB_UPLOAD_INVALID" ("Validation error: request body exceeds configured max " ++
    "upload size of " ++ toString maxUploadSizeBytes ++ " bytes")

/-! ### Reads -/

def sixHours : ℕ := 6 * 3600

def abandonedOciUploadTtl : ℕ := 24 * 3600

namespace UploadState
variable (s : UploadState)

def record (row : SessionRow) : OciUploadSessionRecord :=
  ⟨row.bytesReceived, row.computedDigest, row.state, s.parts.length⟩

def isOpen : Bool := s.session.any fun row => row.state = .opened

/-- The predicate of the claiming `UPDATE`: open, or committing for more than six hours. -/
def claimable (row : SessionRow) : Bool :=
  row.state = .opened ∨ row.updatedAt + sixHours < s.now

/-- The row `WHERE state_token = $3`. -/
def holdsToken (token : Uuid) : Bool := s.session.any fun row => row.stateToken = some token

/-- The row `WHERE state = 'committing' AND state_token = $3`. -/
def holdsClaim (token : Uuid) : Bool :=
  s.session.any fun row => row.state = .committing ∧ row.stateToken = some token

/-- The part rows `ORDER BY part_index`. -/
def orderedParts : List PartRow := s.parts.insertionSort fun a b => a.partIndex ≤ b.partIndex

def fetchOciUploadParts (bytesReceived : ℕ) : List OciUploadPartRecord :=
  match s.orderedParts with
  | [] => [⟨.temp, bytesReceived⟩]
  | parts => parts.map fun part => ⟨part.storageKey, part.sizeBytes⟩

end UploadState

/-- The keys `sort`ed and `dedup`ed: the session's own key sorts first, then the parts by index. -/
def cleanupKeys (keys : List UploadKey) : List UploadKey := (.temp :: keys).dedup

namespace OciUploadSessionRecord

def nextPartIndex (row : OciUploadSessionRecord) : ℕ :=
  if row.bytesReceived = 0 ∧ row.partCount = 0 then 0
  else if row.partCount = 0 then 1
  else row.partCount

/-- The rows a PATCH finds after its backfill of a session from before part rows existed. -/
def backfill (row : OciUploadSessionRecord) (parts : List PartRow) : List PartRow :=
  if row.partCount = 0 ∧ 0 < row.bytesReceived ∧ ¬ parts.any (fun part => part.partIndex = 0) then
    parts ++ [⟨0, .temp, row.bytesReceived⟩]
  else parts

def partKey (row : OciUploadSessionRecord) (id : Uuid) : UploadKey := .part row.nextPartIndex id

end OciUploadSessionRecord

namespace UploadState
variable (s : UploadState)

/-- Whether the statements of a PATCH transaction pass: its part index is free and the session is
open with the byte count the PATCH read. -/
def patchApplies (row : OciUploadSessionRecord) : Bool :=
  ¬ (row.backfill s.parts).any (fun part => part.partIndex = row.nextPartIndex) ∧
    s.session.any fun r => r.state = .opened ∧ r.bytesReceived = row.bytesReceived

/-- `Except.error` where the recovered byte counts are not those the PATCH wrote. -/
def recoverCommittedPatch (row : OciUploadSessionRecord) (id : Uuid) (body : Bytes) :
    Except Response Bool :=
  match s.session with
  | none => .ok false
  | some r =>
    match s.parts.find? fun part => part.partIndex = row.nextPartIndex ∧
        part.storageKey = row.partKey id with
    | none => .ok false
    | some part =>
      if r.state ≠ .opened then .ok false
      else if r.bytesReceived ≠ row.bytesReceived + body.length ∨ part.sizeBytes ≠ body.length then
        .error (ociInternalError
          "recovered OCI upload PATCH state did not match expected byte counts")
      else .ok true

/-- `Except.error` where the session is gone and no such blob row is there. -/
def recoverCommittedCompletion (digest : Sha256Digest) (sizeBytes : ℕ) : Except Response Bool :=
  if s.session.isSome then .ok false
  else if s.blobs digest = some sizeBytes then .ok true
  else .error (ociInternalError ("OCI upload completion commit status is ambiguous: session is " ++
    "gone but blob row is missing"))

end UploadState

/-! ### Writes -/

/-- What one statement, transaction or storage call does to the state. -/
inductive Effect where
  | nop
  | draw (id : Uuid)
  | put (key : UploadKey) (body : Bytes)
  | delete (key : UploadKey)
  | putBlob (digest : Sha256Digest) (body : Bytes)
  | create (body : Bytes)
  | append (id : Uuid) (row : OciUploadSessionRecord) (body : Bytes)
  | claim (token : Uuid)
  | touch
  | reset
  | drop
  | finish (digest : Sha256Digest) (sizeBytes : ℕ)
  | lock (holder : ℕ)
  | sweepDelete (key : UploadKey)
  | unlock
  | tick (seconds : ℕ)
  deriving DecidableEq, Repr

namespace UploadState

/-- A storage put. -/
def putUpload (s : UploadState) (key : UploadKey) (body : Bytes) : UploadState :=
  { s with
    uploads := Function.update s.uploads key (some body)
    written := Function.update s.written key (some body) }

def deleteUpload (s : UploadState) (key : UploadKey) : UploadState :=
  { s with uploads := Function.update s.uploads key none }

/-- `storage.copy` onto `oci-blobs/<digest>`. -/
def putBlob (s : UploadState) (digest : Sha256Digest) (body : Bytes) : UploadState :=
  { s with blobObjects := Function.update s.blobObjects digest (some body) }

def withSession (s : UploadState) (f : SessionRow → SessionRow) : UploadState :=
  { s with session := s.session.map f }

/-- `DELETE FROM oci_upload_sessions`, which cascades to the part rows and ends a sweep's lock. -/
def dropSession (s : UploadState) : UploadState :=
  { s with session := none, parts := [], rowLock := none }

/-- The transaction of the POST: the session row, and part 0 where the POST carried bytes. -/
def createSession (cfg : UploadConfig) (s : UploadState) (body : Bytes) : UploadState :=
  { s with
    session := some {
      bytesReceived := body.length
      computedDigest := if body = [] then none else some (cfg.sha256 body)
      state := .opened
      stateToken := none
      updatedAt := s.now }
    parts := if body = [] then [] else [⟨0, .temp, body.length⟩]
    created := true
    initial := body }

/-- The transaction of a PATCH. -/
def appendPart (cfg : UploadConfig) (s : UploadState) (id : Uuid) (row : OciUploadSessionRecord)
    (body : Bytes) : UploadState :=
  let digest :=
    if row.bytesReceived = 0 ∧ row.nextPartIndex = 0 then some (cfg.sha256 body) else none
  let s' := s.withSession fun r => { r with
    bytesReceived := row.bytesReceived + body.length, computedDigest := digest, updatedAt := s.now }
  { s' with
    parts := row.backfill s.parts ++ [⟨row.nextPartIndex, row.partKey id, body.length⟩]
    accepted := s.accepted ++ [body] }

/-- `INSERT INTO oci_blobs … ON CONFLICT DO UPDATE SET pending_delete_at = NULL` and the delete of
the session. A row that is there keeps its size. -/
def finishSession (s : UploadState) (digest : Sha256Digest) (sizeBytes : ℕ) : UploadState :=
  let size := (s.blobs digest).getD sizeBytes
  { s.dropSession with blobs := Function.update s.blobs digest (some size) }

def apply (cfg : UploadConfig) (s : UploadState) : Effect → UploadState
  | .nop => s
  | .draw id => { s with poster := some id }
  | .put key body => s.putUpload key body
  | .delete key => s.deleteUpload key
  | .putBlob digest body => s.putBlob digest body
  | .create body => s.createSession cfg body
  | .append id row body => s.appendPart cfg id row body
  | .claim token => s.withSession fun r => { r with
      state := .committing, stateToken := some token, updatedAt := s.now }
  | .touch => s.withSession fun r => { r with updatedAt := s.now }
  | .reset => s.withSession fun r => { r with
      state := .opened, stateToken := none, updatedAt := s.now }
  | .drop => s.dropSession
  | .finish digest sizeBytes => s.finishSession digest sizeBytes
  | .lock holder => { s with rowLock := some ⟨holder, false⟩ }
  | .sweepDelete key => { s.deleteUpload key with
      rowLock := s.rowLock.map fun l => { l with deleted := true } }
  | .unlock => { s with rowLock := none }
  | .tick seconds => { s with now := s.now + seconds }

end UploadState

/-! ### Handlers -/

/-- How a statement or storage call ends. `lostAck` took effect and answered an error; for a
transaction `failed` is an error before `COMMIT`, `lostAck` and `commitFailed` an error of `COMMIT`
itself, landed or not. -/
inductive Outcome where
  | ok | failed | lostAck | commitFailed
  deriving DecidableEq, Repr

inductive Request where
  | post (body : Bytes)
  | patch (headers : UploadHeaders) (body : Bytes)
  /-- `exactLen` is the exact size hint of the body. -/
  | complete (digest : Sha256Digest) (headers : UploadHeaders) (exactLen : Option ℕ) (body : Bytes)
  | cancel
  | sweep
  deriving DecidableEq, Repr

/-- What a completion carries once it holds its claim and has dealt with its own body. -/
structure Completion where
  session : OciUploadSessionRecord
  digest : Sha256Digest
  finalPart : Option OciUploadPartRecord
  deriving DecidableEq, Repr

def Completion.finalKeys (c : Completion) : List UploadKey :=
  c.finalPart.toList.map OciUploadPartRecord.storageKey

/-- Where a request stands. `lease lost next` is a check of the heartbeat's flag before `next`, with
the keys to delete where the lease is lost; `abort` deletes keys and resets the session to open. -/
inductive Pc where
  | idle
  | postRegister (body : Bytes)
  | postPut (body : Bytes)
  | postMark (body : Bytes)
  | postTx (body : Bytes)
  | patchFetch (headers : UploadHeaders) (body : Bytes)
  | patchRegister (row : OciUploadSessionRecord) (body : Bytes)
  | patchPut (row : OciUploadSessionRecord) (body : Bytes)
  | patchMark (row : OciUploadSessionRecord) (body : Bytes)
  | patchTx (row : OciUploadSessionRecord) (body : Bytes)
  | patchRecover (row : OciUploadSessionRecord) (body : Bytes)
  | discard (keys : List UploadKey) (resp : Response)
  | cancelClaim
  | cancelFetch
  | cancelDelete (keys : List UploadKey)
  | cancelReset (resp : Response)
  | completeClaim (digest : Sha256Digest) (headers : UploadHeaders) (exactLen : Option ℕ)
      (body : Bytes)
  | finalRegister (row : OciUploadSessionRecord) (digest : Sha256Digest) (body : Bytes)
  | finalPut (row : OciUploadSessionRecord) (digest : Sha256Digest) (body : Bytes)
  | finalDrop (row : OciUploadSessionRecord) (digest : Sha256Digest)
  | finalMark (row : OciUploadSessionRecord) (digest : Sha256Digest) (sizeBytes : ℕ)
  | lease (lost : List UploadKey) (next : Pc)
  | fetchParts (c : Completion)
  | promoteRegister (c : Completion) (part : OciUploadPartRecord)
  | promoteCopy (c : Completion) (part : OciUploadPartRecord)
  | concatRegister (c : Completion) (parts : List OciUploadPartRecord)
  | concatRead (c : Completion) (parts todo : List OciUploadPartRecord) (acc : Bytes)
  | concatMark (c : Completion) (parts : List OciUploadPartRecord) (acc : Bytes)
  | concatVerify (c : Completion) (parts : List OciUploadPartRecord) (acc : Bytes)
  | concatCopy (c : Completion) (parts : List OciUploadPartRecord) (acc : Bytes)
  | concatDrop (c : Completion) (parts : List OciUploadPartRecord) (sizeBytes : ℕ)
  | completeTx (c : Completion) (parts : List OciUploadPartRecord) (sizeBytes : ℕ)
  | completeRecover (c : Completion) (parts : List OciUploadPartRecord) (sizeBytes : ℕ)
  | cleanup (keys : List UploadKey) (digest : Sha256Digest)
  | abort (keys : List UploadKey) (resp : Response)
  | sweepLock
  | sweepDelete (keys : List UploadKey) (failed : Bool)
  | done (resp : Response)
  deriving DecidableEq, Repr

/-- A read, or a write to the cleanup journal, which the model leaves out. -/
def answered (o : Outcome) (next failed : Pc) : Option (Effect × Pc) :=
  match o with
  | .ok => some (.nop, next)
  | .failed | .lostAck => some (.nop, failed)
  | .commitFailed => none

/-- `delete_storage_key_best_effort`. -/
def bestEffortDelete (key : UploadKey) (o : Outcome) (next : Pc) : Option (Effect × Pc) :=
  match o with
  | .ok | .lostAck => some (.delete key, next)
  | .failed => some (.nop, next)
  | .commitFailed => none

def putting (key : UploadKey) (body : Bytes) (o : Outcome) (next failed : Pc) :
    Option (Effect × Pc) :=
  match o with
  | .ok => some (.put key body, next)
  | .failed => some (.nop, failed)
  | .lostAck => some (.put key body, failed)
  | .commitFailed => none

/-- `put_request_body_stream`. -/
def puttingRequestBody (cfg : UploadConfig) (existingBytes : ℕ) (key : UploadKey) (body : Bytes)
    (o : Outcome) (next : Pc) (failed : Response → Pc) : Option (Effect × Pc) :=
  if bodyExceeds cfg.maxUploadSizeBytes existingBytes body then
    some (.nop, failed (bodyTooLarge cfg.maxUploadSizeBytes))
  else putting key body o next (failed .backendError)

/-- `storage.copy` of the object `src` onto the blob key. -/
def copying (src : Option Bytes) (digest : Sha256Digest) (o : Outcome) (next failed : Pc) :
    Option (Effect × Pc) :=
  match o, src with
  | .ok, some body => some (.putBlob digest body, next)
  | .lostAck, some body => some (.putBlob digest body, failed)
  | .ok, none | .failed, _ => some (.nop, failed)
  | .lostAck, none | .commitFailed, _ => none

/-- A transaction, or a single statement, on the session row. `hit` says whether its predicates
match: where they do not it answers `missed` and changes nothing. Where they do it waits for the
lock of a sweep, so all of it takes effect at one point. -/
def transacting (s : UploadState) (o : Outcome) (hit : Bool) (e : Effect)
    (next failed ambiguous missed : Pc) : Option (Effect × Pc) :=
  match o, hit with
  | .failed, _ => some (.nop, failed)
  | .ok, false => some (.nop, missed)
  | .lostAck, false | .commitFailed, false => none
  | .ok, true => if s.rowLock.isSome then none else some (e, next)
  | .lostAck, true => if s.rowLock.isSome then none else some (e, ambiguous)
  | .commitFailed, true => if s.rowLock.isSome then none else some (.nop, ambiguous)

/-- `reset_oci_upload_session_state`. -/
def resetting (p : ℕ) (s : UploadState) (o : Outcome) (resp : Response) : Option (Effect × Pc) :=
  transacting s o (s.holdsToken p) .reset (.done resp) (.done .backendError) (.done .backendError)
    (.done completionLeaseLost)

/-- The answer where the row could not be claimed. -/
def claimMissed (s : UploadState) : Response :=
  if s.session.isSome then uploadSessionConflict "upload session is already being modified"
  else sessionNotFound

def patchFetched (cfg : UploadConfig) (s : UploadState) (h : UploadHeaders) (body : Bytes) : Pc :=
  match s.session with
  | none => .done sessionNotFound
  | some r =>
    if r.state ≠ .opened then
      .done (uploadSessionConflict "upload session is not open for PATCH")
    else match validatePatchContentRange h r.bytesReceived with
      | some resp => .done resp
      | none =>
        match rejectOversizedContentLength h
            (uploadSessionBodyLimit r.bytesReceived cfg.maxUploadSizeBytes)
            cfg.maxUploadSizeBytes with
        | some resp => .done resp
        | none => .patchRegister (s.record r) body

def patchRecovered (p : ℕ) (s : UploadState) (row : OciUploadSessionRecord) (body : Bytes) : Pc :=
  match s.recoverCommittedPatch row p body with
  | .ok true => .done (.accepted (row.bytesReceived + body.length))
  | .ok false => .discard [row.partKey p] .backendError
  | .error resp => .done resp

/-- The final part's index is `i32::MAX`. -/
def finalPartKey (p : ℕ) : UploadKey := .part 2147483647 p

def claimedCompletion (cfg : UploadConfig) (row : OciUploadSessionRecord) (digest : Sha256Digest)
    (h : UploadHeaders) (exactLen : Option ℕ) (body : Bytes) : Pc :=
  match rejectOversizedContentLength h
      (uploadSessionBodyLimit row.bytesReceived cfg.maxUploadSizeBytes)
      cfg.maxUploadSizeBytes with
  | some resp => .abort [] resp
  | none =>
    if exactLen = some 0 then .lease [] (.fetchParts ⟨row, digest, none⟩)
    else .finalRegister row digest body

/-- The session as the claiming `UPDATE` returns it; `none` where it matches no row. -/
def claimReturning (s : UploadState) : Option OciUploadSessionRecord :=
  match s.session with
  | some r => if s.claimable r then some { s.record r with state := .committing } else none
  | none => none

/-- The choice between the single-part fast path, the early mismatch and the concatenation. -/
def routeParts (c : Completion) (fetched : List OciUploadPartRecord) : Pc :=
  match c.finalPart, c.session.computedDigest with
  | none, some computed =>
    if computed = c.digest then
      match fetched with
      | [part] => .lease [] (.promoteRegister c part)
      | parts => .concatRegister c parts
    else .abort [] (digestMismatch computed c.digest)
  | finalPart, _ => .concatRegister c (fetched ++ finalPart.toList)

def completionRecovered (s : UploadState) (c : Completion) (parts : List OciUploadPartRecord)
    (sizeBytes : ℕ) : Pc :=
  match s.recoverCommittedCompletion c.digest sizeBytes with
  | .ok true => .cleanup (cleanupKeys (parts.map OciUploadPartRecord.storageKey)) c.digest
  | .ok false => .abort c.finalKeys .backendError
  | .error resp => .done resp

/-- The next step of request `p`, where its statement or storage call ends in `o`. -/
def Pc.next (cfg : UploadConfig) (p : ℕ) (s : UploadState) (leaseValid : Bool) (o : Outcome) :
    Pc → Option (Effect × Pc)
  | .idle => none
  | .postRegister body => answered o (.postPut body) (.done .backendError)
  | .postPut body => puttingRequestBody cfg 0 .temp body o (.postMark body) .done
  | .postMark body => answered o (.postTx body) (.discard [.temp] .backendError)
  | .postTx body =>
    transacting s o true (.create body) (.done (.accepted body.length))
      (.discard [.temp] .backendError) (.done .backendError) (.done .backendError)
  | .patchFetch h body => answered o (patchFetched cfg s h body) (.done .backendError)
  | .patchRegister row body => answered o (.patchPut row body) (.done .backendError)
  | .patchPut row body =>
    puttingRequestBody cfg row.bytesReceived (row.partKey p) body o (.patchMark row body) .done
  | .patchMark row body => answered o (.patchTx row body) (.discard [row.partKey p] .backendError)
  | .patchTx row body =>
    transacting s o (s.patchApplies row) (.append p row body)
      (.done (.accepted (row.bytesReceived + body.length)))
      (.discard [row.partKey p] .backendError) (.patchRecover row body)
      (.discard [row.partKey p]
        (uploadSessionConflict "upload session changed while PATCH body was streaming"))
  | .patchRecover row body => answered o (patchRecovered p s row body) (.done .backendError)
  | .discard [] resp => some (.nop, .done resp)
  | .discard (key :: keys) resp => bestEffortDelete key o (.discard keys resp)
  | .cancelClaim =>
    transacting s o s.isOpen (.claim p) .cancelFetch (.done .backendError) (.done .backendError)
      (.done (claimMissed s))
  | .cancelFetch =>
    answered o (.cancelDelete (cleanupKeys (s.orderedParts.map PartRow.storageKey)))
      (.abort [] .backendError)
  | .cancelDelete (key :: keys) =>
    match o with
    | .ok => some (.delete key, .cancelDelete keys)
    | .failed => some (.nop, .done .backendError)
    | .lostAck => some (.delete key, .done .backendError)
    | .commitFailed => none
  | .cancelDelete [] =>
    transacting s o (s.holdsClaim p) .drop (.done .noContent) (.cancelReset .backendError)
      (.cancelReset .backendError)
      (.cancelReset (ociInternalError "upload session vanished during cancel"))
  | .cancelReset resp => resetting p s o resp
  | .completeClaim digest h exactLen body =>
    match claimReturning s with
    | some row =>
      transacting s o true (.claim p) (claimedCompletion cfg row digest h exactLen body)
        (.done .backendError) (.done .backendError) (.done (claimMissed s))
    | none =>
      transacting s o false .nop (.done (claimMissed s)) (.done .backendError) (.done .backendError)
        (.done (claimMissed s))
  | .finalRegister row digest body =>
    answered o (.finalPut row digest body) (.abort [] .backendError)
  | .finalPut row digest body =>
    puttingRequestBody cfg row.bytesReceived (finalPartKey p) body o
      (if body = [] then .finalDrop row digest else .finalMark row digest body.length)
      (.abort [finalPartKey p])
  | .finalDrop row digest =>
    bestEffortDelete (finalPartKey p) o (.lease [] (.fetchParts ⟨row, digest, none⟩))
  | .finalMark row digest sizeBytes =>
    answered o
      (.lease [finalPartKey p] (.fetchParts ⟨row, digest, some ⟨finalPartKey p, sizeBytes⟩⟩))
      (.abort [finalPartKey p] .backendError)
  | .lease lost next =>
    some (.nop, if leaseValid then next else .abort lost completionLeaseLost)
  | .fetchParts c =>
    answered o (routeParts c (s.fetchOciUploadParts c.session.bytesReceived))
      (.abort c.finalKeys .backendError)
  | .promoteRegister c part => answered o (.promoteCopy c part) (.abort [] .backendError)
  | .promoteCopy c part =>
    copying (s.uploads part.storageKey) c.digest o
      (.lease c.finalKeys (.completeTx c [part] part.sizeBytes)) (.abort [] .backendError)
  | .concatRegister c parts =>
    answered o (.lease c.finalKeys (.concatRead c parts parts []))
      (.abort c.finalKeys .backendError)
  | .concatRead c parts (part :: todo) acc =>
    if part.sizeBytes = 0 then some (.nop, .concatRead c parts todo acc)
    else match s.uploads part.storageKey with
      | some body =>
        answered o (.concatRead c parts todo (acc ++ body)) (.abort c.finalKeys .backendError)
      | none => some (.nop, .abort c.finalKeys .backendError)
  | .concatRead c parts [] acc =>
    putting (.complete p) acc o (.concatMark c parts acc) (.abort c.finalKeys .backendError)
  | .concatMark c parts acc =>
    answered o (.lease (.complete p :: c.finalKeys) (.concatVerify c parts acc))
      (.abort (.complete p :: c.finalKeys) .backendError)
  | .concatVerify c parts acc =>
    if cfg.sha256 acc = c.digest then
      answered o (.concatCopy c parts acc) (.abort (.complete p :: c.finalKeys) .backendError)
    else some (.nop,
      .abort (.complete p :: c.finalKeys) (digestMismatch (cfg.sha256 acc) c.digest))
  | .concatCopy c parts acc =>
    copying (s.uploads (.complete p)) c.digest o (.concatDrop c parts acc.length)
      (.abort (.complete p :: c.finalKeys) .backendError)
  | .concatDrop c parts sizeBytes =>
    bestEffortDelete (.complete p) o (.lease c.finalKeys (.completeTx c parts sizeBytes))
  | .completeTx c parts sizeBytes =>
    transacting s o (s.holdsClaim p) (.finish c.digest sizeBytes)
      (.cleanup (cleanupKeys (parts.map OciUploadPartRecord.storageKey)) c.digest)
      (.abort c.finalKeys .backendError) (.completeRecover c parts sizeBytes)
      (.abort c.finalKeys (ociInternalError "upload session vanished during completion"))
  | .completeRecover c parts sizeBytes =>
    answered o (completionRecovered s c parts sizeBytes) (.done .backendError)
  | .cleanup [] digest => some (.nop, .done (.created digest))
  | .cleanup (key :: keys) digest => bestEffortDelete key o (.cleanup keys digest)
  | .abort [] resp => resetting p s o resp
  | .abort (key :: keys) resp => bestEffortDelete key o (.abort keys resp)
  | .sweepLock =>
    match o, s.session with
    | .commitFailed, _ => none
    | .failed, _ | .lostAck, _ | .ok, none => some (.nop, .done .swept)
    | .ok, some r =>
      if r.updatedAt + abandonedOciUploadTtl < s.now then
        if s.rowLock.isSome then none
        else some (.lock p,
          .sweepDelete (cleanupKeys (s.orderedParts.map PartRow.storageKey)) false)
      else some (.nop, .done .swept)
  | .sweepDelete (key :: keys) failed =>
    match o with
    | .ok => some (.sweepDelete key, .sweepDelete keys failed)
    | .failed => some (.nop, .sweepDelete keys true)
    | .lostAck => some (.sweepDelete key, .sweepDelete keys true)
    | .commitFailed => none
  | .sweepDelete [] failed =>
    if failed then some (.unlock, .done .swept)
    else match o with
      | .ok | .lostAck => some (.drop, .done .swept)
      | .failed | .commitFailed => some (.unlock, .done .swept)
  | .done _ => none

/-- A request, where it stands, and the flag of its heartbeat: `some n` after `n` failures in a row,
`none` once the lease is lost. -/
structure Proc where
  request : Option Request
  pc : Pc
  leaseFailures : Option ℕ
  deriving DecidableEq, Repr

def Proc.fresh : Proc := ⟨none, .idle, none⟩

inductive Action where
  | begin (r : Request)
  | step (o : Outcome)
  | heartbeat (o : Outcome)
  /-- The connection of a sweep goes away and its transaction with it. -/
  | crash
  | tick (seconds : ℕ)
  deriving DecidableEq, Repr

def Request.start : Request → Pc
  | .post body => .postRegister body
  | .patch h body => .patchFetch h body
  | .complete digest h exactLen body => .completeClaim digest h exactLen body
  | .cancel => .cancelClaim
  | .sweep => .sweepLock

/-- A session id is drawn once. -/
def Request.admitted (s : UploadState) : Request → Bool
  | .post _ => s.poster.isNone
  | _ => true

def Request.effect (p : ℕ) : Request → Effect
  | .post _ => .draw p
  | _ => .nop

/-- The heartbeat of a completion gives up after this many failures in a row. -/
def maxConsecutiveFailures : ℕ := 3

def leaseAfterFailure (failures : ℕ) : Option ℕ :=
  if maxConsecutiveFailures ≤ failures + 1 then none else some (failures + 1)

/-- One `UPDATE … SET updated_at = NOW()` of the heartbeat. -/
def heartbeat (p : ℕ) (s : UploadState) (failures : ℕ) : Outcome → Option (Effect × Option ℕ)
  | .failed => some (.nop, leaseAfterFailure failures)
  | .ok =>
    if s.holdsClaim p then
      if s.rowLock.isSome then none else some (.touch, some 0)
    else some (.nop, none)
  | .lostAck =>
    if s.holdsClaim p ∧ s.rowLock = none then some (.touch, leaseAfterFailure failures) else none
  | .commitFailed => none

/-- The effect of an action on the state and what becomes of the request. -/
def Proc.react (cfg : UploadConfig) (p : ℕ) (s : UploadState) (l : Proc) :
    Action → Option (Effect × Proc)
  | .begin r =>
    if l.pc = .idle ∧ r.admitted s then
      some (r.effect p, { l with request := some r, pc := r.start })
    else none
  | .step o =>
    (l.pc.next cfg p s l.leaseFailures.isSome o).map fun r =>
      match l.pc with
      | .completeClaim .. => (r.1, { l with pc := r.2, leaseFailures := some 0 })
      | _ => (r.1, { l with pc := r.2 })
  | .heartbeat o =>
    match l.pc, l.leaseFailures with
    | .done _, _ | _, none => none
    | _, some failures =>
      (heartbeat p s failures o).map fun r => (r.1, { l with leaseFailures := r.2 })
  | .crash =>
    match l.pc with
    | .sweepDelete _ _ => some (.unlock, { l with pc := .done .swept })
    | _ => none
  | .tick seconds => some (.tick seconds, l)

def uploadProtocol (cfg : UploadConfig) : Protocol UploadState Proc Action where
  step p s l a := (l.react cfg p s a).map fun r => (s.apply cfg r.1, r.2)

abbrev UploadWorld := World UploadState Proc

def uploadMachine (cfg : UploadConfig) : Machine UploadWorld (ℕ × Action) :=
  (uploadProtocol cfg).machine

/-- The blobs a repository holds: each object has the digest it is stored under, and each row has an
object of its size. -/
structure BlobStore (cfg : UploadConfig) where
  rows : Sha256Digest → Option ℕ
  objects : Sha256Digest → Option Bytes
  sound : ∀ d b, objects d = some b → cfg.sha256 b = d
  stored : ∀ d n, rows d = some n → ∃ b, objects d = some b ∧ b.length = n

def BlobStore.empty (cfg : UploadConfig) : BlobStore cfg where
  rows _ := none
  objects _ := none
  sound _ _ h := by cases h
  stored _ _ h := by cases h

def UploadState.start {cfg : UploadConfig} (store : BlobStore cfg) (now : ℕ) : UploadState where
  session := none
  parts := []
  uploads _ := none
  blobs := store.rows
  blobObjects := store.objects
  rowLock := none
  now := now
  poster := none
  created := false
  written _ := none
  initial := []
  accepted := []

/-- Before the session: no request has begun. -/
def UploadWorld.start {cfg : UploadConfig} (store : BlobStore cfg) (now : ℕ) : UploadWorld where
  shared := .start store now
  procs _ := .fresh

end ArtifactKeeper.Oci
