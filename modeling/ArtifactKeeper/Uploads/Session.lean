import ArtifactKeeper.Auth.Claims
import ArtifactKeeper.Machine
import ArtifactKeeper.Sync.UploadSession

/-! Chunked upload sessions of `upload_service.rs`: any number of calls of `upload_chunk`,
`complete_session`, `cancel_session` and `cleanup_expired` over the rows and the temp file of one
session. A step is one SQL statement or transaction, or one operation on the temp file. -/

namespace ArtifactKeeper.Uploads
open Chunking Sync

abbrev Bytes := List UInt8

/-- How a call is refused. A database or file error carries its text. -/
inductive UploadFailure where
  | patch (e : PatchError)
  | expired
  | checksumMismatch (expected actual : String)
  | incompleteChunks (completed total : ℤ)
  | sizeMismatch (expected actual : ℤ)
  | backend (message : String)
  deriving DecidableEq, Repr

def refused (e : UploadError) : UploadFailure := .patch (.upload e)

/-- What a chunk has written of the temp file when its row is marked completed. -/
structure MarkedChunk where
  chunkIndex : ℤ
  offset : ℤ
  length : ℤ
  deriving DecidableEq, Repr

/-- The committed rows of a session, the `FOR UPDATE` locks on its chunk rows, and its temp file:
`bytes` is the content of the file, which outlives its name while a call has it open, and `linked`
says that the name is still there. Times are in milliseconds. The last four fields record the past
and are read by no call: how often `complete_session` returned a session, whether one of its calls
has found no unfinished chunk, which chunks were marked and what was written for them, and the
bytes given to `put_file` after the bytes whose checksum was compared. -/
structure UploadState where
  now : ℤ
  session : UploadSession
  userId : Uuid
  expiresAt : ℤ
  checksum : String
  locks : ℤ → Option ℕ
  bytes : Bytes
  linked : Bool
  completions : ℕ
  observed : Bool
  marked : List MarkedChunk
  stored : List (Bytes × Bytes)

inductive UploadResult where
  | chunk (index bytesReceived chunksCompleted chunksRemaining : ℤ)
  | completed
  | cancelled
  | cleaned (count : ℕ)
  | error (e : UploadFailure)
  deriving DecidableEq, Repr

/-- A call between two steps. Columns that no statement changes are read where they are used. -/
inductive UploadCall where
  | idle
  /-- The handler has the range and the body. -/
  | patching (user : Uuid) (index start : ℤ) (data : Bytes)
  /-- `get_session` has returned `seen`. -/
  | claiming (index start : ℤ) (data : Bytes) (seen : UploadSession)
  /-- The chunk row is locked and claimed. -/
  | opening (index start : ℤ) (data : Bytes)
  | writing (index start : ℤ) (data : Bytes) (written : ℕ)
  | counting (seen : UploadSession)
  | sizing
  | sized
  | hashing (read : Bytes)
  | markingFailed (actual : String)
  | markingCompleted (hashed : Bytes)
  /-- `complete_session` has returned to the handler. -/
  | storing (hashed : Bytes)
  | copying (hashed read : Bytes)
  | copied
  /-- A cancel, or the sweep of expired sessions, is about to remove the temp file. -/
  | discarding (sweep : Bool)
  | markingCancelled (sweep : Bool)
  | finished (result : UploadResult)
  deriving DecidableEq, Repr

/-- `fail` is a database or file error, or the end of the request; a transaction rolls back. -/
inductive UploadAction where
  | tick (millis : ℕ)
  | patch (user : Uuid) (header : String) (data : Bytes)
  | complete (user : Uuid)
  | cancel (user : Uuid)
  | cleanup
  | readSession
  | lockChunk
  | openFile
  | write (n : ℕ)
  | commitChunk
  | countChunks
  | checkSize
  | readBlock (n : ℕ)
  | compareChecksum
  | updateStatus
  | putFile
  | removeFile (removed : Bool)
  | fail (message : String)
  | close
  deriving DecidableEq, Repr

/-- Bytes written at an offset; a gap before it reads as zeros. -/
def writeAt (file : Bytes) (offset : ℕ) (data : Bytes) : Bytes :=
  file.take offset ++ List.replicate (offset - file.length) 0 ++ data ++
    file.drop (offset + data.length)

/-- One `read` of at most `n` bytes after those that have been read. -/
def readMore (file read : Bytes) (n : ℕ) : Bytes := read ++ (file.drop read.length).take n

def sha256BufSize : ℕ := 65536

/-- `completed` or `cancelled`. -/
def terminal (status : SessionStatus) : Prop := status = .completed ∨ status = .cancelled

instance (status : SessionStatus) : Decidable (terminal status) :=
  inferInstanceAs (Decidable (_ ∨ _))

/-- What `upload_chunk` decides on the row that it locks: whether there is a chunk to write. -/
def claimChunk (s : UploadSession) (now index : ℤ) : Except UploadError Bool :=
  match s.chunks.find? fun c => c.chunkIndex == index with
  | none => .error (.invalidChunk ("chunk_index " ++ toString index ++ " out of range (0.." ++
      toString s.totalChunks ++ ")"))
  | some c =>
    match c.status with
    | .completed => .ok false
    | .uploading claimedAt =>
      if claimedAt.all fun t => decide (chunkClaimLeaseSecs < (now - t).tdiv 1000) then .ok true
      else .error (.chunkInProgress index)
    | .pending | .failed => .ok true

/-- A PATCH that runs alone makes the decision of `claimChunk` and the commit in one. -/
theorem uploadChunk_eq (s : UploadSession) (now index dataLen : ℤ) :
    s.uploadChunk now index dataLen =
      if terminal s.status then .error (.invalidStatus (UploadSession.statusText s.status))
      else (claimChunk s now index).map fun claimed =>
        if claimed then s.completeChunk index dataLen else s := by
  unfold UploadSession.uploadChunk claimChunk
  by_cases hterminal : terminal s.status
  · have hstatus : s.status = .completed ∨ s.status = .cancelled := hterminal
    rw [if_pos hstatus, if_pos hterminal]
  have hstatus : ¬ (s.status = .completed ∨ s.status = .cancelled) := hterminal
  rw [if_neg hstatus, if_neg hterminal]
  cases s.chunks.find? fun c => c.chunkIndex == index with
  | none => rfl
  | some c =>
    dsimp only
    cases c.status with
    | uploading claimedAt =>
      dsimp only
      split <;> rfl
    | _ => rfl

namespace UploadState
variable (s : UploadState)

/-- `UploadService::get_session`. -/
def getSession (user : Uuid) : Except UploadFailure UploadSession :=
  if s.userId ≠ user then .error (refused .notFound)
  else if s.expiresAt < s.now then .error .expired
  else .ok s.session

def lock (p : ℕ) (index : ℤ) : UploadState :=
  { s with locks := Function.update s.locks index (some p) }

def unlock (index : ℤ) : UploadState := { s with locks := Function.update s.locks index none }

/-- The transaction of a chunk that has been written commits. -/
def commitChunk (index start : ℤ) (data : Bytes) : UploadState :=
  { s.unlock index with
    session := s.session.completeChunk index data.length
    marked := ⟨index, start, data.length⟩ :: s.marked }

def setStatus (status : SessionStatus) : UploadState :=
  { s with session := { s.session with status := status } }

/-- The file part of the PATCH handler: the range of the header, and a body of that length. -/
def beginPatch (user : Uuid) (header : String) (data : Bytes) : UploadCall :=
  let badRequest := fun message => .finished (.error (.patch (.badRequest message)))
  match parseContentRange header with
  | .error e => badRequest ("Invalid Content-Range: " ++ e)
  | .ok (start, stop, _) =>
  match s.getSession user with
  | .error e => .finished (.error e)
  | .ok session =>
    let expectedLen := stop - start + 1
    if expectedLen < data.length then
      badRequest ("Body exceeds declared Content-Range length of " ++ toString expectedLen ++
        " bytes")
    else if (data.length : ℤ) ≠ expectedLen then
      badRequest ("Content-Range declares " ++ toString expectedLen ++
        " bytes but body contains " ++ toString data.length ++ " bytes")
    else .patching user (asI32 (start.tdiv session.chunkSize)) start data

/-- The first statement of `upload_chunk`. -/
def readForChunk (user : Uuid) (index start : ℤ) (data : Bytes) : UploadCall :=
  match s.getSession user with
  | .error e => .finished (.error e)
  | .ok session =>
    if terminal session.status then
      .finished (.error (refused (.invalidStatus (UploadSession.statusText session.status))))
    else .claiming index start data session

/-- `SELECT … FOR UPDATE` on the chunk row, which waits for its lock, and the claim. -/
def lockChunk (p : ℕ) (index start : ℤ) (data : Bytes) (seen : UploadSession) :
    Option (UploadState × UploadCall) :=
  if s.locks index ≠ none then none
  else match claimChunk s.session s.now index with
    | .error e => some (s, .finished (.error (refused e)))
    | .ok false => some (s, .finished (.chunk index seen.bytesReceived seen.completedChunks
        (seen.totalChunks - seen.completedChunks)))
    | .ok true => some (s.lock p index, .opening index start data)

/-- The first statement of `complete_session`. -/
def beginComplete (user : Uuid) : UploadCall :=
  match s.getSession user with
  | .error e => .finished (.error e)
  | .ok session =>
    match session.status with
    | .completed => .finished (.error (refused (.invalidStatus "already completed")))
    | .cancelled => .finished (.error (refused (.invalidStatus "cancelled")))
    | _ => .counting session

/-- `SELECT COUNT(*) … status != 'completed'`. -/
def incomplete : ℕ := s.session.chunks.countP fun c => c.status != .completed

def countChunks (seen : UploadSession) : UploadState × UploadCall :=
  if 0 < s.incomplete then
    (s, .finished (.error (.incompleteChunks seen.completedChunks seen.totalChunks)))
  else ({ s with observed := true }, .sizing)

def checkSize : UploadCall :=
  if s.linked = false then .finished (.error (.backend "No such file or directory"))
  else if (s.bytes.length : ℤ) ≠ s.session.totalSize then
    .finished (.error (.sizeMismatch s.session.totalSize s.bytes.length))
  else .sized

/-- The temp file is opened by its name. -/
def openFile (next : UploadCall) : UploadCall :=
  if s.linked then next else .finished (.error (.backend "No such file or directory"))

/-- The statement that sets the status at the end of `complete_session`, `cancel_session` and
`cleanup_expired`. None of them looks at the status that it replaces. -/
def updateStatus : UploadCall → Option (UploadState × UploadCall)
  | .markingFailed actual => some (s.setStatus .failed,
      .finished (.error (.checksumMismatch s.checksum actual)))
  | .markingCompleted hashed => some ({ s.setStatus .completed with
      completions := s.completions + 1 }, .storing hashed)
  | .markingCancelled sweep => some (s.setStatus .cancelled,
      .finished (if sweep then .cleaned 1 else .cancelled))
  | _ => none

/-- An error ends the call; the lock goes with the transaction. The error of the statement that
records a wrong checksum is dropped. -/
def failCall (message : String) : UploadCall → Option (UploadState × UploadCall)
  | .idle | .finished _ => none
  | .opening index _ _ | .writing index _ _ _ =>
    some (s.unlock index, .finished (.error (.backend message)))
  | .markingFailed actual => some (s, .finished (.error (.checksumMismatch s.checksum actual)))
  | _ => some (s, .finished (.error (.backend message)))

end UploadState

/-- A step of call `p`, with the handler code around the service that touches the session: the
range of a PATCH, and `put_file` and the removal of the temp file after `complete_session`. -/
def uploadStep (sha256 : Bytes → String) (p : ℕ) (s : UploadState) (l : UploadCall) :
    UploadAction → Option (UploadState × UploadCall)
  | .tick millis => some ({ s with now := s.now + millis }, l)
  | .patch user header data => match l with
    | .idle => some (s, s.beginPatch user header data)
    | _ => none
  | .complete user => match l with
    | .idle => some (s, s.beginComplete user)
    | _ => none
  | .cancel user => match l with
    | .idle => some (s, if s.userId = user then .discarding false
        else .finished (.error (refused .notFound)))
    | _ => none
  | .cleanup => match l with
    | .idle => some (s, if s.expiresAt < s.now ∧ ¬ terminal s.session.status then
        .discarding true else .finished (.cleaned 0))
    | _ => none
  | .readSession => match l with
    | .patching user index start data => some (s, s.readForChunk user index start data)
    | _ => none
  | .lockChunk => match l with
    | .claiming index start data seen => s.lockChunk p index start data seen
    | _ => none
  | .openFile => match l with
    | .opening index start data =>
      some (if s.linked then s else s.unlock index, s.openFile (.writing index start data 0))
    | .sized => some (s, s.openFile (.hashing []))
    | .storing hashed => some (s, s.openFile (.copying hashed []))
    | _ => none
  | .write n => match l with
    | .writing index start data written =>
      if 0 < n ∧ written + n ≤ data.length then
        some ({ s with
            bytes := writeAt s.bytes (start.toNat + written) ((data.drop written).take n) },
          .writing index start data (written + n))
      else none
    | _ => none
  | .commitChunk => match l with
    | .writing index start data written =>
      if written = data.length then
        let s' := s.commitChunk index start data
        some (s', .finished (.chunk index s'.session.bytesReceived s'.session.completedChunks
          (s'.session.totalChunks - s'.session.completedChunks)))
      else none
    | _ => none
  | .countChunks => match l with
    | .counting seen => some (s.countChunks seen)
    | _ => none
  | .checkSize => match l with
    | .sizing => some (s, s.checkSize)
    | _ => none
  | .readBlock n => match l with
    | .hashing read =>
      if 0 < n ∧ n ≤ sha256BufSize then some (s, .hashing (readMore s.bytes read n)) else none
    | .copying hashed read =>
      if 0 < n then some (s, .copying hashed (readMore s.bytes read n)) else none
    | _ => none
  | .compareChecksum => match l with
    | .hashing read =>
      if s.bytes.length ≤ read.length then
        some (s, if sha256 read = s.checksum then .markingCompleted read
          else .markingFailed (sha256 read))
      else none
    | _ => none
  | .updateStatus => s.updateStatus l
  | .putFile => match l with
    | .copying hashed read =>
      if s.bytes.length ≤ read.length then
        some ({ s with stored := (hashed, read) :: s.stored }, .copied)
      else none
    | _ => none
  | .removeFile removed => match l with
    | .copied => some ({ s with linked := s.linked && !removed }, .finished .completed)
    | .discarding sweep =>
      some ({ s with linked := s.linked && !removed }, .markingCancelled sweep)
    | _ => none
  | .fail message => s.failCall message l
  | .close => match l with
    | .finished _ => some (s, .idle)
    | _ => none

/-- The calls of any number of clients. -/
def uploadProtocol (sha256 : Bytes → String) : Protocol UploadState UploadCall UploadAction where
  step := uploadStep sha256

/-- A session as `create_session` leaves it, with a temp file of zeros. Rows that `claims` names
were left as `uploading` by a request that did not end, as older backends could. -/
def withClaims (session : UploadSession) (claims : ℤ → Option (Option ℤ)) : UploadSession :=
  { session with chunks := session.chunks.map fun c =>
      match claims c.chunkIndex with
      | none => c
      | some claimedAt => { c with status := .uploading claimedAt } }

def openedState (session : UploadSession) (claims : ℤ → Option (Option ℤ)) (userId : Uuid)
    (now expiresAt : ℤ) (checksum : String) : UploadState where
  now := now
  session := withClaims session claims
  userId := userId
  expiresAt := expiresAt
  checksum := checksum
  locks := fun _ => none
  bytes := List.replicate session.totalSize.toNat 0
  linked := true
  completions := 0
  observed := false
  marked := []
  stored := []

/-- No call has begun. -/
def openedWorld (s : UploadState) : World UploadState UploadCall := ⟨s, fun _ => .idle⟩

namespace UploadCall

/-- The chunk row whose lock a call holds. -/
def holds : UploadCall → Option ℤ
  | .opening index _ _ | .writing index _ _ _ => some index
  | _ => none

/-- Index, offset and length of the chunk that a PATCH carries. -/
def target : UploadCall → Option (ℤ × ℤ × ℕ)
  | .patching _ index start data | .claiming index start data _ | .opening index start data
  | .writing index start data _ => some (index, start, data.length)
  | _ => none

/-- What a call of the `complete` handler has made sure of: it has seen every chunk completed, and
what it has read or compared is the content of the temp file. -/
def Verified (sha256 : Bytes → String) (s : UploadState) : UploadCall → Prop
  | .sizing | .sized => s.observed = true
  | .hashing read => s.observed = true ∧ read <+: s.bytes
  | .markingCompleted hashed | .storing hashed =>
    s.observed = true ∧ hashed = s.bytes ∧ sha256 hashed = s.checksum
  | .copying hashed read =>
    s.observed = true ∧ hashed = s.bytes ∧ sha256 hashed = s.checksum ∧ read <+: s.bytes
  | _ => True

end UploadCall

theorem readMore_isPrefix {file read : Bytes} (n : ℕ) (h : read <+: file) :
    readMore file read n <+: file := by
  obtain ⟨rest, rfl⟩ := h
  rw [readMore, List.drop_left, List.prefix_append_right_inj]
  exact List.take_prefix n rest

/-- What a step can do to what is shared, and what becomes of the call. -/
inductive StepEffect (sha256 : Bytes → String) (p : ℕ) (s : UploadState) (l : UploadCall) :
    UploadAction → UploadState → UploadCall → Prop
  | tick (millis : ℕ) : StepEffect sha256 p s l (.tick millis) { s with now := s.now + millis } l
  | patch (user : Uuid) (header : String) (data : Bytes) : l = .idle →
      StepEffect sha256 p s l (.patch user header data) s (s.beginPatch user header data)
  /-- Nothing that is shared changes. -/
  | quiet {a : UploadAction} {l' : UploadCall} : l'.holds = l.holds →
      (l'.target = none ∨ l'.target = l.target) →
      (l.Verified sha256 s → l'.Verified sha256 s) → StepEffect sha256 p s l a s l'
  | lock (index start : ℤ) (data : Bytes) (seen : UploadSession) :
      l = .claiming index start data seen → s.locks index = none →
      claimChunk s.session s.now index = .ok true →
      StepEffect sha256 p s l .lockChunk (s.lock p index) (.opening index start data)
  | unlock {a : UploadAction} (index : ℤ) (result : UploadResult) : l.holds = some index →
      StepEffect sha256 p s l a (s.unlock index) (.finished result)
  | write (index start : ℤ) (data : Bytes) (written n : ℕ) : l = .writing index start data written →
      StepEffect sha256 p s l (.write n) { s with
          bytes := writeAt s.bytes (start.toNat + written) ((data.drop written).take n) }
        (.writing index start data (written + n))
  | commit (index start : ℤ) (data : Bytes) (result : UploadResult) :
      l = .writing index start data data.length →
      StepEffect sha256 p s l .commitChunk (s.commitChunk index start data) (.finished result)
  | observe (seen : UploadSession) : l = .counting seen → s.incomplete = 0 →
      StepEffect sha256 p s l .countChunks { s with observed := true } .sizing
  | status {s' : UploadState} {l' : UploadCall} : s.updateStatus l = some (s', l') →
      StepEffect sha256 p s l .updateStatus s' l'
  | put (hashed read : Bytes) : l = .copying hashed read → s.bytes.length ≤ read.length →
      StepEffect sha256 p s l .putFile { s with stored := (hashed, read) :: s.stored } .copied
  | remove (removed : Bool) (l' : UploadCall) : l'.holds = l.holds → l'.target = none →
      l'.Verified sha256 s →
      StepEffect sha256 p s l (.removeFile removed) { s with linked := s.linked && !removed } l'

section Effects
variable {sha256 : Bytes → String} {p : ℕ} {s s' : UploadState} {l l' : UploadCall}
  {a : UploadAction}

open UploadCall

theorem StepEffect.end {result : UploadResult} (h : l.holds = none) :
    StepEffect sha256 p s l a s (.finished result) :=
  .quiet (by rw [h]; rfl) (.inl rfl) fun _ => trivial

theorem lockChunk_effect (h : uploadStep sha256 p s l .lockChunk = some (s', l')) :
    StepEffect sha256 p s l .lockChunk s' l' := by
  cases l with
  | claiming index start data seen =>
    simp only [uploadStep, UploadState.lockChunk] at h
    split at h
    · cases h
    · rename_i hfree
      split at h <;> cases h
      · exact .end rfl
      · exact .end rfl
      · rename_i hclaim
        exact .lock index start data seen rfl (not_not.mp hfree) hclaim
  | _ => cases h

theorem openFile_effect (h : uploadStep sha256 p s l .openFile = some (s', l')) :
    StepEffect sha256 p s l .openFile s' l' := by
  cases l <;> simp only [uploadStep, UploadState.openFile, Option.some.injEq, Prod.mk.injEq,
    reduceCtorEq] at h
  all_goals
    obtain ⟨rfl, rfl⟩ := h
    cases hlinked : s.linked
  · exact .unlock _ _ rfl
  · exact .quiet rfl (.inr rfl) id
  · exact .end rfl
  · exact .quiet rfl (.inl rfl) fun h => ⟨h, List.nil_prefix⟩
  · exact .end rfl
  · exact .quiet rfl (.inl rfl) fun h => ⟨h.1, h.2.1, h.2.2, List.nil_prefix⟩

theorem readBlock_effect {n : ℕ} (h : uploadStep sha256 p s l (.readBlock n) = some (s', l')) :
    StepEffect sha256 p s l (.readBlock n) s' l' := by
  cases l <;> simp only [uploadStep, Option.ite_none_right_eq_some, Option.some.injEq,
    Prod.mk.injEq, reduceCtorEq] at h
  all_goals obtain ⟨-, rfl, rfl⟩ := h
  · exact .quiet rfl (.inl rfl) fun h => ⟨h.1, readMore_isPrefix n h.2⟩
  · exact .quiet rfl (.inl rfl) fun h => ⟨h.1, h.2.1, h.2.2.1, readMore_isPrefix n h.2.2.2⟩

theorem compareChecksum_effect (h : uploadStep sha256 p s l .compareChecksum = some (s', l')) :
    StepEffect sha256 p s l .compareChecksum s' l' := by
  cases l with
  | hashing read =>
    simp only [uploadStep, Option.ite_none_right_eq_some, Option.some.injEq] at h
    obtain ⟨hend, h⟩ := h
    cases h
    split
    · rename_i hsum
      exact .quiet rfl (.inl rfl) fun h => ⟨h.1, h.2.eq_of_length_le hend, hsum⟩
    · exact .quiet rfl (.inl rfl) fun _ => trivial
  | _ => cases h

theorem failCall_effect {message : String} (h : s.failCall message l = some (s', l')) :
    StepEffect sha256 p s l (.fail message) s' l' := by
  cases l with
  | idle | finished => cases h
  | opening index _ _ | writing index _ _ _ =>
    cases h
    exact .unlock index _ rfl
  | _ =>
    cases h
    exact .end rfl

/-- Every step has one of the effects. -/
theorem uploadStep_effect (h : uploadStep sha256 p s l a = some (s', l')) :
    StepEffect sha256 p s l a s' l' := by
  cases a with
  | tick millis =>
    cases h
    exact .tick millis
  | patch user header data =>
    cases l <;> cases h
    exact .patch user header data rfl
  | complete user =>
    cases l <;> cases h
    rw [UploadState.beginComplete]
    split
    · exact .end rfl
    · split
      · exact .end rfl
      · exact .end rfl
      · exact .quiet rfl (.inl rfl) id
  | cancel user | cleanup =>
    cases l <;> cases h
    split
    · exact .quiet rfl (.inl rfl) id
    · exact .end rfl
  | readSession =>
    cases l <;> cases h
    rw [UploadState.readForChunk]
    split
    · exact .end rfl
    · split
      · exact .end rfl
      · exact .quiet rfl (.inr rfl) id
  | lockChunk => exact lockChunk_effect h
  | openFile => exact openFile_effect h
  | write n =>
    cases l with
    | writing index start data written =>
      simp only [uploadStep, Option.ite_none_right_eq_some, Option.some.injEq] at h
      cases h.2
      exact .write index start data written n rfl
    | _ => cases h
  | commitChunk =>
    cases l with
    | writing index start data written =>
      simp only [uploadStep, Option.ite_none_right_eq_some, Option.some.injEq] at h
      obtain ⟨rfl, h⟩ := h
      cases h
      exact .commit index start data _ rfl
    | _ => cases h
  | countChunks =>
    cases l with
    | counting seen =>
      simp only [uploadStep, UploadState.countChunks, Option.some.injEq] at h
      split at h <;> cases h
      · exact .end rfl
      · rename_i hnone
        exact .observe seen rfl (Nat.eq_zero_of_not_pos hnone)
    | _ => cases h
  | checkSize =>
    cases l <;> cases h
    rw [UploadState.checkSize]
    split
    · exact .end rfl
    · split
      · exact .end rfl
      · exact .quiet rfl (.inl rfl) id
  | readBlock n => exact readBlock_effect h
  | compareChecksum => exact compareChecksum_effect h
  | updateStatus => exact .status h
  | putFile =>
    cases l with
    | copying hashed read =>
      simp only [uploadStep, Option.ite_none_right_eq_some, Option.some.injEq] at h
      obtain ⟨hend, h⟩ := h
      cases h
      exact .put hashed read rfl hend
    | _ => cases h
  | removeFile removed => cases l <;> cases h <;> exact .remove removed _ rfl rfl trivial
  | fail message => exact failCall_effect h
  | close =>
    cases l <;> cases h
    exact .quiet rfl (.inl rfl) id

/-- The statement that sets the status keeps everything else but the count of completions. -/
theorem updateStatus_spec (sha256 : Bytes → String)
    (h : s.updateStatus l = some (s', l')) :
    ∃ status completions, s' = { s.setStatus status with completions := completions } ∧
      l.holds = none ∧ l'.holds = none ∧ l'.target = none ∧
      (l.Verified sha256 s → l'.Verified sha256 s') ∧
      (completions = s.completions ∨ completions = s.completions + 1 ∧ status = .completed) := by
  cases l with
  | markingFailed actual =>
    cases h
    exact ⟨.failed, s.completions, rfl, rfl, rfl, rfl, fun _ => trivial, .inl rfl⟩
  | markingCompleted hashed =>
    cases h
    exact ⟨.completed, s.completions + 1, rfl, rfl, rfl, rfl, id, .inr ⟨rfl, rfl⟩⟩
  | markingCancelled sweep =>
    cases h
    exact ⟨.cancelled, s.completions, rfl, rfl, rfl, rfl, fun _ => trivial, .inl rfl⟩
  | _ => cases h

end Effects

end ArtifactKeeper.Uploads
