import ArtifactKeeper.Gc.Orphans
import Mathlib.Data.List.Sort
import Mathlib.Data.Set.Basic

/-! The cleanup journal of OCI uploads. A completion journals the blob key before it copies the
object there and commits the `oci_blobs` row; two reapers delete the objects of aged journal rows
that nothing refers to. Each SQL statement and each storage call is one step. -/

namespace ArtifactKeeper.Gc

/-- A row of `oci_upload_sessions`, as the sweeps read it. -/
structure OciUploadSession where
  id : Uuid
  repositoryId : Uuid
  storageTempKey : String
  bytesReceived : ℤ
  updatedAt : ℤ
  deriving DecidableEq, Repr

/-- A row of `oci_upload_parts`. -/
structure OciUploadPart where
  uploadSessionId : Uuid
  partIndex : ℕ
  storageKey : String
  deriving DecidableEq, Repr

/-- A row of `oci_upload_cleanup_keys`. -/
structure CleanupKey where
  id : ℕ
  repositoryId : Uuid
  uploadSessionId : Option Uuid
  storageKey : String
  createdAt : ℤ
  storageWriteCompletedAt : Option ℤ
  deriving DecidableEq, Repr

/-- What the selects of the reapers return for a row. -/
structure OciUploadCleanupKey where
  id : ℕ
  storageKey : String
  location : StorageLocation
  deriving DecidableEq, Repr

/-- A stored object: the store and the key in it. -/
abbrev ObjectRef := StorageLocation × String

def OciUploadCleanupKey.object (k : OciUploadCleanupKey) : ObjectRef :=
  (k.location.store, k.storageKey)

def uploadStorageKey (name : String) : String := "oci-uploads/" ++ name

/-- `INTERVAL '24 hours'`, in milliseconds. -/
def abandonedOciUploadTtl : ℤ := 24 * 60 * 60 * 1000

def ociUploadCleanupKeyScanLimit : ℕ := 1000

/-- The tables of the upload path. `nextCleanupId` is the sequence behind `BIGSERIAL`. -/
structure UploadTables where
  now : ℤ
  repositories : Uuid → StorageLocation
  blobs : List OciBlob
  sessions : List OciUploadSession
  parts : List OciUploadPart
  cleanupKeys : List CleanupKey
  nextCleanupId : ℕ

namespace UploadTables

/-- `ON CONFLICT (storage_key) DO NOTHING`: an old row keeps its `created_at` and its mark. -/
def registerOciUploadCleanupKey (t : UploadTables) (repositoryId : Uuid)
    (uploadSessionId : Option Uuid) (storageKey : String) : UploadTables :=
  if t.cleanupKeys.any (·.storageKey == storageKey) then t
  else { t with
    cleanupKeys := ⟨t.nextCleanupId, repositoryId, uploadSessionId, storageKey, t.now, none⟩ ::
      t.cleanupKeys
    nextCleanupId := t.nextCleanupId + 1 }

def markOciUploadCleanupKeyCommitted (t : UploadTables) (storageKey : String) : UploadTables :=
  { t with cleanupKeys := t.cleanupKeys.map fun c =>
      if c.storageKey = storageKey then
        { c with storageWriteCompletedAt := c.storageWriteCompletedAt.or (some t.now) }
      else c }

def clearOciUploadCleanupKey (t : UploadTables) (storageKey : String) : UploadTables :=
  { t with cleanupKeys := t.cleanupKeys.filter fun c => c.storageKey != storageKey }

/-- `INSERT INTO oci_blobs … ON CONFLICT (repository_id, digest) DO UPDATE SET pending_delete_at =
NULL`. -/
def insertBlob (t : UploadTables) (repositoryId : Uuid) (digest : Digest) (sizeBytes : ℤ) :
    UploadTables :=
  if (t.blobs.any fun b => b.repositoryId == repositoryId && b.digest == digest) then
    { t with blobs := t.blobs.map fun b =>
        if b.repositoryId = repositoryId ∧ b.digest = digest then { b with pendingDeleteAt := none }
        else b }
  else { t with blobs := ⟨repositoryId, digest, sizeBytes, t.now, none⟩ :: t.blobs }

/-- Delete the session row; its parts go with it (`ON DELETE CASCADE`). -/
def deleteSession (t : UploadTables) (id : Uuid) : UploadTables :=
  { t with
    sessions := t.sessions.filter (·.id != id)
    parts := t.parts.filter (·.uploadSessionId != id) }

def referencedByBlob (t : UploadTables) (storageKey : String) : Bool :=
  t.blobs.any fun b => blobStorageKey b.digest == storageKey

def referencedByPart (t : UploadTables) (storageKey : String) : Bool :=
  t.parts.any (·.storageKey == storageKey)

/-- The predicate of the unreferenced-key sweep, without the age. -/
def unreferenced (t : UploadTables) (c : CleanupKey) : Bool :=
  c.storageWriteCompletedAt.isSome && !(t.sessions.any (·.storageTempKey == c.storageKey)) &&
    !t.referencedByPart c.storageKey && !t.referencedByBlob c.storageKey

/-- The predicate of the pending reaper, without the age; the owning session counts as well. -/
def pending (t : UploadTables) (c : CleanupKey) : Bool :=
  c.storageWriteCompletedAt.isNone &&
    !(t.sessions.any fun s => c.uploadSessionId == some s.id || s.storageTempKey == c.storageKey) &&
    !t.referencedByPart c.storageKey && !t.referencedByBlob c.storageKey

end UploadTables

/-- The two reapers: over rows whose write is marked complete, and over those it never was. -/
inductive Reaper where
  | unreferenced | pending
  deriving DecidableEq, Repr

namespace UploadTables

/-- What the `DELETE` of the reaper re-asserts. -/
def reapable (t : UploadTables) : Reaper → CleanupKey → Bool
  | .unreferenced => t.unreferenced
  | .pending => t.pending

/-- The age is that of the completed write, or of the row. -/
def aged (t : UploadTables) : Reaper → CleanupKey → Bool
  | .unreferenced, c =>
    c.storageWriteCompletedAt.any fun at' => decide (at' < t.now - abandonedOciUploadTtl)
  | .pending, c => decide (c.createdAt < t.now - abandonedOciUploadTtl)

/-- `select_unreferenced_oci_upload_cleanup_keys` and `select_pending_oci_upload_cleanup_keys`. -/
def selectCleanupKeys (t : UploadTables) (reaper : Reaper) : List OciUploadCleanupKey :=
  let rows := t.cleanupKeys.filter fun c => t.aged reaper c && t.reapable reaper c
  ((rows.insertionSort fun c d => c.createdAt ≤ d.createdAt).take
    ociUploadCleanupKeyScanLimit).map fun c => ⟨c.id, c.storageKey, t.repositories c.repositoryId⟩

/-- The guarded `DELETE FROM oci_upload_cleanup_keys WHERE id = $1 AND …`. -/
def deleteCleanupKey (t : UploadTables) (reaper : Reaper) (id : ℕ) : UploadTables :=
  { t with cleanupKeys := t.cleanupKeys.filter fun c => !(c.id == id && t.reapable reaper c) }

/-- The object of a blob row. -/
def blobObject (t : UploadTables) (b : OciBlob) : ObjectRef :=
  ((t.repositories b.repositoryId).store, blobStorageKey b.digest)

end UploadTables

/-- The tables with the objects stored. -/
structure ReaperState where
  tables : UploadTables
  objects : ObjectRef → Bool

def ReaperState.withTables (s : ReaperState) (tables : UploadTables) : ReaperState :=
  { s with tables := tables }

def ReaperState.setObject (s : ReaperState) (o : ObjectRef) (present : Bool) : ReaperState :=
  { s with objects := Function.update s.objects o present }

/-- A blob upload to complete: a session, or the monolithic `POST` without one. -/
structure Completion where
  repositoryId : Uuid
  sessionId : Option Uuid
  digest : Digest
  sizeBytes : ℤ
  deriving DecidableEq, Repr

def Completion.object (t : UploadTables) (c : Completion) : ObjectRef :=
  ((t.repositories c.repositoryId).store, blobStorageKey c.digest)

inductive ReaperProc where
  | idle
  /-- The request body is verified, or being streamed to temporary keys. -/
  | uploading (c : Completion)
  | journaled (c : Completion)
  | copied (c : Completion)
  | committed (c : Completion)
  | reaping (reaper : Reaper) (keys : List OciUploadCleanupKey)
  | objectDeleted (reaper : Reaper) (key : OciUploadCleanupKey) (keys : List OciUploadCleanupKey)
  | finished

/-- A failed storage write may have left the object or not. -/
inductive CopyOutcome where
  | copied
  | failed (written : Bool)
  deriving DecidableEq, Repr

inductive ReaperAction where
  | tick (ms : ℕ)
  | upload (c : Completion)
  | registerTemp (name : String)
  | putTemp (name : String) (written : Bool)
  | markTemp (name : String)
  | deleteTemp (name : String) (removed : Bool)
  | clearTemp (name : String)
  | registerBlob
  | copyBlob (outcome : CopyOutcome)
  | commitBlob (ok : Bool)
  | clearBlob
  | stop
  | select (reaper : Reaper)
  | skip
  | deleteObject (outcome : DeleteOutcome)
  | deleteRow (ok : Bool)
  deriving DecidableEq, Repr

/-- The completion a process works on; its temporary keys come and go in any of these states. -/
def ReaperProc.completion : ReaperProc → Option Completion
  | .uploading c | .journaled c | .copied c | .committed c => some c
  | _ => none

/-- The transaction that inserts the blob row and deletes the session; it rolls back when the
session is gone. -/
def UploadTables.commitCompletion (t : UploadTables) (c : Completion) : Option UploadTables :=
  let inserted := t.insertBlob c.repositoryId c.digest c.sizeBytes
  match c.sessionId with
  | none => some inserted
  | some id =>
    if t.sessions.any (·.id == id) then some (inserted.deleteSession id) else none

/-- Completions and reapers, any number of each. -/
def reaperProtocol : Protocol ReaperState ReaperProc ReaperAction where
  step _ s l a :=
    match a with
    | .tick ms => some (s.withTables { s.tables with now := s.tables.now + ms }, l)
    | .upload c => match l with
      | .idle => some (s, .uploading c)
      | _ => none
    | .registerTemp name => match l.completion with
      | some c => some (s.withTables (s.tables.registerOciUploadCleanupKey c.repositoryId
          c.sessionId (uploadStorageKey name)), l)
      | none => none
    | .putTemp name written => match l.completion with
      | some c => some (if written then s.setObject
          ((s.tables.repositories c.repositoryId).store, uploadStorageKey name) true else s, l)
      | none => none
    | .markTemp name => match l.completion with
      | some _ => some (s.withTables
          (s.tables.markOciUploadCleanupKeyCommitted (uploadStorageKey name)), l)
      | none => none
    | .deleteTemp name removed => match l.completion with
      | some c => some (if removed then s.setObject
          ((s.tables.repositories c.repositoryId).store, uploadStorageKey name) false else s, l)
      | none => none
    | .clearTemp name => match l.completion with
      | some _ => some (s.withTables
          (s.tables.clearOciUploadCleanupKey (uploadStorageKey name)), l)
      | none => none
    | .registerBlob => match l with
      | .uploading c => some (s.withTables (s.tables.registerOciUploadCleanupKey
          c.repositoryId c.sessionId (blobStorageKey c.digest)), .journaled c)
      | _ => none
    | .copyBlob .copied => match l with
      | .journaled c => some (s.setObject (c.object s.tables) true, .copied c)
      | _ => none
    | .copyBlob (.failed written) => match l with
      | .journaled c =>
        some (if written then s.setObject (c.object s.tables) true else s, .finished)
      | _ => none
    | .commitBlob ok => match l with
      | .copied c =>
        match if ok then s.tables.commitCompletion c else none with
        | some tables => some (s.withTables tables, .committed c)
        | none => some (s, .finished)
      | _ => none
    | .clearBlob => match l with
      | .committed c => some (s.withTables
          (s.tables.clearOciUploadCleanupKey (blobStorageKey c.digest)), .committed c)
      | _ => none
    | .stop => some (s, .finished)
    | .select reaper => match l with
      | .idle => some (s, .reaping reaper (s.tables.selectCleanupKeys reaper))
      | _ => none
    | .skip => match l with
      | .reaping reaper (_ :: keys) => some (s, .reaping reaper keys)
      | _ => none
    | .deleteObject .deleted => match l with
      | .reaping reaper (k :: keys) =>
        some (s.setObject k.object false, .objectDeleted reaper k keys)
      | _ => none
    | .deleteObject (.failed removed) => match l with
      | .reaping reaper (k :: keys) =>
        some (if removed then s.setObject k.object false else s, .reaping reaper keys)
      | _ => none
    | .deleteRow ok => match l with
      | .objectDeleted reaper k keys =>
        some (if ok then s.withTables (s.tables.deleteCleanupKey reaper k.id) else s,
          .reaping reaper keys)
      | _ => none

/-- The objects a reaper has selected and not yet tried to delete. -/
def ReaperProc.targets : ReaperProc → List ObjectRef
  | .reaping _ keys => keys.map (·.object)
  | .objectDeleted _ _ keys => keys.map (·.object)
  | _ => []

/-- The object a completion has copied and not yet committed. -/
def ReaperProc.placed (t : UploadTables) : ReaperProc → Option ObjectRef
  | .copied c => some (c.object t)
  | _ => none

/-- The object a step copies to a blob key. -/
def copiedBy (t : UploadTables) : ReaperProc → ReaperAction → Option ObjectRef
  | .journaled c, .copyBlob .copied => some (c.object t)
  | _, _ => none

/-- The objects a step selects. -/
def selectedBy (t : UploadTables) : ReaperProc → ReaperAction → List ObjectRef
  | .idle, .select reaper => (t.selectCleanupKeys reaper).map (·.object)
  | _, _ => []

/-- A completion copies to no key that a reaper has selected and not yet deleted, and a reaper
selects no key that a completion has copied to and not yet committed. -/
def noReaperRace (w : World ReaperState ReaperProc) (a : ℕ × ReaperAction) : Prop :=
  (∀ o ∈ copiedBy w.shared.tables (w.procs a.1) a.2, ∀ q, o ∉ (w.procs q).targets) ∧
    ∀ o ∈ selectedBy w.shared.tables (w.procs a.1) a.2, ∀ q,
      (w.procs q).placed w.shared.tables ≠ some o

/-- A committed row refers to the object, or a completion has copied it and may yet commit. -/
def Protected (w : World ReaperState ReaperProc) (o : ObjectRef) : Prop :=
  (∃ b ∈ w.shared.tables.blobs, w.shared.tables.blobObject b = o) ∨
    ∃ q, (w.procs q).placed w.shared.tables = some o

/-- Protected objects are stored, and no reaper is about to delete one. -/
def ReaperInv (w : World ReaperState ReaperProc) : Prop :=
  ∀ o, Protected w o → w.shared.objects o = true ∧ ∀ q, o ∉ (w.procs q).targets

section Tables
variable (t : UploadTables)

theorem uploadStorageKey_ne_blobStorageKey (name : String) (d : Digest) :
    uploadStorageKey name ≠ blobStorageKey d := by
  simp [uploadStorageKey, blobStorageKey, String.ext_iff]

namespace UploadTables

@[simp] theorem register_repositories (r : Uuid) (id : Option Uuid) (key : String) :
    (t.registerOciUploadCleanupKey r id key).repositories = t.repositories := by
  unfold registerOciUploadCleanupKey
  split <;> rfl

@[simp] theorem register_blobs (r : Uuid) (id : Option Uuid) (key : String) :
    (t.registerOciUploadCleanupKey r id key).blobs = t.blobs := by
  unfold registerOciUploadCleanupKey
  split <;> rfl

@[simp] theorem insertBlob_repositories (r : Uuid) (d : Digest) (n : ℤ) :
    (t.insertBlob r d n).repositories = t.repositories := by
  unfold insertBlob
  split <;> rfl

/-- The upsert adds at most the one row, whatever it changes in the others is not the object. -/
theorem mem_insertBlob {r : Uuid} {d : Digest} {n : ℤ} {b' : OciBlob}
    (h : b' ∈ (t.insertBlob r d n).blobs) :
    (∃ b ∈ t.blobs, b.repositoryId = b'.repositoryId ∧ b.digest = b'.digest) ∨
      (b'.repositoryId = r ∧ b'.digest = d) := by
  unfold insertBlob at h
  split at h
  · obtain ⟨b, hb, rfl⟩ := List.mem_map.mp h
    refine .inl ⟨b, hb, ?_⟩
    split <;> exact ⟨rfl, rfl⟩
  · rcases List.mem_cons.mp h with rfl | hb
    · exact .inr ⟨rfl, rfl⟩
    · exact .inl ⟨b', hb, rfl, rfl⟩

theorem commitCompletion_spec {c : Completion} {t' : UploadTables}
    (h : t.commitCompletion c = some t') :
    t'.repositories = t.repositories ∧
      t'.blobs = (t.insertBlob c.repositoryId c.digest c.sizeBytes).blobs := by
  unfold commitCompletion at h
  split at h
  · cases h
    exact ⟨insertBlob_repositories .., rfl⟩
  · split at h
    · cases h
      exact ⟨insertBlob_repositories .., rfl⟩
    · cases h

/-- No selected key is the key of a blob row. -/
theorem selected_not_referenced {reaper : Reaper} {k : OciUploadCleanupKey}
    (h : k ∈ t.selectCleanupKeys reaper) : t.referencedByBlob k.storageKey = false := by
  simp only [selectCleanupKeys, List.mem_map] at h
  obtain ⟨c, hc, rfl⟩ := h
  have hrow := List.mem_of_mem_take hc
  rw [List.mem_insertionSort, List.mem_filter] at hrow
  have hreap := (Bool.and_eq_true _ _ ▸ hrow.2).2
  cases reaper with
  | unreferenced =>
    simp only [reapable, unreferenced, Bool.and_eq_true, Bool.not_eq_true'] at hreap
    exact hreap.2
  | pending =>
    simp only [reapable, pending, Bool.and_eq_true, Bool.not_eq_true'] at hreap
    exact hreap.2

theorem selected_ne_blobObject {reaper : Reaper} {o : ObjectRef} {b : OciBlob}
    (h : o ∈ (t.selectCleanupKeys reaper).map (·.object)) (hb : b ∈ t.blobs) :
    t.blobObject b ≠ o := by
  rintro rfl
  obtain ⟨k, hk, heq⟩ := List.mem_map.mp h
  have hfree := t.selected_not_referenced hk
  have hkey : k.storageKey = blobStorageKey b.digest := congrArg Prod.snd heq
  simp only [referencedByBlob, List.any_eq_false, beq_iff_eq] at hfree
  exact hfree b hb hkey.symm

end UploadTables
end Tables

/-- What a step may change of the rows, the objects and the process that takes it. Temporary keys
are never blob keys, so only the delete of a reaper can take a blob's object away. -/
structure ReaperEffect (s s' : ReaperState) (l l' : ReaperProc) (a : ReaperAction) : Prop where
  repositories : s'.tables.repositories = s.tables.repositories
  rows : ∀ b' ∈ s'.tables.blobs, (∃ b ∈ s.tables.blobs, s.tables.blobObject b =
    s.tables.blobObject b') ∨ l.placed s.tables = some (s.tables.blobObject b')
  placed : ∀ o, l'.placed s.tables = some o → l.placed s.tables = some o ∨
    copiedBy s.tables l a = some o ∧ s'.objects o = true
  targets : ∀ o ∈ l'.targets, o ∈ l.targets ∨ o ∈ selectedBy s.tables l a
  objects : ∀ store d, s.objects (store, blobStorageKey d) = true →
    s'.objects (store, blobStorageKey d) = true ∨ (store, blobStorageKey d) ∈ l.targets

section Effect
variable {s s' : ReaperState} {l l' : ReaperProc} {a : ReaperAction}

/-- A statement that changes neither the blob rows nor an object. -/
theorem ReaperEffect.ofTables (t : UploadTables)
    (hrepositories : t.repositories = s.tables.repositories) (hblobs : t.blobs = s.tables.blobs)
    (hplaced : ∀ o, l'.placed s.tables = some o → l.placed s.tables = some o)
    (htargets : ∀ o ∈ l'.targets, o ∈ l.targets ∨ o ∈ selectedBy s.tables l a) :
    ReaperEffect s (s.withTables t) l l' a where
  repositories := hrepositories
  rows b' hb' := .inl ⟨b', hblobs ▸ hb', rfl⟩
  placed o ho := .inl (hplaced o ho)
  targets := htargets
  objects _ _ h := .inl h

/-- A storage call on one object that keeps the others. -/
theorem ReaperEffect.ofObject (o : ObjectRef) (present : Bool)
    (hplaced : ∀ o', l'.placed s.tables = some o' → l.placed s.tables = some o' ∨
      copiedBy s.tables l a = some o' ∧ (s.setObject o present).objects o' = true)
    (htargets : ∀ o ∈ l'.targets, o ∈ l.targets ∨ o ∈ selectedBy s.tables l a)
    (hgone : present = true ∨ o ∈ l.targets ∨ ∀ d, o.2 ≠ blobStorageKey d) :
    ReaperEffect s (s.setObject o present) l l' a where
  repositories := rfl
  rows b' hb' := .inl ⟨b', hb', rfl⟩
  placed := hplaced
  targets := htargets
  objects := by
    intro store d hstored
    by_cases heq : (store, blobStorageKey d) = o
    · subst heq
      rcases hgone with rfl | htarget | hkey
      · exact .inl (Function.update_self ..)
      · exact .inr htarget
      · exact (hkey d rfl).elim
    · refine .inl ?_
      simp only [ReaperState.setObject, Function.update_of_ne heq, hstored]

/-- A step that leaves the shared state alone. -/
theorem ReaperEffect.ofProc
    (hplaced : ∀ o, l'.placed s.tables = some o → l.placed s.tables = some o)
    (htargets : ∀ o ∈ l'.targets, o ∈ l.targets ∨ o ∈ selectedBy s.tables l a) :
    ReaperEffect s s l l' a :=
  .ofTables s.tables rfl rfl hplaced htargets

theorem ReaperEffect.commit {c : Completion} {t : UploadTables}
    (h : s.tables.commitCompletion c = some t) :
    ReaperEffect s (s.withTables t) (.copied c) (.committed c) a where
  repositories := (s.tables.commitCompletion_spec h).1
  rows b' hb' := by
    have hblobs := (s.tables.commitCompletion_spec h).2
    simp only [ReaperState.withTables, hblobs] at hb'
    rcases s.tables.mem_insertBlob hb' with ⟨b, hb, hr, hd⟩ | ⟨hr, hd⟩
    · exact .inl ⟨b, hb, by rw [UploadTables.blobObject, UploadTables.blobObject, hr, hd]⟩
    · refine .inr ?_
      simp only [ReaperProc.placed, Completion.object, UploadTables.blobObject, hr, hd]
  placed _ ho := by cases ho
  targets _ ho := by cases ho
  objects _ _ h := .inl h

theorem reaper_step_effect {p : ℕ} (h : reaperProtocol.step p s l a = some (s', l')) :
    ReaperEffect s s' l l' a := by
  cases a with
  | tick ms =>
    cases h
    exact .ofTables _ rfl rfl (fun _ ho => ho) fun _ ho => .inl ho
  | upload c =>
    cases l <;> cases h
    exact .ofProc (fun _ ho => ho) fun _ ho => .inl ho
  | registerTemp name =>
    simp only [reaperProtocol] at h
    split at h <;> cases h
    exact .ofTables _ (by simp) (by simp) (fun _ ho => ho) fun _ ho => .inl ho
  | putTemp name written =>
    simp only [reaperProtocol] at h
    split at h <;> cases h
    split
    · exact .ofObject _ _ (fun _ ho => .inl ho) (fun _ ho => .inl ho) (.inl rfl)
    · exact .ofProc (fun _ ho => ho) fun _ ho => .inl ho
  | markTemp name =>
    simp only [reaperProtocol] at h
    split at h <;> cases h
    exact .ofTables _ rfl rfl (fun _ ho => ho) fun _ ho => .inl ho
  | deleteTemp name removed =>
    simp only [reaperProtocol] at h
    split at h <;> cases h
    split
    · exact .ofObject _ _ (fun _ ho => .inl ho) (fun _ ho => .inl ho)
        (.inr (.inr fun d => uploadStorageKey_ne_blobStorageKey name d))
    · exact .ofProc (fun _ ho => ho) fun _ ho => .inl ho
  | clearTemp name =>
    simp only [reaperProtocol] at h
    split at h <;> cases h
    exact .ofTables _ rfl rfl (fun _ ho => ho) fun _ ho => .inl ho
  | registerBlob =>
    cases l <;> cases h
    exact .ofTables _ (by simp) (by simp) (fun _ ho => by cases ho) fun _ ho => by cases ho
  | copyBlob outcome =>
    cases outcome with
    | copied =>
      cases l <;> cases h
      exact .ofObject _ _ (fun o ho => .inr ⟨ho, by cases ho; exact Function.update_self ..⟩)
        (fun _ ho => by cases ho) (.inl rfl)
    | failed written =>
      cases l <;> cases h
      split
      · exact .ofObject _ _ (fun _ ho => by cases ho) (fun _ ho => by cases ho) (.inl rfl)
      · exact .ofProc (fun _ ho => by cases ho) fun _ ho => by cases ho
  | commitBlob ok =>
    cases l <;> try cases h
    simp only [reaperProtocol] at h
    split at h
    · next t ht =>
      cases h
      cases ok with
      | false => cases ht
      | true => exact .commit ht
    · cases h
      exact .ofProc (fun _ ho => by cases ho) fun _ ho => by cases ho
  | clearBlob =>
    cases l <;> cases h
    exact .ofTables _ rfl rfl (fun _ ho => ho) fun _ ho => .inl ho
  | stop =>
    cases h
    exact .ofProc (fun _ ho => by cases ho) fun _ ho => by cases ho
  | select reaper =>
    cases l <;> cases h
    exact .ofProc (fun _ ho => by cases ho) fun _ ho => .inr ho
  | skip =>
    cases l <;> try cases h
    next reaper keys =>
    cases keys <;> cases h
    exact .ofProc (fun _ ho => by cases ho) fun _ ho => .inl (List.mem_cons_of_mem _ ho)
  | deleteObject outcome =>
    cases outcome with
    | deleted =>
      cases l <;> try cases h
      next reaper keys =>
      cases keys <;> cases h
      exact .ofObject _ _ (fun _ ho => by cases ho) (fun _ ho => .inl (List.mem_cons_of_mem _ ho))
        (.inr (.inl List.mem_cons_self))
    | failed removed =>
      cases l <;> try cases h
      next reaper keys =>
      cases keys <;> cases h
      split
      · exact .ofObject _ _ (fun _ ho => by cases ho)
          (fun _ ho => .inl (List.mem_cons_of_mem _ ho)) (.inr (.inl List.mem_cons_self))
      · exact .ofProc (fun _ ho => by cases ho) fun _ ho => .inl (List.mem_cons_of_mem _ ho)
  | deleteRow ok =>
    cases l <;> cases h
    split
    · exact .ofTables _ rfl rfl (fun _ ho => by cases ho) fun _ ho => .inl ho
    · exact .ofProc (fun _ ho => by cases ho) fun _ ho => .inl ho

end Effect

section Run
variable {w w' w₀ : World ReaperState ReaperProc}

theorem placed_congr {t t' : UploadTables} (h : t'.repositories = t.repositories)
    (l : ReaperProc) : l.placed t' = l.placed t := by
  cases l with
  | copied c => simp only [ReaperProc.placed, Completion.object, h]
  | _ => rfl

/-- Protected objects are objects of blobs. -/
theorem Protected.key {o : ObjectRef} (h : Protected w o) : ∃ d, o.2 = blobStorageKey d := by
  rcases h with ⟨b, -, rfl⟩ | ⟨q, hq⟩
  · exact ⟨b.digest, rfl⟩
  · cases hl : w.procs q with
    | copied c =>
      simp only [hl, ReaperProc.placed, Option.some.injEq] at hq
      exact ⟨c.digest, by rw [← hq, Completion.object]⟩
    | _ => simp [hl, ReaperProc.placed] at hq

theorem copiedBy_selectedBy {t : UploadTables} {l : ReaperProc} {a : ReaperAction} {o : ObjectRef}
    (h : copiedBy t l a = some o) : selectedBy t l a = [] := by
  cases l <;> cases a <;> first | rfl | cases h

/-- No key that a step selects is protected. -/
theorem selected_not_protected {p : ℕ} {a : ReaperAction} (hok : noReaperRace w (p, a))
    {o : ObjectRef} (h : o ∈ selectedBy w.shared.tables (w.procs p) a) : ¬ Protected w o := by
  rintro (⟨b, hb, rfl⟩ | ⟨q, hq⟩)
  · unfold selectedBy at h
    split at h
    · exact UploadTables.selected_ne_blobObject _ h hb rfl
    · cases h
  · exact hok.2 o h q hq

theorem ReaperInv.step {p : ℕ} {a : ReaperAction} (hinv : ReaperInv w)
    (hok : noReaperRace w (p, a)) (hstep : reaperProtocol.machine.step w (p, a) = some w') :
    ReaperInv w' := by
  obtain ⟨s', l', hs, rfl⟩ := Protocol.machine_step hstep
  have heff := reaper_step_effect hs
  have hobject : ∀ b, s'.tables.blobObject b = w.shared.tables.blobObject b := by
    intro b
    rw [UploadTables.blobObject, UploadTables.blobObject, heff.repositories]
  intro o ho
  have hold : Protected w o ∨
      copiedBy w.shared.tables (w.procs p) a = some o ∧ s'.objects o = true := by
    rcases ho with ⟨b', hb', rfl⟩ | ⟨q, hq⟩
    · refine .inl ?_
      simp only [hobject]
      rcases heff.rows b' hb' with ⟨b, hb, heq⟩ | hplaced
      · exact .inl ⟨b, hb, heq⟩
      · exact .inr ⟨p, hplaced⟩
    · simp only [placed_congr heff.repositories] at hq
      by_cases hqp : q = p
      · subst hqp
        rw [Function.update_self] at hq
        rcases heff.placed o hq with hplaced | hcopied
        · exact .inl (.inr ⟨q, hplaced⟩)
        · exact .inr hcopied
      · rw [Function.update_of_ne hqp] at hq
        exact .inl (.inr ⟨q, hq⟩)
  -- a protected object is neither deleted by this step nor selected by it
  rcases hold with hprotected | ⟨hcopied, hstored⟩
  · obtain ⟨hstored, hfree⟩ := hinv o hprotected
    obtain ⟨d, hd⟩ := hprotected.key
    have hkept : s'.objects o = true := by
      obtain ⟨store, key⟩ := o
      subst hd
      exact (heff.objects store d hstored).resolve_right (hfree p)
    refine ⟨hkept, fun q hq => ?_⟩
    by_cases hqp : q = p
    · subst hqp
      simp only [Function.update_self] at hq
      rcases heff.targets o hq with hold | hnew
      · exact hfree q hold
      · exact selected_not_protected hok hnew hprotected
    · simp only [Function.update_of_ne hqp] at hq
      exact hfree q hq
  · have hfree := hok.1 o hcopied
    refine ⟨hstored, fun q hq => ?_⟩
    by_cases hqp : q = p
    · subst hqp
      simp only [Function.update_self] at hq
      rcases heff.targets o hq with hold | hnew
      · exact hfree q hold
      · simp only [copiedBy_selectedBy hcopied, List.not_mem_nil] at hnew
    · simp only [Function.update_of_ne hqp] at hq
      exact hfree q hq

/-- Nothing runs yet and every blob row has its object. -/
structure ReaperStart (w : World ReaperState ReaperProc) : Prop where
  idle : ∀ p, w.procs p = .idle
  stored : ∀ b ∈ w.shared.tables.blobs, w.shared.objects (w.shared.tables.blobObject b) = true

theorem ReaperStart.inv (h : ReaperStart w) : ReaperInv w := by
  rintro o (⟨b, hb, rfl⟩ | ⟨q, hq⟩)
  · refine ⟨h.stored b hb, fun q hq => ?_⟩
    simp only [h.idle q, ReaperProc.targets, List.not_mem_nil] at hq
  · simp [h.idle q, ReaperProc.placed] at hq

theorem ReaperInv.stored (h : ReaperInv w) {b : OciBlob} (hb : b ∈ w.shared.tables.blobs) :
    w.shared.objects (w.shared.tables.blobObject b) = true :=
  (h _ (.inl ⟨b, hb, rfl⟩)).1

/-- As long as no completion copies to a key in the hands of a reaper and no reaper selects a key
between copy and commit, every committed blob row keeps its object, at every state and over every
step. -/
theorem reapers_keep_live_blobs (hstart : ReaperStart w₀)
    (hreach : reaperProtocol.machine.Reach noReaperRace w₀ w) :
    (∀ b ∈ w.shared.tables.blobs, w.shared.objects (w.shared.tables.blobObject b) = true) ∧
      ∀ a w', noReaperRace w a → reaperProtocol.machine.step w a = some w' →
        ∀ b ∈ w.shared.tables.blobs, w'.shared.objects (w.shared.tables.blobObject b) = true := by
  have hinv : ReaperInv w := hreach.invariant hstart.inv fun _ a _ h hok hs => h.step hok hs
  refine ⟨fun b hb => hinv.stored hb, fun ⟨p, a⟩ w' hok hs b hb => ?_⟩
  obtain ⟨s', l', hs', rfl⟩ := Protocol.machine_step hs
  have hprotected : Protected w (w.shared.tables.blobObject b) := .inl ⟨b, hb, rfl⟩
  have heff := reaper_step_effect hs'
  exact (heff.objects _ _ (hinv.stored hb)).resolve_right ((hinv _ hprotected).2 p)

end Run

/-- A journal row of two days ago: a completion of `sha256:a` copied the object and then could not
commit. -/
def staleJournal : World ReaperState ReaperProc where
  shared :=
    { tables :=
        { now := 172800000
          repositories := fun _ => ⟨"s3", ""⟩
          blobs := []
          sessions := []
          parts := []
          cleanupKeys := [⟨1, 1, none, "oci-blobs/sha256:a", 0, none⟩]
          nextCleanupId := 2 }
      objects := fun o => o == (⟨"s3", ""⟩, "oci-blobs/sha256:a") }
  procs _ := .idle

def pushOfA : Completion := ⟨1, none, "sha256:a", 10⟩

theorem staleJournal_start : ReaperStart staleJournal :=
  ⟨fun _ => rfl, fun _ hb => by cases hb⟩

/-- The push of the same content comes between the select of the reaper and its delete. -/
def lateDelete : List (ℕ × ReaperAction) :=
  [(0, .select .pending), (1, .upload pushOfA), (1, .registerBlob), (1, .copyBlob .copied),
    (1, .commitBlob true), (0, .deleteObject .deleted)]

/-- The committed row is left without its object. -/
theorem late_delete_loses_blob : ReaperStart staleJournal ∧
    ∃ w, reaperProtocol.machine.Reach Machine.anyStep staleJournal w ∧
      ∃ b ∈ w.shared.tables.blobs, w.shared.objects (w.shared.tables.blobObject b) = false := by
  have hreach := fun w h => @Machine.reach_of_run _ _ reaperProtocol.machine Machine.anyStep
    staleJournal w lateDelete h (Machine.meets_anyStep ..)
  exact ⟨staleJournal_start, _, hreach _ rfl, ⟨1, "sha256:a", 10, 172800000, none⟩, by decide,
    by decide⟩

/-- The reaper is done with the old object before the push copies it anew. -/
def orderlyDelete : List (ℕ × ReaperAction) :=
  [(0, .select .pending), (0, .deleteObject .deleted), (1, .upload pushOfA), (1, .registerBlob),
    (1, .copyBlob .copied), (0, .deleteRow true), (1, .commitBlob true)]

theorem orderlyDelete_meets :
    reaperProtocol.machine.Meets noReaperRace staleJournal orderlyDelete := by
  refine ⟨⟨nofun, fun o _ q => nofun⟩, ⟨nofun, nofun⟩, ⟨nofun, nofun⟩, ⟨nofun, nofun⟩,
    ⟨fun o _ q => ?_, nofun⟩, ⟨nofun, nofun⟩, ⟨nofun, nofun⟩, trivial⟩
  match q with
  | 0 | 1 | _ + 2 => exact List.not_mem_nil

theorem orderly_delete_keeps_blob : ReaperStart staleJournal ∧
    ∃ w, reaperProtocol.machine.Reach noReaperRace staleJournal w ∧
      w.shared.tables.blobs = [⟨1, "sha256:a", 10, 172800000, none⟩] ∧
      ∀ b ∈ w.shared.tables.blobs, w.shared.objects (w.shared.tables.blobObject b) = true := by
  have hreach := fun w h => @Machine.reach_of_run _ _ reaperProtocol.machine noReaperRace
    staleJournal w orderlyDelete h orderlyDelete_meets
  exact ⟨staleJournal_start, _, hreach _ rfl, by decide,
    (reapers_keep_live_blobs staleJournal_start (hreach _ rfl)).1⟩

end ArtifactKeeper.Gc
