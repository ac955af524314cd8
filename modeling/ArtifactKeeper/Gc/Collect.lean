import ArtifactKeeper.Gc.UploadCleanup
import ArtifactKeeper.Maven.FlatKeys

/-! A whole run of the storage collector: the groups of orphan artifact rows, and the four sweeps of
upload and Maven objects after them. Every statement and every storage delete may fail. -/

namespace ArtifactKeeper.Gc

structure StorageGcResult where
  storageKeysDeleted : ℤ
  artifactsRemoved : ℤ
  bytesFreed : ℤ
  errors : List String
  deriving DecidableEq, Repr

def emptyGcResult : StorageGcResult := ⟨0, 0, 0, []⟩

def formatGcError (operation storageKey error : String) : String :=
  "Failed to " ++ operation ++ " for key " ++ storageKey ++ ": " ++ error

/-- A row of `maven_flat_object_owner`. -/
structure FlatOwner where
  storageBackend : String
  storageKey : String
  repositoryId : Uuid
  createdAt : ℤ
  deriving DecidableEq, Repr

/-- The database and the stores. `approvals` is the column `artifact_id` of `promotion_approvals`;
`metadataFiles` lists the storage keys in the `files` arrays of `artifact_metadata`, by artifact;
`backends` are the registered ones, and `result` what the run has reported so far. -/
structure CollectorState where
  uploads : UploadTables
  tags : List (TagKey × Digest)
  manifestRefs : List ManifestRef
  artifacts : List ArtifactRow
  approvals : List Uuid
  metadataFiles : List (Uuid × String)
  flatOwners : List FlatOwner
  backends : List String
  objects : ObjectRef → Bool
  result : StorageGcResult

/-- The outcome of a storage delete; `NotFound` counts as deleted. -/
inductive DeleteResult where
  | deleted
  | failed (removed : Bool) (error : String)
  deriving DecidableEq, Repr

/-- The error text of a statement, if it fails. -/
abbrev Fault := Option String

namespace CollectorState
variable (s : CollectorState)

/-- The tables of the orphan predicate. -/
def tables : GcState where
  now := s.uploads.now
  repositories := s.uploads.repositories
  blobs := s.uploads.blobs
  tags := s.tags
  blobRefs := []
  manifestRefs := s.manifestRefs
  objects l d := s.objects (l, blobStorageKey d)
  locks := []
  pushing := []
  relied _ := none

def locationOf (a : ArtifactRow) : StorageLocation := s.uploads.repositories a.repositoryId

/-- The object an artifact row resolves to. -/
def objectOf (a : ArtifactRow) : ObjectRef := ((s.locationOf a).store, a.storageKey)

def resolves (l : StorageLocation) : Bool :=
  l.backend == "filesystem" || s.backends.contains l.backend

def storageForLocation (l : StorageLocation) : Except String StorageLocation :=
  if s.resolves l then .ok l.store
  else .error ("Storage error: storage backend '" ++ l.backend ++ "' is not registered")

def setObject (o : ObjectRef) (present : Bool) : CollectorState :=
  { s with objects := Function.update s.objects o present }

/-- A failed delete may have removed the object. -/
def failDelete (o : ObjectRef) (removed : Bool) : CollectorState :=
  if removed then s.setObject o false else s

def fail (operation storageKey error : String) : CollectorState :=
  { s with result := { s.result with
      errors := s.result.errors ++ [formatGcError operation storageKey error] } }

def addResult (keys artifacts bytes : ℤ) : CollectorState :=
  { s with result := { s.result with
      storageKeysDeleted := s.result.storageKeysDeleted + keys
      artifactsRemoved := s.result.artifactsRemoved + artifacts
      bytesFreed := s.result.bytesFreed + bytes } }

/-- The database rolls back to `s`; deleted objects stay deleted. -/
def rollback (tx : CollectorState) : CollectorState := { s with objects := tx.objects }

def selectOrphanGroups : List OrphanKey := s.tables.selectOrphans s.artifacts

/-- `is_still_orphan`: `bool_and` over the rows of the key on this storage, false over none. -/
def isStillOrphan (k : OrphanKey) : Bool :=
  let rows := s.artifacts.filter fun a =>
    a.storageKey == k.storageKey && k.location.covers (s.locationOf a)
  !rows.isEmpty && rows.all (s.tables.orphanPredicate s.artifacts)

/-- `DELETE FROM artifacts WHERE storage_key = $1 AND is_deleted = true`, after the approvals of
these rows. -/
def deleteArtifacts (storageKey : String) : CollectorState :=
  let gone := fun a : ArtifactRow => a.storageKey == storageKey && a.isDeleted
  { s with
    approvals := s.approvals.filter fun id => !(s.artifacts.any fun a => a.id == id && gone a)
    artifacts := s.artifacts.filter fun a => !gone a }

def rowBacked (storageBackend storageKey : String) : Bool :=
  s.artifacts.any fun a => a.storageKey == storageKey && (s.locationOf a).backend == storageBackend

end CollectorState

def mavenFlatKeyPrefix : String := "maven/"

def mavenSidecarSuffixes : List String := [".md5", ".sha1", ".sha256", ".sha512"]

structure SidecarFaults where
  rowBacked : Fault
  delete : DeleteResult

structure GroupFaults where
  begin : Fault
  recheck : Fault
  delete : DeleteResult
  approvals : Fault
  rows : Fault
  sidecars : String → SidecarFaults
  owners : Fault
  commit : Fault

namespace CollectorState

/-- The sidecars of a base key, one suffix after the other; the first error ends it. -/
def deleteSidecars (faults : String → SidecarFaults) (k : OrphanKey) (s : CollectorState) :
    List String → CollectorState × Except String (List String)
  | [] => (s, .ok [])
  | suffix :: rest =>
    let sidecarKey := k.storageKey ++ suffix
    match (faults suffix).rowBacked with
    | some e => (s, .error e)
    | none =>
      if s.rowBacked k.location.backend sidecarKey then deleteSidecars faults k s rest
      else
        match (faults suffix).delete with
        | .failed removed e => (s.failDelete (k.location.store, sidecarKey) removed, .error e)
        | .deleted =>
          let r := deleteSidecars faults k (s.setObject (k.location.store, sidecarKey) false) rest
          (r.1, r.2.map (sidecarKey :: ·))

def reclaimMavenSidecars (s : CollectorState) (faults : GroupFaults) (k : OrphanKey) :
    CollectorState × Fault :=
  if !mavenFlatKeyPrefix.toList.isPrefixOf k.storageKey.toList then (s, none)
  else
    match s.deleteSidecars faults.sidecars k mavenSidecarSuffixes with
    | (tx, .error e) => (tx, some e)
    | (tx, .ok sidecars) =>
      match faults.owners with
      | some e => (tx, some e)
      | none => ({ tx with flatOwners := tx.flatOwners.filter fun o =>
          !(o.storageBackend == k.location.backend &&
            (k.storageKey :: sidecars).contains o.storageKey) }, none)

/-- The transaction of one orphan group. -/
def collectGroup (faults : GroupFaults) (s : CollectorState) (k : OrphanKey) : CollectorState :=
  match s.storageForLocation k.location with
  | .error e => s.fail "resolve storage" k.storageKey e
  | .ok store =>
    match faults.begin with
    | some e => s.fail "begin gc tx" k.storageKey e
    | none =>
    match faults.recheck with
    | some e => s.fail "re-check orphan" k.storageKey e
    | none =>
      if !s.isStillOrphan k then s
      else
        match faults.delete with
        | .failed removed e =>
          (s.failDelete (store, k.storageKey) removed).fail "delete storage key" k.storageKey e
        | .deleted =>
          let gone := s.setObject (store, k.storageKey) false
          match faults.approvals with
          | some e => gone.fail "delete promotion_approvals" k.storageKey e
          | none =>
          match faults.rows with
          | some e => gone.fail "hard-delete artifacts" k.storageKey e
          | none =>
            match (gone.deleteArtifacts k.storageKey).reclaimMavenSidecars faults k with
            | (tx, some e) => (s.rollback tx).fail "delete maven sidecars" k.storageKey e
            | (tx, none) =>
              match faults.commit with
              | some e => (s.rollback tx).fail "commit gc tx" k.storageKey e
              | none => tx.addResult 1 k.artifactCount k.totalBytes

end CollectorState

def abandonedOciUploadScanLimit : ℕ := 1000

def orphanMavenFlatScanLimit : ℕ := 1000

namespace UploadTables
variable (t : UploadTables)

def abandoned (u : OciUploadSession) : Bool := decide (u.updatedAt < t.now - abandonedOciUploadTtl)

def selectAbandonedOciUploadSessionIds : List Uuid :=
  (((t.sessions.filter t.abandoned).insertionSort fun u v => u.updatedAt ≤ v.updatedAt).take
    abandonedOciUploadScanLimit).map (·.id)

/-- `lock_abandoned_oci_upload_session`. -/
def lockAbandonedOciUploadSession (id : Uuid) : Option OciUploadSession :=
  t.sessions.find? fun u => u.id == id && t.abandoned u

/-- The keys of the parts of the session and its temporary key, each once. -/
def sessionStorageKeys (u : OciUploadSession) : List String :=
  (((t.parts.filter (·.uploadSessionId == u.id)).map (·.storageKey)) ++ [u.storageTempKey]).dedup

end UploadTables

structure SessionFaults where
  begin : Fault
  lock : Fault
  delete : String → DeleteResult
  row : Fault
  commit : Fault

structure KeyFaults where
  delete : DeleteResult
  row : Fault

structure FlatFaults where
  begin : Fault
  recheck : Fault
  delete : DeleteResult
  row : Fault
  commit : Fault

/-- What fails in a run. A group is named by itself, a session and a journal row by their id, a flat
object by its backend and key: each is visited once. -/
structure GcFaults where
  selectOrphans : Fault
  group : OrphanKey → GroupFaults
  selectAbandoned : Fault
  session : Uuid → SessionFaults
  selectCleanup : Reaper → Fault
  cleanupKey : Reaper → ℕ → KeyFaults
  selectFlat : Fault
  flat : FlatOwner → FlatFaults

/-- The words of the two reapers for their steps. -/
def Reaper.resolveText : Reaper → String
  | .unreferenced => "resolve OCI upload cleanup-key storage"
  | .pending => "resolve pending OCI upload cleanup-key storage"

def Reaper.deleteText : Reaper → String
  | .unreferenced => "delete OCI upload cleanup-key storage"
  | .pending => "delete pending OCI upload cleanup-key storage"

def Reaper.rowText : Reaper → String
  | .unreferenced => "delete OCI upload cleanup-key row"
  | .pending => "delete pending OCI upload cleanup-key row"

def Reaper.sweepText : Reaper → String
  | .unreferenced => "run unreferenced OCI upload cleanup-key sweep"
  | .pending => "run pending OCI upload cleanup-key reaper"

namespace CollectorState

/-- The deletes of a session's keys go on after a failure. -/
def deleteSessionKeys (outcome : String → DeleteResult) (store : StorageLocation)
    (s : CollectorState) (keys : List String) : CollectorState :=
  keys.foldl (fun s key =>
    match outcome key with
    | .deleted => s.setObject (store, key) false
    | .failed removed e => (s.failDelete (store, key) removed).fail
        "delete abandoned OCI upload storage key" key e) s

def cleanupSession (faults : SessionFaults) (s : CollectorState) (id : Uuid) : CollectorState :=
  match faults.begin with
  | some e => s.fail "begin abandoned OCI upload cleanup tx" (toString id) e
  | none =>
  match faults.lock with
  | some e => s.fail "lock abandoned OCI upload session" (toString id) e
  | none =>
  match s.uploads.lockAbandonedOciUploadSession id with
  | none => s
  | some u =>
    match s.storageForLocation (s.uploads.repositories u.repositoryId) with
    | .error e => s.fail "resolve abandoned OCI upload storage" (toString id) e
    | .ok store =>
      let keys := s.uploads.sessionStorageKeys u
      let gone := s.deleteSessionKeys faults.delete store keys
      if keys.any fun key => faults.delete key != .deleted then gone
      else
        match faults.row with
        | some e => gone.fail "delete abandoned OCI upload session" (toString id) e
        | none =>
        match faults.commit with
        | some e => gone.fail "commit abandoned OCI upload cleanup tx" (toString id) e
        | none => { gone with uploads := gone.uploads.deleteSession id }.addResult keys.length 0
            (max u.bytesReceived 0)

def cleanupAbandonedOciUploads (faults : GcFaults) (s : CollectorState) : CollectorState :=
  match faults.selectAbandoned with
  | some e => s.fail "run abandoned OCI upload cleanup" "<sweep>" e
  | none => s.uploads.selectAbandonedOciUploadSessionIds.foldl
      (fun s id => s.cleanupSession (faults.session id) id) s

def reapKey (reaper : Reaper) (faults : KeyFaults) (s : CollectorState)
    (k : OciUploadCleanupKey) : CollectorState :=
  match s.storageForLocation k.location with
  | .error e => s.fail reaper.resolveText k.storageKey e
  | .ok store =>
    match faults.delete with
    | .failed removed e => (s.failDelete (store, k.storageKey) removed).fail
        reaper.deleteText k.storageKey e
    | .deleted =>
      let gone := s.setObject (store, k.storageKey) false
      match faults.row with
      | some e => gone.fail reaper.rowText k.storageKey e
      | none => { gone with uploads := gone.uploads.deleteCleanupKey reaper k.id }.addResult 1 0 0

/-- `cleanup_unreferenced_oci_upload_keys` and `reap_pending_oci_upload_cleanup_keys`. -/
def reapCleanupKeys (faults : GcFaults) (reaper : Reaper) (s : CollectorState) : CollectorState :=
  match faults.selectCleanup reaper with
  | some e => s.fail reaper.sweepText "<sweep>" e
  | none => (s.uploads.selectCleanupKeys reaper).foldl
      (fun s k => s.reapKey reaper (faults.cleanupKey reaper k.id) k) s

end CollectorState

/-- SQL `LIKE`: `%` is any text, `_` any character, a backslash takes the next one literally. -/
def sqlLike : List Char → List Char → Bool
  | [], text => text.isEmpty
  | '%' :: pattern, [] => sqlLike pattern []
  | '%' :: pattern, c :: text => sqlLike pattern (c :: text) || sqlLike ('%' :: pattern) text
  | '_' :: pattern, _ :: text => sqlLike pattern text
  | '\\' :: p :: pattern, c :: text => p == c && sqlLike pattern text
  | p :: pattern, c :: text => p == c && sqlLike pattern text
  | _ :: _, [] => false
termination_by pattern text => pattern.length + text.length

/-- `regexp_replace(key, '\.(md5|sha1|sha256|sha512)$', '')`. -/
def withoutSidecarSuffix (storageKey : String) : String :=
  (mavenSidecarSuffixes.findSome? (Maven.stripSuffix storageKey)).getD storageKey

def isSidecarKey (storageKey : String) : Bool :=
  mavenSidecarSuffixes.any fun suffix => suffix.toList.isSuffixOf storageKey.toList

namespace CollectorState

/-- The key is in the `files` array of an artifact on the backend. -/
def listedInFiles (s : CollectorState) (storageBackend storageKey : String) : Bool :=
  s.metadataFiles.any fun f => f.2 == storageKey &&
    s.artifacts.any fun pa => pa.id == f.1 && (s.locationOf pa).backend == storageBackend

/-- `ORPHAN_MAVEN_FLAT_PREDICATE_SQL`. -/
def flatOrphan (s : CollectorState) (o : FlatOwner) : Bool :=
  let base := withoutSidecarSuffix o.storageKey
  let document := "maven-metadata.xml"
  let directory := base.toList.take (base.toList.length - document.toList.length)
  mavenFlatKeyPrefix.toList.isPrefixOf o.storageKey.toList &&
    decide (o.createdAt < s.uploads.now - 60 * 60 * 1000) &&
    !s.rowBacked o.storageBackend o.storageKey &&
    !s.listedInFiles o.storageBackend o.storageKey &&
    !(("/" ++ document).toList.isSuffixOf base.toList && s.artifacts.any fun a2 =>
        (s.locationOf a2).backend == o.storageBackend && !a2.isDeleted &&
          sqlLike (directory ++ ['%']) a2.storageKey.toList) &&
    !(isSidecarKey o.storageKey && s.rowBacked o.storageBackend base) &&
    !(isSidecarKey o.storageKey && s.listedInFiles o.storageBackend base)

def selectOrphanMavenFlatObjects (s : CollectorState) : List FlatOwner :=
  ((s.flatOwners.filter s.flatOrphan).insertionSort fun o o' => o.storageKey ≤ o'.storageKey).take
    orphanMavenFlatScanLimit

/-- `is_maven_flat_object_still_orphan`, after the lock on the row. -/
def isMavenFlatObjectStillOrphan (s : CollectorState) (o : FlatOwner) : Bool :=
  s.flatOwners.any fun o' => o'.storageBackend == o.storageBackend &&
    o'.storageKey == o.storageKey && s.flatOrphan o'

def cleanupFlat (faults : FlatFaults) (s : CollectorState) (o : FlatOwner) : CollectorState :=
  match s.storageForLocation ⟨o.storageBackend, (s.uploads.repositories o.repositoryId).path⟩ with
  | .error e => s.fail "resolve maven flat storage" o.storageKey e
  | .ok store =>
    match faults.begin with
    | some e => s.fail "begin maven flat gc tx" o.storageKey e
    | none =>
    match faults.recheck with
    | some e => s.fail "re-check maven flat orphan" o.storageKey e
    | none =>
      if !s.isMavenFlatObjectStillOrphan o then s
      else
        match faults.delete with
        | .failed removed e => (s.failDelete (store, o.storageKey) removed).fail
            "delete maven flat object" o.storageKey e
        | .deleted =>
          let gone := s.setObject (store, o.storageKey) false
          match faults.row with
          | some e => gone.fail "delete maven flat attribution row" o.storageKey e
          | none =>
          match faults.commit with
          | some e => gone.fail "commit maven flat gc tx" o.storageKey e
          | none => { gone with flatOwners := gone.flatOwners.filter fun o' =>
              !(o'.storageBackend == o.storageBackend &&
                o'.storageKey == o.storageKey) }.addResult 1 0 0

def cleanupOrphanMavenFlatObjects (faults : GcFaults) (s : CollectorState) : CollectorState :=
  match faults.selectFlat with
  | some e => s.fail "run orphan Maven flat-object sweep" "<sweep>" e
  | none => s.selectOrphanMavenFlatObjects.foldl (fun s o => s.cleanupFlat (faults.flat o) o) s

/-- The loop over the orphan groups, from the result of the initial scan. -/
def collectOrphans (faults : GcFaults) (s : CollectorState) : CollectorState :=
  s.selectOrphanGroups.foldl (fun s k => s.collectGroup (faults.group k) k) s

def runSweeps (faults : GcFaults) (s : CollectorState) : CollectorState :=
  let abandoned := s.cleanupAbandonedOciUploads faults
  let unreferenced := abandoned.reapCleanupKeys faults .unreferenced
  let pending := unreferenced.reapCleanupKeys faults .pending
  pending.cleanupOrphanMavenFlatObjects faults

/-- `run_gc` with `dry_run = false`; a failed initial scan is its error. -/
def runGc (faults : GcFaults) (s : CollectorState) : Except String CollectorState :=
  match faults.selectOrphans with
  | some e => .error e
  | none => .ok (({ s with result := emptyGcResult }.collectOrphans faults).runSweeps faults)

end CollectorState

end ArtifactKeeper.Gc
