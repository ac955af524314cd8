import ArtifactKeeper.Gc.Blob
import Mathlib.Logic.Relation

/-! The walk of a Docker/OCI migration over the content a manifest refers to: child manifests
breadth-first, config and layer blobs on the way, with one set of visited digests for both. -/

namespace ArtifactKeeper.Oci
open Gc (Digest GcState ManifestClass TagKey Push)

abbrev Body := List UInt8

inductive OciContentKind where
  | blob | manifest
  deriving DecidableEq, Repr

def OciContentKind.pathSegment : OciContentKind → String
  | .blob => "blobs"
  | .manifest => "manifests"

inductive MigrationError where
  | databaseError (message : String)
  | artifactoryError (message : String)
  | checksumMismatch (path expected actual : String)
  | storageError (message : String)
  | other (message : String)
  deriving DecidableEq, Repr

def maxIndexManifestBytes : ℕ := 4 * 1024 * 1024

structure WalkCaps where
  maxDepth : ℕ
  maxIndexFanout : ℕ
  maxBlobsTotal : ℕ
  maxManifestsTotal : ℕ
  maxBlobBytes : ℕ
  maxTotalBytes : ℕ

structure WalkStats where
  blobsRegistered : ℕ
  childrenRegistered : ℕ
  deduped : ℕ
  bytesFetched : ℕ
  deriving DecidableEq, Repr

/-- The operations of the walk that can fail by themselves. -/
inductive WalkOp where
  | temp (kind : OciContentKind) (digest : Digest)
  | exists (digest : Digest)
  | get (digest : Digest)
  | existsBeforePut (kind : OciContentKind) (digest : Digest)
  | put (kind : OciContentKind) (digest : Digest)
  | blobRow (digest : Digest)
  | insertBlob (digest : Digest)
  | persistTag (digest : Digest)
  | artifactRow (digest : Digest)
  deriving DecidableEq, Repr

/-- What surrounds a walk. `sha256` gives the prefixed text form, `classify` is `classify_manifest`
with the references extracted from the body, `source` the upstream registry, and `fault` the error
of an operation that fails. -/
structure WalkEnv where
  repositoryId : Uuid
  image : String
  sha256 : Body → Digest
  classify : Body → ManifestClass
  source : OciContentKind → Digest → Except String Body
  fault : WalkOp → Option String

/-- The tables and blob objects, the live rows of `artifacts` by path, the stored manifest bodies,
and the variables of the walk. -/
structure WalkState where
  db : GcState
  artifacts : String → Option String
  manifests : Digest → Option Body
  visited : List Digest
  queue : List (Digest × ℕ)
  stats : WalkStats

namespace WalkState
variable (st : WalkState)

def visit (d : Digest) : WalkState := { st with visited := d :: st.visited }

def dedup : WalkState :=
  { st with stats := { st.stats with deduped := st.stats.deduped + 1 } }

/-- `blob_already_registered`. -/
def hasRow (repositoryId : Uuid) (d : Digest) : Bool :=
  st.db.blobs.any fun ob => ob.repositoryId == repositoryId && ob.digest == d

def hasObject (repositoryId : Uuid) (d : Digest) : Bool :=
  st.db.objects (st.db.storeOf repositoryId) d

end WalkState

namespace WalkEnv
variable (env : WalkEnv) (caps : WalkCaps)

/-- The cap is checked before each chunk is written, so what comes through is within it. -/
def streamToTemp (kind : OciContentKind) (d : Digest) (cap : ℕ) : Except MigrationError Body :=
  match env.source kind d with
  | .error e => .error (.artifactoryError e)
  | .ok body =>
    if cap < body.length then
      .error (.other ("OCI content '" ++ env.image ++ "/" ++ kind.pathSegment ++ "/" ++ d ++
        "' exceeds the " ++ toString cap ++ " byte cap mid-stream; aborting fetch"))
    else match env.fault (.temp kind d) with
      | some e => .error (.storageError e)
      | none => .ok body

/-- The download with its digest checked. -/
def fetchVerified (kind : OciContentKind) (d : Digest) (cap : ℕ) : Except MigrationError Body :=
  match env.streamToTemp kind d cap with
  | .error e => .error e
  | .ok body =>
    if env.sha256 body ≠ d then
      .error (.checksumMismatch (env.image ++ "/" ++ kind.pathSegment ++ "/" ++ d) d
        (env.sha256 body))
    else .ok body

/-- `put_temp_to_storage`; an existence check that fails counts as absent. -/
def putBlob (st : WalkState) (d : Digest) : Except MigrationError WalkState :=
  if st.hasObject env.repositoryId d && (env.fault (.existsBeforePut .blob d)).isNone then .ok st
  else match env.fault (.put .blob d) with
    | some e => .error (.storageError e)
    | none => .ok { st with db := st.db.setObject (st.db.storeOf env.repositoryId) d true }

def fetchVerifyStoreBlob (st : WalkState) (d : Digest) (maxBlobBytes : ℕ) :
    Except MigrationError (WalkState × ℕ) :=
  match env.fetchVerified .blob d maxBlobBytes with
  | .error e => .error e
  | .ok body =>
    match env.putBlob st d with
    | .error e => .error e
    | .ok stored => .ok (stored, body.length)

/-- The row of a fetched blob and the counters. -/
def registerBlob (st : WalkState) (d : Digest) (size : ℕ) : Except MigrationError WalkState :=
  match env.fault (.insertBlob d) with
  | some e => .error (.databaseError e)
  | none => .ok { st with
      db := st.db.recordBlob env.repositoryId d size
      stats := { st.stats with
        blobsRegistered := st.stats.blobsRegistered + 1
        bytesFetched := st.stats.bytesFetched + size } }

def ensureBlob (st : WalkState) (d : Digest) : Except MigrationError WalkState :=
  if st.visited.contains d then .ok st.dedup
  else
    match env.fault (.blobRow d) with
    | some e => .error (.databaseError e)
    | none =>
      if st.hasRow env.repositoryId d then .ok (st.visit d).dedup
      else if caps.maxBlobsTotal ≤ st.stats.blobsRegistered then
        .error (.other ("referenced-content walk for image '" ++ env.image ++
          "' exceeded the max blob count (" ++ toString caps.maxBlobsTotal ++ ")"))
      else if caps.maxTotalBytes ≤ st.stats.bytesFetched then
        .error (.other ("referenced-content walk for image '" ++ env.image ++
          "' exceeded the max total bytes (" ++ toString caps.maxTotalBytes ++ ")"))
      else
        let remaining := caps.maxTotalBytes - st.stats.bytesFetched
        match env.fetchVerifyStoreBlob (st.visit d) d (min caps.maxBlobBytes remaining) with
        | .error e => .error e
        | .ok (stored, size) => env.registerBlob stored d size

def ensureBlobs (st : WalkState) : List Digest → Except MigrationError WalkState
  | [] => .ok st
  | d :: rest =>
    match env.ensureBlob caps st d with
    | .error e => .error e
    | .ok st' => ensureBlobs st' rest

def enqueueChildren (st : WalkState) (children : List Digest) (depth : ℕ) :
    Except MigrationError WalkState :=
  if caps.maxIndexFanout < children.length then
    .error (.other ("image index declares " ++ toString children.length ++
      " children, exceeding the fan-out cap (" ++ toString caps.maxIndexFanout ++ ")"))
  else .ok { st with queue := st.queue ++
      (children.filter fun c => !st.visited.contains c).map fun c => (c, depth) }

/-- The blobs of an image, or the children of an index. -/
def expand (st : WalkState) (depth : ℕ) : ManifestClass → Except MigrationError WalkState
  | .image refs => env.ensureBlobs caps st (refs.map Prod.fst)
  | .index children => enqueueChildren caps st children depth
  | .malformed => .ok st

/-- The body of a child manifest, from storage if its digest is right there, else from the source;
the flag tells a fetched body. -/
def childBody (stored : Option Body) (d : Digest) : Except MigrationError (Body × Bool) :=
  let fetched := (env.fetchVerified .manifest d maxIndexManifestBytes).map fun body => (body, true)
  match if (env.fault (.exists d)).isNone then stored else none with
  | none => fetched
  | some body =>
    match env.fault (.get d) with
    | some e => .error (.storageError e)
    | none =>
      if maxIndexManifestBytes < body.length then
        .error (.other ("stored child manifest '" ++ d ++ "' of image '" ++ env.image ++
          "' exceeds the " ++ toString maxIndexManifestBytes ++ " byte manifest cap"))
      else if env.sha256 body = d then .ok (body, false)
      else fetched

/-- `load_or_fetch_child_manifest`: a fetched body is stored unless the key exists. -/
def loadOrFetchChildManifest (st : WalkState) (d : Digest) :
    Except MigrationError (Body × WalkState) :=
  match env.childBody (st.manifests d) d with
  | .error e => .error e
  | .ok (body, false) => .ok (body, st)
  | .ok (body, true) =>
    if (st.manifests d).isSome && (env.fault (.existsBeforePut .manifest d)).isNone then
      .ok (body, st)
    else match env.fault (.put .manifest d) with
      | some e => .error (.storageError e)
      | none => .ok (body, { st with manifests := Function.update st.manifests d (some body) })

/-- `persist_tag_and_refs_in_tx` and `upsert_manifest_artifact`, by digest under this image. -/
def registerManifest (st : WalkState) (d : Digest) (cls : ManifestClass) :
    Except MigrationError WalkState :=
  match env.fault (.persistTag d) with
  | some e => .error (.databaseError e)
  | none =>
    match env.fault (.artifactRow d) with
    | some e => .error (.databaseError e)
    | none => .ok { st with
        db := st.db.persistTagAndRefs ⟨⟨env.repositoryId, env.image, d⟩, d, cls⟩
        artifacts := Function.update st.artifacts ("v2/" ++ env.image ++ "/manifests/" ++ d)
          (some ("oci-manifests/" ++ d)) }

/-- A child that was not visited before. -/
def walkChild (st : WalkState) (d : Digest) (depth : ℕ) : Except MigrationError WalkState :=
  if caps.maxDepth < depth then
    .error (.other ("referenced-content walk for image '" ++ env.image ++
      "' exceeded the max index depth (" ++ toString caps.maxDepth ++ ")"))
  else if caps.maxManifestsTotal < st.stats.childrenRegistered + 1 then
    .error (.other ("referenced-content walk for image '" ++ env.image ++
      "' exceeded the max child-manifest count (" ++ toString caps.maxManifestsTotal ++ ")"))
  else
    let counted := { st.visit d with stats := { st.stats with
      childrenRegistered := st.stats.childrenRegistered + 1 } }
    match env.loadOrFetchChildManifest counted d with
    | .error e => .error e
    | .ok (body, loaded) =>
      let cls := env.classify body
      if cls = .malformed then
        .error (.other ("referenced child manifest '" ++ d ++ "' of image '" ++ env.image ++
          "' is neither an image nor an index"))
      else
        match env.registerManifest loaded d cls with
        | .error e => .error e
        | .ok registered => env.expand caps registered (depth + 1) cls

/-- One turn of the loop over the queue. -/
def walkNext (st : WalkState) (d : Digest) (depth : ℕ) (rest : List (Digest × ℕ)) :
    Except MigrationError WalkState :=
  let popped := { st with queue := rest }
  if st.visited.contains d then .ok popped.dedup else env.walkChild caps popped d depth

/-- `none` when the fuel does not suffice. -/
def walkLoop : ℕ → WalkState → Option (Except MigrationError WalkState)
  | 0, _ => none
  | fuel + 1, st =>
    match st.queue with
    | [] => some (.ok st)
    | (d, depth) :: rest =>
      match env.walkNext caps st d depth rest with
      | .error e => some (.error e)
      | .ok st' => walkLoop fuel st'

/-- The variables of a walk at its start. -/
def start (st₀ : WalkState) : WalkState :=
  { st₀ with visited := [], queue := [], stats := ⟨0, 0, 0, 0⟩ }

/-- `walk_and_register_referenced_content` from a root of the given class. -/
def walk (st₀ : WalkState) (root : ManifestClass) (fuel : ℕ) :
    Option (Except MigrationError WalkState) :=
  match env.expand caps (start st₀) 1 root with
  | .error e => some (.error e)
  | .ok st => env.walkLoop caps fuel st

end WalkEnv
end ArtifactKeeper.Oci
