import ArtifactKeeper.Auth.Claims
import Mathlib.Algebra.Group.Nat.Defs
import Mathlib.Data.List.Sort

/-! The tables of the sync worker and the SQL statements it runs on them: claiming, recovery of
lapsed claims, the retry reset and the token-guarded finalizers. Instants are milliseconds of the
database clock. -/

namespace ArtifactKeeper.Sync

inductive InstanceStatus where
  | online | offline | syncing | degraded
  deriving DecidableEq, Repr

inductive ConnectionStatus where
  | active | probing | unreachable | disabled
  deriving DecidableEq, Repr

inductive SyncStatus where
  | pending | inProgress | completed | failed | cancelled
  deriving DecidableEq, Repr

/-- A row of `peer_instances`; window bounds are seconds of the day. -/
structure PeerInstance where
  id : Uuid
  name : String
  endpointUrl : String
  apiKey : String
  isLocal : Bool
  status : InstanceStatus
  backoffUntil : Option ℤ
  syncWindowStart : Option ℤ
  syncWindowEnd : Option ℤ
  syncWindowTimezone : Option String
  concurrentTransfersLimit : Option ℤ
  activeTransfers : ℤ
  consecutiveFailures : ℤ
  transferFailuresTotal : ℤ
  bytesTransferredTotal : ℤ
  lastSyncAt : Option ℤ
  deriving DecidableEq, Repr

structure PeerConnection where
  sourcePeerId : Uuid
  targetPeerId : Uuid
  status : ConnectionStatus
  latencyMs : Option ℤ
  bandwidthEstimateBps : Option ℤ
  deriving DecidableEq, Repr

structure ChunkAvailability where
  peerInstanceId : Uuid
  artifactId : Uuid
  availableChunks : ℤ
  deriving DecidableEq, Repr

/-- The two pattern arrays of a subscription's filter; `none` for an absent array, and for an
element that is not a string. -/
structure ReplicationFilter where
  includePatterns : Option (List (Option String))
  excludePatterns : Option (List (Option String))
  deriving DecidableEq, Repr

structure Subscription where
  peerInstanceId : Uuid
  repositoryId : Uuid
  replicationFilter : Option ReplicationFilter
  lastReplicatedAt : Option ℤ
  deriving DecidableEq, Repr

/-- An artifact with what the claim query joins to it. -/
structure Artifact where
  id : Uuid
  repositoryId : Uuid
  isDeleted : Bool
  name : String
  version : Option String
  sizeBytes : ℤ
  metadataFormat : Option String
  metadata : Option String
  packageDescription : Option String
  packageMetadata : Option String
  deriving DecidableEq, Repr

structure SyncTask where
  id : Uuid
  peerInstanceId : Uuid
  artifactId : Uuid
  priority : ℤ
  createdAt : ℤ
  status : SyncStatus
  taskType : String
  retryCount : ℤ
  maxRetries : ℤ
  claimedBy : Option String
  claimToken : Option Uuid
  claimExpiresAt : Option ℤ
  bytesTransferred : ℤ
  errorMessage : Option String
  deriving DecidableEq, Repr

structure SyncDb where
  now : ℤ
  peers : List PeerInstance
  connections : List PeerConnection
  chunkAvailability : List ChunkAvailability
  artifacts : List Artifact
  subscriptions : List Subscription
  tasks : List SyncTask

/-- `Claimed<TaskRow>`: the joined row of a claimed task with its token. -/
structure TaskRow where
  id : Uuid
  peerInstanceId : Uuid
  artifactId : Uuid
  artifact : Artifact
  taskType : String
  replicationFilter : Option ReplicationFilter
  retryCount : ℤ
  maxRetries : ℤ
  claimToken : Uuid
  deriving DecidableEq, Repr

structure SyncRetryPolicy where
  maxRetries : ℤ
  backoffBaseSecs : ℕ
  backoffMaxSecs : ℕ
  deriving DecidableEq, Repr

def SyncRetryPolicy.calculateBackoff (policy : SyncRetryPolicy) (consecutiveFailures : ℤ) : ℕ :=
  min (max policy.backoffMaxSecs 1)
    (max policy.backoffBaseSecs 1 * 2 ^ consecutiveFailures.toNat)

def SyncTask.release (t : SyncTask) : SyncTask :=
  { t with claimedBy := none, claimToken := none, claimExpiresAt := none }

/-- `status = 'in_progress' AND claim_token = $token` for the row of the task. -/
def SyncTask.heldBy (t : SyncTask) (id token : Uuid) : Bool :=
  t.id == id && t.status == .inProgress && t.claimToken == some token

/-- `is_local = false AND status IN ('online', 'syncing') AND (backoff_until IS NULL OR
backoff_until <= NOW())`. -/
def PeerInstance.eligible (now : ℤ) (p : PeerInstance) : Bool :=
  !p.isLocal && (p.status == .online || p.status == .syncing) &&
    p.backoffUntil.all fun t => decide (t ≤ now)

namespace SyncDb

def updatePeer (db : SyncDb) (id : Uuid) (f : PeerInstance → PeerInstance) : SyncDb :=
  { db with peers := db.peers.map fun p => if p.id = id then f p else p }

def artifact (db : SyncDb) (id : Uuid) : Option Artifact := db.artifacts.find? fun a => a.id == id

/-- The task is a deletion or its artifact is not deleted. -/
def due (db : SyncDb) (t : SyncTask) : Bool :=
  (db.artifact t.artifactId).any fun a => t.taskType == "delete" || !a.isDeleted

def expired (db : SyncDb) (t : SyncTask) : Bool :=
  t.status == .inProgress && (t.claimToken.isNone || t.claimedBy.isNone ||
    t.claimExpiresAt.all fun e => decide (e ≤ db.now))

def recoverExpiredSyncTaskClaims (db : SyncDb) : SyncDb :=
  { db with
    tasks := db.tasks.map fun t =>
      if db.expired t then { t.release with status := .pending } else t
    peers := db.peers.map fun p =>
      let n := db.tasks.countP fun t => db.expired t && t.peerInstanceId == p.id
      if n = 0 then p else { p with activeTransfers := max (p.activeTransfers - n) 0 } }

def fetchPeers (db : SyncDb) : List PeerInstance := db.peers.filter (·.eligible db.now)

def getLocalPeerId (db : SyncDb) : Option Uuid := (db.peers.find? (·.isLocal)).map (·.id)

/-- Failed tasks of recovered peers become pending again. -/
def resetRetriable (db : SyncDb) (policy : SyncRetryPolicy) : SyncDb :=
  { db with tasks := db.tasks.map fun t =>
      if t.status = .failed ∧ t.retryCount < max t.maxRetries policy.maxRetries ∧
          db.due t = true ∧ ∃ p ∈ db.peers, p.id = t.peerInstanceId ∧ p.eligible db.now = true then
        { t.release with status := .pending, errorMessage := none } else t }

/-- Live claims of a peer. -/
def liveClaims (db : SyncDb) (peerId : Uuid) : ℕ :=
  db.tasks.countP fun t => t.peerInstanceId == peerId && t.status == .inProgress &&
    t.claimToken.isSome && t.claimExpiresAt.any fun e => decide (db.now < e)

/-- The rows the claim statement takes, in its order. -/
def claimCandidates (db : SyncDb) (peerId : Uuid) (availableSlots concurrentLimit : ℤ) :
    List SyncTask :=
  let pending := db.tasks.filter fun t => t.peerInstanceId == peerId && t.status == .pending &&
    (t.claimExpiresAt.all fun e => decide (e ≤ db.now)) && db.due t
  let ordered := pending.insertionSort fun a b =>
    b.priority < a.priority ∨ a.priority = b.priority ∧ a.createdAt ≤ b.createdAt
  ordered.take (min availableSlots (max (concurrentLimit - db.liveClaims peerId) 0)).toNat

/-- The row returned for a claimed task; the inner joins drop it without an artifact. -/
def taskRow (db : SyncDb) (policy : SyncRetryPolicy) (token : Uuid → Uuid) (t : SyncTask) :
    Option TaskRow :=
  (db.artifact t.artifactId).map fun a =>
    { id := t.id
      peerInstanceId := t.peerInstanceId
      artifactId := t.artifactId
      artifact := a
      taskType := t.taskType
      replicationFilter := (db.subscriptions.find? fun s =>
        s.peerInstanceId == t.peerInstanceId && s.repositoryId == a.repositoryId).bind
          (·.replicationFilter)
      retryCount := t.retryCount
      maxRetries := max t.maxRetries policy.maxRetries
      claimToken := token t.id }

/-- `claim_pending_sync_tasks`, serialised per peer by its advisory lock; `token` is what
`gen_random_uuid` returns for each row. -/
def claimPendingSyncTasks (db : SyncDb) (policy : SyncRetryPolicy) (peerId : Uuid)
    (availableSlots concurrentLimit : ℤ) (claimedBy : String) (claimTtlMs : ℤ)
    (token : Uuid → Uuid) : SyncDb × List TaskRow :=
  let taken := db.claimCandidates peerId availableSlots concurrentLimit
  ({ db with tasks := db.tasks.map fun t =>
      if t ∈ taken then
        { t with
          status := .inProgress
          claimedBy := some claimedBy
          claimToken := some (token t.id)
          claimExpiresAt := some (db.now + claimTtlMs) }
      else t },
    taken.filterMap (db.taskRow policy token))

def extendSyncTaskClaim (db : SyncDb) (task : TaskRow) (claimTtlMs : ℤ) : SyncDb :=
  { db with tasks := db.tasks.map fun t =>
      if t.heldBy task.id task.claimToken then
        { t with claimExpiresAt := some (db.now + claimTtlMs) } else t }

/-- A token-guarded `UPDATE sync_tasks`; `none` when it matches no row. -/
def finalize (db : SyncDb) (task : TaskRow) (f : SyncTask → SyncTask) : Option SyncDb :=
  let held := fun t : SyncTask => t.heldBy task.id task.claimToken
  if db.tasks.any held then
    some { db with tasks := db.tasks.map fun t => if held t then (f t).release else t }
  else none

/-- The completion of a task that the replication filter rejects. -/
def completeFiltered (db : SyncDb) (task : TaskRow) : SyncDb :=
  (db.finalize task fun t => { t with status := .completed }).getD db

/-- `handle_transfer_success`; `none` when the claim was lost. -/
def handleTransferSuccess (db : SyncDb) (task : TaskRow) (bytesTransferred : ℤ) : Option SyncDb :=
  (db.finalize task fun t =>
    { t with status := .completed, bytesTransferred := bytesTransferred }).map fun db' =>
      { db'.updatePeer task.peerInstanceId fun p =>
          { p with
            activeTransfers := max (p.activeTransfers - 1) 0
            consecutiveFailures := 0
            bytesTransferredTotal := p.bytesTransferredTotal + bytesTransferred
            lastSyncAt := some db.now } with
        subscriptions := db.subscriptions.map fun s =>
          if s.peerInstanceId = task.peerInstanceId ∧
              s.repositoryId = task.artifact.repositoryId then
            { s with lastReplicatedAt := some db.now } else s }

/-- `handle_transfer_failure`: a lost claim leaves everything as it is. -/
def handleTransferFailure (db : SyncDb) (policy : SyncRetryPolicy) (task : TaskRow)
    (errorMessage : String) : SyncDb :=
  ((db.finalize task fun t =>
    { t with
      status := .failed
      errorMessage := some errorMessage
      retryCount := task.retryCount + 1 }).map fun db' =>
        db'.updatePeer task.peerInstanceId fun p =>
          { p with
            activeTransfers := max (p.activeTransfers - 1) 0
            consecutiveFailures := p.consecutiveFailures + 1
            transferFailuresTotal := p.transferFailuresTotal + 1
            backoffUntil :=
              some (db.now + policy.calculateBackoff p.consecutiveFailures * 1000) }).getD db

end SyncDb

/-- Every row that a claim returns belongs to the peer it was made for. -/
theorem SyncDb.claimPendingSyncTasks_peer {db : SyncDb} {policy : SyncRetryPolicy} {peerId : Uuid}
    {availableSlots concurrentLimit : ℤ} {claimedBy : String} {claimTtlMs : ℤ}
    {token : Uuid → Uuid} {row : TaskRow}
    (h : row ∈ (db.claimPendingSyncTasks policy peerId availableSlots concurrentLimit claimedBy
      claimTtlMs token).2) : row.peerInstanceId = peerId := by
  simp only [SyncDb.claimPendingSyncTasks, List.mem_filterMap] at h
  obtain ⟨t, ht, hrow⟩ := h
  have hmem := (List.mem_insertionSort _).mp (List.mem_of_mem_take ht)
  simp only [List.mem_filter, Bool.and_eq_true, beq_iff_eq] at hmem
  simp only [SyncDb.taskRow, Option.map_eq_some_iff] at hrow
  obtain ⟨a, -, rfl⟩ := hrow
  exact hmem.2.1.1.1

end ArtifactKeeper.Sync
