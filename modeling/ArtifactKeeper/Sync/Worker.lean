import ArtifactKeeper.Machine
import ArtifactKeeper.Sync.Tasks

/-! The sync worker: a tick claims due tasks peer by peer and spawns a transfer for each, to the
endpoint that scored peer selection picks for the artifact or else to the task's own peer. -/

namespace ArtifactKeeper.Sync

/-- What lives outside: the `f64` score and its `partial_cmp`, regular expressions (`none` for a
pattern that does not compile), timezone offsets, the chunk plan (index, offset, length), the text
of a `StatusCode`, and the configuration. -/
structure SyncEnv (φ : Type) where
  score : (chunks bandwidth latency : ℤ) → φ
  partialCmp : φ → φ → Option Ordering
  regexMatch : String → String → Option Bool
  parseUtcOffsetSecs : String → ℤ
  chunkRanges : ℤ → List (ℤ × ℤ × ℤ)
  statusText : ℕ → String
  chunkedThreshold : ℤ
  retryPolicy : SyncRetryPolicy
  claimTtlMs : ℤ
  workerIdentity : String

structure ScoredPeer (φ : Type) where
  nodeId : Uuid
  endpointUrl : String
  latencyMs : Option ℤ
  bandwidthEstimateBps : Option ℤ
  availableChunks : ℤ
  score : φ

section Selection
variable {φ : Type} (E : SyncEnv φ)

/-- `ASC NULLS LAST`. -/
def latencyLe : Option ℤ → Option ℤ → Bool
  | some x, some y => decide (x ≤ y)
  | some _, none => true
  | none, some _ => false
  | none, none => true

/-- Connected peers that have chunks of the artifact, in the order of the SQL. -/
def getScoredPeersForArtifact (db : SyncDb) (requestingPeerId artifactId : Uuid) :
    List (ScoredPeer φ) :=
  let rows := db.connections.flatMap fun pc => db.peers.filterMap fun pi =>
    if pc.sourcePeerId = requestingPeerId ∧ pc.status = .active ∧ pi.id = pc.targetPeerId ∧
        (pi.status = .online ∨ pi.status = .syncing) then some (pc, pi) else none
  let ordered := rows.insertionSort fun a b => latencyLe a.1.latencyMs b.1.latencyMs = true
  ordered.filterMap fun (pc, pi) =>
    let chunks := ((db.chunkAvailability.find? fun ca =>
      ca.peerInstanceId == pc.targetPeerId && ca.artifactId == artifactId).map
        (·.availableChunks)).getD 0
    if 0 < chunks then
      some ⟨pc.targetPeerId, pi.endpointUrl, pc.latencyMs, pc.bandwidthEstimateBps, chunks,
        E.score chunks (pc.bandwidthEstimateBps.getD 1000000) (pc.latencyMs.getD 500)⟩
    else none

/-- `Iterator::max_by`: of two elements that compare equal the later one is kept. -/
def pickBestPeer : List (ScoredPeer φ) → Option (ScoredPeer φ)
  | [] => none
  | p :: rest => some (rest.foldl (fun best q =>
      match (E.partialCmp best.score q.score).getD .eq with
      | .gt => best
      | _ => q) p)

def resolveScoredPeer (db : SyncDb) (localPeerId : Option Uuid) (artifactId : Uuid) :
    Option (String × String) := do
  let localId ← localPeerId
  let best ← pickBestPeer E (getScoredPeersForArtifact E db localId artifactId)
  let row ← db.peers.find? fun p => p.id == best.nodeId
  return (best.endpointUrl, row.apiKey)

def matchesReplicationFilter (identifier : String) : Option ReplicationFilter → Bool
  | none => true
  | some filter =>
    -- the first pattern that matches or does not compile decides the include list
    let included := match filter.includePatterns with
      | none | some [] => true
      | some patterns => ((patterns.filterMap id).findSome? fun p =>
          match E.regexMatch p identifier with
          | some true => some true
          | some false => none
          | none => some false).getD false
    let excluded := ((filter.excludePatterns.getD []).filterMap id).any fun p =>
      (E.regexMatch p identifier).getD false
    included && !excluded

def isWithinSyncWindow (start stop now : ℤ) : Bool :=
  if start ≤ stop then decide (start ≤ now ∧ now < stop) else decide (start ≤ now ∨ now < stop)

/-- The peer is inside its sync window at `secondOfDay` UTC, or has none. -/
def inSyncWindow (peer : PeerInstance) (secondOfDay : ℤ) : Bool :=
  match peer.syncWindowStart, peer.syncWindowEnd with
  | some start, some stop => isWithinSyncWindow start stop
      ((secondOfDay + E.parseUtcOffsetSecs (peer.syncWindowTimezone.getD "UTC")) % 86400)
  | _, _ => true

def computeAvailableSlots (peer : PeerInstance) : ℤ :=
  peer.concurrentTransfersLimit.getD 5 - peer.activeTransfers

end Selection

def TaskRow.identifier (t : TaskRow) : String :=
  match t.artifact.version with
  | some v => if v.isEmpty then t.artifact.name else t.artifact.name ++ ":" ++ v
  | none => t.artifact.name

def TaskRow.hasReplicationMetadata (t : TaskRow) : Bool :=
  (t.artifact.metadataFormat.isSome && t.artifact.metadata.isSome) ||
    t.artifact.packageDescription.isSome || t.artifact.packageMetadata.isSome

/-- A spawned `execute_transfer`. `targetRows` records the rows of the task's peer that the worker
could read when it dispatched: the one its tick fetched and those then in the table. -/
structure Transfer where
  task : TaskRow
  peerEndpoint : String
  peerApiKey : String
  targetRows : List PeerInstance

/-- A response with its status and body, or a transport error. For the session request, `session`
tells how the body parses: an error, or whether it holds a session id. -/
inductive HttpReply where
  | response (status : ℕ) (body : String) (session : Except String Bool)
  | failed (error : String)

inductive TransferPc where
  | start
  | delete
  | read
  | put (bytes : ℤ)
  | init
  | chunks (left : List (ℤ × ℤ × ℤ)) (bytes : ℤ)
  | complete (bytes : ℤ)

inductive SyncProc where
  | idle
  | fetching
  | resetting (localPeerId : Option Uuid) (peers : List PeerInstance)
  | tick (localPeerId : Option Uuid) (secondOfDay : ℤ) (peers : List PeerInstance)
  | dispatching (localPeerId : Option Uuid) (secondOfDay : ℤ) (peer : PeerInstance)
      (tasks : List TaskRow) (peers : List PeerInstance)
  | transfer (t : Transfer) (pc : TransferPc)
  | finished

inductive SyncAction where
  | recover
  | fetch
  | reset (secondOfDay : ℤ)
  | visit (token : Uuid → Uuid)
  | dispatch
  | spawn
  | begin
  | storage (result : Except String ℤ)
  | reply (r : HttpReply)
  | edit (now : ℤ) (peers : List PeerInstance) (connections : List PeerConnection)
      (chunkAvailability : List ChunkAvailability) (artifacts : List Artifact)
      (subscriptions : List Subscription)
  | enqueue (task : SyncTask)

/-- The database, the transfers handed to the runtime, and those that marked their task completed
after a successful request. -/
structure SyncState where
  db : SyncDb
  spawned : List Transfer
  completed : List Transfer

def isSuccess (status : ℕ) : Bool := decide (200 ≤ status ∧ status < 300)
def deleteResponseIsSuccess (status : ℕ) : Bool := isSuccess status || status == 404

def formatPeerResponseFailure (action : String) (status : ℕ) (body : String) : String :=
  action ++ " " ++ toString status ++ ": " ++ body

section Transfer
variable {φ : Type} (E : SyncEnv φ)

/-- `handle_transfer_success`, logged when it finds the claim still held. -/
def SyncState.succeed (s : SyncState) (t : Transfer) (bytes : ℤ) : SyncState × SyncProc :=
  match s.db.handleTransferSuccess t.task bytes with
  | some db => ({ s with db := db, completed := t :: s.completed }, .finished)
  | none => (s, .finished)

def SyncState.fail (s : SyncState) (t : Transfer) (message : String) : SyncState × SyncProc :=
  ({ s with db := s.db.handleTransferFailure E.retryPolicy t.task message }, .finished)

def afterChunks (t : Transfer) (left : List (ℤ × ℤ × ℤ)) (bytes : ℤ) : SyncProc :=
  match left with
  | [] => .transfer t (.complete bytes)
  | _ => .transfer t (.chunks left bytes)

/-- One step of a transfer on the answer of storage or of the peer. -/
def transferStep (s : SyncState) (t : Transfer) :
    TransferPc → SyncAction → Option (SyncState × SyncProc)
  | .start, .begin =>
    some ({ s with db := s.db.updatePeer t.task.peerInstanceId fun p =>
        { p with activeTransfers := p.activeTransfers + 1 } },
      .transfer t (if t.task.taskType = "delete" then .delete
        else if E.chunkedThreshold ≤ t.task.artifact.sizeBytes ∨
            t.task.hasReplicationMetadata = true then .init
        else .read))
  | .delete, .reply (.response status body _) =>
    some (if deleteResponseIsSuccess status then s.succeed t 0
      else s.fail E t ("Remote peer returned " ++ E.statusText status ++ " for delete: " ++ body))
  | .delete, .reply (.failed e) => some (s.fail E t ("HTTP delete request failed: " ++ e))
  | .read, .storage (.ok n) => some (s, .transfer t (.put n))
  | .read, .storage (.error e) => some (s.fail E t ("Storage read error: " ++ e))
  | .put n, .reply (.response status body _) =>
    some (if isSuccess status then s.succeed t n
      else s.fail E t (formatPeerResponseFailure "Remote peer returned" status body))
  | .put _, .reply (.failed e) => some (s.fail E t ("HTTP request failed: " ++ e))
  -- a transport error on the session request returns without settling the task
  | .init, .reply (.failed _) => some (s, .finished)
  | .init, .reply (.response status body session) =>
    some (if !isSuccess status then
        s.fail E t (formatPeerResponseFailure "Chunked upload init returned" status body)
      else match session with
        | .error e => s.fail E t ("Failed to parse upload session response: " ++ e)
        | .ok false => s.fail E t "Missing session_id in chunked upload init response"
        | .ok true => (s, afterChunks t (E.chunkRanges t.task.artifact.sizeBytes) 0))
  | .chunks ((i, offset, length) :: _) _, .storage (.error e) =>
    some (s.fail E t ("Failed to read chunk " ++ toString i ++ " (offset=" ++ toString offset ++
      ", len=" ++ toString length ++ "): " ++ e))
  | .chunks ((i, _, length) :: rest) bytes, .reply (.response status body _) =>
    some (if isSuccess status then
        ({ s with db := s.db.extendSyncTaskClaim t.task E.claimTtlMs },
          afterChunks t rest (bytes + length))
      else s.fail E t ("Chunk " ++ toString i ++ " upload returned " ++ E.statusText status ++
        ": " ++ body))
  | .chunks ((i, _, _) :: _) _, .reply (.failed e) =>
    some (s.fail E t ("Chunk " ++ toString i ++ " upload failed: " ++ e))
  | .complete bytes, .reply (.response status body _) =>
    some (if isSuccess status then s.succeed t bytes
      else s.fail E t ("Chunked upload session complete returned " ++ E.statusText status ++ ": " ++
        body))
  | .complete _, .reply (.failed e) =>
    some (s.fail E t ("Chunked upload session complete failed: " ++ e))
  | _, _ => none

/-- What `execute_transfer` returns on an answer; `none` while it goes on. -/
def transferResult : TransferPc → SyncAction → Option (Except String Unit)
  | .delete, .reply (.response status body _) =>
    some (if deleteResponseIsSuccess status then .ok ()
      else .error ("Remote peer returned " ++ E.statusText status ++ " for delete: " ++ body))
  | .delete, .reply (.failed e) => some (.error ("HTTP delete request failed: " ++ e))
  | .read, .storage (.error e) => some (.error ("Storage read error: " ++ e))
  | .put _, .reply (.response status body _) =>
    some (if isSuccess status then .ok ()
      else .error (formatPeerResponseFailure "Remote peer returned" status body))
  | .put _, .reply (.failed e) => some (.error ("HTTP request failed: " ++ e))
  | .init, .reply (.failed e) => some (.error ("Failed to init chunked upload: " ++ e))
  | .init, .reply (.response status body session) =>
    if !isSuccess status then
      some (.error (formatPeerResponseFailure "Chunked upload init returned" status body))
    else match session with
      | .error e => some (.error ("Failed to parse upload session response: " ++ e))
      | .ok false => some (.error "Missing session_id in chunked upload init response")
      | .ok true => none
  | .chunks ((i, offset, length) :: _) _, .storage (.error e) =>
    some (.error ("Failed to read chunk " ++ toString i ++ " (offset=" ++ toString offset ++
      ", len=" ++ toString length ++ "): " ++ e))
  | .chunks ((i, _, _) :: _) _, .reply (.response status body _) =>
    if isSuccess status then none
    else some (.error ("Chunk " ++ toString i ++ " upload returned " ++ E.statusText status ++
      ": " ++ body))
  | .chunks ((i, _, _) :: _) _, .reply (.failed e) =>
    some (.error ("Chunk " ++ toString i ++ " upload failed: " ++ e))
  | .complete _, .reply (.response status body _) =>
    some (if isSuccess status then .ok ()
      else .error ("Chunked upload session complete returned " ++ E.statusText status ++ ": " ++
        body))
  | .complete _, .reply (.failed e) =>
    some (.error ("Chunked upload session complete failed: " ++ e))
  | _, _ => none

/-- The session request of a chunked transfer fails in transport. -/
def initFailed : TransferPc → SyncAction → Prop
  | .init, .reply (.failed _) => True
  | _, _ => False

/-- The state that a transfer with this result leaves by its finalizer. -/
def Finalized (s : SyncState) (t : Transfer) (result : Except String Unit)
    (s' : SyncState) : Prop :=
  (∃ message, result = .error message ∧ s' = (s.fail E t message).1) ∨
    ∃ bytes, result = .ok () ∧ s' = (s.succeed t bytes).1

/-- What a step of a transfer can do: begin, go on, or return, by a finalizer or without one. -/
inductive TransferEffect (s : SyncState) (t : Transfer) (pc : TransferPc) (a : SyncAction) :
    SyncState → SyncProc → Prop
  | begin (pc' : TransferPc) : pc = .start → pc' ≠ .start →
      TransferEffect s t pc a
        { s with db := s.db.updatePeer t.task.peerInstanceId fun p =>
          { p with activeTransfers := p.activeTransfers + 1 } } (.transfer t pc')
  | goesOn (db' : SyncDb) (pc' : TransferPc) : pc ≠ .start → pc' ≠ .start →
      (db' = s.db ∨ db' = s.db.extendSyncTaskClaim t.task E.claimTtlMs) →
      TransferEffect s t pc a { s with db := db' } (.transfer t pc')
  | unsettled : initFailed pc a → TransferEffect s t pc a s .finished
  | settled (result : Except String Unit) (s' : SyncState) : ¬ initFailed pc a →
      transferResult E pc a = some result → Finalized E s t result s' →
      TransferEffect s t pc a s' .finished

/-- Dispatch one claimed task: complete it if filtered out, else spawn its transfer. -/
def dispatchTask (s : SyncState) (localPeerId : Option Uuid) (peer : PeerInstance)
    (task : TaskRow) : SyncState :=
  if !matchesReplicationFilter E task.identifier task.replicationFilter then
    { s with db := s.db.completeFiltered task }
  else
    let address := (resolveScoredPeer E s.db localPeerId task.artifactId).getD
      (peer.endpointUrl, peer.apiKey)
    { s with spawned := s.spawned ++ [⟨task, address.1, address.2,
        peer :: s.db.peers.filter fun p => p.id == task.peerInstanceId⟩] }

/-- Worker ticks and transfers on any number of replicas; `edit` and `enqueue` stand for the rest
of the system, which may rewrite every other table. -/
def syncProtocol : Protocol SyncState SyncProc SyncAction where
  step _ s l a :=
    match l, a with
    | l, .edit now peers connections chunkAvailability artifacts subscriptions =>
      some ({ s with db :=
        ⟨now, peers, connections, chunkAvailability, artifacts, subscriptions, s.db.tasks⟩ }, l)
    | l, .enqueue task => some ({ s with db := { s.db with tasks := s.db.tasks ++ [task] } }, l)
    | .idle, .recover => some ({ s with db := s.db.recoverExpiredSyncTaskClaims }, .fetching)
    | .fetching, .fetch =>
      some (s, match s.db.fetchPeers with
        | [] => .finished
        | peers => .resetting s.db.getLocalPeerId peers)
    | .resetting localPeerId peers, .reset secondOfDay =>
      some ({ s with db := s.db.resetRetriable E.retryPolicy }, .tick localPeerId secondOfDay peers)
    | .tick _ _ [], .visit _ => some (s, .finished)
    | .tick localPeerId secondOfDay (peer :: peers), .visit token =>
      if !inSyncWindow E peer secondOfDay || decide (computeAvailableSlots peer ≤ 0) then
        some (s, .tick localPeerId secondOfDay peers)
      else
        let claimed := s.db.claimPendingSyncTasks E.retryPolicy peer.id (computeAvailableSlots peer)
          (peer.concurrentTransfersLimit.getD 5) E.workerIdentity E.claimTtlMs token
        some ({ s with db := claimed.1 }, .dispatching localPeerId secondOfDay peer claimed.2 peers)
    | .dispatching localPeerId secondOfDay _ [] peers, .dispatch =>
      some (s, .tick localPeerId secondOfDay peers)
    | .dispatching localPeerId secondOfDay peer (task :: tasks) peers, .dispatch =>
      some (dispatchTask E s localPeerId peer task,
        .dispatching localPeerId secondOfDay peer tasks peers)
    | .idle, .spawn =>
      match s.spawned with
      | [] => none
      | t :: rest => some ({ s with spawned := rest }, .transfer t .start)
    | .transfer t pc, a => transferStep E s t pc a
    | _, _ => none

/-- The task a step dispatches, with the local instance and the peer row of the tick. -/
def dispatched : SyncProc → SyncAction → Option (Option Uuid × PeerInstance × TaskRow)
  | .dispatching localPeerId _ peer (task :: _) _, .dispatch => some (localPeerId, peer, task)
  | _, _ => none

/-- Where a task that is not filtered out is dispatched, scored peer selection finds no peer or one
with the endpoint and the key of the task's own peer. -/
def servesTarget (w : World SyncState SyncProc) (a : ℕ × SyncAction) : Prop :=
  ∀ d ∈ dispatched (w.procs a.1) a.2,
    matchesReplicationFilter E d.2.2.identifier d.2.2.replicationFilter = true →
    ∀ address ∈ resolveScoredPeer E w.shared.db d.1 d.2.2.artifactId,
      ∃ r ∈ d.2.1 :: w.shared.db.peers.filter fun p => p.id == d.2.2.peerInstanceId,
        r.id = d.2.2.peerInstanceId ∧ (r.endpointUrl, r.apiKey) = address

instance (w : World SyncState SyncProc) (a : ℕ × SyncAction) : Decidable (servesTarget E w a) :=
  inferInstanceAs (Decidable (∀ d ∈ dispatched (w.procs a.1) a.2, _))

/-- The requests of the transfer go to the endpoint of the task's own peer, with its key. -/
def Transfer.ToTarget (t : Transfer) : Prop :=
  ∃ r ∈ t.targetRows, r.id = t.task.peerInstanceId ∧ t.peerEndpoint = r.endpointUrl ∧
    t.peerApiKey = r.apiKey

def TransfersOk (s : SyncState) : Prop :=
  (∀ t ∈ s.spawned, t.ToTarget) ∧ ∀ t ∈ s.completed, t.ToTarget

/-- Transfers go to their target, and a tick dispatches the tasks of the peer it visits. -/
def SyncProcOk (_ : ℕ) (l : SyncProc) (_ : SyncState) : Prop :=
  match l with
  | .transfer t _ => t.ToTarget
  | .dispatching _ _ peer tasks _ => ∀ task ∈ tasks, task.peerInstanceId = peer.id
  | .idle | .fetching | .resetting _ _ | .tick _ _ _ | .finished => True

variable {E} {s s' : SyncState} {l' : SyncProc}

theorem succeed_ok (hs : TransfersOk s) {t : Transfer} (ht : t.ToTarget) (bytes : ℤ) :
    TransfersOk (s.succeed t bytes).1 := by
  unfold SyncState.succeed
  split
  · refine ⟨hs.1, fun t' ht' => ?_⟩
    rcases List.mem_cons.mp ht' with rfl | hmem
    · exact ht
    · exact hs.2 t' hmem
  · exact hs

section Effects
variable {t : Transfer} {pc : TransferPc} {a : SyncAction}

theorem fail_effect {message : String} (hnot : ¬ initFailed pc a)
    (hresult : transferResult E pc a = some (.error message))
    (h : some (s.fail E t message) = some (s', l')) : TransferEffect E s t pc a s' l' := by
  cases h
  exact .settled _ _ hnot hresult (.inl ⟨message, rfl, rfl⟩)

/-- A step that ends with the answer of the peer. -/
theorem answer_effect {c : Prop} [Decidable c] {bytes : ℤ} {message : String}
    (hnot : ¬ initFailed pc a)
    (hresult : transferResult E pc a = some (if c then .ok () else .error message))
    (h : some (if c then s.succeed t bytes else s.fail E t message) = some (s', l')) :
    TransferEffect E s t pc a s' l' := by
  split at h
  · next hc =>
    rw [if_pos hc] at hresult
    have hpair := Option.some.inj h
    have hfinished : (s.succeed t bytes).2 = .finished := by
      unfold SyncState.succeed
      split <;> rfl
    rw [hpair] at hfinished
    subst hfinished
    exact .settled _ _ hnot hresult (.inr ⟨bytes, rfl, congrArg (·.1) hpair.symm⟩)
  · next hc =>
    rw [if_neg hc] at hresult
    exact fail_effect hnot hresult h

/-- After a chunk the transfer goes on with the next one, or with the last request. -/
theorem afterChunks_effect {db' : SyncDb} {left : List (ℤ × ℤ × ℤ)} {bytes : ℤ} (hpc : pc ≠ .start)
    (hdb : db' = s.db ∨ db' = s.db.extendSyncTaskClaim t.task E.claimTtlMs)
    (h : some ({ s with db := db' }, afterChunks t left bytes) = some (s', l')) :
    TransferEffect E s t pc a s' l' := by
  cases h
  unfold afterChunks
  split
  · exact .goesOn db' _ hpc (by simp) hdb
  · exact .goesOn db' _ hpc (by simp) hdb

theorem transferStep_effect (h : transferStep E s t pc a = some (s', l')) :
    TransferEffect E s t pc a s' l' := by
  cases pc with
  | start =>
    cases a <;> cases h
    refine .begin _ rfl ?_
    split
    · simp
    · split <;> simp
  | delete =>
    cases a <;> try cases h
    next r =>
    cases r with
    | response status body session => exact answer_effect id rfl h
    | failed e => exact fail_effect id rfl h
  | read =>
    cases a <;> try cases h
    next result =>
    cases result with
    | ok n =>
      cases h
      exact .goesOn s.db _ (by simp) (by simp) (.inl rfl)
    | error e => exact fail_effect id rfl h
  | put n =>
    cases a <;> try cases h
    next r =>
    cases r with
    | response status body session => exact answer_effect id rfl h
    | failed e => exact fail_effect id rfl h
  | init =>
    cases a <;> try cases h
    next r =>
    cases r with
    | response status body session =>
      simp only [transferStep] at h
      split at h
      · next hstatus => exact fail_effect id (if_pos hstatus) h
      · next hstatus =>
        rcases session with e | _ | _
        · exact fail_effect id (if_neg hstatus) h
        · exact fail_effect id (if_neg hstatus) h
        · exact afterChunks_effect (by simp) (.inl rfl) h
    | failed e =>
      cases h
      exact .unsettled trivial
  | chunks left bytes =>
    cases left with
    | nil => cases a <;> cases h
    | cons chunk rest =>
      obtain ⟨i, offset, length⟩ := chunk
      cases a <;> try cases h
      · next result =>
        cases result with
        | ok n => cases h
        | error e => exact fail_effect id rfl h
      · next r =>
        cases r with
        | response status body session =>
          simp only [transferStep] at h
          split at h
          · exact afterChunks_effect (by simp) (.inr rfl) h
          · next hstatus => exact fail_effect id (if_neg hstatus) h
        | failed e => exact fail_effect id rfl h
  | complete bytes =>
    cases a <;> try cases h
    next r =>
    cases r with
    | response status body session => exact answer_effect id rfl h
    | failed e => exact fail_effect id rfl h

end Effects

/-- No step of a transfer changes where it goes. -/
theorem transferStep_ok (hs : TransfersOk s) {t : Transfer} (ht : t.ToTarget) {pc : TransferPc}
    {a : SyncAction} {p : ℕ} (h : transferStep E s t pc a = some (s', l')) :
    TransfersOk s' ∧ SyncProcOk p l' s' := by
  cases transferStep_effect h with
  | begin | goesOn => exact ⟨hs, ht⟩
  | unsettled => exact ⟨hs, trivial⟩
  | settled result _ _ _ hfinal =>
    rcases hfinal with ⟨message, -, rfl⟩ | ⟨bytes, -, rfl⟩
    · exact ⟨hs, trivial⟩
    · exact ⟨succeed_ok hs ht bytes, trivial⟩

theorem dispatchTask_ok (hs : TransfersOk s) {localPeerId : Option Uuid} {peer : PeerInstance}
    {task : TaskRow} (hpeer : task.peerInstanceId = peer.id)
    (hserves : matchesReplicationFilter E task.identifier task.replicationFilter = true →
      ∀ address ∈ resolveScoredPeer E s.db localPeerId task.artifactId,
        ∃ r ∈ peer :: s.db.peers.filter fun p => p.id == task.peerInstanceId,
          r.id = task.peerInstanceId ∧ (r.endpointUrl, r.apiKey) = address) :
    TransfersOk (dispatchTask E s localPeerId peer task) := by
  unfold dispatchTask
  split
  · exact hs
  next hmatch =>
  refine ⟨fun t ht => ?_, hs.2⟩
  rcases List.mem_append.mp ht with hold | hnew
  · exact hs.1 t hold
  obtain rfl := List.mem_singleton.mp hnew
  cases hres : resolveScoredPeer E s.db localPeerId task.artifactId with
  | none => exact ⟨peer, List.mem_cons_self, hpeer.symm, rfl, rfl⟩
  | some address =>
    obtain ⟨r, hr, hid, haddr⟩ := hserves (by simpa using hmatch) address hres
    exact ⟨r, hr, hid, congrArg Prod.fst haddr.symm, congrArg Prod.snd haddr.symm⟩

/-- Steps that serve their target keep every transfer, and every completion, on target. -/
theorem syncProtocol_step {w : World SyncState SyncProc} {p : ℕ} {a : SyncAction}
    (hs : TransfersOk w.shared) (hl : SyncProcOk p (w.procs p) w.shared)
    (hok : servesTarget E w (p, a))
    (h : (syncProtocol E).step p w.shared (w.procs p) a = some (s', l')) :
    TransfersOk s' ∧ SyncProcOk p l' s' := by
  cases hp : w.procs p with
  | idle =>
    rw [hp] at h
    cases a <;> try cases h
    case spawn =>
      simp only [syncProtocol] at h
      split at h
      · cases h
      · next t rest hspawned =>
        cases h
        refine ⟨⟨fun t' ht' => hs.1 t' ?_, hs.2⟩, hs.1 t ?_⟩
        · rw [hspawned]
          exact List.mem_cons_of_mem _ ht'
        · rw [hspawned]
          exact List.mem_cons_self
    all_goals exact ⟨hs, trivial⟩
  | fetching =>
    rw [hp] at h
    cases a with
    | fetch =>
      cases h
      refine ⟨hs, ?_⟩
      split <;> trivial
    | edit _ _ _ _ _ _ | enqueue _ =>
      cases h
      exact ⟨hs, trivial⟩
    | recover | reset _ | visit _ | dispatch | spawn | begin | storage _ | reply _ => cases h
  | resetting localPeerId peers =>
    rw [hp] at h
    cases a <;> cases h
    all_goals exact ⟨hs, trivial⟩
  | tick localPeerId secondOfDay peers =>
    rw [hp] at h
    cases a with
    | visit token =>
      cases peers with
      | nil =>
        cases h
        exact ⟨hs, trivial⟩
      | cons peer rest =>
        simp only [syncProtocol] at h
        split at h
        · cases h
          exact ⟨hs, trivial⟩
        · cases h
          exact ⟨hs, fun task htask => SyncDb.claimPendingSyncTasks_peer htask⟩
    | edit _ _ _ _ _ _ | enqueue _ =>
      cases h
      exact ⟨hs, trivial⟩
    | recover | fetch | reset _ | dispatch | spawn | begin | storage _ | reply _ =>
      cases peers <;> cases h
  | dispatching localPeerId secondOfDay peer tasks peers =>
    rw [hp] at h hl
    cases a with
    | dispatch =>
      cases tasks with
      | nil =>
        cases h
        exact ⟨hs, trivial⟩
      | cons task rest =>
        cases h
        refine ⟨dispatchTask_ok hs (hl task List.mem_cons_self) ?_,
          fun t ht => hl t (List.mem_cons_of_mem _ ht)⟩
        exact hok (localPeerId, peer, task) (by rw [hp]; rfl)
    | edit _ _ _ _ _ _ | enqueue _ =>
      cases h
      exact ⟨hs, hl⟩
    | recover | fetch | reset _ | visit _ | spawn | begin | storage _ | reply _ =>
      cases tasks <;> cases h
  | transfer t pc =>
    rw [hp] at h hl
    cases a with
    | edit _ _ _ _ _ _ | enqueue _ =>
      cases h
      exact ⟨hs, hl⟩
    | recover | fetch | reset _ | visit _ | dispatch | spawn | begin | storage _ | reply _ =>
      exact transferStep_ok hs hl h
  | finished =>
    rw [hp] at h
    cases a <;> cases h
    all_goals exact ⟨hs, trivial⟩

end Transfer

/-- While every dispatch serves its target, a task is marked completed by a transfer only after a
successful request to the endpoint of the task's own peer, with that peer's key. -/
theorem completed_reached_target {φ : Type} (E : SyncEnv φ) (db : SyncDb)
    {w : World SyncState SyncProc}
    (h : (syncProtocol E).machine.Reach (servesTarget E) ⟨⟨db, [], []⟩, fun _ => .idle⟩ w) :
    ∀ t ∈ w.shared.completed, t.ToTarget := by
  have hall := Protocol.reach_rely_guarantee (I := TransfersOk) (A := SyncProcOk) h
    ⟨fun t ht => (List.not_mem_nil ht).elim, fun t ht => (List.not_mem_nil ht).elim⟩
    (fun _ => trivial) fun w p a s' l' hs hl hok hstep => by
      obtain ⟨hs', hl'⟩ := syncProtocol_step hs (hl p) hok hstep
      exact ⟨hs', hl', fun q _ => hl q⟩
  exact hall.1.2

/-- Small whole scores, every pattern matches, one chunk per artifact. -/
def plainSyncEnv : SyncEnv ℤ where
  score chunks bandwidth latency := chunks * bandwidth / max latency 1
  partialCmp x y := some (compare x y)
  regexMatch _ _ := some true
  parseUtcOffsetSecs _ := 0
  chunkRanges size := [(0, 0, size)]
  statusText status := toString status
  chunkedThreshold := 104857600
  retryPolicy := ⟨3, 30, 3600⟩
  claimTtlMs := 300000
  workerIdentity := "worker-1"

def plainPeer (id : Uuid) (name : String) (isLocal : Bool) : PeerInstance :=
  ⟨id, name, "https://" ++ name, "key-" ++ name, isLocal, .online, none, none, none, none, none,
    0, 0, 0, 0, none⟩

/-- A hub and two edges; the task pushes artifact 10 to edge-a. `availability` lists the edges that
hold chunks of it. -/
def hubAndEdges (availability : List ChunkAvailability) : SyncDb where
  now := 0
  peers := [plainPeer 1 "hub" true, plainPeer 2 "edge-a" false, plainPeer 3 "edge-b" false]
  connections := [⟨1, 3, .active, some 100, some 1000000⟩]
  chunkAvailability := availability
  artifacts := [⟨10, 7, false, "lib", some "1.0", 2048, none, none, none, none⟩]
  subscriptions := [⟨2, 7, none, none⟩]
  tasks := [⟨40, 2, 10, 0, 0, .pending, "push", 0, 3, none, none, none, 0, none⟩]

/-- One tick and one transfer that the peer it was sent to accepts. -/
def oneTransfer : List (ℕ × SyncAction) :=
  [(0, .recover), (0, .fetch), (0, .reset 0), (0, .visit fun _ => 900), (0, .dispatch),
    (1, .spawn), (1, .begin), (1, .storage (.ok 2048)), (1, .reply (.response 201 "" (.ok false)))]

/-- Edge-b holds chunks of the artifact, so it gets the upload and the task for edge-a is marked
completed. -/
theorem completed_at_other_peer : ∃ w t,
    (syncProtocol plainSyncEnv).machine.run ⟨⟨hubAndEdges [⟨3, 10, 5⟩], [], []⟩, fun _ => .idle⟩
        oneTransfer = some w ∧
      w.shared.completed = [t] ∧ t.task.peerInstanceId = 2 ∧
      t.peerEndpoint = "https://edge-b" ∧ t.peerApiKey = "key-edge-b" ∧ ¬ t.ToTarget := by
  refine ⟨_, _, rfl, rfl, rfl, rfl, rfl, ?_⟩
  unfold Transfer.ToTarget
  decide

/-- With no chunks known anywhere the upload goes to edge-a. -/
theorem completed_reached_edge : ∃ w t,
    (syncProtocol plainSyncEnv).machine.run ⟨⟨hubAndEdges [], [], []⟩, fun _ => .idle⟩ oneTransfer =
        some w ∧ w.shared.completed = [t] ∧ t.ToTarget := by
  have hmeets : (syncProtocol plainSyncEnv).machine.Meets (servesTarget plainSyncEnv)
      ⟨⟨hubAndEdges [], [], []⟩, fun _ => .idle⟩ oneTransfer := by
    decide
  have hreach := fun w h => @Machine.reach_of_run _ _ _ _ _ w _ h hmeets
  exact ⟨_, _, rfl, rfl, completed_reached_target plainSyncEnv (hubAndEdges []) (hreach _ rfl) _
    List.mem_cons_self⟩

end ArtifactKeeper.Sync
