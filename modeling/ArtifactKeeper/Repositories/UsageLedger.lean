import ArtifactKeeper.Auth.Claims
import ArtifactKeeper.Chunking
import ArtifactKeeper.Machine
import ArtifactKeeper.RowLocks
import Mathlib.Algebra.Order.Group.Int
import Mathlib.Algebra.Order.Monoid.Prod

/-! The usage ledger of the repositories: the triggers that charge it, its reconciliation, and quota
admission, as transactions of any number of clients. Each lock that a statement may wait for is a
step of its own. -/

namespace ArtifactKeeper.Repositories
open Chunking RowLocks

inductive SourceTable where
  | artifacts | proxyCacheArtifacts | ociBlobs
  deriving DecidableEq, Repr

/-- The unique key of a source row: its repository and its path or digest. -/
structure RowKey where
  table : SourceTable
  repositoryId : Uuid
  path : String
  deriving DecidableEq, Repr

/-- The columns of a source row that the triggers read. -/
structure SourceRow where
  sizeBytes : ℕ
  isDeleted : Bool
  storageKey : String
  deriving DecidableEq, Repr

/-- Hosted, proxy and OCI bytes: a row of `repository_usage_ledger`. -/
abbrev Usage := ℤ × ℤ × ℤ

/-- `is_deleted = false AND storage_key NOT LIKE 'proxy-cache/%'`. -/
def artifactContribution (row : SourceRow) : ℤ :=
  if row.isDeleted || "proxy-cache/".toList.isPrefixOf row.storageKey.toList then 0
  else row.sizeBytes

/-- A trigger function: the calls to `ak_usage_ledger_apply` for OLD and NEW with their
repositories. -/
def ledgerTrigger (component : ℤ → Usage) (contribution : SourceRow → ℤ) :
    Option (Uuid × SourceRow) → Option (Uuid × SourceRow) → List (Uuid × Usage)
  | none, none => []
  | some (oldId, old), none => [(oldId, component (-contribution old))]
  | some (oldId, old), some (newId, new) =>
    if newId ≠ oldId then
      [(oldId, component (-contribution old)), (newId, component (contribution new))]
    else [(newId, component (contribution new - contribution old))]
  | none, some (newId, new) => [(newId, component (contribution new))]

def akUsageLedgerArtifacts := ledgerTrigger (fun n => (n, 0, 0)) artifactContribution
def akUsageLedgerProxyCache := ledgerTrigger (fun n => (0, n, 0)) fun row => row.sizeBytes
def akUsageLedgerOciBlobs := ledgerTrigger (fun n => (0, 0, n)) fun row => row.sizeBytes

def SourceTable.trigger : SourceTable → Option (Uuid × SourceRow) → Option (Uuid × SourceRow) →
    List (Uuid × Usage)
  | .artifacts => akUsageLedgerArtifacts
  | .proxyCacheArtifacts => akUsageLedgerProxyCache
  | .ociBlobs => akUsageLedgerOciBlobs

/-- `none` while another transaction holds the row. Growth inserts a missing row, shrinking does
not; both are floored at 0. -/
def akUsageLedgerApply (p : ℕ) (ledger : Table Uuid Usage) (repositoryId : Uuid) (delta : Usage) :
    Option (Table Uuid Usage) :=
  if delta = 0 then some ledger
  else if 0 ≤ delta then
    if ledger.writable p repositoryId then
      some (ledger.write p repositoryId (some (match ledger.view p repositoryId with
        | none => delta
        | some u => (u + delta) ⊔ 0)))
    else none
  else match ledger.view p repositoryId with
    | none => some ledger
    | some u =>
      if ledger.writable p repositoryId then
        some (ledger.write p repositoryId (some ((u + delta) ⊔ 0)))
      else none

structure UsageState where
  sources : Table RowKey SourceRow
  ledger : Table Uuid Usage
  quotaBytes : Uuid → Option ℤ

/-- What a row of the table counts. -/
def SourceTable.contribution : SourceTable → SourceRow → ℤ
  | .artifacts => artifactContribution
  | .proxyCacheArtifacts => fun row => row.sizeBytes
  | .ociBlobs => fun row => row.sizeBytes

namespace UsageState

/-- `COALESCE(SUM(size_bytes), 0)` over the counted rows of one table and repository. -/
def sumBytes (s : UsageState) (rows : RowKey → Option SourceRow) (table : SourceTable)
    (repositoryId : Uuid) : ℤ :=
  s.sources.total (fun k row =>
    if k.table = table ∧ k.repositoryId = repositoryId then table.contribution row else 0) rows

/-- The sum over the union of the three tables. -/
def getStorageUsage (s : UsageState) (repositoryId : Uuid) : ℤ :=
  s.sumBytes s.sources.committed .artifacts repositoryId +
    s.sumBytes s.sources.committed .proxyCacheArtifacts repositoryId +
    s.sumBytes s.sources.committed .ociBlobs repositoryId

end UsageState

def quotaAllows (quotaBytes : Option ℤ) (currentUsage additionalBytes : ℤ) : Bool :=
  match quotaBytes with
  | some quota => if 0 < quota then asI64 (currentUsage + additionalBytes) ≤ quota else true
  | none => true

/-- An upload of `newSize` bytes to `path`. -/
structure Admission where
  repositoryId : Uuid
  path : String
  newSize : ℕ
  deriving DecidableEq, Repr

def Admission.key (a : Admission) : RowKey := ⟨.artifacts, a.repositoryId, a.path⟩

/-- Where a transaction is. The stages of `reconcile_usage_ledger_in_tx` carry the sums read so far
and the admission that asked for it with its quota, if one did. -/
inductive TxStage where
  | ready
  | reconcileInsert (repositoryId : Uuid) (next : Option (Admission × ℤ))
  | reconcileLock (repositoryId : Uuid) (next : Option (Admission × ℤ))
  | reconcileHosted (repositoryId : Uuid) (next : Option (Admission × ℤ))
  | reconcileProxy (repositoryId : Uuid) (hosted : ℤ) (next : Option (Admission × ℤ))
  | reconcileOci (repositoryId : Uuid) (hosted proxy : ℤ) (next : Option (Admission × ℤ))
  | reconcileWrite (repositoryId : Uuid) (hosted proxy oci : ℤ) (next : Option (Admission × ℤ))
  | quotaLock (admission : Admission) (quota : ℤ)
  | quotaNet (admission : Admission) (quota total : ℤ)
  | admitted (admission : Admission)
  deriving DecidableEq

/-- `calls` are the trigger calls that the row changes made so far have queued, each with the row it
is for; `deleting` the repositories whose deletion cascades, `dropped` those whose ledger row the
cascade has deleted. -/
structure Tx where
  deleting : List Uuid
  dropped : List Uuid
  calls : List (RowKey × Usage)
  stage : TxStage

inductive TxProc where
  | idle
  | active (tx : Tx)
  | finished

inductive UsageAction where
  | begin
  | change (k : RowKey) (new : Option SourceRow)
  | move (k : RowKey) (repositoryId : Uuid) (new : SourceRow)
  | fire
  | deleteRepository (repositoryId : Uuid)
  | dropLedger (repositoryId : Uuid)
  | reconcile (repositoryId : Uuid)
  | insertLedger
  | lockLedger
  | sum
  | writeSums
  | checkQuota (admission : Admission)
  | netExisting
  | upsert (storageKey : String)
  | commit
  | rollback

/-- The calls that the triggers queue for a change of one row. -/
def triggered (k : RowKey) (old new : Option SourceRow) : List (RowKey × Usage) :=
  (k.table.trigger (old.map (k.repositoryId, ·)) (new.map (k.repositoryId, ·))).map
    fun c => ({ k with repositoryId := c.1 }, c.2)

/-- The calls for a row that changes its repository. -/
def triggeredMove (k : RowKey) (repositoryId : Uuid) (old new : SourceRow) :
    List (RowKey × Usage) :=
  (k.table.trigger (some (k.repositoryId, old)) (some (repositoryId, new))).map
    fun c => ({ k with repositoryId := c.1 }, c.2)

/-- `hosted + proxy + oci` in `i64`. -/
def ledgerTotal (u : Usage) : ℤ := asI64 (asI64 (u.1 + u.2.1) + u.2.2)

def afterReconcile (u : Usage) : Option (Admission × ℤ) → TxStage
  | none => .ready
  | some (admission, quota) => .quotaNet admission quota (ledgerTotal u)

/-- The cascade has left nothing of the repository. -/
def UsageState.cascaded (s : UsageState) (p : ℕ) (repositoryId : Uuid) : Bool :=
  decide (∀ k ∈ s.sources.keys, k.repositoryId = repositoryId → s.sources.view p k = none) &&
    (s.ledger.view p repositoryId).isNone

def Tx.atStage (tx : Tx) (stage : TxStage) : Tx := { tx with stage := stage }

/-- Queue further trigger calls; row changes leave a transaction between statements. -/
def Tx.queue (tx : Tx) (calls : List (RowKey × Usage)) : Tx :=
  { tx with calls := tx.calls ++ calls, stage := .ready }

/-- The step of an open transaction; `none` while it has to wait. -/
def txStep (p : ℕ) (s : UsageState) (tx : Tx) (a : UsageAction) : Option (UsageState × Tx) :=
  match tx.stage, a with
  | .ready, .change k new =>
    if s.sources.writable p k ∧ (k.repositoryId ∈ tx.deleting → new = none) then
      some ({ s with sources := s.sources.write p k new },
        tx.queue (triggered k (s.sources.view p k) new))
    else none
  | .ready, .move k repositoryId new =>
    let k' := { k with repositoryId := repositoryId }
    match s.sources.view p k with
    | none => none
    | some old =>
      if repositoryId ≠ k.repositoryId ∧ s.sources.writable p k ∧ s.sources.writable p k' ∧
          s.sources.view p k' = none ∧ k.repositoryId ∉ tx.deleting ∧
          repositoryId ∉ tx.deleting then
        some ({ s with sources := (s.sources.write p k none).write p k' (some new) },
          tx.queue (triggeredMove k repositoryId old new))
      else none
  | .ready, .fire =>
    match tx.calls with
    | [] => none
    | (k, delta) :: rest =>
      (akUsageLedgerApply p s.ledger k.repositoryId delta).map fun ledger =>
        ({ s with ledger := ledger }, { tx with calls := rest })
  | .ready, .deleteRepository repositoryId =>
    if tx.calls = [] then some (s, { tx with deleting := repositoryId :: tx.deleting }) else none
  | .ready, .dropLedger repositoryId =>
    if repositoryId ∈ tx.deleting ∧ (s.ledger.view p repositoryId).isSome ∧
        s.ledger.writable p repositoryId then
      some ({ s with ledger := s.ledger.write p repositoryId none },
        { tx with dropped := repositoryId :: tx.dropped })
    else none
  | .ready, .reconcile repositoryId =>
    if tx.calls = [] ∧ repositoryId ∉ tx.deleting then
      some (s, tx.atStage (.reconcileInsert repositoryId none))
    else none
  | .reconcileInsert repositoryId next, .insertLedger =>
    let tx' := tx.atStage (.reconcileLock repositoryId next)
    if (s.ledger.view p repositoryId).isSome then some (s, tx')
    else if s.ledger.writable p repositoryId then
      some ({ s with ledger := s.ledger.write p repositoryId (some 0) }, tx')
    else none
  | .reconcileLock repositoryId next, .lockLedger =>
    -- without the row the statement fails, and only a rollback is left
    if (s.ledger.view p repositoryId).isSome ∧ s.ledger.writable p repositoryId then
      some ({ s with ledger := s.ledger.write p repositoryId (s.ledger.view p repositoryId) },
        tx.atStage (.reconcileHosted repositoryId next))
    else none
  | .reconcileHosted repositoryId next, .sum =>
    some (s, tx.atStage (.reconcileProxy repositoryId
      (s.sumBytes (s.sources.view p) .artifacts repositoryId) next))
  | .reconcileProxy repositoryId hosted next, .sum =>
    some (s, tx.atStage (.reconcileOci repositoryId hosted
      (s.sumBytes (s.sources.view p) .proxyCacheArtifacts repositoryId) next))
  | .reconcileOci repositoryId hosted proxy next, .sum =>
    some (s, tx.atStage (.reconcileWrite repositoryId hosted proxy
      (s.sumBytes (s.sources.view p) .ociBlobs repositoryId) next))
  | .reconcileWrite repositoryId hosted proxy oci next, .writeSums =>
    some ({ s with ledger := s.ledger.write p repositoryId (some (hosted, proxy, oci)) },
      tx.atStage (afterReconcile (hosted, proxy, oci) next))
  | .ready, .checkQuota admission =>
    if tx.calls = [] ∧ admission.repositoryId ∉ tx.deleting then
      some (s, tx.atStage (match s.quotaBytes admission.repositoryId with
        | some quota => if 0 < quota then .quotaLock admission quota else .admitted admission
        | none => .admitted admission))
    else none
  | .quotaLock admission quota, .lockLedger =>
    match s.ledger.view p admission.repositoryId with
    | none => some (s, tx.atStage
        (.reconcileInsert admission.repositoryId (some (admission, quota))))
    | some u =>
      if s.ledger.writable p admission.repositoryId then
        some ({ s with ledger := s.ledger.write p admission.repositoryId (some u) },
          tx.atStage (.quotaNet admission quota (ledgerTotal u)))
      else none
  | .quotaNet admission quota total, .netExisting =>
    let existingAtPath := Table.weight (fun _ row => artifactContribution row) admission.key
      (s.sources.view p admission.key)
    let baseUsage := asI64 (total - existingAtPath)
    some (s, tx.atStage (if quotaAllows (some quota) baseUsage admission.newSize
      then .admitted admission else .ready))
  | .admitted admission, .upsert storageKey =>
    let new : SourceRow := ⟨admission.newSize, false, storageKey⟩
    if s.sources.writable p admission.key then
      some ({ s with sources := s.sources.write p admission.key (some new) },
        tx.queue (triggered admission.key (s.sources.view p admission.key) (some new)))
    else none
  | _, _ => none

def usageProtocol : Protocol UsageState TxProc UsageAction where
  step p s l a :=
    match l, a with
    | .idle, .begin => some (s, .active ⟨[], [], [], .ready⟩)
    | .active tx, .commit =>
      if tx.stage = .ready ∧ tx.calls = [] ∧ ∀ r ∈ tx.deleting, s.cascaded p r then
        some ({ s with sources := s.sources.commit p, ledger := s.ledger.commit p }, .finished)
      else none
    | .active _, .rollback =>
      some ({ s with sources := s.sources.rollback p, ledger := s.ledger.rollback p }, .finished)
    | .active tx, a => (txStep p s tx a).map fun r => (r.1, .active r.2)
    | _, _ => none

end ArtifactKeeper.Repositories
