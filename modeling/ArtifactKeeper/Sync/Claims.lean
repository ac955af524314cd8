import ArtifactKeeper.Machine
import ArtifactKeeper.Sync.Tasks
import Mathlib.Data.List.Nodup
import Mathlib.Data.List.Perm.Subperm

/-! Claims of sync tasks under any order of the calls that make, extend, recover and settle them.
Each call is one statement or one serialised transaction; its `NOW()` is the instant `start` at
which the transaction began, which may lie before the instant at which it takes effect. -/

namespace ArtifactKeeper.Sync

/-- `rows` are the rows that claims have returned, `lapsed` the tasks whose claims were recovered,
once for each recovery. -/
structure ClaimState where
  db : SyncDb
  rows : List TaskRow
  lapsed : List Uuid

inductive ClaimAction where
  | claim (start : ℤ) (peerId : Uuid) (availableSlots concurrentLimit : ℤ) (claimedBy : String)
      (claimTtlMs : ℤ) (token : Uuid → Uuid)
  | extend (start : ℤ) (task : TaskRow) (claimTtlMs : ℤ)
  | recover (start : ℤ)
  | reset (start : ℤ)
  | filtered (task : TaskRow)
  | success (start : ℤ) (task : TaskRow) (bytesTransferred : ℤ)
  | failure (start : ℤ) (task : TaskRow) (errorMessage : String)
  | edit (now : ℤ) (peers : List PeerInstance) (connections : List PeerConnection)
      (chunkAvailability : List ChunkAvailability) (artifacts : List Artifact)
      (subscriptions : List Subscription)
  | enqueue (task : SyncTask)

/-- The row that a call presents. -/
def ClaimAction.row : ClaimAction → Option TaskRow
  | .extend _ task _ | .filtered task | .success _ task _ | .failure _ task _ => some task
  | .claim .. | .recover _ | .reset _ | .edit .. | .enqueue _ => none

/-- The tables as a transaction that began at `start` sees them. -/
def SyncDb.asOf (db : SyncDb) (start : ℤ) : SyncDb := { db with now := start }

/-- Run a statement whose `NOW()` is `start`. -/
def SyncDb.since (db : SyncDb) (start : ℤ) (f : SyncDb → SyncDb) : SyncDb :=
  (f (db.asOf start)).asOf db.now

/-- Calls of any replica, on rows that claims have returned. The clock does not run backwards, and a
new task is pending under an id of its own. -/
def claimMachine (policy : SyncRetryPolicy) : Machine ClaimState ClaimAction where
  step s a :=
    match a with
    | .claim start peerId availableSlots concurrentLimit claimedBy claimTtlMs token =>
      if start ≤ s.db.now then
        let claimed := (s.db.asOf start).claimPendingSyncTasks policy peerId availableSlots
          concurrentLimit claimedBy claimTtlMs token
        some { s with db := claimed.1.asOf s.db.now, rows := s.rows ++ claimed.2 }
      else none
    | .extend start task claimTtlMs =>
      if start ≤ s.db.now ∧ task ∈ s.rows then
        some { s with db := s.db.since start (·.extendSyncTaskClaim task claimTtlMs) }
      else none
    | .recover start =>
      if start ≤ s.db.now then
        some { s with
          db := s.db.since start (·.recoverExpiredSyncTaskClaims)
          lapsed := s.lapsed ++ (s.db.tasks.filter (s.db.asOf start).expired).map (·.id) }
      else none
    | .reset start =>
      if start ≤ s.db.now then some { s with db := s.db.since start (·.resetRetriable policy) }
      else none
    | .filtered task =>
      if task ∈ s.rows then some { s with db := s.db.completeFiltered task } else none
    | .success start task bytesTransferred =>
      if start ≤ s.db.now ∧ task ∈ s.rows then
        some { s with db := s.db.since start fun db =>
          (db.handleTransferSuccess task bytesTransferred).getD db }
      else none
    | .failure start task errorMessage =>
      if start ≤ s.db.now ∧ task ∈ s.rows then
        some { s with db := s.db.since start (·.handleTransferFailure policy task errorMessage) }
      else none
    | .edit now peers connections chunkAvailability artifacts subscriptions =>
      if s.db.now ≤ now then
        some { s with db :=
          ⟨now, peers, connections, chunkAvailability, artifacts, subscriptions, s.db.tasks⟩ }
      else none
    | .enqueue task =>
      if task.status = .pending ∧ ∀ t ∈ s.db.tasks, t.id ≠ task.id then
        some { s with db := { s.db with tasks := s.db.tasks ++ [task] } }
      else none

/-- `gen_random_uuid` does not return a token that a claim has had before. -/
def freshTokens (s : ClaimState) (a : ClaimAction) : Prop :=
  match a with
  | .claim start peerId availableSlots concurrentLimit _ _ token =>
    ∀ t ∈ (s.db.asOf start).claimCandidates peerId availableSlots concurrentLimit,
      ∀ row ∈ s.rows, token t.id ≠ row.claimToken
  | _ => True

/-- Claims on the peer pass its `concurrent_transfers_limit`. -/
def claimsWithin (peerId : Uuid) (limit : ℤ) (_ : ClaimState) (a : ClaimAction) : Prop :=
  match a with
  | .claim _ id _ concurrentLimit _ _ _ => id = peerId → concurrentLimit = limit
  | _ => True

/-- An extension that finds its claim comes before the claim has expired. -/
def extendsInTime (s : ClaimState) (a : ClaimAction) : Prop :=
  match a with
  | .extend _ task _ => ∀ t ∈ s.db.tasks, t.heldBy task.id task.claimToken = true →
    t.claimExpiresAt.any (fun e => decide (s.db.now < e)) = true
  | _ => True

instance (s : ClaimState) (a : ClaimAction) : Decidable (freshTokens s a) := by
  unfold freshTokens
  split <;> infer_instance

instance (peerId : Uuid) (limit : ℤ) (s : ClaimState) (a : ClaimAction) :
    Decidable (claimsWithin peerId limit s a) := by
  unfold claimsWithin
  split <;> infer_instance

instance (s : ClaimState) (a : ClaimAction) : Decidable (extendsInTime s a) := by
  unfold extendsInTime
  split <;> infer_instance

/-- The task is in progress under the token of the row. -/
def ClaimState.Holds (s : ClaimState) (row : TaskRow) : Prop :=
  ∃ t ∈ s.db.tasks, t.heldBy row.id row.claimToken = true

/-- What a call can do to one task. -/
inductive TaskChange (policy : SyncRetryPolicy) (s s' : ClaimState) :
    SyncTask → SyncTask → Prop
  | keep (t : SyncTask) : TaskChange policy s s' t t
  | claim (t : SyncTask) (claimedBy : String) (token : Uuid) (expiresAt : ℤ) :
      t.status = .pending → (∀ row ∈ s.rows, token ≠ row.claimToken) →
      TaskChange policy s s' t { t with
        status := .inProgress
        claimedBy := some claimedBy
        claimToken := some token
        claimExpiresAt := some expiresAt }
  | extend (t : SyncTask) (expiresAt : ℤ) : t.status = .inProgress →
      TaskChange policy s s' t { t with claimExpiresAt := some expiresAt }
  | recover (t : SyncTask) : t.status = .inProgress →
      s.lapsed.count t.id < s'.lapsed.count t.id →
      TaskChange policy s s' t { t.release with status := .pending }
  | retry (t : SyncTask) : t.status = .failed → t.retryCount < max t.maxRetries policy.maxRetries →
      TaskChange policy s s' t { t.release with status := .pending, errorMessage := none }
  | complete (t : SyncTask) (bytesTransferred : ℤ) : t.status = .inProgress →
      TaskChange policy s s' t ({ t with
        status := .completed
        bytesTransferred := bytesTransferred }).release
  | fail (t : SyncTask) (row : TaskRow) (errorMessage : String) : row ∈ s.rows →
      t.heldBy row.id row.claimToken = true →
      TaskChange policy s s' t ({ t with
        status := .failed
        errorMessage := some errorMessage
        retryCount := row.retryCount + 1 }).release

/-- The effect of a call: each task changes in one of these ways, at most one task is new, and the
rows returned are of tasks that were pending, with tokens of their own. -/
structure ClaimStep (policy : SyncRetryPolicy) (s s' : ClaimState) (f : SyncTask → SyncTask)
    (added : List SyncTask) (new : List TaskRow) : Prop where
  tasks : s'.db.tasks = s.db.tasks.map f ++ added
  change : ∀ t ∈ s.db.tasks, TaskChange policy s s' t (f t)
  added : added = [] ∨ ∃ t, added = [t] ∧ t.status = .pending ∧ ∀ t' ∈ s.db.tasks, t'.id ≠ t.id
  rows : s'.rows = s.rows ++ new
  fresh : ∀ row ∈ new, (∀ row' ∈ s.rows, row.claimToken ≠ row'.claimToken) ∧
    ∃ t ∈ s.db.tasks, t.status = .pending ∧ row.id = t.id ∧ row.retryCount = t.retryCount ∧
      (f t).heldBy row.id row.claimToken = true
  distinct : (s.db.tasks.map (·.id)).Nodup → (new.map (·.id)).Nodup
  lapsed : s.lapsed <+: s'.lapsed

section Steps
variable {policy : SyncRetryPolicy} {s s' : ClaimState} {a : ClaimAction} {t t' : SyncTask}

theorem heldBy_iff {id token : Uuid} : t.heldBy id token = true ↔
    t.id = id ∧ t.status = .inProgress ∧ t.claimToken = some token := by
  simp [SyncTask.heldBy, and_assoc]

theorem TaskChange.id_eq (h : TaskChange policy s s' t t') : t'.id = t.id := by
  cases h <;> rfl

/-- A candidate is a pending task of the peer. -/
theorem mem_claimCandidates {db : SyncDb} {peerId : Uuid} {availableSlots concurrentLimit : ℤ}
    (h : t ∈ db.claimCandidates peerId availableSlots concurrentLimit) :
    t ∈ db.tasks ∧ t.peerInstanceId = peerId ∧ t.status = .pending := by
  have hmem := (List.mem_insertionSort _).mp (List.mem_of_mem_take h)
  simp only [List.mem_filter, Bool.and_eq_true, beq_iff_eq] at hmem
  exact ⟨hmem.1, hmem.2.1.1.1, hmem.2.1.1.2⟩

/-- Candidates are drawn from the tasks without repetition. -/
theorem nodup_claimCandidates (db : SyncDb) (peerId : Uuid) (availableSlots concurrentLimit : ℤ)
    (h : (db.tasks.map (·.id)).Nodup) :
    ((db.claimCandidates peerId availableSlots concurrentLimit).map (·.id)).Nodup := by
  refine List.Nodup.sublist (List.Sublist.map _ (List.take_sublist _ _)) ?_
  rw [((List.perm_insertionSort _ _).map _).nodup_iff]
  exact h.sublist (List.filter_sublist.map _)

/-- A call that only rewrites tasks. -/
theorem ClaimStep.of_map {f : SyncTask → SyncTask} (htasks : s'.db.tasks = s.db.tasks.map f)
    (hrows : s'.rows = s.rows) (hlapsed : s.lapsed <+: s'.lapsed)
    (hchange : ∀ t ∈ s.db.tasks, TaskChange policy s s' t (f t)) :
    ∃ f added new, ClaimStep policy s s' f added new :=
  ⟨f, [], [], ⟨by rw [htasks, List.append_nil], hchange, .inl rfl, by rw [hrows, List.append_nil],
    fun _ h => (List.not_mem_nil h).elim, fun _ => List.nodup_nil, hlapsed⟩⟩

/-- A token-guarded update rewrites the task that holds the token; without one it changes
nothing. -/
theorem finalize_tasks (db : SyncDb) (task : TaskRow) (g : SyncTask → SyncTask) :
    ((db.finalize task g).getD db).tasks = db.tasks.map fun t =>
      if t.heldBy task.id task.claimToken then (g t).release else t := by
  simp only [SyncDb.finalize]
  split
  · rfl
  · next h =>
    have hnone : ∀ t ∈ db.tasks, ¬ t.heldBy task.id task.claimToken = true :=
      fun t ht hheld => h (List.any_eq_true.mpr ⟨t, ht, hheld⟩)
    refine (List.map_id db.tasks).symm.trans (List.map_congr_left fun t ht => ?_)
    rw [if_neg (hnone t ht), id]

theorem handleTransferSuccess_tasks (db : SyncDb) (task : TaskRow) (bytesTransferred : ℤ) :
    ((db.handleTransferSuccess task bytesTransferred).getD db).tasks = db.tasks.map fun t =>
      if t.heldBy task.id task.claimToken then ({ t with
        status := .completed
        bytesTransferred := bytesTransferred }).release else t := by
  rw [← finalize_tasks]
  unfold SyncDb.handleTransferSuccess
  cases db.finalize task _ <;> rfl

theorem handleTransferFailure_tasks (db : SyncDb) (policy : SyncRetryPolicy) (task : TaskRow)
    (errorMessage : String) :
    (db.handleTransferFailure policy task errorMessage).tasks = db.tasks.map fun t =>
      if t.heldBy task.id task.claimToken then ({ t with
        status := .failed
        errorMessage := some errorMessage
        retryCount := task.retryCount + 1 }).release else t := by
  rw [← finalize_tasks]
  unfold SyncDb.handleTransferFailure
  cases db.finalize task _ <;> rfl

theorem claim_step {start : ℤ} {peerId : Uuid} {availableSlots concurrentLimit : ℤ}
    {claimedBy : String} {claimTtlMs : ℤ} {token : Uuid → Uuid}
    (hfresh : freshTokens s (.claim start peerId availableSlots concurrentLimit claimedBy
      claimTtlMs token))
    (h : (claimMachine policy).step s (.claim start peerId availableSlots concurrentLimit claimedBy
      claimTtlMs token) = some s') :
    ∃ f added new, ClaimStep policy s s' f added new := by
  simp only [claimMachine] at h
  obtain ⟨-, heq⟩ := Option.ite_none_right_eq_some.mp h
  cases heq
  refine ⟨_, [], _, ⟨(List.append_nil _).symm, fun t ht => ?_, .inl rfl, rfl, fun row hrow => ?_,
    fun hids => ?_, List.prefix_rfl⟩⟩
  · split
    · next hmem =>
      exact .claim t claimedBy (token t.id) _ (mem_claimCandidates hmem).2.2
        fun row hrow => hfresh t hmem row hrow
    · exact .keep t
  · obtain ⟨t, ht, hrow⟩ := List.mem_filterMap.mp hrow
    obtain ⟨a, -, rfl⟩ := Option.map_eq_some_iff.mp hrow
    refine ⟨fun row' hrow' => hfresh t ht row' hrow', t, (mem_claimCandidates ht).1,
      (mem_claimCandidates ht).2.2, rfl, rfl, ?_⟩
    rw [if_pos ht, heldBy_iff]
    exact ⟨rfl, rfl, rfl⟩
  · have hcandidates := nodup_claimCandidates (s.db.asOf start) peerId availableSlots
      concurrentLimit hids
    rw [List.Nodup, List.pairwise_map] at hcandidates ⊢
    refine List.pairwise_filterMap.mpr (hcandidates.imp ?_)
    intro t t' hne row hrow row' hrow'
    obtain ⟨a, -, rfl⟩ := Option.map_eq_some_iff.mp hrow
    obtain ⟨a', -, rfl⟩ := Option.map_eq_some_iff.mp hrow'
    exact hne

theorem claimMachine_step (hfresh : freshTokens s a)
    (h : (claimMachine policy).step s a = some s') :
    ∃ f added new, ClaimStep policy s s' f added new := by
  cases a with
  | claim start peerId availableSlots concurrentLimit claimedBy claimTtlMs token =>
    exact claim_step hfresh h
  | extend start task claimTtlMs =>
    obtain ⟨-, heq⟩ := Option.ite_none_right_eq_some.mp h
    cases heq
    refine ClaimStep.of_map rfl rfl List.prefix_rfl fun t _ => ?_
    split
    · next hheld => exact .extend t _ (heldBy_iff.mp hheld).2.1
    · exact .keep t
  | recover start =>
    obtain ⟨-, heq⟩ := Option.ite_none_right_eq_some.mp h
    cases heq
    refine ClaimStep.of_map rfl rfl (List.prefix_append _ _) fun t ht => ?_
    split
    · next hexpired =>
      have hprogress : t.status = .inProgress := by
        simp only [SyncDb.expired, Bool.and_eq_true, beq_iff_eq] at hexpired
        exact hexpired.1
      have hmem : t.id ∈ (s.db.tasks.filter (s.db.asOf start).expired).map (·.id) :=
        List.mem_map_of_mem (List.mem_filter.mpr ⟨ht, hexpired⟩)
      refine .recover t hprogress ?_
      rw [List.count_append]
      have := List.count_pos_iff.mpr hmem
      omega
    · exact .keep t
  | reset start =>
    obtain ⟨-, heq⟩ := Option.ite_none_right_eq_some.mp h
    cases heq
    refine ClaimStep.of_map rfl rfl List.prefix_rfl fun t _ => ?_
    split
    · next hretry => exact .retry t hretry.1 hretry.2.1
    · exact .keep t
  | filtered task =>
    obtain ⟨hrow, heq⟩ := Option.ite_none_right_eq_some.mp h
    cases heq
    refine ClaimStep.of_map (finalize_tasks s.db task _) rfl List.prefix_rfl fun t _ => ?_
    split
    · next hheld => exact .complete t t.bytesTransferred (heldBy_iff.mp hheld).2.1
    · exact .keep t
  | success start task bytesTransferred =>
    obtain ⟨-, heq⟩ := Option.ite_none_right_eq_some.mp h
    cases heq
    refine ClaimStep.of_map (handleTransferSuccess_tasks (s.db.asOf start) task _) rfl
      List.prefix_rfl fun t _ => ?_
    split
    · next hheld => exact .complete t bytesTransferred (heldBy_iff.mp hheld).2.1
    · exact .keep t
  | failure start task errorMessage =>
    obtain ⟨⟨-, hrow⟩, heq⟩ := Option.ite_none_right_eq_some.mp h
    cases heq
    refine ClaimStep.of_map (handleTransferFailure_tasks (s.db.asOf start) policy task _) rfl
      List.prefix_rfl fun t _ => ?_
    split
    · next hheld => exact .fail t task errorMessage hrow hheld
    · exact .keep t
  | edit now peers connections chunkAvailability artifacts subscriptions =>
    obtain ⟨-, heq⟩ := Option.ite_none_right_eq_some.mp h
    cases heq
    exact ClaimStep.of_map (f := id) (List.map_id _).symm rfl List.prefix_rfl fun t _ => .keep t
  | enqueue task =>
    obtain ⟨hnew, heq⟩ := Option.ite_none_right_eq_some.mp h
    cases heq
    exact ⟨id, [task], [], ⟨by simp, fun t _ => .keep t, .inr ⟨task, rfl, hnew⟩, by simp,
      fun _ h => (List.not_mem_nil h).elim, fun _ => List.nodup_nil, List.prefix_rfl⟩⟩

end Steps

/-- Task ids are unique, and a row is known by its task and token. -/
structure ClaimInv (s : ClaimState) : Prop where
  ids : (s.db.tasks.map (·.id)).Nodup
  rows : ∀ r₁ ∈ s.rows, ∀ r₂ ∈ s.rows, r₁.id = r₂.id → r₁.claimToken = r₂.claimToken → r₁ = r₂

section Invariant
variable {policy : SyncRetryPolicy} {s s' : ClaimState} {a : ClaimAction} {t t' : SyncTask}
  {f : SyncTask → SyncTask} {added : List SyncTask} {new : List TaskRow}

theorem ClaimInv.task_eq (h : ClaimInv s) (ht : t ∈ s.db.tasks) (ht' : t' ∈ s.db.tasks)
    (hid : t.id = t'.id) : t = t' :=
  List.inj_on_of_nodup_map h.ids ht ht' hid

/-- A task held after a change was held before with the same retry count, or is newly claimed. -/
theorem TaskChange.held (h : TaskChange policy s s' t t') {id token : Uuid}
    (hheld : t'.heldBy id token = true) :
    t.heldBy id token = true ∧ t'.retryCount = t.retryCount ∨
      t.status = .pending ∧ t'.retryCount = t.retryCount ∧ t.id = id ∧
        ∀ row ∈ s.rows, token ≠ row.claimToken := by
  rw [heldBy_iff] at hheld ⊢
  obtain ⟨hid, hstatus, htoken⟩ := hheld
  cases h with
  | keep => exact .inl ⟨⟨hid, hstatus, htoken⟩, rfl⟩
  | claim claimedBy token' expiresAt hpending hfresh =>
    obtain rfl : token' = token := Option.some.inj htoken
    exact .inr ⟨hpending, rfl, hid, hfresh⟩
  | extend expiresAt hprogress => exact .inl ⟨⟨hid, hprogress, htoken⟩, rfl⟩
  | recover | retry | complete | fail => cases hstatus

/-- A task that no call changes any more. -/
def SyncTask.Final (policy : SyncRetryPolicy) (t : SyncTask) : Prop :=
  t.status = .completed ∨
    t.status = .failed ∧ max t.maxRetries policy.maxRetries ≤ t.retryCount

theorem SyncTask.Final.status (h : t.Final policy) :
    t.status = .completed ∨ t.status = .failed := h.imp_right And.left

theorem TaskChange.final (h : TaskChange policy s s' t t') (hfinal : t.Final policy) : t' = t := by
  have hstatus := hfinal.status
  cases h with
  | keep => rfl
  | claim _ _ _ hpending _ => simp [hpending] at hstatus
  | extend _ hprogress | recover hprogress _ | complete _ hprogress =>
    simp [hprogress] at hstatus
  | retry hfailed hretries =>
    rcases hfinal with hdone | ⟨-, hspent⟩
    · simp [hdone] at hfailed
    · omega
  | fail row _ _ hheld => simp [(heldBy_iff.mp hheld).2.1] at hstatus

/-- The tasks after a call are those before it, changed, or a new pending one. -/
theorem ClaimStep.mem_tasks (h : ClaimStep policy s s' f added new) (ht : t' ∈ s'.db.tasks) :
    (∃ t ∈ s.db.tasks, t' = f t) ∨
      t'.status = .pending ∧ ∀ t ∈ s.db.tasks, t.id ≠ t'.id := by
  rw [h.tasks, List.mem_append] at ht
  rcases ht with ht | ht
  · obtain ⟨t, hmem, rfl⟩ := List.mem_map.mp ht
    exact .inl ⟨t, hmem, rfl⟩
  · rcases h.added with rfl | ⟨t, rfl, hpending, hids⟩
    · cases ht
    · obtain rfl := List.mem_singleton.mp ht
      exact .inr ⟨hpending, hids⟩

theorem ClaimStep.map_mem (h : ClaimStep policy s s' f added new) (ht : t ∈ s.db.tasks) :
    f t ∈ s'.db.tasks := by
  rw [h.tasks]
  exact List.mem_append_left _ (List.mem_map_of_mem ht)

theorem ClaimStep.ids (h : ClaimStep policy s s' f added new)
    (hids : (s.db.tasks.map (·.id)).Nodup) : (s'.db.tasks.map (·.id)).Nodup := by
  have hmap : (s.db.tasks.map f).map (·.id) = s.db.tasks.map (·.id) := by
    rw [List.map_map]
    exact List.map_congr_left fun t ht => (h.change t ht).id_eq
  rw [h.tasks, List.map_append, hmap]
  rcases h.added with rfl | ⟨t, rfl, -, hnew⟩
  · simpa using hids
  · refine List.nodup_append.mpr ⟨hids, List.nodup_singleton _, ?_⟩
    intro id hid id' hid'
    obtain ⟨t', ht', rfl⟩ := List.mem_map.mp hid
    obtain rfl := List.mem_singleton.mp hid'
    exact hnew t' ht'

theorem ClaimStep.inv (h : ClaimStep policy s s' f added new) (hs : ClaimInv s) : ClaimInv s' := by
  refine ⟨h.ids hs.ids, fun r₁ h₁ r₂ h₂ hid htoken => ?_⟩
  rw [h.rows, List.mem_append] at h₁ h₂
  rcases h₁ with h₁ | h₁ <;> rcases h₂ with h₂ | h₂
  · exact hs.rows r₁ h₁ r₂ h₂ hid htoken
  · exact absurd htoken.symm ((h.fresh r₂ h₂).1 r₁ h₁)
  · exact absurd htoken ((h.fresh r₁ h₁).1 r₂ h₂)
  · exact List.inj_on_of_nodup_map (h.distinct hs.ids) h₁ h₂ hid

theorem claimInv_of_reach {s₀ : ClaimState} (h₀ : ClaimInv s₀)
    (h : (claimMachine policy).Reach freshTokens s₀ s) : ClaimInv s := by
  refine h.invariant h₀ fun s a s' hs hfresh hstep => ?_
  obtain ⟨f, added, new, hok⟩ := claimMachine_step hfresh hstep
  exact hok.inv hs

/-- Two rows of one task are not both current. -/
theorem ClaimInv.holds_unique (h : ClaimInv s) {r₁ r₂ : TaskRow} (h₁ : r₁ ∈ s.rows)
    (h₂ : r₂ ∈ s.rows) (hid : r₁.id = r₂.id) (hold₁ : s.Holds r₁) (hold₂ : s.Holds r₂) :
    r₁ = r₂ := by
  obtain ⟨t₁, ht₁, hheld₁⟩ := hold₁
  obtain ⟨t₂, ht₂, hheld₂⟩ := hold₂
  rw [heldBy_iff] at hheld₁ hheld₂
  have heq : t₁ = t₂ := h.task_eq ht₁ ht₂ (by rw [hheld₁.1, hheld₂.1, hid])
  subst heq
  refine h.rows r₁ h₁ r₂ h₂ hid ?_
  exact Option.some.inj (hheld₁.2.2.symm.trans hheld₂.2.2)

/-- A row that is no longer current does not become so again. -/
theorem superseded_of_reach {row : TaskRow} (hrow : row ∈ s.rows) (hlost : ¬ s.Holds row)
    (h : (claimMachine policy).Reach freshTokens s s') : row ∈ s'.rows ∧ ¬ s'.Holds row := by
  refine h.invariant (I := fun s => row ∈ s.rows ∧ ¬ s.Holds row) ⟨hrow, hlost⟩ ?_
  rintro s a s' ⟨hrow, hlost⟩ hfresh hstep
  obtain ⟨f, added, new, hok⟩ := claimMachine_step hfresh hstep
  refine ⟨hok.rows ▸ List.mem_append_left _ hrow, ?_⟩
  rintro ⟨t', ht', hheld⟩
  rcases hok.mem_tasks ht' with ⟨t, ht, rfl⟩ | ⟨hpending, -⟩
  · rcases (hok.change t ht).held hheld with ⟨hold, -⟩ | ⟨-, -, -, hnew⟩
    · exact hlost ⟨t, ht, hold⟩
    · exact hnew row hrow rfl
  · rw [heldBy_iff, hpending] at hheld
    cases hheld.2.1

/-- A final task is left as it is, and no later claim returns it. -/
theorem final_of_reach (hs : ClaimInv s) (ht : t ∈ s.db.tasks) (hfinal : t.Final policy)
    (h : (claimMachine policy).Reach freshTokens s s') :
    t ∈ s'.db.tasks ∧ ∀ row ∈ s'.rows, row.id = t.id → row ∈ s.rows := by
  have hall : ClaimInv s' ∧ t ∈ s'.db.tasks ∧ ∀ row ∈ s'.rows, row.id = t.id → row ∈ s.rows := by
    refine h.invariant
      (I := fun s' => ClaimInv s' ∧ t ∈ s'.db.tasks ∧ ∀ row ∈ s'.rows, row.id = t.id → row ∈ s.rows)
      ⟨hs, ht, fun _ hrow _ => hrow⟩ ?_
    rintro s₁ a s₂ ⟨hinv, hmem, hrows⟩ hfresh hstep
    obtain ⟨f, added, new, hok⟩ := claimMachine_step hfresh hstep
    have hkeep : f t = t := (hok.change t hmem).final hfinal
    refine ⟨hok.inv hinv, hkeep ▸ hok.map_mem hmem, fun row hrow hid => ?_⟩
    rw [hok.rows, List.mem_append] at hrow
    rcases hrow with hrow | hrow
    · exact hrows row hrow hid
    · obtain ⟨-, t₁, ht₁, hpending, hid₁, -⟩ := hok.fresh row hrow
      have heq : t = t₁ := hinv.task_eq hmem ht₁ (by rw [← hid, hid₁])
      have hstatus := hfinal.status
      rw [heq, hpending] at hstatus
      simp at hstatus
  exact hall.2

theorem finalize_eq_none (db : SyncDb) {task : TaskRow} {g : SyncTask → SyncTask}
    (h : ∀ t ∈ db.tasks, ¬ t.heldBy task.id task.claimToken = true) :
    db.finalize task g = none := by
  refine if_neg fun hany => ?_
  obtain ⟨t, ht, hheld⟩ := List.any_eq_true.mp hany
  exact h t ht hheld

/-- A call that presents a superseded row changes nothing. -/
theorem superseded_call {row : TaskRow} (hlost : ¬ s.Holds row) (ha : a.row = some row)
    (h : (claimMachine policy).step s a = some s') : s' = s := by
  have hnone : ∀ t ∈ s.db.tasks, ¬ t.heldBy row.id row.claimToken = true :=
    fun t ht hheld => hlost ⟨t, ht, hheld⟩
  cases a with
  | claim | recover | reset | edit | enqueue => cases ha
  | extend start task claimTtlMs =>
    cases ha
    obtain ⟨-, heq⟩ := Option.ite_none_right_eq_some.mp h
    cases heq
    have htasks : (s.db.tasks.map fun t => if t.heldBy row.id row.claimToken then
        { t with claimExpiresAt := some (start + claimTtlMs) } else t) = s.db.tasks := by
      refine (List.map_congr_left fun t ht => ?_).trans (List.map_id s.db.tasks)
      rw [if_neg (hnone t ht), id]
    simp only [SyncDb.since, SyncDb.extendSyncTaskClaim, SyncDb.asOf, htasks]
  | filtered task =>
    cases ha
    obtain ⟨-, heq⟩ := Option.ite_none_right_eq_some.mp h
    cases heq
    rw [SyncDb.completeFiltered, finalize_eq_none s.db hnone]
    rfl
  | success start task bytesTransferred =>
    cases ha
    obtain ⟨-, heq⟩ := Option.ite_none_right_eq_some.mp h
    cases heq
    have hlost : (s.db.asOf start).handleTransferSuccess row bytesTransferred = none := by
      rw [SyncDb.handleTransferSuccess, finalize_eq_none (s.db.asOf start) hnone]
      rfl
    rw [SyncDb.since, hlost]
    rfl
  | failure start task errorMessage =>
    cases ha
    obtain ⟨-, heq⟩ := Option.ite_none_right_eq_some.mp h
    cases heq
    have hlost : (s.db.asOf start).handleTransferFailure policy row errorMessage =
        s.db.asOf start := by
      rw [SyncDb.handleTransferFailure, finalize_eq_none (s.db.asOf start) hnone]
      rfl
    rw [SyncDb.since, hlost]
    rfl

end Invariant

section Counting
variable {α : Type}

/-- At most as many elements of a list without repetition are in `taken` as `taken` has. -/
theorem countP_mem_le [DecidableEq α] {l : List α} (taken : List α) (h : l.Nodup) :
    l.countP (fun x => decide (x ∈ taken)) ≤ taken.length := by
  rw [List.countP_eq_length_filter]
  refine (List.subperm_of_subset (h.filter _) fun t ht => ?_).length_le
  exact of_decide_eq_true (List.mem_filter.mp ht).2

theorem countP_le_add {l : List α} {p q r : α → Bool}
    (h : ∀ t ∈ l, p t = true → q t = true ∨ r t = true) :
    l.countP p ≤ l.countP q + l.countP r := by
  induction l with
  | nil => simp
  | cons t l ih =>
    have htail := ih fun t' ht' => h t' (List.mem_cons_of_mem t ht')
    have hhead := h t List.mem_cons_self
    rw [List.countP_cons, List.countP_cons, List.countP_cons]
    by_cases hp : p t = true
    · rcases hhead hp with hq | hr
      · simp only [hp, hq, if_true]
        omega
      · simp only [hp, hr, if_true]
        omega
    · rw [if_neg hp]
      omega

end Counting

section Cap
variable {policy : SyncRetryPolicy} {s s' : ClaimState} {a : ClaimAction} {peerId : Uuid}

/-- A claim of the peer that has not expired. -/
def SyncTask.live (peerId : Uuid) (now : ℤ) (t : SyncTask) : Bool :=
  t.peerInstanceId == peerId && t.status == .inProgress && t.claimToken.isSome &&
    t.claimExpiresAt.any fun e => decide (now < e)

theorem liveClaims_eq (db : SyncDb) :
    db.liveClaims peerId = db.tasks.countP (SyncTask.live peerId db.now) := rfl

theorem live_iff {now : ℤ} {t : SyncTask} : t.live peerId now = true ↔
    t.peerInstanceId = peerId ∧ t.status = .inProgress ∧ t.claimToken.isSome = true ∧
      t.claimExpiresAt.any (fun e => decide (now < e)) = true := by
  simp only [SyncTask.live, Bool.and_eq_true, beq_iff_eq, and_assoc]

theorem live_mono {now now' : ℤ} (h : now ≤ now') {t : SyncTask}
    (ht : t.live peerId now' = true) : t.live peerId now = true := by
  rw [live_iff] at ht ⊢
  refine ⟨ht.1, ht.2.1, ht.2.2.1, ?_⟩
  have hexpires := ht.2.2.2
  cases he : t.claimExpiresAt with
  | none => simp [he] at hexpires
  | some e =>
    simp only [he, Option.any_some, decide_eq_true_eq] at hexpires ⊢
    omega

/-- Tasks rewritten so that none becomes live. -/
theorem liveClaims_map_le {db db' : SyncDb} {f : SyncTask → SyncTask}
    (htasks : db'.tasks = db.tasks.map f)
    (hlive : ∀ t ∈ db.tasks, (f t).live peerId db'.now = true → t.live peerId db.now = true) :
    db'.liveClaims peerId ≤ db.liveClaims peerId := by
  rw [liveClaims_eq, liveClaims_eq, htasks, List.countP_map]
  exact List.countP_mono_left hlive

/-- An earlier instant finds no fewer live claims. -/
theorem liveClaims_asOf (peerId : Uuid) {db : SyncDb} {start : ℤ} (h : start ≤ db.now) :
    db.liveClaims peerId ≤ (db.asOf start).liveClaims peerId :=
  liveClaims_map_le (f := id) (List.map_id _).symm fun _ _ ht => live_mono h ht

/-- A claim hands out no more tasks than the limit leaves room for. -/
theorem length_claimCandidates (db : SyncDb) (peerId : Uuid) (availableSlots concurrentLimit : ℤ) :
    ((db.claimCandidates peerId availableSlots concurrentLimit).length : ℤ) ≤
      max (concurrentLimit - db.liveClaims peerId) 0 := by
  have hlength : (db.claimCandidates peerId availableSlots concurrentLimit).length ≤
      (min availableSlots (max (concurrentLimit - db.liveClaims peerId) 0)).toNat :=
    List.length_take_le _ _
  omega

/-- A claim leaves the peer within its limit, even if it counted at an earlier instant. -/
theorem claim_liveClaims {limit : ℤ} {start : ℤ} {id : Uuid} {availableSlots concurrentLimit : ℤ}
    {claimedBy : String} {claimTtlMs : ℤ} {token : Uuid → Uuid}
    (hids : (s.db.tasks.map (·.id)).Nodup)
    (hlimit : id = peerId → concurrentLimit = limit) (hlive : s.db.liveClaims peerId ≤ limit)
    (hstart : start ≤ s.db.now) :
    (((s.db.asOf start).claimPendingSyncTasks policy id availableSlots concurrentLimit claimedBy
      claimTtlMs token).1.asOf s.db.now).liveClaims peerId ≤ limit := by
  by_cases hid : id = peerId
  · subst hid
    obtain rfl := hlimit rfl
    have hcounted := liveClaims_asOf id hstart
    have hroom := length_claimCandidates (s.db.asOf start) id availableSlots concurrentLimit
    have htaken := countP_mem_le ((s.db.asOf start).claimCandidates id availableSlots
      concurrentLimit) (hids.of_map _)
    have hsplit : (((s.db.asOf start).claimPendingSyncTasks policy id availableSlots
        concurrentLimit claimedBy claimTtlMs token).1.asOf s.db.now).liveClaims id ≤
          s.db.liveClaims id + s.db.tasks.countP fun t => decide
            (t ∈ (s.db.asOf start).claimCandidates id availableSlots concurrentLimit) := by
      rw [liveClaims_eq, liveClaims_eq]
      refine (List.countP_map ..).trans_le (countP_le_add fun t _ hnew => ?_)
      by_cases hmem : t ∈ (s.db.asOf start).claimCandidates id availableSlots concurrentLimit
      · exact .inr (decide_eq_true hmem)
      · rw [Function.comp_apply, if_neg hmem] at hnew
        exact .inl hnew
    omega
  · refine (Int.ofNat_le.mpr (liveClaims_map_le rfl fun t _ hnew => ?_)).trans hlive
    split at hnew
    · next hmem =>
      have hpeer := (mem_claimCandidates hmem).2.1
      exact absurd (hpeer.symm.trans (live_iff.mp hnew).1) hid
    · exact hnew

theorem liveClaims_step {limit : ℤ} (hs : ClaimInv s) (hlive : s.db.liveClaims peerId ≤ limit)
    (hwithin : claimsWithin peerId limit s a) (hextend : extendsInTime s a)
    (h : (claimMachine policy).step s a = some s') : s'.db.liveClaims peerId ≤ limit := by
  -- every call but a claim leaves no task live that was not
  have hfewer : ∀ {db' : SyncDb} {f : SyncTask → SyncTask}, db'.tasks = s.db.tasks.map f →
      (∀ t ∈ s.db.tasks, (f t).live peerId db'.now = true → t.live peerId s.db.now = true) →
      db'.liveClaims peerId ≤ limit :=
    fun htasks hlive' => (Int.ofNat_le.mpr (liveClaims_map_le htasks hlive')).trans hlive
  cases a with
  | claim start id availableSlots concurrentLimit claimedBy claimTtlMs token =>
    obtain ⟨hstart, heq⟩ := Option.ite_none_right_eq_some.mp h
    cases heq
    exact claim_liveClaims hs.ids hwithin hlive hstart
  | extend start task claimTtlMs =>
    obtain ⟨-, heq⟩ := Option.ite_none_right_eq_some.mp h
    cases heq
    refine hfewer rfl fun t ht hnew => ?_
    split at hnew
    · next hheld =>
      rw [live_iff] at hnew ⊢
      exact ⟨hnew.1, hnew.2.1, hnew.2.2.1, hextend t ht hheld⟩
    · exact hnew
  | recover start =>
    obtain ⟨-, heq⟩ := Option.ite_none_right_eq_some.mp h
    cases heq
    refine hfewer rfl fun t _ hnew => ?_
    split at hnew
    · cases (live_iff.mp hnew).2.1
    · exact hnew
  | reset start =>
    obtain ⟨-, heq⟩ := Option.ite_none_right_eq_some.mp h
    cases heq
    refine hfewer rfl fun t _ hnew => ?_
    split at hnew
    · cases (live_iff.mp hnew).2.1
    · exact hnew
  | filtered task =>
    obtain ⟨-, heq⟩ := Option.ite_none_right_eq_some.mp h
    cases heq
    have hnow : (s.db.completeFiltered task).now = s.db.now := by
      simp only [SyncDb.completeFiltered, SyncDb.finalize]
      split <;> rfl
    refine hfewer (finalize_tasks s.db task _) fun t _ hnew => ?_
    split at hnew
    · cases (live_iff.mp hnew).2.1
    · exact hnow ▸ hnew
  | success start task bytesTransferred =>
    obtain ⟨-, heq⟩ := Option.ite_none_right_eq_some.mp h
    cases heq
    refine hfewer (handleTransferSuccess_tasks (s.db.asOf start) task _) fun t _ hnew => ?_
    split at hnew
    · cases (live_iff.mp hnew).2.1
    · exact hnew
  | failure start task errorMessage =>
    obtain ⟨-, heq⟩ := Option.ite_none_right_eq_some.mp h
    cases heq
    refine hfewer (handleTransferFailure_tasks (s.db.asOf start) policy task _)
      fun t _ hnew => ?_
    split at hnew
    · cases (live_iff.mp hnew).2.1
    · exact hnew
  | edit now peers connections chunkAvailability artifacts subscriptions =>
    obtain ⟨hnow, heq⟩ := Option.ite_none_right_eq_some.mp h
    cases heq
    exact hfewer (f := id) (List.map_id _).symm fun t _ hnew => live_mono hnow hnew
  | enqueue task =>
    obtain ⟨hnew, heq⟩ := Option.ite_none_right_eq_some.mp h
    cases heq
    have hnot : ¬ task.live peerId s.db.now = true := by
      intro hlive
      rw [live_iff, hnew.1] at hlive
      cases hlive.2.1
    have hcount : (s.db.tasks ++ [task]).countP (SyncTask.live peerId s.db.now) =
        s.db.tasks.countP (SyncTask.live peerId s.db.now) := by
      rw [List.countP_append, List.countP_singleton, if_neg hnot, Nat.add_zero]
    exact (Int.ofNat_inj.mpr hcount).trans_le hlive

end Cap

/-- Under any order of calls a task is claimed by one row at a time, a superseded row changes
nothing from then on, and a completed task stays as it is and is not handed out again. Where
extensions come before their claims expire, no peer has more live claims than its limit. -/
theorem sync_claims_exclusive_and_capped (policy : SyncRetryPolicy) (s₀ : ClaimState)
    (h₀ : ClaimInv s₀) :
    (∀ s, (claimMachine policy).Reach freshTokens s₀ s →
      (∀ t₁ ∈ s.db.tasks, ∀ t₂ ∈ s.db.tasks, t₁.id = t₂.id → t₁ = t₂) ∧
      (∀ r₁ ∈ s.rows, ∀ r₂ ∈ s.rows, r₁.id = r₂.id → s.Holds r₁ → s.Holds r₂ → r₁ = r₂) ∧
      ∀ s', (claimMachine policy).Reach freshTokens s s' →
        (∀ row ∈ s.rows, ¬ s.Holds row → ∀ a s'', a.row = some row →
          (claimMachine policy).step s' a = some s'' → s'' = s') ∧
        ∀ t ∈ s.db.tasks, t.status = .completed →
          t ∈ s'.db.tasks ∧ ∀ row ∈ s'.rows, row.id = t.id → row ∈ s.rows) ∧
    ∀ peerId limit, (s₀.db.liveClaims peerId : ℤ) ≤ limit →
      ∀ s, (claimMachine policy).Reach
        (fun s a => freshTokens s a ∧ claimsWithin peerId limit s a ∧ extendsInTime s a) s₀ s →
      (s.db.liveClaims peerId : ℤ) ≤ limit := by
  refine ⟨fun s hs => ?_, fun peerId limit hlive s hs => ?_⟩
  · have hinv := claimInv_of_reach h₀ hs
    refine ⟨fun t₁ h₁ t₂ h₂ => hinv.task_eq h₁ h₂, fun r₁ h₁ r₂ h₂ => hinv.holds_unique h₁ h₂,
      fun s' hs' => ⟨fun row hrow hlost a s'' ha hstep => ?_, fun t ht hdone => ?_⟩⟩
    · exact superseded_call (superseded_of_reach hrow hlost hs').2 ha hstep
    · exact final_of_reach hinv ht (.inl hdone) hs'
  · have hall : ClaimInv s ∧ (s.db.liveClaims peerId : ℤ) ≤ limit := by
      refine hs.invariant (I := fun s => ClaimInv s ∧ (s.db.liveClaims peerId : ℤ) ≤ limit)
        ⟨h₀, hlive⟩ ?_
      rintro s a s' ⟨hinv, hlive⟩ ⟨hfresh, hwithin, hextend⟩ hstep
      obtain ⟨f, added, new, hok⟩ := claimMachine_step hfresh hstep
      exact ⟨hok.inv hinv, liveClaims_step hinv hlive hwithin hextend hstep⟩
    exact hall.2

/-- A peer that may have one transfer at a time, with two tasks due. -/
def twoTasks : ClaimState where
  db :=
    { now := 0
      peers := []
      connections := []
      chunkAvailability := []
      artifacts := [⟨10, 7, false, "lib", some "1.0", 2048, none, none, none, none⟩]
      subscriptions := []
      tasks := [⟨40, 2, 10, 1, 0, .pending, "push", 0, 3, none, none, none, 0, none⟩,
        ⟨41, 2, 10, 0, 0, .pending, "delete", 0, 3, none, none, none, 0, none⟩] }
  rows := []
  lapsed := []

theorem twoTasks_inv : ClaimInv twoTasks :=
  ⟨by decide, fun _ h => (List.not_mem_nil h).elim⟩

def claimOne (start : ℤ) (token : Uuid) : ClaimAction :=
  .claim start 2 1 1 "worker" 300000 fun _ => token

def laterAt (now : ℤ) : ClaimAction := .edit now [] [] [] twoTasks.db.artifacts []

/-- What the first claim returns. -/
def firstRow : TaskRow :=
  ⟨40, 2, 10, ⟨10, 7, false, "lib", some "1.0", 2048, none, none, none, none⟩, "push", none, 0, 3,
    900⟩

/-- The first claim lapses between a recovery and the next claim, and is then extended by its
owner: the peer has two live claims where one is allowed. -/
theorem late_extension_exceeds_limit :
    twoTasks.db.liveClaims 2 = 0 ∧ ∃ s, (claimMachine ⟨3, 30, 3600⟩).Reach
        (fun s a => freshTokens s a ∧ claimsWithin 2 1 s a) twoTasks s ∧
      s.db.liveClaims 2 = 2 := by
  have hmeets : (claimMachine ⟨3, 30, 3600⟩).Meets
      (fun s a => freshTokens s a ∧ claimsWithin 2 1 s a) twoTasks
      [claimOne 0 900, laterAt 299999, .recover 299999, laterAt 300000, claimOne 300000 901,
        .extend 300000 firstRow 300000] := by decide
  exact ⟨by decide, _, Machine.reach_of_run _ rfl hmeets, by decide⟩

/-- An extension in time keeps the second task waiting; the claim lapses later, its task is claimed
again, and the first row can no longer complete it. -/
def orderlyCalls : List ClaimAction :=
  [claimOne 0 900, laterAt 200000, .extend 200000 firstRow 300000, claimOne 200000 901,
    laterAt 500000, .recover 500000, claimOne 500000 902]

theorem sync_claims_exclusive_and_capped_of_lapse :
    ∃ s, (claimMachine ⟨3, 30, 3600⟩).run twoTasks orderlyCalls = some s ∧ ¬ s.Holds firstRow ∧
      (s.db.liveClaims 2 : ℤ) ≤ 1 ∧
      ∀ s', (claimMachine ⟨3, 30, 3600⟩).step s (.success 500000 firstRow 2048) = some s' →
        s' = s := by
  have hmeets : (claimMachine ⟨3, 30, 3600⟩).Meets (fun s a => freshTokens s a ∧
      claimsWithin 2 1 s a ∧ extendsInTime s a) twoTasks orderlyCalls := by decide
  obtain ⟨hexclusive, hcapped⟩ :=
    sync_claims_exclusive_and_capped ⟨3, 30, 3600⟩ twoTasks twoTasks_inv
  have hrun : ∃ s, (claimMachine ⟨3, 30, 3600⟩).run twoTasks orderlyCalls = some s ∧
      firstRow ∈ s.rows ∧ ∀ t ∈ s.db.tasks, ¬ t.heldBy 40 900 = true :=
    ⟨_, rfl, by decide, by decide⟩
  obtain ⟨s, hs, hrow, hnot⟩ := hrun
  have hlost : ¬ s.Holds firstRow := fun ⟨t, ht, hheld⟩ => hnot t ht hheld
  have hreach := Machine.reach_of_run orderlyCalls hs hmeets
  refine ⟨s, hs, hlost, hcapped 2 1 (by decide) s hreach, fun s' hstep => ?_⟩
  have hfresh := hreach.mono fun s a h => h.1
  exact ((hexclusive s hfresh).2.2 s .refl).1 firstRow hrow hlost _ s' rfl hstep

end ArtifactKeeper.Sync
