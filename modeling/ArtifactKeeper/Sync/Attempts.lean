import ArtifactKeeper.Sync.Claims
import ArtifactKeeper.Sync.Worker

/-! Replication attempts: what one `execute_transfer` leaves behind, whatever storage, the peer and
the network answer and whatever other replicas do in between, and how often a task is attempted. -/

namespace ArtifactKeeper.Sync

section Attempts
variable {φ : Type} (E : SyncEnv φ)

/-- The counter of the peer. -/
def SyncDb.activeTransfers (db : SyncDb) (id : Uuid) : Option ℤ :=
  (db.peers.find? fun p => p.id == id).map (·.activeTransfers)

/-- One step of an attempt, from the state that the rest of the system left to the one it left
itself. -/
structure OwnStep where
  before : SyncState
  pc : TransferPc
  action : SyncAction
  after : SyncState

/-- The steps of one `execute_transfer` from a program point to its return. -/
inductive Attempt (t : Transfer) : TransferPc → List OwnStep → Prop
  | last {s s' : SyncState} {pc : TransferPc} {a : SyncAction} :
      transferStep E s t pc a = some (s', .finished) → Attempt t pc [⟨s, pc, a, s'⟩]
  | more {s s' : SyncState} {pc pc' : TransferPc} {a : SyncAction} {rest : List OwnStep} :
      transferStep E s t pc a = some (s', .transfer t pc') → Attempt t pc' rest →
      Attempt t pc (⟨s, pc, a, s'⟩ :: rest)

/-- The task is out of progress, the counter of its peer is down by one, and after an error the
retry count is up by one. -/
structure SettledBy (task : TaskRow) (result : Except String Unit) (db db' : SyncDb) : Prop where
  status : ∀ t ∈ db'.tasks, t.id = task.id → t.status ≠ .inProgress
  decremented : db'.activeTransfers task.peerInstanceId =
    (db.activeTransfers task.peerInstanceId).map fun n => max (n - 1) 0
  retryCount : ∀ e, result = .error e → ∀ t ∈ db.tasks, t.id = task.id →
    ∃ t' ∈ db'.tasks, t'.id = task.id ∧ t'.retryCount = t.retryCount + 1

variable {E} {t : Transfer} {pc : TransferPc}

/-- After the first step an attempt goes on without touching the peers until its last step. -/
theorem Attempt.steps {steps : List OwnStep} (h : Attempt E t pc steps) (hpc : pc ≠ .start) :
    ∃ (middle : List OwnStep) (last : OwnStep), steps = middle ++ [last] ∧
      (∀ x ∈ middle, x.after.db = x.before.db ∨
        x.after.db = x.before.db.extendSyncTaskClaim t.task E.claimTtlMs) ∧
      transferStep E last.before t last.pc last.action = some (last.after, .finished) := by
  induction h with
  | last hstep => exact ⟨[], _, rfl, fun _ hx => (List.not_mem_nil hx).elim, hstep⟩
  | more hstep _ ih =>
    cases transferStep_effect hstep with
    | begin _ hstart => exact absurd hstart hpc
    | goesOn _ _ _ hpc' hdb =>
      obtain ⟨middle, last, rfl, hmiddle, hlast⟩ := ih hpc'
      refine ⟨_ :: middle, last, rfl, fun x hx => ?_, hlast⟩
      rcases List.mem_cons.mp hx with rfl | hx
      · exact hdb
      · exact hmiddle x hx

/-- An attempt counts itself in once, at its first step. -/
theorem Attempt.shape {steps : List OwnStep} (h : Attempt E t .start steps) :
    ∃ (first : OwnStep) (middle : List OwnStep) (last : OwnStep),
      steps = first :: (middle ++ [last]) ∧
      first.after.db = first.before.db.updatePeer t.task.peerInstanceId
        (fun p => { p with activeTransfers := p.activeTransfers + 1 }) ∧
      (∀ x ∈ middle, x.after.db = x.before.db ∨
        x.after.db = x.before.db.extendSyncTaskClaim t.task E.claimTtlMs) ∧
      transferStep E last.before t last.pc last.action = some (last.after, .finished) := by
  cases h with
  | last hstep =>
    cases transferStep_effect hstep with
    | unsettled hfailed => exact hfailed.elim
    | settled result _ _ hresult _ => cases hresult
  | more hstep hrest =>
    cases transferStep_effect hstep with
    | begin _ _ hpc' =>
      obtain ⟨middle, last, rfl, hmiddle, hlast⟩ := hrest.steps hpc'
      exact ⟨_, middle, last, rfl, rfl, hmiddle, hlast⟩
    | goesOn _ _ hpc _ _ => exact absurd rfl hpc

theorem activeTransfers_updatePeer (db : SyncDb) (id : Uuid) (f : PeerInstance → PeerInstance)
    (hf : ∀ p, (f p).id = p.id) {g : ℤ → ℤ}
    (hg : ∀ p, (f p).activeTransfers = g p.activeTransfers) :
    (db.updatePeer id f).activeTransfers id = (db.activeTransfers id).map g := by
  have hfind : ∀ peers : List PeerInstance,
      ((peers.map fun p => if p.id = id then f p else p).find? fun p => p.id == id) =
        (peers.find? fun p => p.id == id).map f := by
    intro peers
    induction peers with
    | nil => rfl
    | cons p rest ih =>
      rw [List.map_cons, List.find?_cons, List.find?_cons]
      by_cases hp : p.id = id
      · simp [hp, hf]
      · have hne : (p.id == id) = false := by simpa using hp
        simp only [if_neg hp, hne]
        exact ih
  simp only [SyncDb.activeTransfers, SyncDb.updatePeer, hfind, Option.map_map]
  exact Option.map_congr fun p _ => hg p

end Attempts

/-- A task in progress still has the retry count that its claim returned. -/
def RetryKept (s : ClaimState) : Prop :=
  ∀ row ∈ s.rows, ∀ t ∈ s.db.tasks, t.heldBy row.id row.claimToken = true →
    t.retryCount = row.retryCount

section Retries
variable {policy : SyncRetryPolicy} {s s' : ClaimState} {t t' : SyncTask}
  {f : SyncTask → SyncTask} {added : List SyncTask} {new : List TaskRow}

theorem ClaimStep.retryKept (h : ClaimStep policy s s' f added new) (hs : ClaimInv s)
    (hkept : RetryKept s) : RetryKept s' := by
  intro row hrow t' ht' hheld
  rcases h.mem_tasks ht' with ⟨t, ht, rfl⟩ | ⟨hpending, -⟩
  · rw [h.rows, List.mem_append] at hrow
    rcases hrow with hrow | hrow
    · rcases (h.change t ht).held hheld with ⟨hold, hcount⟩ | ⟨-, -, -, hfresh⟩
      · rw [hcount, hkept row hrow t ht hold]
      · exact absurd rfl (hfresh row hrow)
    · obtain ⟨hfresh, t₁, ht₁, hpending, hid, hcount, -⟩ := h.fresh row hrow
      have heq : t = t₁ := by
        refine hs.task_eq ht ht₁ ?_
        rw [← (h.change t ht).id_eq, (heldBy_iff.mp hheld).1, hid]
      subst heq
      rcases (h.change t ht).held hheld with ⟨hold, -⟩ | ⟨-, hsame, -, -⟩
      · rw [heldBy_iff, hpending] at hold
        cases hold.2.1
      · rw [hsame, hcount]
  · rw [heldBy_iff, hpending] at hheld
    cases hheld.2.1

theorem retryKept_of_reach {s₀ : ClaimState} (h₀ : ClaimInv s₀) (hkept : RetryKept s₀)
    (h : (claimMachine policy).Reach freshTokens s₀ s) : ClaimInv s ∧ RetryKept s := by
  refine h.invariant (I := fun s => ClaimInv s ∧ RetryKept s) ⟨h₀, hkept⟩ ?_
  rintro s a s' ⟨hs, hkept⟩ hfresh hstep
  obtain ⟨f, added, new, hok⟩ := claimMachine_step hfresh hstep
  exact ⟨hok.inv hs, hok.retryKept hs hkept⟩

end Retries

section Settling
variable {φ : Type} {E : SyncEnv φ} {s s' : SyncState} {t : Transfer} {c : ClaimState}

/-- The token-guarded update of a task that holds the token. -/
theorem finalize_eq_some {db : SyncDb} {task : TaskRow} {g : SyncTask → SyncTask} {held : SyncTask}
    (hmem : held ∈ db.tasks) (hheld : held.heldBy task.id task.claimToken = true) :
    db.finalize task g = some { db with
      tasks := db.tasks.map fun t =>
        if t.heldBy task.id task.claimToken then (g t).release else t } :=
  if_pos (List.any_eq_true.mpr ⟨held, hmem, hheld⟩)

/-- A finalizer that finds its claim takes the task, and no other of its id, out of progress. -/
theorem status_of_finalize (hinv : ClaimInv c) {task : TaskRow} (hheld : c.Holds task)
    {g : SyncTask → SyncTask} (hg : ∀ t, (g t).release.status ≠ .inProgress) :
    ∀ t' ∈ c.db.tasks.map (fun t => if t.heldBy task.id task.claimToken then (g t).release else t),
      t'.id = task.id → t'.status ≠ .inProgress := by
  obtain ⟨held, hmem, hheld⟩ := hheld
  intro t' ht' hid
  obtain ⟨t, ht, rfl⟩ := List.mem_map.mp ht'
  split at hid
  · next h =>
    rw [if_pos h]
    exact hg t
  · next h =>
    have heq : t = held := hinv.task_eq ht hmem (hid.trans (heldBy_iff.mp hheld).1.symm)
    exact absurd (heq ▸ hheld) h

theorem SettledBy.of_finalized {result : Except String Unit} (hinv : ClaimInv c)
    (hkept : RetryKept c) (hdb : s.db = c.db) (hrow : t.task ∈ c.rows) (hheld : c.Holds t.task)
    (h : Finalized E s t result s') : SettledBy t.task result s.db s'.db := by
  obtain ⟨held, hmem, htoken⟩ := id hheld
  have hmem' : held ∈ s.db.tasks := hdb ▸ hmem
  rcases h with ⟨message, rfl, rfl⟩ | ⟨bytes, rfl, rfl⟩
  · have hdone := handleTransferFailure_tasks s.db E.retryPolicy t.task message
    refine ⟨?_, ?_, fun e he t₁ ht₁ hid => ?_⟩
    · have hstatus := status_of_finalize hinv hheld (g := fun t₁ =>
        { t₁ with
          status := .failed
          errorMessage := some message
          retryCount := t.task.retryCount + 1 }) fun _ => by simp [SyncTask.release]
      rw [← hdb] at hstatus
      exact fun t' ht' => hstatus t' (hdone ▸ ht')
    · simp only [SyncState.fail, SyncDb.handleTransferFailure, finalize_eq_some hmem' htoken,
        Option.map_some, Option.getD_some]
      refine activeTransfers_updatePeer _ _ _ ?_ ?_
      · exact fun _ => rfl
      · exact fun _ => rfl
    · have heq : t₁ = held :=
        hinv.task_eq (hdb ▸ ht₁) hmem (hid.trans (heldBy_iff.mp htoken).1.symm)
      subst heq
      refine ⟨_, hdone ▸ List.mem_map_of_mem hmem', ?_⟩
      rw [if_pos htoken, hkept t.task hrow t₁ hmem htoken]
      exact ⟨hid, rfl⟩
  · have hsome : s.db.handleTransferSuccess t.task bytes = some (s.succeed t bytes).1.db := by
      unfold SyncState.succeed
      split
      · next db hdb => exact hdb
      · next hnone =>
        rw [SyncDb.handleTransferSuccess, finalize_eq_some hmem' htoken] at hnone
        cases hnone
    have hdone := handleTransferSuccess_tasks s.db t.task bytes
    rw [hsome, Option.getD_some] at hdone
    refine ⟨?_, ?_, fun e he => by cases he⟩
    · have hstatus := status_of_finalize hinv hheld (g := fun t₁ =>
        { t₁ with status := .completed, bytesTransferred := bytes }) fun _ => by
          simp [SyncTask.release]
      rw [← hdb] at hstatus
      exact fun t' ht' => hstatus t' (hdone ▸ ht')
    · rw [SyncDb.handleTransferSuccess, finalize_eq_some hmem' htoken] at hsome
      rw [← Option.some.inj hsome]
      refine activeTransfers_updatePeer _ _ _ ?_ ?_
      · exact fun _ => rfl
      · exact fun _ => rfl

/-- A statement whose transaction begins and takes effect now. -/
theorem SyncDb.since_now {db : SyncDb} {f : SyncDb → SyncDb} (h : (f db).now = db.now) :
    db.since db.now f = f db := by
  change { f db with now := db.now } = f db
  rw [← h]

theorem finalize_now {db db' : SyncDb} {task : TaskRow} {g : SyncTask → SyncTask}
    (h : db.finalize task g = some db') : db'.now = db.now := by
  obtain ⟨-, heq⟩ := Option.ite_none_right_eq_some.mp h
  cases heq
  rfl

theorem handleTransferFailure_now (db : SyncDb) (policy : SyncRetryPolicy) (task : TaskRow)
    (message : String) : (db.handleTransferFailure policy task message).now = db.now := by
  unfold SyncDb.handleTransferFailure
  cases hdone : db.finalize task _ with
  | none => rfl
  | some db' =>
    have hnow := finalize_now hdone
    exact hnow

theorem handleTransferSuccess_now (db : SyncDb) (task : TaskRow) (bytes : ℤ) :
    ((db.handleTransferSuccess task bytes).getD db).now = db.now := by
  unfold SyncDb.handleTransferSuccess
  cases hdone : db.finalize task _ with
  | none => rfl
  | some db' =>
    have hnow := finalize_now hdone
    exact hnow

/-- A return by a finalizer is the finalizer's call. -/
theorem Finalized.call {result : Except String Unit} (hdb : s.db = c.db) (hrow : t.task ∈ c.rows)
    (h : Finalized E s t result s') :
    ∃ a, (claimMachine E.retryPolicy).step c a = some { c with db := s'.db } ∧ freshTokens c a := by
  rcases h with ⟨message, -, rfl⟩ | ⟨bytes, -, rfl⟩
  · have hsince := SyncDb.since_now (f := (·.handleTransferFailure E.retryPolicy t.task message))
      (handleTransferFailure_now c.db E.retryPolicy t.task message)
    refine ⟨.failure c.db.now t.task message, ?_, trivial⟩
    simp only [claimMachine, le_refl, hrow, and_self, if_true, hsince]
    simp only [SyncState.fail, hdb]
  · have hsince := SyncDb.since_now (f := fun db => (db.handleTransferSuccess t.task bytes).getD db)
      (handleTransferSuccess_now c.db t.task bytes)
    have hdone : (s.succeed t bytes).1.db =
        (c.db.handleTransferSuccess t.task bytes).getD c.db := by
      unfold SyncState.succeed
      rw [hdb]
      cases c.db.handleTransferSuccess t.task bytes with
      | none => exact hdb
      | some db' => rfl
    refine ⟨.success c.db.now t.task bytes, ?_, trivial⟩
    simp only [claimMachine, le_refl, hrow, and_self, if_true, hsince, hdone]

/-- A step of a transfer takes at most one of the calls, on the row it was given. -/
theorem TransferEffect.reach {pc : TransferPc} {a : SyncAction} {l' : SyncProc}
    (h : TransferEffect E s t pc a s' l') (hdb : s.db = c.db) (hrow : t.task ∈ c.rows) :
    (claimMachine E.retryPolicy).Reach freshTokens c { c with db := s'.db } := by
  cases h with
  | begin =>
    refine Machine.Reach.refl.tail (a := .edit c.db.now
      (c.db.updatePeer t.task.peerInstanceId fun p =>
        { p with activeTransfers := p.activeTransfers + 1 }).peers c.db.connections
      c.db.chunkAvailability c.db.artifacts c.db.subscriptions) trivial ?_
    simp only [claimMachine, le_refl, if_true, hdb]
    rfl
  | goesOn _ _ _ _ hdb' =>
    rcases hdb' with rfl | rfl
    · rw [hdb]
      exact .refl
    · refine Machine.Reach.refl.tail (a := .extend c.db.now t.task E.claimTtlMs) trivial ?_
      have hsince : c.db.since c.db.now (·.extendSyncTaskClaim t.task E.claimTtlMs) =
          c.db.extendSyncTaskClaim t.task E.claimTtlMs := SyncDb.since_now rfl
      simp only [claimMachine, le_refl, hrow, and_self, if_true, hsince, hdb]
  | unsettled =>
    rw [hdb]
    exact .refl
  | settled result _ _ _ hfinal =>
    obtain ⟨call, hcall, hfresh⟩ := hfinal.call hdb hrow
    exact Machine.Reach.refl.tail hfresh hcall

theorem Attempt.reach {pc : TransferPc} {steps : List OwnStep} (h : Attempt E t pc steps) :
    ∀ x ∈ steps, ∀ c : ClaimState, x.before.db = c.db → t.task ∈ c.rows →
      (claimMachine E.retryPolicy).Reach freshTokens c { c with db := x.after.db } := by
  induction h with
  | last hstep =>
    intro x hx c hdb hrow
    obtain rfl := List.mem_singleton.mp hx
    exact (transferStep_effect hstep).reach hdb hrow
  | more hstep _ ih =>
    intro x hx c hdb hrow
    rcases List.mem_cons.mp hx with rfl | hx
    · exact (transferStep_effect hstep).reach hdb hrow
    · exact ih x hx c hdb hrow

/-- The last step of an attempt whose claim still stands settles the task exactly if it is not a
session request that failed in transport. -/
theorem settled_iff {pc : TransferPc} {a : SyncAction} (hinv : ClaimInv c) (hkept : RetryKept c)
    (hdb : s.db = c.db) (hrow : t.task ∈ c.rows) (hheld : c.Holds t.task)
    (h : transferStep E s t pc a = some (s', .finished)) :
    (∃ result, transferResult E pc a = some result ∧ SettledBy t.task result s.db s'.db) ↔
      ¬ initFailed pc a := by
  cases transferStep_effect h with
  | unsettled hfailed =>
    refine ⟨fun ⟨result, _, hsettled⟩ => ?_, fun hnot => absurd hfailed hnot⟩
    obtain ⟨held, hmem, htoken⟩ := hheld
    obtain ⟨hid, hstatus, -⟩ := heldBy_iff.mp htoken
    exact absurd hstatus (hsettled.status held (hdb ▸ hmem) hid)
  | settled result _ hnot hresult hfinal =>
    have hsettled := SettledBy.of_finalized hinv hkept hdb hrow hheld hfinal
    exact ⟨fun _ => hnot, fun _ => ⟨result, hresult, hsettled⟩⟩

end Settling

/-- How often claims have returned the task. -/
def ClaimState.attempts (s : ClaimState) (id : Uuid) : ℕ := s.rows.countP fun row => row.id == id

/-- How often a claim of the task was recovered. -/
def ClaimState.lapses (s : ClaimState) (id : Uuid) : ℕ := s.lapsed.count id

/-- Every attempt is accounted for: by the retry count, by a lapse, or by being the present or the
successful one; and only a task with retries left is pending or in progress. -/
def Accounted (policy : SyncRetryPolicy) (s : ClaimState) (t : SyncTask) : Prop :=
  match t.status with
  | .pending => s.attempts t.id ≤ t.retryCount + s.lapses t.id ∧
    t.retryCount < max t.maxRetries policy.maxRetries
  | .inProgress | .completed => s.attempts t.id ≤ t.retryCount + s.lapses t.id + 1 ∧
    t.retryCount < max t.maxRetries policy.maxRetries
  | .failed | .cancelled => s.attempts t.id ≤ t.retryCount + s.lapses t.id ∧
    t.retryCount ≤ max t.maxRetries policy.maxRetries

section Bound
variable {policy : SyncRetryPolicy} {s s' : ClaimState} {t t' : SyncTask}
  {f : SyncTask → SyncTask} {added : List SyncTask} {new : List TaskRow}

theorem Accounted.attempts_le (h : Accounted policy s t) :
    (s.attempts t.id : ℤ) ≤ max t.maxRetries policy.maxRetries + s.lapses t.id := by
  unfold Accounted at h
  split at h <;> omega

/-- Only the claim of a pending task is a new attempt, and it is one. -/
theorem ClaimStep.attempts (h : ClaimStep policy s s' f added new) (hs : ClaimInv s)
    (ht : t ∈ s.db.tasks) : s'.attempts t.id = s.attempts t.id ∨
      t.status = .pending ∧ (f t).status = .inProgress ∧
        s'.attempts t.id ≤ s.attempts t.id + 1 := by
  have hcount : s'.attempts t.id = s.attempts t.id + new.countP fun row => row.id == t.id := by
    rw [ClaimState.attempts, h.rows, List.countP_append]
    rfl
  by_cases hnew : ∃ row ∈ new, row.id = t.id
  · obtain ⟨row, hrow, hid⟩ := hnew
    obtain ⟨-, t₁, ht₁, hpending, hid₁, -, hheld⟩ := h.fresh row hrow
    have heq : t = t₁ := hs.task_eq ht ht₁ (by rw [← hid, hid₁])
    subst heq
    have hone : new.countP (fun row => row.id == t.id) ≤ 1 := by
      have hle := List.nodup_iff_count_le_one.mp (h.distinct hs.ids) t.id
      rwa [List.count, List.countP_map] at hle
    exact .inr ⟨hpending, (heldBy_iff.mp hheld).2.1, by omega⟩
  · left
    have hzero : new.countP (fun row => row.id == t.id) = 0 := by
      rw [List.countP_eq_zero]
      intro row hrow hid
      exact hnew ⟨row, hrow, beq_iff_eq.mp hid⟩
    omega

theorem ClaimStep.accounted (h : ClaimStep policy s s' f added new) (hs : ClaimInv s)
    (hkept : RetryKept s) (ht : t ∈ s.db.tasks) (hacc : Accounted policy s t) :
    Accounted policy s' (f t) := by
  have hlapses : s.lapses t.id ≤ s'.lapses t.id := h.lapsed.sublist.count_le t.id
  have hattempts := h.attempts hs ht
  have hchange := h.change t ht
  generalize f t = t' at hattempts hchange
  have hsame : t.status ≠ .pending → s'.attempts t.id = s.attempts t.id :=
    fun hne => hattempts.resolve_right fun hclaim => hne hclaim.1
  unfold Accounted at hacc ⊢
  cases hchange with
  | keep =>
    have hkeep : s'.attempts t.id = s.attempts t.id := by
      rcases hattempts with hkeep | ⟨hpending, hprogress, -⟩
      · exact hkeep
      · rw [hpending] at hprogress
        cases hprogress
    rw [hkeep]
    split at hacc <;> omega
  | claim claimedBy token expiresAt hpending hfresh =>
    simp only [hpending] at hacc
    have hle : s'.attempts t.id ≤ s.attempts t.id + 1 := by
      rcases hattempts with hkeep | ⟨-, -, hle⟩
      · omega
      · exact hle
    dsimp only
    omega
  | extend expiresAt hprogress =>
    have hkeep := hsame (by simp [hprogress])
    simp only [hprogress] at hacc ⊢
    omega
  | recover hprogress hlapsed =>
    have hkeep := hsame (by simp [hprogress])
    have hmore : s.lapses t.id < s'.lapses t.id := hlapsed
    simp only [hprogress] at hacc
    dsimp only [SyncTask.release]
    omega
  | retry hfailed hretries =>
    have hkeep := hsame (by simp [hfailed])
    simp only [hfailed] at hacc
    dsimp only [SyncTask.release]
    omega
  | complete bytes hprogress =>
    have hkeep := hsame (by simp [hprogress])
    simp only [hprogress] at hacc
    dsimp only [SyncTask.release]
    omega
  | fail row message hrow hheld =>
    have hprogress := (heldBy_iff.mp hheld).2.1
    have hkeep := hsame (by simp [hprogress])
    have hretry := hkept row hrow t ht hheld
    simp only [hprogress] at hacc
    dsimp only [SyncTask.release]
    omega

theorem TaskChange.maxRetries_eq (h : TaskChange policy s s' t t') :
    t'.maxRetries = t.maxRetries := by
  cases h <;> rfl

/-- A task that starts out pending is attempted no more often than its retries and lapses allow. -/
theorem attempts_le_of_reach {s₀ : ClaimState} (h₀ : ClaimInv s₀) (hkept : RetryKept s₀)
    (ht : t ∈ s₀.db.tasks) (hacc : Accounted policy s₀ t)
    (h : (claimMachine policy).Reach freshTokens s₀ s) :
    (s.attempts t.id : ℤ) ≤ max t.maxRetries policy.maxRetries + s.lapses t.id := by
  have hall : (ClaimInv s ∧ RetryKept s) ∧ ∃ t' ∈ s.db.tasks, t'.id = t.id ∧
      t'.maxRetries = t.maxRetries ∧ Accounted policy s t' := by
    refine h.invariant (I := fun s => (ClaimInv s ∧ RetryKept s) ∧ ∃ t' ∈ s.db.tasks, t'.id = t.id ∧
      t'.maxRetries = t.maxRetries ∧ Accounted policy s t') ⟨⟨h₀, hkept⟩, t, ht, rfl, rfl, hacc⟩ ?_
    rintro s a s' ⟨⟨hs, hkept⟩, t', ht', hid, hmax, hacc⟩ hfresh hstep
    obtain ⟨f, added, new, hok⟩ := claimMachine_step hfresh hstep
    have hchange := hok.change t' ht'
    exact ⟨⟨hok.inv hs, hok.retryKept hs hkept⟩, f t', hok.map_mem ht', hchange.id_eq.trans hid,
      hchange.maxRetries_eq.trans hmax, hok.accounted hs hkept ht' hacc⟩
  obtain ⟨-, t', -, hid, hmax, hacc'⟩ := hall
  have hle := hacc'.attempts_le
  rwa [hid, hmax] at hle

end Bound

/-- Whatever the other replicas do in between, an attempt counts itself in once, and when it returns
under a claim that still stands it settles its task and never holds it again, exactly if it is not a
session request that failed in transport. A task is attempted no more often than its retries and the
lapses of its claims allow, and stays failed once its retries are spent. -/
theorem attempts_settled_and_counted {φ : Type} (E : SyncEnv φ) (db : SyncDb)
    (hids : (db.tasks.map (·.id)).Nodup) (hpolicy : 1 ≤ E.retryPolicy.maxRetries) :
    (∀ t steps, Attempt E t .start steps →
      (∀ x ∈ steps, ∀ c, x.before.db = c.db → t.task ∈ c.rows →
        (claimMachine E.retryPolicy).Reach freshTokens c { c with db := x.after.db }) ∧
      ∃ (first : OwnStep) (middle : List OwnStep) (last : OwnStep),
        steps = first :: (middle ++ [last]) ∧
        first.after.db.tasks = first.before.db.tasks ∧
        first.after.db.activeTransfers t.task.peerInstanceId =
          (first.before.db.activeTransfers t.task.peerInstanceId).map (· + 1) ∧
        (∀ x ∈ middle, x.after.db.peers = x.before.db.peers) ∧
        ∀ c, (claimMachine E.retryPolicy).Reach freshTokens ⟨db, [], []⟩ c →
          last.before.db = c.db → t.task ∈ c.rows → c.Holds t.task →
          (((∃ result, transferResult E last.pc last.action = some result ∧
              SettledBy t.task result last.before.db last.after.db) ∧
            ∀ c', (claimMachine E.retryPolicy).Reach freshTokens { c with db := last.after.db } c' →
              ¬ c'.Holds t.task) ↔
            ¬ initFailed last.pc last.action)) ∧
    ∀ c, (claimMachine E.retryPolicy).Reach freshTokens ⟨db, [], []⟩ c → ∀ task ∈ c.db.tasks,
      ∀ c', (claimMachine E.retryPolicy).Reach freshTokens c c' →
        (task.status = .pending → task.retryCount = 0 → c.attempts task.id = 0 →
          (c'.attempts task.id : ℤ) ≤
            max task.maxRetries E.retryPolicy.maxRetries + c'.lapses task.id) ∧
        (task.status = .failed → max task.maxRetries E.retryPolicy.maxRetries ≤ task.retryCount →
          task ∈ c'.db.tasks ∧ ∀ row ∈ c'.rows, row.id = task.id → row ∈ c.rows) := by
  have hstart : ClaimInv ⟨db, [], []⟩ := ⟨hids, fun _ h => (List.not_mem_nil h).elim⟩
  have hstart' : RetryKept ⟨db, [], []⟩ := fun _ h => (List.not_mem_nil h).elim
  refine ⟨fun t steps hattempt => ⟨hattempt.reach, ?_⟩, fun c hc task htask c' hc' => ⟨?_, ?_⟩⟩
  · obtain ⟨first, middle, last, rfl, hfirst, hmiddle, hlast⟩ := hattempt.shape
    refine ⟨first, middle, last, rfl, ?_, ?_, fun x hx => ?_, fun c hc hdb hrow hheld => ?_⟩
    · rw [hfirst]
      rfl
    · rw [hfirst]
      refine activeTransfers_updatePeer _ _ _ ?_ ?_
      · exact fun _ => rfl
      · exact fun _ => rfl
    · rcases hmiddle x hx with hsame | hextended
      · rw [hsame]
      · rw [hextended]
        rfl
    · obtain ⟨hinv, hkept⟩ := retryKept_of_reach hstart hstart' hc
      have hiff := settled_iff hinv hkept hdb hrow hheld hlast
      refine ⟨fun h => hiff.mp h.1, fun hnot => ?_⟩
      obtain ⟨result, hresult, hsettled⟩ := hiff.mpr hnot
      refine ⟨⟨result, hresult, hsettled⟩, fun c' hc' => ?_⟩
      have hlost : ¬ ClaimState.Holds { c with db := last.after.db } t.task := by
        rintro ⟨held, hmem, htoken⟩
        obtain ⟨hid, hprogress, -⟩ := heldBy_iff.mp htoken
        exact hsettled.status held hmem hid hprogress
      exact (superseded_of_reach (s := { c with db := last.after.db }) hrow hlost hc').2
  · intro hpending hzero hnone
    obtain ⟨hinv, hkept⟩ := retryKept_of_reach hstart hstart' hc
    refine attempts_le_of_reach hinv hkept htask ?_ hc'
    simp only [Accounted, hpending]
    omega
  · intro hfailed hspent
    have hinv := claimInv_of_reach hstart hc
    exact final_of_reach hinv htask (.inr ⟨hfailed, hspent⟩) hc'

/-- An artifact of 200 MiB is due at edge-a. -/
def largeUpload : SyncDb where
  now := 0
  peers := [plainPeer 2 "edge-a" false]
  connections := []
  chunkAvailability := []
  artifacts := [⟨10, 7, false, "lib", some "1.0", 209715200, none, none, none, none⟩]
  subscriptions := []
  tasks := [⟨40, 2, 10, 0, 0, .pending, "push", 0, 3, none, none, none, 0, none⟩]

/-- The session request of the upload is refused in transport. -/
def refusedInit : List (ℕ × SyncAction) :=
  [(0, .recover), (0, .fetch), (0, .reset 0), (0, .visit fun _ => 900), (0, .dispatch),
    (1, .spawn), (1, .begin), (1, .reply (.failed "connection refused"))]

/-- The transfer has returned with its claim standing: the task is in progress, the counter of the
peer is up, and the failure is not counted. -/
theorem refused_init_not_settled : ∃ w t,
    (syncProtocol plainSyncEnv).machine.run ⟨⟨largeUpload, [], []⟩, fun _ => .idle⟩ refusedInit =
        some w ∧
      w.procs 1 = .finished ∧ w.shared.db.tasks = [t] ∧ t.heldBy 40 900 = true ∧
      t.status = .inProgress ∧ t.retryCount = 0 ∧ w.shared.db.activeTransfers 2 = some 1 := by
  exact ⟨_, _, rfl, rfl, rfl, by decide, rfl, rfl, by decide⟩

/-- The transfer of the task that `hubAndEdges` has. -/
def edgeTransfer : Transfer := ⟨firstRow, "https://edge-a", "key-edge-a", []⟩

/-- The claim of the task, and its attempt counted in at the peer. -/
def claimedAndBegun : List ClaimAction :=
  [.claim 0 2 5 5 "worker-1" 300000 fun _ => 900,
    .edit 0 ((hubAndEdges []).updatePeer 2 fun p =>
        { p with activeTransfers := p.activeTransfers + 1 }).peers
      (hubAndEdges []).connections [] (hubAndEdges []).artifacts (hubAndEdges []).subscriptions]

theorem attempts_settled_and_counted_of_refusal : ∃ first middle last c,
    Attempt plainSyncEnv edgeTransfer .start (first :: (middle ++ [last])) ∧
      (claimMachine ⟨3, 30, 3600⟩).run ⟨hubAndEdges [], [], []⟩ claimedAndBegun = some c ∧
      last.before.db = c.db ∧ c.Holds firstRow ∧ ¬ initFailed last.pc last.action ∧
      (∃ result, transferResult plainSyncEnv last.pc last.action = some result ∧
        SettledBy firstRow result last.before.db last.after.db) ∧
      (c.attempts 40 : ℤ) ≤ 3 + c.lapses 40 := by
  obtain ⟨hsettled, hcounted⟩ :=
    attempts_settled_and_counted plainSyncEnv (hubAndEdges []) (by decide) (by decide)
  have hmeets : (claimMachine ⟨3, 30, 3600⟩).Meets freshTokens ⟨hubAndEdges [], [], []⟩
      claimedAndBegun := by decide
  have hrun : ∃ c₁ c, (claimMachine ⟨3, 30, 3600⟩).step ⟨hubAndEdges [], [], []⟩
        (.claim 0 2 5 5 "worker-1" 300000 fun _ => 900) = some c₁ ∧
      (claimMachine ⟨3, 30, 3600⟩).run ⟨hubAndEdges [], [], []⟩ claimedAndBegun = some c ∧
      c.db = c₁.db.updatePeer 2 (fun p => { p with activeTransfers := p.activeTransfers + 1 }) ∧
      firstRow ∈ c.rows ∧ ∃ t ∈ c.db.tasks, t.heldBy 40 900 = true := by
    exact ⟨_, _, rfl, rfl, rfl, by decide, by decide⟩
  obtain ⟨c₁, c, -, hrun, hdb, hrow, hheld⟩ := hrun
  have hreach := Machine.reach_of_run claimedAndBegun hrun hmeets
  have hattempt : Attempt plainSyncEnv edgeTransfer .start
      [⟨⟨c₁.db, [], []⟩, .start, .begin, ⟨c.db, [], []⟩⟩,
        ⟨⟨c.db, [], []⟩, .read, .storage (.ok 2048), ⟨c.db, [], []⟩⟩,
        ⟨⟨c.db, [], []⟩, .put 2048, .reply (.response 500 "" (.ok false)),
          ((⟨c.db, [], []⟩ : SyncState).fail plainSyncEnv edgeTransfer
            "Remote peer returned 500: ").1⟩] := by
    refine .more ?_ (.more rfl (.last ?_))
    · rw [hdb]
      rfl
    · rfl
  obtain ⟨first, middle, last, hsteps, -, -, -, hlast⟩ := (hsettled _ _ hattempt).2
  have hend := congrArg List.getLast? hsteps
  rw [← List.cons_append, List.getLast?_concat] at hend
  obtain rfl := Option.some.inj hend
  refine ⟨first, middle, _, c, hsteps ▸ hattempt, hrun, rfl, hheld, id, ?_, ?_⟩
  · exact ((hlast c hreach rfl hrow hheld).mpr id).1
  · exact (hcounted _ .refl _ List.mem_cons_self c hreach).1 rfl rfl rfl

end ArtifactKeeper.Sync
