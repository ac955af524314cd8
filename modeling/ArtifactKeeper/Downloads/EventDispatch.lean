import ArtifactKeeper.Machine
import ArtifactKeeper.Shares
import Mathlib.Data.List.Nodup

/-! The bounded queue of download events with its flush workers. A statement is executed and
answered, rejected, or executed without an answer. -/

namespace ArtifactKeeper.Downloads

structure DownloadStatsEvent where
  artifactId : ℕ
  userId : Option ℕ
  ipAddress : Option String
  userAgent : Option String
  deriving DecidableEq, Repr

/-- The columns of `audit_log`; `event_id` is its primary key. -/
structure AuditEntry where
  eventId : ℕ
  userId : Option ℕ
  action : String
  resourceType : String
  resourceId : Option ℕ
  details : Option String
  ipAddress : Option String
  correlationId : String
  deriving DecidableEq, Repr

inductive DownloadEvent where
  | stats (event : DownloadStatsEvent)
  | audit (entry : AuditEntry)
  deriving DecidableEq, Repr

inductive EnqueueOutcome where
  | enqueued
  | shed
  | noDispatcher
  deriving DecidableEq, Repr

def flushBatchMax : ℕ := 256

def statsUserAgentMaxChars : ℕ := 512

def clampUserAgent (ua : String) : String :=
  String.ofList (ua.toList.take statsUserAgentMaxChars)

def DownloadStatsEvent.clamped (event : DownloadStatsEvent) : DownloadStatsEvent :=
  { event with userAgent := event.userAgent.map clampUserAgent }

/-- What a table has of an event. -/
def DownloadEvent.row : DownloadEvent → DownloadEvent
  | .stats event => .stats event.clamped
  | .audit entry => .audit entry

/-- The channel and the tables. The two counters are kept as the events that they have counted.
`offered` has every event that was handed in, `emitted` every audit event that was handed to the
export stream, and `discarded` what was queued when the receiver was dropped. -/
structure Dispatch where
  depth : ℕ
  queue : List DownloadEvent
  receivers : ℕ
  offered : List DownloadEvent
  shed : List DownloadEvent
  lost : List DownloadEvent
  statsRows : List DownloadStatsEvent
  auditRows : List AuditEntry
  emitted : List AuditEntry
  discarded : List DownloadEvent

def tryEnqueue (s : Dispatch) (event : DownloadEvent) : Dispatch × EnqueueOutcome :=
  let s := { s with offered := s.offered ++ [event] }
  if s.receivers = 0 ∨ s.depth ≤ s.queue.length then
    ({ s with shed := s.shed ++ [event] }, .shed)
  else ({ s with queue := s.queue ++ [event] }, .enqueued)

/-- Without a dispatcher nothing is recorded. -/
def tryEnqueueWith (s : Option Dispatch) (event : DownloadEvent) :
    Option Dispatch × EnqueueOutcome :=
  match s with
  | none => (none, .noDispatcher)
  | some s => (some (tryEnqueue s event).1, (tryEnqueue s event).2)

inductive Outcome where
  | done
  | rejected
  | unanswered
  deriving DecidableEq, Repr

def Outcome.executed : Outcome → Bool
  | .rejected => false
  | _ => true

/-- A flush worker: between batches, or with the rows that are left of one. The fallback inserts
the rows of a batch one by one and counts those that failed at the end. -/
inductive Worker where
  | collecting
  | inserting (stats : List DownloadStatsEvent) (audits : List AuditEntry)
  | retrying (rest lost : List DownloadStatsEvent) (audits : List AuditEntry)
  | logging (audits : List AuditEntry)
  | relogging (rest lost : List AuditEntry)
  | exited
  deriving DecidableEq, Repr

inductive Label where
  | enqueue (event : DownloadEvent)
  | collect
  | statement (o : Outcome)
  | record
  | exit
  deriving DecidableEq, Repr

def statsOf (batch : List DownloadEvent) : List DownloadStatsEvent :=
  batch.filterMap fun
    | .stats event => some event
    | .audit _ => none

def auditsOf (batch : List DownloadEvent) : List AuditEntry :=
  batch.filterMap fun
    | .stats _ => none
    | .audit entry => some entry

def logAudits (audits : List AuditEntry) : Worker :=
  if audits.isEmpty then .collecting else .logging audits

def flushBatch (batch : List DownloadEvent) : Worker :=
  if (statsOf batch).isEmpty then logAudits (auditsOf batch)
  else .inserting (statsOf batch) (auditsOf batch)

/-- One statement with all the rows. -/
def insertStats (s : Dispatch) (o : Outcome) (stats : List DownloadStatsEvent) : Dispatch :=
  if o.executed then { s with statsRows := s.statsRows ++ stats.map (·.clamped) } else s

/-- The primary key has to hold where the statement is executed. -/
def insertAudits (s : Dispatch) (o : Outcome) (audits : List AuditEntry) : Option Dispatch :=
  if o.executed then
    if ((s.auditRows ++ audits).map (·.eventId)).Nodup then
      some { s with auditRows := s.auditRows ++ audits }
    else none
  else some s

/-- At shutdown nobody drains the queue, and it goes with the last worker. -/
def exitWorker (s : Dispatch) : Dispatch :=
  if s.receivers ≤ 1 then
    { s with receivers := 0, queue := [], discarded := s.discarded ++ s.queue }
  else { s with receivers := s.receivers - 1 }

def step (s : Dispatch) : Worker → Label → Option (Dispatch × Worker)
  | .collecting, .collect =>
    if s.queue.isEmpty then none
    else some ({ s with queue := s.queue.drop flushBatchMax },
      flushBatch (s.queue.take flushBatchMax))
  | .collecting, .exit => some (exitWorker s, .exited)
  | .inserting stats audits, .statement o =>
    some (insertStats s o stats, if o = .done then logAudits audits else .retrying stats [] audits)
  | .retrying (row :: rest) lost audits, .statement o =>
    some (insertStats s o [row], .retrying rest (if o = .done then lost else lost ++ [row]) audits)
  | .retrying [] lost audits, .record =>
    some ({ s with lost := s.lost ++ lost.map .stats }, logAudits audits)
  | .logging audits, .statement o =>
    (insertAudits { s with emitted := s.emitted ++ audits } o audits).map fun s' =>
      (s', if o = .done then .collecting else .relogging audits [])
  | .relogging (row :: rest) lost, .statement o =>
    (insertAudits s o [row]).map fun s' =>
      (s', .relogging rest (if o = .done then lost else lost ++ [row]))
  | .relogging [] lost, .record =>
    some ({ s with lost := s.lost ++ lost.map .audit }, .collecting)
  | l, .enqueue event => some ((tryEnqueue s event).1, l)
  | _, _ => none

def dispatchProtocol : Protocol Dispatch Worker Label where
  step _ s l a := step s l a

def spawnDispatch (depth workers : ℕ) : World Dispatch Worker where
  shared := ⟨depth, [], max workers 1, [], [], [], [], [], [], []⟩
  procs p := if p < max workers 1 then .collecting else .exited

/-- The events that a worker has in hand. -/
def Worker.held : Worker → List DownloadEvent
  | .collecting => []
  | .inserting stats audits => stats.map .stats ++ audits.map .audit
  | .retrying rest lost audits => (rest ++ lost).map .stats ++ audits.map .audit
  | .logging audits => audits.map .audit
  | .relogging rest lost => (rest ++ lost).map .audit
  | .exited => []

/-- How often a row comes from a list of events. -/
def times (row : DownloadEvent) (events : List DownloadEvent) : ℕ :=
  (events.map DownloadEvent.row).count row

/-- How often a row has found its place: dropped and counted, waiting, gone with the queue, or
written. -/
def settled (row : DownloadEvent) (s : Dispatch) : ℕ :=
  times row s.shed + times row s.lost + times row s.queue + times row s.discarded +
    times row (s.statsRows.map .stats) + times row (s.auditRows.map .audit)

variable {row : DownloadEvent} {s s' : Dispatch} {l l' : Worker} {a : Label} {p : ℕ}

@[simp] theorem times_nil : times row [] = 0 := rfl

@[simp] theorem times_append (xs ys : List DownloadEvent) :
    times row (xs ++ ys) = times row xs + times row ys := by
  simp [times]

theorem clampUserAgent_idem (ua : String) :
    clampUserAgent (clampUserAgent ua) = clampUserAgent ua := by
  simp [clampUserAgent, List.take_take]

theorem clamped_idem (event : DownloadStatsEvent) : event.clamped.clamped = event.clamped := by
  obtain ⟨_, _, _, ua⟩ := event
  cases ua with
  | none => rfl
  | some ua => simp [DownloadStatsEvent.clamped, clampUserAgent_idem]

/-- A row is the same before and behind the clamp. -/
@[simp] theorem times_clamped (stats : List DownloadStatsEvent) :
    times row ((stats.map (·.clamped)).map .stats) = times row (stats.map .stats) := by
  simp only [times, List.map_map]
  congr 1
  exact List.map_congr_left fun event _ => by simp [DownloadEvent.row, clamped_idem]

theorem times_split (batch : List DownloadEvent) :
    times row ((statsOf batch).map .stats) + times row ((auditsOf batch).map .audit) =
      times row batch := by
  induction batch with
  | nil => rfl
  | cons event rest ih =>
    cases event with
    | stats event =>
      simp only [statsOf, auditsOf, times, List.filterMap_cons, List.map_cons,
        List.count_cons] at ih ⊢
      omega
    | audit entry =>
      simp only [statsOf, auditsOf, times, List.filterMap_cons, List.map_cons,
        List.count_cons] at ih ⊢
      omega

theorem held_logAudits (audits : List AuditEntry) :
    (logAudits audits).held = audits.map .audit := by
  cases audits <;> rfl

theorem times_held_flushBatch (batch : List DownloadEvent) :
    times row (flushBatch batch).held = times row batch := by
  rw [← times_split batch, flushBatch]
  split
  · next hempty =>
    rw [held_logAudits, List.isEmpty_iff.mp hempty]
    exact (Nat.zero_add _).symm
  · exact times_append _ _

theorem settled_insertStats (o : Outcome) (stats : List DownloadStatsEvent) :
    settled row (insertStats s o stats) =
      settled row s + if o.executed then times row (stats.map .stats) else 0 := by
  unfold insertStats
  split
  · simp only [settled, List.map_append, times_append, times_clamped]
    omega
  · rfl

/-- A statement on one table leaves everything else as it is. -/
theorem insertStats_frame (o : Outcome) (stats : List DownloadStatsEvent) :
    insertStats s o stats = { s with statsRows := (insertStats s o stats).statsRows } := by
  unfold insertStats
  split <;> rfl

theorem insertAudits_frame {o : Outcome} {audits : List AuditEntry}
    (h : insertAudits s o audits = some s') : s' = { s with auditRows := s'.auditRows } := by
  unfold insertAudits at h
  split at h
  · split at h
    · cases h
      rfl
    · cases h
  · cases h
    rfl

theorem offered_insertStats (o : Outcome) (stats : List DownloadStatsEvent) :
    (insertStats s o stats).offered = s.offered := by
  rw [insertStats_frame]

variable (row) in
theorem settled_insertAudits {o : Outcome} {audits : List AuditEntry}
    (h : insertAudits s o audits = some s') :
    settled row s' = settled row s + (if o.executed then times row (audits.map .audit) else 0) ∧
      s'.offered = s.offered := by
  unfold insertAudits at h
  split at h
  · next hexecuted =>
    split at h
    · cases h
      refine ⟨?_, rfl⟩
      simp only [settled, List.map_append, times_append, hexecuted, if_true]
      omega
    · cases h
  · next hrejected =>
    cases h
    simp [hrejected]

variable (row) in
theorem settled_exitWorker : settled row (exitWorker s) = settled row s ∧
    (exitWorker s).offered = s.offered := by
  unfold exitWorker
  split
  · refine ⟨?_, rfl⟩
    simp only [settled, times_append, times_nil]
    omega
  · exact ⟨rfl, rfl⟩

theorem times_cons (event : DownloadEvent) (rest : List DownloadEvent) :
    times row (event :: rest) = times row [event] + times row rest :=
  times_append [event] rest

@[simp] theorem times_held_logAudits (audits : List AuditEntry) :
    times row (logAudits audits).held = times row (audits.map .audit) := by
  rw [held_logAudits]

@[simp] theorem times_held_collecting : times row Worker.collecting.held = 0 := rfl

@[simp] theorem times_held_exited : times row Worker.exited.held = 0 := rfl

@[simp] theorem times_held_logging (audits : List AuditEntry) :
    times row (Worker.logging audits).held = times row (audits.map .audit) := rfl

@[simp] theorem times_held_inserting (stats : List DownloadStatsEvent) (audits : List AuditEntry) :
    times row (Worker.inserting stats audits).held =
      times row (stats.map .stats) + times row (audits.map .audit) :=
  times_append _ _

@[simp] theorem times_held_retrying (rest lost : List DownloadStatsEvent)
    (audits : List AuditEntry) : times row (Worker.retrying rest lost audits).held =
      times row (rest.map .stats) + times row (lost.map .stats) +
        times row (audits.map .audit) := by
  simp [Worker.held, Nat.add_assoc]

@[simp] theorem times_held_relogging (rest lost : List AuditEntry) :
    times row (Worker.relogging rest lost).held =
      times row (rest.map .audit) + times row (lost.map .audit) := by
  simp [Worker.held]

variable (row) in
theorem tryEnqueue_balance (event : DownloadEvent) :
    settled row (tryEnqueue s event).1 = settled row s + times row [event] ∧
      (tryEnqueue s event).1.offered = s.offered ++ [event] := by
  unfold tryEnqueue
  dsimp only
  split
  · refine ⟨?_, rfl⟩
    simp only [settled, times_append]
    omega
  · refine ⟨?_, rfl⟩
    simp only [settled, times_append]
    omega

variable (row) in
/-- A step keeps the balance, except that a statement without an answer may write rows that stay in
hand. -/
theorem step_balance (h : step s l a = some (s', l')) :
    ∃ surplus, settled row s' + times row l'.held + times row s.offered =
        settled row s + times row l.held + times row s'.offered + surplus ∧
      (a ≠ .statement .unanswered → surplus = 0) := by
  unfold step at h
  split at h
  · split at h
    · cases h
    · cases h
      refine ⟨0, ?_, fun _ => rfl⟩
      have hqueue : times row s.queue = times row (s.queue.take flushBatchMax) +
          times row (s.queue.drop flushBatchMax) := by
        rw [← times_append, List.take_append_drop]
      simp only [settled, times_held_flushBatch, hqueue, times_held_collecting]
      omega
  · cases h
    obtain ⟨hsettled, hoffered⟩ := @settled_exitWorker row s
    refine ⟨0, ?_, fun _ => rfl⟩
    rw [hsettled, hoffered]
    rfl
  · next stats audits o =>
    cases h
    refine ⟨if o = .unanswered then times row (stats.map .stats) else 0, ?_,
      fun hne => if_neg fun ho : o = .unanswered => hne (congrArg Label.statement ho)⟩
    rw [settled_insertStats, offered_insertStats]
    cases o <;> simp [Outcome.executed] <;> omega
  · next stat rest lost audits o =>
    cases h
    refine ⟨if o = .unanswered then times row [.stats stat] else 0, ?_,
      fun hne => if_neg fun ho : o = .unanswered => hne (congrArg Label.statement ho)⟩
    rw [settled_insertStats, offered_insertStats]
    cases o <;> simp [Outcome.executed, times_cons (.stats stat) (rest.map .stats)] <;> omega
  · next lost audits =>
    cases h
    refine ⟨0, ?_, fun _ => rfl⟩
    simp only [settled, times_append, times_held_logAudits, times_held_retrying, List.map_nil,
      times_nil]
    omega
  · next audits o =>
    obtain ⟨s₁, hinsert, heq⟩ := Option.map_eq_some_iff.mp h
    cases heq
    obtain ⟨hsettled, hoffered⟩ := settled_insertAudits row hinsert
    refine ⟨if o = .unanswered then times row (audits.map .audit) else 0, ?_,
      fun hne => if_neg fun ho : o = .unanswered => hne (congrArg Label.statement ho)⟩
    have hemitted : settled row { s with emitted := s.emitted ++ audits } = settled row s := rfl
    rw [hsettled, hoffered, hemitted]
    cases o <;> simp [Outcome.executed]
    omega
  · next entry rest lost o =>
    obtain ⟨s₁, hinsert, heq⟩ := Option.map_eq_some_iff.mp h
    cases heq
    obtain ⟨hsettled, hoffered⟩ := settled_insertAudits row hinsert
    refine ⟨if o = .unanswered then times row [.audit entry] else 0, ?_,
      fun hne => if_neg fun ho : o = .unanswered => hne (congrArg Label.statement ho)⟩
    rw [hsettled, hoffered]
    cases o <;> simp [Outcome.executed, times_cons (.audit entry) (rest.map .audit)] <;> omega
  · next lost =>
    cases h
    refine ⟨0, ?_, fun _ => rfl⟩
    simp only [settled, times_append, times_held_relogging, times_held_collecting, List.map_nil,
      times_nil]
    omega
  · next event =>
    cases h
    obtain ⟨hsettled, hoffered⟩ := @tryEnqueue_balance row s event
    refine ⟨0, ?_, fun _ => rfl⟩
    rw [hsettled, hoffered, times_append]
    omega
  · cases h

/-- What the workers have in hand together. -/
def InHand (row : DownloadEvent) (w : World Dispatch Worker) (n : ℕ) : Prop :=
  Shares (fun q => times row (w.procs q).held) n

/-- Every statement is answered. -/
def Answered (_ : World Dispatch Worker) (a : ℕ × Label) : Prop := a.2 ≠ .statement .unanswered

variable (row) in
theorem balance_of_reach {ok : World Dispatch Worker → ℕ × Label → Prop} {depth workers : ℕ}
    {w : World Dispatch Worker}
    (h : dispatchProtocol.machine.Reach ok (spawnDispatch depth workers) w) :
    ∃ n surplus, InHand row w n ∧
      settled row w.shared + n = times row w.shared.offered + surplus ∧
      ((∀ w a, ok w a → Answered w a) → surplus = 0) := by
  induction h with
  | refl =>
    refine ⟨0, 0, ?_, rfl, fun _ => rfl⟩
    have hnone : (fun q => times row ((spawnDispatch depth workers).procs q).held) =
        fun _ => 0 := by
      funext q
      unfold spawnDispatch
      dsimp only
      split <;> rfl
    rw [InHand, hnone]
    exact Shares.zero
  | @tail w w' a _ hok hstep ih =>
    obtain ⟨n, surplus, hn, hbalance, hexact⟩ := ih
    obtain ⟨s', l', hs, rfl⟩ := Protocol.machine_step (p := a.1) (a := a.2) hstep
    obtain ⟨more, hmore, hnone⟩ := step_balance row hs
    have hle : times row (w.procs a.1).held ≤ n := Shares.apply_le hn a.1
    refine ⟨n - times row (w.procs a.1).held + times row l'.held, surplus + more,
      Shares.update_comp (F := fun l : Worker => times row l.held) hn a.1 ?_, ?_, fun hall => ?_⟩
    · omega
    · dsimp only
      omega
    · rw [hexact hall, hnone (hall _ _ hok)]

/-- The receiver goes with the last worker only. -/
theorem step_receivers (h : step s l a = some (s', l')) :
    s' = exitWorker s ∨ s'.receivers = s.receivers ∧ s'.discarded = s.discarded := by
  have hstats : ∀ o stats, (insertStats s o stats).receivers = s.receivers ∧
      (insertStats s o stats).discarded = s.discarded := by
    intro o stats
    rw [insertStats_frame]
    exact ⟨rfl, rfl⟩
  have haudits : ∀ (s : Dispatch) o audits, ∀ s₁ ∈ insertAudits s o audits,
      s₁.receivers = s.receivers ∧ s₁.discarded = s.discarded := by
    intro s o audits s₁ hs₁
    rw [insertAudits_frame hs₁]
    exact ⟨rfl, rfl⟩
  unfold step at h
  split at h
  · split at h
    · cases h
    · cases h
      exact .inr ⟨rfl, rfl⟩
  · cases h
    exact .inl rfl
  · cases h
    exact .inr (hstats _ _)
  · cases h
    exact .inr (hstats _ _)
  · cases h
    exact .inr ⟨rfl, rfl⟩
  · next audits o =>
    obtain ⟨s₁, hs₁, heq⟩ := Option.map_eq_some_iff.mp h
    cases heq
    exact .inr (haudits { s with emitted := s.emitted ++ audits } o audits _ hs₁)
  · obtain ⟨s₁, hs₁, heq⟩ := Option.map_eq_some_iff.mp h
    cases heq
    exact .inr (haudits _ _ _ _ hs₁)
  · cases h
    exact .inr ⟨rfl, rfl⟩
  · cases h
    unfold tryEnqueue
    dsimp only
    split <;> exact .inr ⟨rfl, rfl⟩
  · cases h

/-- While a worker is left nothing has been discarded. -/
theorem discarded_of_reach {ok : World Dispatch Worker → ℕ × Label → Prop} {depth workers : ℕ}
    {w : World Dispatch Worker}
    (h : dispatchProtocol.machine.Reach ok (spawnDispatch depth workers) w) :
    0 < w.shared.receivers → w.shared.discarded = [] := by
  refine (Protocol.reach_rely_guarantee h (I := fun s => 0 < s.receivers → s.discarded = [])
    (A := fun _ _ _ => True) (fun _ => rfl) (fun _ => trivial) ?_).1
  intro w p a s' l' hI _ _ hs
  refine ⟨fun hpos => ?_, trivial, fun _ _ => trivial⟩
  rcases step_receivers hs with rfl | ⟨hreceivers, hdiscarded⟩
  · unfold exitWorker at hpos ⊢
    split at hpos
    · cases hpos
    · next hmany =>
      rw [if_neg hmany]
      exact hI (by omega)
  · rw [hdiscarded]
    exact hI (hreceivers ▸ hpos)

/-- Whatever overflows, fails and is left without an answer: an event that was handed in is waiting,
in a worker's hands, written or counted as dropped, or it was queued when the last worker exited. -/
theorem events_accounted {depth workers : ℕ} {w : World Dispatch Worker}
    (h : dispatchProtocol.machine.Reach Machine.anyStep (spawnDispatch depth workers) w)
    (row : DownloadEvent) :
    (∃ n, InHand row w n ∧ times row w.shared.offered ≤ settled row w.shared + n) ∧
      (0 < w.shared.receivers → w.shared.discarded = []) := by
  obtain ⟨n, surplus, hn, hbalance, -⟩ := balance_of_reach row h
  exact ⟨⟨n, hn, by omega⟩, discarded_of_reach h⟩

def pulled : DownloadStatsEvent := ⟨1, some 7, some "203.0.113.9", some "curl/8.1"⟩

def pulledEntry : AuditEntry :=
  ⟨5, some 7, "ARTIFACT_DOWNLOADED", "artifact", some 1, none, some "203.0.113.9", "c0ffee"⟩

/-- Three events for a queue of two; a batch is rejected, and then one of its rows. -/
def floodLabels : List (ℕ × Label) :=
  [(1, .enqueue (.stats pulled)), (1, .enqueue (.audit pulledEntry)), (1, .enqueue (.stats pulled)),
    (0, .collect), (0, .statement .rejected), (0, .statement .rejected), (0, .record),
    (0, .statement .done)]

theorem flood_run : ∃ w, dispatchProtocol.machine.run (spawnDispatch 2 1) floodLabels = some w ∧
    w.shared.lost = [.stats pulled] ∧ w.shared.shed = [.stats pulled] ∧
    w.shared.auditRows = [pulledEntry] := ⟨_, rfl, rfl, rfl, rfl⟩

theorem events_accounted_flood :
    ∃ w n, dispatchProtocol.machine.run (spawnDispatch 2 1) floodLabels = some w ∧
      InHand (.stats pulled) w n ∧
      times (.stats pulled) w.shared.offered ≤ settled (.stats pulled) w.shared + n := by
  obtain ⟨w, hrun, -⟩ := flood_run
  have hreach := Machine.reach_of_run floodLabels hrun (Machine.meets_anyStep _ _)
  obtain ⟨⟨n, hn, hle⟩, -⟩ := events_accounted hreach (.stats pulled)
  exact ⟨w, n, hrun, hn, hle⟩

/-- It is in one of these places only, once for each time that it was handed in, where every
statement is answered. -/
theorem events_accounted_once {depth workers : ℕ} {w : World Dispatch Worker}
    (h : dispatchProtocol.machine.Reach Answered (spawnDispatch depth workers) w)
    (row : DownloadEvent) :
    (∃ n, InHand row w n ∧ times row w.shared.offered = settled row w.shared + n) ∧
      (0 < w.shared.receivers → w.shared.discarded = []) := by
  obtain ⟨n, surplus, hn, hbalance, hexact⟩ := balance_of_reach row h
  have hzero := hexact fun _ _ h => h
  exact ⟨⟨n, hn, by omega⟩, discarded_of_reach h⟩

theorem events_accounted_once_flood :
    ∃ w n, dispatchProtocol.machine.run (spawnDispatch 2 1) floodLabels = some w ∧
      InHand (.stats pulled) w n ∧
      times (.stats pulled) w.shared.offered = settled (.stats pulled) w.shared + n := by
  obtain ⟨w, hrun, -⟩ := flood_run
  have hreach : dispatchProtocol.machine.Reach Answered (spawnDispatch 2 1) w := by
    refine Machine.reach_of_run floodLabels hrun ⟨?_, ?_, ?_, ?_, ?_, ?_, ?_, ?_, trivial⟩
    all_goals exact nofun
  obtain ⟨⟨n, hn, heq⟩, -⟩ := events_accounted_once hreach (.stats pulled)
  exact ⟨w, n, hrun, hn, heq⟩

/-- What holds of the queue, and of the audit trail beside the export stream. -/
structure Trail (s : Dispatch) : Prop where
  bounded : s.queue.length ≤ s.depth
  once : (s.auditRows.map (·.eventId)).Nodup
  written : s.auditRows ⊆ s.emitted
  lost : ∀ entry, .audit entry ∈ s.lost → entry ∈ s.emitted

/-- The rows of a fallback have been handed to the export stream. -/
def Worker.Emitted (s : Dispatch) : Worker → Prop
  | .relogging rest lost => ∀ entry ∈ rest ++ lost, entry ∈ s.emitted
  | _ => True

theorem Trail.insertStats (h : Trail s) (o : Outcome) (stats : List DownloadStatsEvent) :
    Trail (insertStats s o stats) ∧ (insertStats s o stats).emitted = s.emitted := by
  unfold Downloads.insertStats
  split
  · exact ⟨⟨h.bounded, h.once, h.written, h.lost⟩, rfl⟩
  · exact ⟨h, rfl⟩

theorem Trail.insertAudits (h : Trail s) {o : Outcome} {audits : List AuditEntry}
    (haudits : audits ⊆ s.emitted) (hinsert : insertAudits s o audits = some s') :
    Trail s' ∧ s'.emitted = s.emitted := by
  unfold Downloads.insertAudits at hinsert
  split at hinsert
  · split at hinsert
    · next honce =>
      cases hinsert
      exact ⟨⟨h.bounded, honce, List.append_subset.mpr ⟨h.written, haudits⟩, h.lost⟩, rfl⟩
    · cases hinsert
  · cases hinsert
    exact ⟨h, rfl⟩

theorem Trail.tryEnqueue (h : Trail s) (event : DownloadEvent) :
    Trail (tryEnqueue s event).1 ∧ (tryEnqueue s event).1.emitted = s.emitted := by
  unfold Downloads.tryEnqueue
  dsimp only
  split
  · exact ⟨⟨h.bounded, h.once, h.written, h.lost⟩, rfl⟩
  · next hopen =>
    have hroom := (not_or.mp hopen).2
    refine ⟨⟨?_, h.once, h.written, h.lost⟩, rfl⟩
    rw [List.length_append, List.length_singleton]
    dsimp only at hroom ⊢
    omega

theorem Trail.exitWorker (h : Trail s) :
    Trail (exitWorker s) ∧ (exitWorker s).emitted = s.emitted := by
  unfold Downloads.exitWorker
  split
  · exact ⟨⟨Nat.zero_le _, h.once, h.written, h.lost⟩, rfl⟩
  · exact ⟨⟨h.bounded, h.once, h.written, h.lost⟩, rfl⟩

theorem logAudits_emitted (s : Dispatch) (audits : List AuditEntry) :
    (logAudits audits).Emitted s := by
  unfold logAudits
  split <;> trivial

theorem step_trail (h : Trail s) (hl : l.Emitted s) (hstep : step s l a = some (s', l')) :
    Trail s' ∧ l'.Emitted s' ∧ s.emitted ⊆ s'.emitted := by
  unfold step at hstep
  split at hstep
  · split at hstep
    · cases hstep
    · cases hstep
      refine ⟨⟨?_, h.once, h.written, h.lost⟩, ?_, List.Subset.refl _⟩
      · have hdrop : (s.queue.drop flushBatchMax).length ≤ s.queue.length :=
          (List.drop_sublist _ _).length_le
        exact hdrop.trans h.bounded
      · unfold flushBatch
        split
        · exact logAudits_emitted _ _
        · trivial
  · cases hstep
    obtain ⟨htrail, hemitted⟩ := h.exitWorker
    exact ⟨htrail, trivial, hemitted ▸ List.Subset.refl _⟩
  · next stats audits o =>
    cases hstep
    obtain ⟨htrail, hemitted⟩ := h.insertStats o stats
    refine ⟨htrail, ?_, hemitted ▸ List.Subset.refl _⟩
    split
    · exact logAudits_emitted _ _
    · trivial
  · next stat rest lost audits o =>
    cases hstep
    obtain ⟨htrail, hemitted⟩ := h.insertStats o [stat]
    exact ⟨htrail, trivial, hemitted ▸ List.Subset.refl _⟩
  · next lost audits =>
    cases hstep
    refine ⟨⟨h.bounded, h.once, h.written, fun entry hentry => ?_⟩, logAudits_emitted _ _,
      List.Subset.refl _⟩
    rcases List.mem_append.mp hentry with hold | hnew
    · exact h.lost entry hold
    · obtain ⟨_, -, heq⟩ := List.mem_map.mp hnew
      cases heq
  · next audits o =>
    obtain ⟨s₁, hinsert, heq⟩ := Option.map_eq_some_iff.mp hstep
    cases heq
    have hemit : Trail { s with emitted := s.emitted ++ audits } :=
      ⟨h.bounded, h.once, List.subset_append_of_subset_left _ h.written,
        fun entry hentry => List.mem_append_left _ (h.lost entry hentry)⟩
    obtain ⟨htrail, hemitted⟩ := hemit.insertAudits (List.subset_append_right _ _) hinsert
    refine ⟨htrail, ?_, hemitted ▸ List.subset_append_left _ _⟩
    split
    · trivial
    · intro entry hentry
      rw [hemitted]
      exact List.mem_append_right _ (by simpa using hentry)
  · next entry rest lost o =>
    obtain ⟨s₁, hinsert, heq⟩ := Option.map_eq_some_iff.mp hstep
    cases heq
    have hall : ∀ e ∈ entry :: rest ++ lost, e ∈ s.emitted := hl
    obtain ⟨htrail, hemitted⟩ :=
      h.insertAudits (List.cons_subset.mpr ⟨hall entry List.mem_cons_self, List.nil_subset _⟩)
        hinsert
    refine ⟨htrail, fun e he => ?_, hemitted ▸ List.Subset.refl _⟩
    rw [hemitted]
    refine hall e ?_
    split at he
    · exact List.mem_cons_of_mem _ he
    · simp only [List.mem_append, List.mem_cons] at he ⊢
      tauto
  · next lost =>
    cases hstep
    refine ⟨⟨h.bounded, h.once, h.written, fun entry hentry => ?_⟩, trivial, List.Subset.refl _⟩
    rcases List.mem_append.mp hentry with hold | hnew
    · exact h.lost entry hold
    · obtain ⟨e, he, heq⟩ := List.mem_map.mp hnew
      cases heq
      have hall : ∀ e ∈ [] ++ lost, e ∈ s.emitted := hl
      exact hall entry he
  · next event =>
    cases hstep
    obtain ⟨htrail, hemitted⟩ := h.tryEnqueue event
    refine ⟨htrail, ?_, hemitted ▸ List.Subset.refl _⟩
    cases l with
    | relogging rest lost =>
      intro entry hentry
      rw [hemitted]
      exact hl entry hentry
    | _ => trivial
  · cases hstep

/-- The queue is bounded, the audit table has each event once at most, and each audit event that was
written or lost has been handed to the export stream, whatever fails. -/
theorem audit_trail {depth workers : ℕ} {w : World Dispatch Worker}
    (h : dispatchProtocol.machine.Reach Machine.anyStep (spawnDispatch depth workers) w) :
    Trail w.shared := by
  refine (Protocol.reach_rely_guarantee h (I := Trail) (A := fun _ l s => l.Emitted s)
    ⟨Nat.zero_le _, List.nodup_nil, List.nil_subset _, fun _ h => by cases h⟩ (fun p => ?_) ?_).1
  · unfold spawnDispatch
    dsimp only
    split <;> trivial
  · intro w p a s' l' hI hA _ hs
    obtain ⟨htrail, hl', hsub⟩ := step_trail hI (hA p) hs
    refine ⟨htrail, hl', fun q _ => ?_⟩
    have hq := hA q
    cases hw : w.procs q with
    | relogging rest lost =>
      rw [hw] at hq
      exact fun entry hentry => hsub (hq entry hentry)
    | _ => trivial

theorem audit_trail_flood :
    ∃ w, dispatchProtocol.machine.run (spawnDispatch 2 1) floodLabels = some w ∧
      w.shared.auditRows = [pulledEntry] ∧ Trail w.shared := by
  obtain ⟨w, hrun, -, -, hrows⟩ := flood_run
  exact ⟨w, hrun, hrows,
    audit_trail (Machine.reach_of_run floodLabels hrun (Machine.meets_anyStep _ _))⟩

/-- The row that a fallback tries next. -/
def Worker.tried : Worker → Option DownloadEvent
  | .retrying (row :: _) _ _ => some (.stats row)
  | .relogging (entry :: _) _ => some (.audit entry)
  | _ => none

/-- A row that is tried alone fails for its own sake. -/
def FailsAlone (bad : DownloadEvent → Prop) (w : World Dispatch Worker) (a : ℕ × Label) : Prop :=
  ∀ o, a.2 = .statement o → o ≠ .done → ∀ event ∈ (w.procs a.1).tried, bad event

/-- The rows that a fallback has given up. -/
def Worker.givenUp : Worker → List DownloadEvent
  | .retrying _ lost _ => lost.map .stats
  | .relogging _ lost => lost.map .audit
  | _ => []

theorem step_givenUp {bad : DownloadEvent → Prop} (hlost : ∀ event ∈ s.lost, bad event)
    (hl : ∀ event ∈ l.givenUp, bad event)
    (hok : ∀ o, a = .statement o → o ≠ .done → ∀ event ∈ l.tried, bad event)
    (hstep : step s l a = some (s', l')) :
    (∀ event ∈ s'.lost, bad event) ∧ ∀ event ∈ l'.givenUp, bad event := by
  have hinsert : ∀ (s : Dispatch) o stats, (insertStats s o stats).lost = s.lost := by
    intro s o stats
    rw [insertStats_frame]
  have haudits : ∀ (s : Dispatch) o audits, ∀ s₁ ∈ insertAudits s o audits, s₁.lost = s.lost := by
    intro s o audits s₁ hs₁
    rw [insertAudits_frame hs₁]
  have hlog : ∀ audits, (logAudits audits).givenUp = [] := by
    intro audits
    unfold logAudits
    split <;> rfl
  have hnil : ∀ event ∈ ([] : List DownloadEvent), bad event :=
    fun event h => absurd h List.not_mem_nil
  unfold step at hstep
  split at hstep
  · split at hstep
    · cases hstep
    · cases hstep
      refine ⟨hlost, ?_⟩
      unfold flushBatch
      split
      · rw [hlog]
        exact hnil
      · exact hnil
  · cases hstep
    refine ⟨?_, hnil⟩
    unfold exitWorker
    split <;> exact hlost
  · cases hstep
    rw [hinsert]
    refine ⟨hlost, ?_⟩
    split
    · rw [hlog]
      exact hnil
    · exact hnil
  · next stat rest lost audits o =>
    cases hstep
    rw [hinsert]
    refine ⟨hlost, ?_⟩
    split
    · exact hl
    · next hne =>
      have hbad := hok o rfl hne (.stats stat) rfl
      intro event hevent
      rw [Worker.givenUp, List.map_append, List.mem_append] at hevent
      rcases hevent with hold | hnew
      · exact hl event hold
      · rw [List.mem_singleton.mp hnew]
        exact hbad
  · next lost audits =>
    cases hstep
    rw [hlog]
    exact ⟨List.forall_mem_append.mpr ⟨hlost, hl⟩, hnil⟩
  · obtain ⟨s₁, hs₁, heq⟩ := Option.map_eq_some_iff.mp hstep
    cases heq
    rw [haudits _ _ _ _ hs₁]
    refine ⟨hlost, ?_⟩
    split
    · exact hnil
    · exact hnil
  · next entry rest lost o =>
    obtain ⟨s₁, hs₁, heq⟩ := Option.map_eq_some_iff.mp hstep
    cases heq
    rw [haudits _ _ _ _ hs₁]
    refine ⟨hlost, ?_⟩
    split
    · exact hl
    · next hne =>
      have hbad := hok o rfl hne (.audit entry) rfl
      intro event hevent
      rw [Worker.givenUp, List.map_append, List.mem_append] at hevent
      rcases hevent with hold | hnew
      · exact hl event hold
      · rw [List.mem_singleton.mp hnew]
        exact hbad
  · cases hstep
    exact ⟨List.forall_mem_append.mpr ⟨hlost, hl⟩, hnil⟩
  · next event =>
    cases hstep
    refine ⟨?_, hl⟩
    unfold tryEnqueue
    dsimp only
    split <;> exact hlost
  · cases hstep

/-- Batching loses nothing more: an event that is counted as lost was tried alone and failed for its
own sake. -/
theorem lost_alone {bad : DownloadEvent → Prop} {depth workers : ℕ} {w : World Dispatch Worker}
    (h : dispatchProtocol.machine.Reach (FailsAlone bad) (spawnDispatch depth workers) w) :
    ∀ event ∈ w.shared.lost, bad event := by
  refine (Protocol.reach_rely_guarantee h (I := fun s => ∀ event ∈ s.lost, bad event)
    (A := fun _ l _ => ∀ event ∈ l.givenUp, bad event)
    (fun event hevent => absurd hevent List.not_mem_nil) (fun p => ?_) ?_).1
  · unfold spawnDispatch
    dsimp only
    split <;> exact fun event hevent => absurd hevent List.not_mem_nil
  · intro w p a s' l' hI hA hok hs
    obtain ⟨hlost, hl'⟩ := step_givenUp hI (hA p) hok hs
    exact ⟨hlost, hl', fun q _ => hA q⟩

theorem lost_alone_flood :
    ∃ w, dispatchProtocol.machine.run (spawnDispatch 2 1) floodLabels = some w ∧
      w.shared.lost = [.stats pulled] ∧ ∀ event ∈ w.shared.lost, event = .stats pulled := by
  obtain ⟨w, hrun, hlost, -⟩ := flood_run
  refine ⟨w, hrun, hlost, @lost_alone (· = .stats pulled) 2 1 w
    (Machine.reach_of_run floodLabels hrun ⟨?_, ?_, ?_, ?_, ?_, ?_, ?_, ?_, trivial⟩)⟩
  all_goals rintro o ⟨⟩ hne event hevent
  all_goals cases hevent
  rfl

end ArtifactKeeper.Downloads
