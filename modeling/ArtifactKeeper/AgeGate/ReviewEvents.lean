import ArtifactKeeper.AgeGate.Policy
import ArtifactKeeper.Machine
import Mathlib.Data.List.Perm.Basic
import Mathlib.Data.List.Count

/-! The review of one package version under download checks, the sweep of aged reviews and the
decisions of administrators, with the events each of them emits. -/

namespace ArtifactKeeper.AgeGate

def autoApproveReason : String := "auto-approved: crossed age threshold"

/-- The row of `age_gate_reviews`. -/
structure ReviewRow where
  status : AgeGateReviewStatus
  upstreamPublishedAt : Option Instant
  reviewedBy : Option Uuid
  reviewedAt : Option Instant
  reviewReason : Option String
  requestCount : ℕ
  lastRequestedAt : Instant
  deriving DecidableEq, Repr

inductive ReviewEvent where
  | queued | approved | rejected | reopened
  deriving DecidableEq, Repr

def ReviewEvent.name : ReviewEvent → String
  | .queued => "age_gate.queued"
  | .approved => "age_gate.approved"
  | .rejected => "age_gate.rejected"
  | .reopened => "age_gate.reopened"

/-- The event of a change into a status. -/
def AgeGateReviewStatus.event : AgeGateReviewStatus → ReviewEvent
  | .pending => .reopened
  | .approved => .approved
  | .rejected => .rejected

/-- An event, with the call that emitted it. -/
structure Emitted where
  call : ℕ
  event : ReviewEvent
  actor : Option Uuid
  deriving DecidableEq, Repr

/-- A committed change of the status, with the call whose statement made it. -/
structure StatusChange where
  call : ℕ
  before : AgeGateReviewStatus
  after : AgeGateReviewStatus
  deriving DecidableEq, Repr

/-- The review (absent until the version is first asked for), the gate of its repository, and what
has happened so far, newest first. -/
structure ReviewState where
  now : Instant
  ageGateEnabled : Bool
  ageGateMinAgeDays : ℤ
  review : Option ReviewRow
  changes : List StatusChange
  events : List Emitted

inductive CallResult where
  | allow
  | block
  | reviewed
  | swept
  | failed (error : AppError)
  deriving DecidableEq, Repr

/-- Where a call stands between two of its statements. -/
inductive ReviewCall where
  | idle
  | autoApproving
  | requesting (publishedAt : Option Instant) (isNew : Bool)
  | deciding (target : AgeGateReviewStatus) (reviewerId : Uuid) (reason : Option String)
  | emitting (event : ReviewEvent) (actor : Option Uuid) (result : CallResult)
  | finished (result : CallResult)
  deriving DecidableEq, Repr

/-- `check` carries the repository parameters its handler has loaded; `decide` is `approve`,
`reject` or `reopen` by its target. -/
inductive ReviewRequest where
  | check (applicable : Bool) (minAgeDays : ℤ) (publishedAt : Option Instant)
  | sweep
  | decide (target : AgeGateReviewStatus) (reviewerId : Uuid) (reason : Option String)
  deriving DecidableEq, Repr

/-- `begin` is the first statement of a call, `statement` the next one, or its failure. -/
inductive ReviewAction where
  | tick (nanos : ℕ)
  | updateRepoConfig (enabled : Bool) (minAgeDays : ℤ)
  | begin (request : ReviewRequest)
  | statement (fault : Option String)
  | emit
  | close
  deriving DecidableEq, Repr

namespace ReviewState
variable (s : ReviewState)

/-- An `UPDATE` of the row by a call; it is a change if the status was another one. -/
def setStatus (call : ℕ) (row : ReviewRow) (after : AgeGateReviewStatus)
    (reviewedBy : Option Uuid) (reason : Option String) : ReviewState :=
  let updated := { row with
    status := after, reviewedBy := reviewedBy, reviewedAt := some s.now, reviewReason := reason }
  { s with
    review := some updated
    changes := if row.status = after then s.changes else ⟨call, row.status, after⟩ :: s.changes }

/-- The update of `auto_approve`, guarded by the status. -/
def autoApprove (call : ℕ) : ReviewState :=
  match s.review with
  | none => s
  | some row =>
    if row.status = .pending then s.setStatus call row .approved none (some autoApproveReason)
    else s

/-- The rows that the sweep takes. -/
def aged (row : ReviewRow) : Bool :=
  row.status = .pending && s.ageGateEnabled &&
    row.upstreamPublishedAt.any fun ts => s.ageGateMinAgeDays * nanosPerDay ≤ s.now - ts

/-- The update of `approve`, `reject` and `reopen`, by id alone. -/
def decideUpdate (call : ℕ) (target : AgeGateReviewStatus) (reviewerId : Uuid)
    (reason : Option String) : ReviewState :=
  match s.review with
  | none => s
  | some row => s.setStatus call row target (some reviewerId) reason

/-- The upsert of `request_review`. -/
def requestReview (publishedAt : Option Instant) : ReviewState :=
  { s with review := some (match s.review with
    | none => ⟨.pending, publishedAt, none, none, none, 1, s.now⟩
    | some row => { row with
        requestCount := row.requestCount + 1
        lastRequestedAt := s.now
        upstreamPublishedAt := publishedAt.or row.upstreamPublishedAt }) }

end ReviewState

def requireDistinctStatus (current target : AgeGateReviewStatus) : Except AppError Unit :=
  if current = target then .error (.validation ("Review is already " ++ target.asStr))
  else .ok ()

/-- The first statement of a call and what the call makes of it. -/
def beginCall (p : ℕ) (s : ReviewState) : ReviewRequest → ReviewState × ReviewCall
  | .check applicable minAgeDays publishedAt =>
    if applicable then
      match decideAgeGateCheck (s.review.map (·.status.asStr))
          (meetsAgeThreshold publishedAt minAgeDays s.now) with
      | .allow | .allowAlreadyApproved => (s, .finished .allow)
      | .blockRejected => (s, .finished .block)
      | .allowAndAutoApprovePending => (s, .autoApproving)
      | .blockAndRequestReview => (s, .requesting publishedAt s.review.isNone)
    else (s, .finished .allow)
  | .sweep =>
    match s.review with
    | none => (s, .finished .swept)
    | some row =>
      if s.aged row then
        (s.setStatus p row .approved none (some autoApproveReason),
          .emitting .approved none .swept)
      else (s, .finished .swept)
  | .decide target reviewerId reason =>
    match s.review with
    | none => (s, .finished (.failed (.notFound "Age gate review not found")))
    | some row =>
      match requireDistinctStatus row.status target with
      | .error e => (s, .finished (.failed e))
      | .ok () => (s, .deciding target reviewerId reason)

/-- The statement that a call is about to run. -/
def runStatement (p : ℕ) (s : ReviewState) : ReviewCall → Option (ReviewState × ReviewCall)
  | .autoApproving => some (s.autoApprove p, .emitting .approved none .allow)
  | .requesting publishedAt isNew => some (s.requestReview publishedAt,
      if isNew then .emitting .queued none .block else .finished .block)
  | .deciding target reviewerId reason => some (s.decideUpdate p target reviewerId reason,
      .emitting target.event (some reviewerId) .reviewed)
  | _ => none

def reviewProtocol : Protocol ReviewState ReviewCall ReviewAction where
  step p s l a :=
    match a with
    | .tick nanos => some ({ s with now := s.now + nanos }, l)
    | .updateRepoConfig enabled minAgeDays =>
      some ({ s with ageGateEnabled := enabled, ageGateMinAgeDays := minAgeDays }, l)
    | .begin request => match l with
      | .idle => some (beginCall p s request)
      | _ => none
    | .statement none => runStatement p s l
    | .statement (some e) =>
      (runStatement p s l).map fun _ => (s, .finished (.failed (.database e)))
    | .emit => match l with
      | .emitting event actor result =>
        some ({ s with events := ⟨p, event, actor⟩ :: s.events }, .finished result)
      | _ => none
    | .close => match l with
      | .finished _ => some (s, .idle)
      | _ => none

/-- The event of a change into `t` that a call has still to emit. -/
def ReviewCall.inFlight (t : AgeGateReviewStatus) : ReviewCall → ℕ
  | .emitting event _ _ => if event = t.event then 1 else 0
  | _ => 0

namespace ReviewState
variable (s : ReviewState) (p : ℕ) (t : AgeGateReviewStatus)

def eventsOf : ℕ := s.events.countP fun e => e.call == p && e.event == t.event

def changesInto : ℕ := s.changes.countP fun c => c.call == p && c.after == t

theorem changesInto_setStatus (call : ℕ) (row : ReviewRow) (after : AgeGateReviewStatus)
    (reviewedBy : Option Uuid) (reason : Option String) :
    (s.setStatus call row after reviewedBy reason).changesInto p t =
      s.changesInto p t + if row.status ≠ after ∧ call = p ∧ after = t then 1 else 0 := by
  by_cases hsame : row.status = after
  · simp [changesInto, setStatus, hsame]
  · simp [changesInto, setStatus, hsame, List.countP_cons]

/-- Each event of call `p` goes with a change that `p` made, but for the one in flight. -/
def Balanced (l : ReviewCall) : Prop :=
  ∀ t, s.eventsOf p t + l.inFlight t = s.changesInto p t

end ReviewState

theorem AgeGateReviewStatus.event_injective {t u : AgeGateReviewStatus} :
    t.event = u.event ↔ t = u := by
  cases t <;> cases u <;> simp [AgeGateReviewStatus.event]

/-- No `UPDATE` of the status finds the row already where it is to go: those of the administrators
find another status, those of `auto_approve` a pending review. -/
def noVainUpdate (w : World ReviewState ReviewCall) (a : ℕ × ReviewAction) : Prop :=
  a.2 = .statement none →
    match w.procs a.1 with
    | .autoApproving => ∃ row, w.shared.review = some row ∧ row.status = .pending
    | .deciding target _ _ => ∃ row, w.shared.review = some row ∧ row.status ≠ target
    | _ => True

/-- What a step of call `p` does to the counts: the event it emits, and the change it makes. -/
structure CountsStep (p : ℕ) (s s' : ReviewState) (l l' : ReviewCall) : Prop where
  others : ∀ q, q ≠ p → ∀ t, s'.eventsOf q t = s.eventsOf q t ∧
    s'.changesInto q t = s.changesInto q t
  own : s.Balanced p l → s'.Balanced p l'

section Steps
variable {p : ℕ} {s s' : ReviewState} {l l' : ReviewCall}

/-- A step that leaves both histories and the event in flight. -/
theorem CountsStep.quiet (hevents : s'.events = s.events) (hchanges : s'.changes = s.changes)
    (hflight : ∀ t, l'.inFlight t = l.inFlight t) : CountsStep p s s' l l' := by
  have he : ∀ q t, s'.eventsOf q t = s.eventsOf q t := fun q t => by
    rw [ReviewState.eventsOf, hevents, ReviewState.eventsOf]
  have hc : ∀ q t, s'.changesInto q t = s.changesInto q t := fun q t => by
    rw [ReviewState.changesInto, hchanges, ReviewState.changesInto]
  refine ⟨fun q _ t => ⟨he q t, hc q t⟩, fun h t => ?_⟩
  rw [he, hc, hflight]
  exact h t

/-- An update that changes the status, with its event to follow. -/
theorem CountsStep.change {row : ReviewRow} {after : AgeGateReviewStatus}
    {reviewedBy actor : Option Uuid} {reason : Option String} {result : CallResult}
    (hl : ∀ t, l.inFlight t = 0) (hne : row.status ≠ after) :
    CountsStep p s (s.setStatus p row after reviewedBy reason) l
      (.emitting after.event actor result) := by
  constructor
  · intro q hq t
    refine ⟨rfl, ?_⟩
    rw [ReviewState.changesInto_setStatus, if_neg fun h => hq h.2.1.symm, Nat.add_zero]
  · intro h t
    have hbefore := h t
    rw [hl t] at hbefore
    have hevents : (s.setStatus p row after reviewedBy reason).eventsOf p t = s.eventsOf p t := rfl
    rw [ReviewState.changesInto_setStatus, ← hbefore, hevents]
    simp [ReviewCall.inFlight, AgeGateReviewStatus.event_injective, hne]

theorem CountsStep.emit {event : ReviewEvent} {actor : Option Uuid} {result : CallResult} :
    CountsStep p s { s with events := ⟨p, event, actor⟩ :: s.events }
      (.emitting event actor result) (.finished result) := by
  constructor
  · intro q hq t
    refine ⟨?_, rfl⟩
    simp [ReviewState.eventsOf, hq.symm]
  · intro h t
    have hbefore := h t
    simp only [ReviewState.eventsOf, ReviewState.changesInto, ReviewCall.inFlight,
      List.countP_cons] at hbefore ⊢
    simpa using hbefore

theorem beginCall_counts (request : ReviewRequest) :
    CountsStep p s (beginCall p s request).1 .idle (beginCall p s request).2 := by
  cases request with
  | check applicable minAgeDays publishedAt =>
    rw [beginCall]
    split
    · split <;> exact .quiet rfl rfl fun _ => rfl
    · exact .quiet rfl rfl fun _ => rfl
  | sweep =>
    rw [beginCall]
    split
    · exact .quiet rfl rfl fun _ => rfl
    · rename_i row hrow
      split
      · rename_i haged
        have hpending : row.status = .pending := by
          simp only [ReviewState.aged, Bool.and_eq_true, decide_eq_true_eq] at haged
          exact haged.1.1
        exact CountsStep.change (fun _ => rfl) (by rw [hpending]; decide)
      · exact .quiet rfl rfl fun _ => rfl
  | decide target reviewerId reason =>
    rw [beginCall]
    split
    · exact .quiet rfl rfl fun _ => rfl
    · split <;> exact .quiet rfl rfl fun _ => rfl

theorem runStatement_counts {w : World ReviewState ReviewCall}
    (hok : noVainUpdate w (p, .statement none))
    (h : runStatement p w.shared (w.procs p) = some (s', l')) :
    CountsStep p w.shared s' (w.procs p) l' := by
  have hfinds := hok rfl
  dsimp only at hfinds
  split at hfinds
  · rename_i hcall
    obtain ⟨row, hrow, hpending⟩ := hfinds
    rw [hcall] at h ⊢
    simp only [runStatement, ReviewState.autoApprove, hrow, hpending, if_true,
      Option.some.injEq, Prod.mk.injEq] at h
    obtain ⟨rfl, rfl⟩ := h
    have hne : row.status ≠ .approved := by rw [hpending]; decide
    exact CountsStep.change (fun _ => rfl) hne
  · rename_i target reviewerId reason hcall
    obtain ⟨row, hrow, hne⟩ := hfinds
    rw [hcall] at h ⊢
    simp only [runStatement, ReviewState.decideUpdate, hrow, Option.some.injEq,
      Prod.mk.injEq] at h
    obtain ⟨rfl, rfl⟩ := h
    exact CountsStep.change (fun _ => rfl) hne
  · cases hcall : w.procs p with
    | requesting publishedAt isNew =>
      rw [hcall] at h
      simp only [runStatement, Option.some.injEq, Prod.mk.injEq] at h
      obtain ⟨rfl, rfl⟩ := h
      refine .quiet rfl rfl fun t => ?_
      cases isNew <;> cases t <;> rfl
    | _ => simp_all [runStatement]

theorem reviewStep_counts {w : World ReviewState ReviewCall} {a : ReviewAction}
    (hok : noVainUpdate w (p, a))
    (h : reviewProtocol.step p w.shared (w.procs p) a = some (s', l')) :
    CountsStep p w.shared s' (w.procs p) l' := by
  cases a with
  | tick nanos =>
    cases h
    exact .quiet rfl rfl fun _ => rfl
  | updateRepoConfig enabled minAgeDays =>
    cases h
    exact .quiet rfl rfl fun _ => rfl
  | begin request =>
    cases hcall : w.procs p with
    | idle =>
      simp only [reviewProtocol, hcall, Option.some.injEq] at h
      have hcounts := beginCall_counts (p := p) (s := w.shared) request
      rwa [h] at hcounts
    | _ => simp [reviewProtocol, hcall] at h
  | statement fault =>
    cases fault with
    | none => exact runStatement_counts hok h
    | some e =>
      simp only [reviewProtocol, Option.map_eq_some_iff] at h
      obtain ⟨r, hr, heq⟩ := h
      cases heq
      refine .quiet rfl rfl fun t => ?_
      cases hcall : w.procs p with
      | emitting event actor result => simp [hcall, runStatement] at hr
      | _ => rfl
  | emit =>
    cases hcall : w.procs p <;> simp only [reviewProtocol, hcall] at h <;> cases h
    exact .emit
  | close =>
    cases hcall : w.procs p <;> simp only [reviewProtocol, hcall] at h <;> cases h
    exact .quiet rfl rfl fun _ => rfl

end Steps

/-- Counts that agree for every call agree in total. -/
theorem countP_eq_of_calls {α β : Type} (f : α → ℕ) (g : β → ℕ) {P : α → Bool} {Q : β → Bool}
    {l : List α} {m : List β} (h : ∀ p, (l.countP fun x => f x == p && P x) =
      m.countP fun y => g y == p && Q y) : l.countP P = m.countP Q := by
  have hperm : ((l.filter P).map f).Perm ((m.filter Q).map g) := by
    rw [List.perm_iff_count]
    intro p
    rw [List.count_eq_countP, List.count_eq_countP, List.countP_map, List.countP_map,
      List.countP_filter, List.countP_filter]
    exact h p
  have hlen := hperm.length_eq
  rwa [List.length_map, List.length_map, ← List.countP_eq_length_filter,
    ← List.countP_eq_length_filter] at hlen

/-- No call under way, and nothing recorded yet. -/
structure ReviewStart (w : World ReviewState ReviewCall) : Prop where
  idle : ∀ p, w.procs p = .idle
  changes : w.shared.changes = []
  events : w.shared.events = []

/-- A step by which the status is approved without an administrator. -/
def automatic (w : World ReviewState ReviewCall) (a : ℕ × ReviewAction) : Prop :=
  a.2 = .begin .sweep ∨ a.2 = .statement none ∧ w.procs a.1 = .autoApproving

theorem automatic_keeps_decided {w w' : World ReviewState ReviewCall} {a : ℕ × ReviewAction}
    (hstep : reviewProtocol.machine.step w a = some w') (hauto : automatic w a) {row : ReviewRow}
    (hrow : w.shared.review = some row) (hdecided : row.status ≠ .pending) :
    w'.shared.review = some row := by
  obtain ⟨p, a⟩ := a
  obtain ⟨s', l', hs, rfl⟩ := Protocol.machine_step hstep
  rcases hauto with rfl | ⟨rfl, hcall⟩
  · cases hcall : w.procs p <;> simp only [reviewProtocol, hcall] at hs <;> try cases hs
    simp [beginCall, hrow, ReviewState.aged, hdecided] at hs
    rw [← hs.1]
    exact hrow
  · dsimp only at hcall
    simp [reviewProtocol, hcall, runStatement, ReviewState.autoApprove, hrow, hdecided] at hs
    rw [← hs.1]
    exact hrow

section Run
variable {w₀ w : World ReviewState ReviewCall}

/-- Without vain updates the events of each call are its changes. -/
theorem balanced_of_reach (hstart : ReviewStart w₀)
    (hreach : reviewProtocol.machine.Reach noVainUpdate w₀ w) (p : ℕ) :
    w.shared.Balanced p (w.procs p) := by
  have hbalanced := Protocol.reach_rely_guarantee (I := fun _ => True)
    (A := fun p l s => s.Balanced p l) hreach trivial
    (fun p t => by
      simp [ReviewState.eventsOf, ReviewState.changesInto, hstart.events, hstart.changes,
        hstart.idle, ReviewCall.inFlight])
    (fun w p a s' l' _ hall hok hs => by
      have hcounts := reviewStep_counts hok hs
      refine ⟨trivial, hcounts.own (hall p), fun q hq t => ?_⟩
      obtain ⟨hevents, hchanges⟩ := hcounts.others q hq t
      rw [hevents, hchanges]
      exact hall q t)
  exact hbalanced.2 p

/-- In every run an automatic approval leaves a decided review as it is; and in a run without vain
updates each event is that of a status change of the same call, so that once no event is in flight
the events of each kind are as many as the changes into that status. -/
theorem review_events_match_changes (hstart : ReviewStart w₀) :
    (∀ w, reviewProtocol.machine.Reach Machine.anyStep w₀ w → ∀ a w', automatic w a →
      reviewProtocol.machine.step w a = some w' → ∀ row, w.shared.review = some row →
        row.status ≠ .pending → w'.shared.review = some row) ∧
    ∀ w, reviewProtocol.machine.Reach noVainUpdate w₀ w →
      (∀ p t, w.shared.eventsOf p t + (w.procs p).inFlight t = w.shared.changesInto p t) ∧
      ((∀ p t, (w.procs p).inFlight t = 0) → ∀ t : AgeGateReviewStatus,
        (w.shared.events.countP fun e => e.event == t.event) =
          w.shared.changes.countP fun c => c.after == t) := by
  refine ⟨fun w _ a w' hauto hstep row hrow hdecided =>
    automatic_keeps_decided hstep hauto hrow hdecided, fun w hreach => ?_⟩
  have hbalanced := balanced_of_reach hstart hreach
  refine ⟨hbalanced, fun hquiet t =>
    countP_eq_of_calls Emitted.call StatusChange.call fun p => ?_⟩
  have hcall := hbalanced p t
  rw [hquiet p t, Nat.add_zero] at hcall
  exact hcall

end Run

/-- A pending review that is three days old under a gate of one day. -/
def agedPending : World ReviewState ReviewCall where
  shared := ⟨3 * nanosPerDay, true, 1, some ⟨.pending, some 0, none, none, none, 1, 0⟩, [], []⟩
  procs _ := .idle

theorem agedPending_start : ReviewStart agedPending := ⟨fun _ => rfl, rfl, rfl⟩

/-- A download check and a rejection both read the pending review. -/
def rejectedMeanwhile : List (ℕ × ReviewAction) :=
  [(0, .begin (.check true 1 (some 0))), (1, .begin (.decide .rejected 7 none)),
    (1, .statement none), (1, .emit), (0, .statement none), (0, .emit), (0, .close), (1, .close)]

/-- The review stays rejected, and an approval is announced. -/
theorem vain_auto_approve_announced : ReviewStart agedPending ∧
    ∃ w, reviewProtocol.machine.Reach Machine.anyStep agedPending w ∧
      (∀ p t, (w.procs p).inFlight t = 0) ∧
      (w.shared.events.countP fun e => e.event == .approved) = 1 ∧
      (w.shared.changes.countP fun c => c.after == .approved) = 0 := by
  have hreach := fun w h => @Machine.reach_of_run _ _ reviewProtocol.machine Machine.anyStep
    agedPending w rejectedMeanwhile h (Machine.meets_anyStep ..)
  refine ⟨agedPending_start, _, hreach _ rfl, fun p t => ?_, by decide, by decide⟩
  match p with
  | 0 | 1 | _ + 2 => rfl

/-- The download check alone. -/
def approvedByCheck : List (ℕ × ReviewAction) :=
  [(0, .begin (.check true 1 (some 0))), (0, .statement none), (0, .emit), (0, .close)]

theorem approvedByCheck_matches : ReviewStart agedPending ∧
    ∃ w, reviewProtocol.machine.Reach noVainUpdate agedPending w ∧
      (w.shared.events.countP fun e => e.event == .approved) =
        w.shared.changes.countP fun c => c.after == .approved := by
  have hmeets : reviewProtocol.machine.Meets noVainUpdate agedPending approvedByCheck :=
    ⟨nofun, fun _ => ⟨_, rfl, rfl⟩, nofun, nofun, trivial⟩
  have hreach := fun w h => @Machine.reach_of_run _ _ reviewProtocol.machine noVainUpdate
    agedPending w approvedByCheck h hmeets
  refine ⟨agedPending_start, _, hreach _ rfl,
    ((review_events_match_changes agedPending_start).2 _ (hreach _ rfl)).2 (fun p t => ?_)
      .approved⟩
  match p with
  | 0 | _ + 1 => rfl

end ArtifactKeeper.AgeGate
