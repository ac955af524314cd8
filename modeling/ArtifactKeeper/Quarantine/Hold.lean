import Mathlib.Algebra.Order.Ring.Int
import ArtifactKeeper.Machine
import ArtifactKeeper.Auth.Claims

/-! Quarantine of artifacts: the upload-time hold, the admin's quarantine and the transitions out of
it, as guarded updates of one row, and the download gate that reads it. -/

namespace ArtifactKeeper.Quarantine

/-- The values that the `CHECK` constraint on `quarantine_status` admits. -/
inductive QuarantineStatus where
  | unscanned | clean | flagged | quarantined | released | rejected
  deriving DecidableEq, Repr

def QuarantineStatus.ofStr : String → Option QuarantineStatus
  | "unscanned" => some .unscanned
  | "clean" => some .clean
  | "flagged" => some .flagged
  | "quarantined" => some .quarantined
  | "released" => some .released
  | "rejected" => some .rejected
  | _ => none

inductive QuarantineState where
  | quarantined | released | rejected
  deriving DecidableEq, Repr

def QuarantineState.asStr : QuarantineState → String
  | .quarantined => "quarantined"
  | .released => "released"
  | .rejected => "rejected"

/-- The columns of `artifacts` that quarantine uses. Instants are in microseconds, the resolution of
the column. -/
structure ArtifactRow where
  quarantineStatus : Option QuarantineStatus
  quarantineUntil : Option ℤ
  quarantineReason : Option String
  isDeleted : Bool
  deriving DecidableEq, Repr

structure QuarantineConfig where
  enabled : Bool
  durationMinutes : ℤ
  deriving DecidableEq, Repr

def validateDuration (minutes : ℤ) : ℤ := max minutes 1

/-- `resolve_config`, from the overrides of the repository and the environment. -/
def resolveConfig (enabled : Option Bool) (duration : Option ℤ) (globalEnabled : Bool)
    (globalDuration : ℤ) : QuarantineConfig where
  enabled := enabled.getD globalEnabled
  durationMinutes := validateDuration (duration.getD globalDuration)

def shouldQuarantine (config : QuarantineConfig) : Bool := config.enabled

def quarantineUntil (config : QuarantineConfig) (now : ℤ) : ℤ :=
  now + config.durationMinutes * 60 * 1000000

def checkDownloadAllowed (status : Option QuarantineStatus) (untilTs : Option ℤ) (now : ℤ) :
    Except AppError Unit :=
  match status with
  | some .quarantined =>
    match untilTs with
    | some ts =>
      if ts ≤ now then .ok ()
      else .error (.conflict "Artifact is quarantined and pending security review")
    | none => .error (.conflict "Artifact is quarantined and pending security review")
  | some .rejected => .error (.authorization "Artifact was rejected during security review")
  | _ => .ok ()

namespace ArtifactRow
variable (row : ArtifactRow)

/-- The guard of `set_quarantine`. -/
def mayHold : Bool :=
  !row.isDeleted &&
    match row.quarantineStatus with
    | none => true
    | some status => status ∈ [.clean, .flagged, .unscanned, .released]

/-- `set_quarantine`: the row after the statement, and what the function returns. -/
def setQuarantine (status : String) (ts : Option ℤ) : ArtifactRow × Except AppError Bool :=
  if row.mayHold then
    match QuarantineStatus.ofStr status with
    | some status =>
      ({ row with quarantineStatus := some status, quarantineUntil := ts }, .ok true)
    | none => (row, .error (.database ("error returned from database: new row for relation " ++
        "\"artifacts\" violates check constraint \"artifacts_quarantine_status_check\"")))
  else (row, .ok false)

/-- `apply_upload_hold` at an instant; what `set_quarantine` returns is only logged. -/
def applyUploadHold (config : QuarantineConfig) (now : ℤ) : ArtifactRow :=
  if !shouldQuarantine config then row
  else
    let ts := Quarantine.quarantineUntil config now
    (row.setQuarantine QuarantineState.quarantined.asStr (some ts)).1

def transition (newStatus : QuarantineState) (reason : Option String) :
    ArtifactRow × Except AppError Unit :=
  let notQuarantined : ArtifactRow × Except AppError Unit :=
    (row, .error (.conflict "Artifact is not in quarantined state; transition not allowed"))
  match newStatus with
  | .quarantined => (row, .error (.conflict "Cannot transition to quarantined state"))
  | .released =>
    if row.quarantineStatus = some .quarantined then
      ({ row with
        quarantineStatus := some .released, quarantineUntil := none,
        quarantineReason := none }, .ok ())
    else notQuarantined
  | .rejected =>
    if row.quarantineStatus = some .quarantined then
      ({ row with
        quarantineStatus := some .rejected, quarantineUntil := none,
        quarantineReason := reason <|> row.quarantineReason }, .ok ())
    else notQuarantined

def rejectedError : AppError :=
  .conflict "Artifact was rejected during security review; cannot re-quarantine"

/-- The read of `quarantine_now`: an error, or the reason to write. -/
def quarantineNowRead (artifactId : String) (reason : Option String) : Except AppError String :=
  if row.isDeleted then .error (.notFound ("Artifact " ++ artifactId ++ " not found"))
  else if row.quarantineStatus = some .rejected then .error rejectedError
  else .ok (reason.getD "Quarantined by administrator")

/-- The update of `quarantine_now`. -/
def quarantineNowWrite (reason : String) : ArtifactRow × Except AppError String :=
  if !row.isDeleted && row.quarantineStatus != some .rejected then
    ({ row with
      quarantineStatus := some .quarantined, quarantineUntil := none,
      quarantineReason := some reason }, .ok "quarantined")
  else (row, .error rejectedError)

def isDownloadable (now : ℤ) : Bool :=
  (checkDownloadAllowed row.quarantineStatus row.quarantineUntil now).isOk

end ArtifactRow

/-- A call on the artifact: not begun, between the two statements of `quarantine_now`, or done. -/
inductive QuarantineProc where
  | idle
  | quarantining (reason : String)
  | held (result : Except AppError Bool)
  | transitioned (result : Except AppError Unit)
  | quarantined (result : Except AppError String)
  deriving DecidableEq

inductive QuarantineAction where
  | setQuarantine (status : String) (ts : Option ℤ)
  | transition (newStatus : QuarantineState) (reason : Option String)
  | quarantineNow (reason : Option String)
  | quarantineNowWrite
  deriving DecidableEq

def quarantineProtocol (artifactId : String) :
    Protocol ArtifactRow QuarantineProc QuarantineAction where
  step _ row l a :=
    match l, a with
    | .idle, .setQuarantine status ts =>
      let (row, result) := row.setQuarantine status ts
      some (row, .held result)
    | .idle, .transition newStatus reason =>
      let (row, result) := row.transition newStatus reason
      some (row, .transitioned result)
    | .idle, .quarantineNow reason =>
      match row.quarantineNowRead artifactId reason with
      | .ok reason => some (row, .quarantining reason)
      | .error e => some (row, .quarantined (.error e))
    | .quarantining reason, .quarantineNowWrite =>
      let (row, result) := row.quarantineNowWrite reason
      some (row, .quarantined result)
    | _, _ => none

/-- The step is a transition to released that succeeds. -/
def Releases (w : World ArtifactRow QuarantineProc) (a : ℕ × QuarantineAction) : Prop :=
  ∃ reason, a.2 = .transition .released reason ∧ (w.shared.transition .released reason).2 = .ok ()

section Hold
variable {row row' : ArtifactRow} {bound now : ℤ}

/-- Downloads are blocked at every instant before the bound. -/
def ArtifactRow.HeldBefore (row : ArtifactRow) (bound : ℤ) : Prop :=
  row.quarantineStatus = some .rejected ∨
    row.quarantineStatus = some .quarantined ∧ ∀ ts, row.quarantineUntil = some ts → bound ≤ ts

/-- What the gate blocks: a rejected artifact, and a quarantined one up to its expiry. -/
theorem not_isDownloadable_iff : row.isDownloadable now = false ↔ row.HeldBefore (now + 1) := by
  unfold ArtifactRow.isDownloadable ArtifactRow.HeldBefore
  obtain ⟨status, ts, reason, deleted⟩ := row
  rcases status with _ | status
  · simp [checkDownloadAllowed, Except.isOk, Except.toBool]
  · cases status with
    | quarantined =>
      cases ts with
      | none => simp [checkDownloadAllowed, Except.isOk, Except.toBool]
      | some ts =>
        have hgate : checkDownloadAllowed (some .quarantined) (some ts) now =
            if ts ≤ now then .ok ()
            else .error (.conflict "Artifact is quarantined and pending security review") := rfl
        rw [hgate]
        constructor
        · intro h
          refine .inr ⟨rfl, fun ts' heq => ?_⟩
          cases heq
          by_contra hlt
          rw [if_pos (by omega)] at h
          cases h
        · rintro (hstatus | ⟨-, hts⟩)
          · cases hstatus
          · have hle := hts ts rfl
            rw [if_neg (by omega)]
            rfl
    | _ => simp [checkDownloadAllowed, Except.isOk, Except.toBool]

theorem ArtifactRow.HeldBefore.mono (h : row.HeldBefore bound) (hnow : now < bound) :
    row.HeldBefore (now + 1) := by
  rcases h with hrejected | ⟨hquarantined, hts⟩
  · exact .inl hrejected
  · exact .inr ⟨hquarantined, fun ts heq => by have := hts ts heq; omega⟩

/-- The guard of the hold leaves the two blocking statuses alone. -/
theorem mayHold_iff : row.mayHold = true ↔ row.isDeleted = false ∧
    row.quarantineStatus ≠ some .quarantined ∧ row.quarantineStatus ≠ some .rejected := by
  obtain ⟨status, ts, reason, deleted⟩ := row
  rcases status with _ | status
  · simp [ArtifactRow.mayHold]
  · cases status <;> simp [ArtifactRow.mayHold]

theorem ArtifactRow.HeldBefore.setQuarantine (h : row.HeldBefore bound) (status : String)
    (ts : Option ℤ) : (row.setQuarantine status ts).1 = row := by
  have hguard : ¬ row.mayHold = true := by
    rw [mayHold_iff]
    rintro ⟨-, hquarantined, hrejected⟩
    rcases h with hstatus | ⟨hstatus, -⟩
    · exact hrejected hstatus
    · exact hquarantined hstatus
  rw [ArtifactRow.setQuarantine, if_neg hguard]

theorem ArtifactRow.HeldBefore.transition (h : row.HeldBefore bound) {newStatus : QuarantineState}
    {reason : Option String}
    (hnot : newStatus = .released → (row.transition newStatus reason).2 ≠ .ok ()) :
    (row.transition newStatus reason).1.HeldBefore bound := by
  unfold ArtifactRow.transition at hnot ⊢
  cases newStatus with
  | quarantined => exact h
  | released =>
    dsimp only at hnot ⊢
    split_ifs at hnot ⊢ with hstatus
    · exact absurd rfl (hnot rfl)
    · exact h
  | rejected =>
    dsimp only
    split_ifs with hstatus
    · exact .inl rfl
    · exact h

theorem ArtifactRow.HeldBefore.quarantineNowWrite (h : row.HeldBefore bound) (reason : String) :
    (row.quarantineNowWrite reason).1.HeldBefore bound := by
  unfold ArtifactRow.quarantineNowWrite
  split_ifs
  · exact .inr ⟨rfl, fun _ hts => (by cases hts)⟩
  · exact h

variable {artifactId : String} {w w' : World ArtifactRow QuarantineProc}

/-- All that a step does to the row, and what the call then returns. -/
theorem quarantineProtocol_step {p : ℕ} {l l' : QuarantineProc} {a : QuarantineAction}
    (h : (quarantineProtocol artifactId).step p row l a = some (row', l')) :
    (∃ status ts, row' = (row.setQuarantine status ts).1 ∧
        l' = .held (row.setQuarantine status ts).2) ∨
      (∃ newStatus reason, a = .transition newStatus reason ∧
        row' = (row.transition newStatus reason).1 ∧
        l' = .transitioned (row.transition newStatus reason).2) ∨
      (row' = row ∧ ∀ answer, l' ≠ .quarantined (.ok answer)) ∨
      ∃ reason, row' = (row.quarantineNowWrite reason).1 ∧
        l' = .quarantined (row.quarantineNowWrite reason).2 := by
  unfold quarantineProtocol at h
  dsimp only at h
  split at h
  · next status ts =>
    cases h
    exact .inl ⟨status, ts, rfl, rfl⟩
  · next newStatus reason =>
    cases h
    exact .inr (.inl ⟨newStatus, reason, rfl, rfl, rfl⟩)
  · next reason =>
    split at h <;> cases h <;> exact .inr (.inr (.inl ⟨rfl, nofun⟩))
  · next reason =>
    cases h
    exact .inr (.inr (.inr ⟨reason, rfl, rfl⟩))
  · cases h

/-- What is held stays held, up to a transition that releases it. -/
theorem heldBefore_of_step {a : ℕ × QuarantineAction} (h : w.shared.HeldBefore bound)
    (hnot : ¬ Releases w a) (hs : (quarantineProtocol artifactId).machine.step w a = some w') :
    w'.shared.HeldBefore bound := by
  obtain ⟨p, a⟩ := a
  obtain ⟨row', l', hstep, rfl⟩ := Protocol.machine_step hs
  rcases quarantineProtocol_step hstep with ⟨status, ts, rfl, -⟩ |
    ⟨newStatus, reason, rfl, rfl, -⟩ | ⟨rfl, -⟩ | ⟨reason, rfl, -⟩
  · show (w.shared.setQuarantine status ts).1.HeldBefore bound
    rw [h.setQuarantine]
    exact h
  · apply h.transition
    rintro rfl hok
    exact hnot ⟨reason, rfl, hok⟩
  · exact h
  · exact h.quarantineNowWrite reason

theorem heldBefore_of_reach (h : w.shared.HeldBefore bound)
    (hreach : (quarantineProtocol artifactId).machine.Reach (fun w a => ¬ Releases w a) w w') :
    w'.shared.HeldBefore bound :=
  hreach.invariant (I := fun u => u.shared.HeldBefore bound) h
    fun _ _ _ hheld hnot hs => heldBefore_of_step hheld hnot hs

/-- No statement changes the row of a rejected artifact. -/
theorem row_of_step_of_rejected {a : ℕ × QuarantineAction}
    (h : w.shared.quarantineStatus = some .rejected)
    (hs : (quarantineProtocol artifactId).machine.step w a = some w') : w'.shared = w.shared := by
  obtain ⟨p, a⟩ := a
  obtain ⟨row', l', hstep, rfl⟩ := Protocol.machine_step hs
  rcases quarantineProtocol_step hstep with ⟨status, ts, rfl, -⟩ |
    ⟨newStatus, reason, rfl, rfl, -⟩ | ⟨rfl, -⟩ | ⟨reason, rfl, -⟩
  · exact ArtifactRow.HeldBefore.setQuarantine (.inl h : w.shared.HeldBefore 0) status ts
  · cases newStatus <;> simp [ArtifactRow.transition, h]
  · rfl
  · simp [ArtifactRow.quarantineNowWrite, h]

end Hold

/-- The upload-time hold of an artifact is effective: from the row that it leaves, whatever calls
follow, no download is allowed before the hold is over unless a transition released the artifact. -/
def HoldEffective (artifactId : String) (config : QuarantineConfig) (t : ℤ) (row : ArtifactRow) :
    Prop :=
  ∀ (procs : ℕ → QuarantineProc) (w : World ArtifactRow QuarantineProc),
    (quarantineProtocol artifactId).machine.Reach (fun w a => ¬ Releases w a)
      ⟨row.applyUploadHold config t, procs⟩ w →
    ∀ now, t ≤ now → now < quarantineUntil config t → w.shared.isDownloadable now = false

/-- The row is under a hold that ends before the bound. -/
def ArtifactRow.lapsesBefore (row : ArtifactRow) (bound : ℤ) : Bool :=
  row.quarantineStatus == some .quarantined && row.quarantineUntil.any fun ts => decide (ts < bound)

theorem heldBefore_applyUploadHold_iff {row : ArtifactRow} {config : QuarantineConfig} {t : ℤ}
    (hlive : row.isDeleted = false) (henabled : config.enabled = true) :
    (row.applyUploadHold config t).HeldBefore (quarantineUntil config t) ↔
      row.lapsesBefore (quarantineUntil config t) = false := by
  obtain ⟨status, ts, reason, deleted⟩ := row
  obtain rfl : deleted = false := hlive
  generalize hbound : quarantineUntil config t = bound
  simp only [ArtifactRow.applyUploadHold, shouldQuarantine, henabled, Bool.not_true,
    Bool.false_eq_true, if_false, hbound]
  by_cases hquarantined : status = some .quarantined
  · subst hquarantined
    cases ts <;> simp [ArtifactRow.HeldBefore, ArtifactRow.lapsesBefore, ArtifactRow.setQuarantine,
      ArtifactRow.mayHold]
  · by_cases hrejected : status = some .rejected
    · subst hrejected
      simp [ArtifactRow.HeldBefore, ArtifactRow.lapsesBefore, ArtifactRow.setQuarantine,
        ArtifactRow.mayHold]
    · have hguard : (⟨status, ts, reason, false⟩ : ArtifactRow).mayHold = true :=
        mayHold_iff.mpr ⟨rfl, hquarantined, hrejected⟩
      have hstatus : QuarantineStatus.ofStr QuarantineState.quarantined.asStr =
        some .quarantined := rfl
      simp [ArtifactRow.HeldBefore, ArtifactRow.lapsesBefore, ArtifactRow.setQuarantine, hguard,
        hstatus, hquarantined]

/-- Verdicts are monotone along every run. -/
structure VerdictsMonotone (artifactId : String) (w : World ArtifactRow QuarantineProc) :
    Prop where
  /-- A rejected artifact stays rejected and is never downloadable. -/
  rejected : w.shared.quarantineStatus = some .rejected → ∀ w',
    (quarantineProtocol artifactId).machine.Reach Machine.anyStep w w' →
    w'.shared.quarantineStatus = some .rejected ∧ ∀ now, w'.shared.isDownloadable now = false
  /-- A permanent quarantine blocks until a transition to released succeeds. -/
  permanent : w.shared.quarantineStatus = some .quarantined → w.shared.quarantineUntil = none →
    ∀ w', (quarantineProtocol artifactId).machine.Reach (fun w a => ¬ Releases w a) w w' →
    ∀ now, w'.shared.isDownloadable now = false
  /-- A `quarantine_now` that succeeds leaves a permanent quarantine. -/
  quarantineNow : ∀ p a w' answer,
    (quarantineProtocol artifactId).machine.step w (p, a) = some w' →
    w'.procs p = .quarantined (.ok answer) →
    w'.shared.quarantineStatus = some .quarantined ∧ w'.shared.quarantineUntil = none

theorem verdictsMonotone (artifactId : String) (w : World ArtifactRow QuarantineProc) :
    VerdictsMonotone artifactId w where
  rejected hstatus w' hreach := by
    have hkept : w'.shared.quarantineStatus = some .rejected :=
      hreach.invariant (I := fun u => u.shared.quarantineStatus = some .rejected) hstatus
        fun _ _ _ hrejected _ hs => by rw [row_of_step_of_rejected hrejected hs, hrejected]
    exact ⟨hkept, fun now => not_isDownloadable_iff.mpr (.inl hkept)⟩
  permanent hstatus hts w' hreach now := by
    have hheld : w.shared.HeldBefore (now + 1) := by
      refine .inr ⟨hstatus, fun ts heq => ?_⟩
      rw [hts] at heq
      cases heq
    exact not_isDownloadable_iff.mpr (heldBefore_of_reach hheld hreach)
  quarantineNow p a w' answer hs hanswer := by
    obtain ⟨row', l', hstep, rfl⟩ := Protocol.machine_step hs
    simp only [Function.update_self] at hanswer
    subst hanswer
    rcases quarantineProtocol_step hstep with ⟨status, ts, -, hl⟩ | ⟨newStatus, reason, -, -, hl⟩ |
      ⟨-, hl⟩ | ⟨reason, rfl, hl⟩
    · cases hl
    · cases hl
    · exact absurd rfl (hl answer)
    · unfold ArtifactRow.quarantineNowWrite at hl ⊢
      split_ifs at hl ⊢
      · exact ⟨rfl, rfl⟩
      · cases hl

/-- A `quarantine_now` has read a clean row when another one quarantines the artifact and it is
rejected. -/
def rejectBetween : List (ℕ × QuarantineAction) :=
  [(0, .quarantineNow none), (1, .quarantineNow (some "incident")), (1, .quarantineNowWrite),
    (2, .transition .rejected none)]

def lateWriteAndHold : List (ℕ × QuarantineAction) :=
  [(0, .quarantineNowWrite), (3, .setQuarantine "quarantined" (some 5))]

theorem verdictsMonotone_rejectBetween :
    ∃ w w', (quarantineProtocol "a").machine.Reach Machine.anyStep w w' ∧
      w.shared.quarantineStatus = some .rejected ∧
      w'.procs 0 = .quarantined (.error ArtifactRow.rejectedError) ∧
      w'.procs 3 = .held (.ok false) ∧ ∀ now, w'.shared.isDownloadable now = false := by
  obtain ⟨w, w', -, hreach, hview⟩ := Machine.reach_of_runs (M := (quarantineProtocol "a").machine)
    (s := ⟨⟨some .clean, none, none, false⟩, fun _ => .idle⟩) rejectBetween lateWriteAndHold
    (f := fun w w' => (w.shared.quarantineStatus, w'.procs 0, w'.procs 3))
    (b := (some .rejected, .quarantined (.error ArtifactRow.rejectedError), .held (.ok false)))
    (by decide +kernel)
  simp only [Prod.mk.injEq] at hview
  obtain ⟨hstatus, hwrite, hheld⟩ := hview
  exact ⟨w, w', hreach, hstatus, hwrite, hheld,
    ((verdictsMonotone "a" w).rejected hstatus w' hreach).2⟩

end ArtifactKeeper.Quarantine
