import ArtifactKeeper.Uploads.Session

/-! Completed and cancelled upload sessions under concurrent calls. `upload_chunk`,
`complete_session` and `cleanup_expired` look at the status in their first statement, but the
statements that set it look at nothing, and `cancel_session` never looks. -/

namespace ArtifactKeeper.Uploads
open Chunking Sync

/-- The status leaves room for the one that a call is about to set: a cancel does not meet a
completed session, the end of `complete_session` neither a completed nor a cancelled one. -/
def UploadCall.findsOpen : UploadCall → SessionStatus → Bool
  | .markingCancelled _, status => status != .completed
  | _, status => !decide (terminal status)

/-- No statement that sets the status finds a session that another call has ended. -/
def updatesOpen (w : World UploadState UploadCall) (a : ℕ × UploadAction) : Prop :=
  a.2 = .updateStatus → (w.procs a.1).findsOpen w.shared.session.status = true

instance (w : World UploadState UploadCall) (a : ℕ × UploadAction) : Decidable (updatesOpen w a) :=
  inferInstanceAs (Decidable (_ → _))

/-- At most one call of `complete_session` has returned a session, and the status says so. -/
def AtMostOnce (s : UploadState) : Prop :=
  s.completions = 0 ∨ s.completions = 1 ∧ s.session.status = .completed

section Steps
variable {sha256 : Bytes → String} {p : ℕ} {s s' : UploadState} {l l' : UploadCall}
  {a : UploadAction}

/-- Steps other than the statements that set the status at most start a pending session. -/
theorem StepEffect.status_kept (h : StepEffect sha256 p s l a s' l') (ha : a ≠ .updateStatus) :
    s'.completions = s.completions ∧
      (s'.session.status = s.session.status ∨ s.session.status = .pending) := by
  cases h with
  | commit index start data result _ =>
    refine ⟨rfl, ?_⟩
    by_cases hpending : s.session.status = .pending
    · exact .inr hpending
    · exact .inl (if_neg hpending)
  | status _ => exact absurd rfl ha
  | _ => exact ⟨rfl, .inl rfl⟩

theorem StepEffect.terminal_kept (h : StepEffect sha256 p s l a s' l') (ha : a ≠ .updateStatus)
    (hterminal : terminal s.session.status) : s'.session.status = s.session.status := by
  obtain ⟨-, hsame | hpending⟩ := h.status_kept ha
  · exact hsame
  · rw [hpending] at hterminal
    exact absurd hterminal (by decide)

theorem StepEffect.atMostOnce (h : StepEffect sha256 p s l a s' l') (ha : a ≠ .updateStatus)
    (honce : AtMostOnce s) : AtMostOnce s' := by
  have hcount := (h.status_kept ha).1
  obtain hzero | ⟨hone, hcompleted⟩ := honce
  · exact .inl (hcount.trans hzero)
  · have hsame := h.terminal_kept ha (.inl hcompleted)
    exact .inr ⟨hcount.trans hone, hsame.trans hcompleted⟩

/-- A statement that sets the status of a session which no other call has ended. -/
theorem updateStatus_open {w : World UploadState UploadCall}
    (hok : updatesOpen w (p, .updateStatus))
    (h : w.shared.updateStatus (w.procs p) = some (s', l')) :
    (terminal w.shared.session.status → s'.session.status = w.shared.session.status) ∧
      (AtMostOnce w.shared → AtMostOnce s') := by
  have hfinds := hok rfl
  dsimp only at hfinds
  cases hcall : w.procs p with
  | markingFailed actual =>
    rw [hcall] at h hfinds
    have hopen : ¬ terminal w.shared.session.status := by simpa [UploadCall.findsOpen] using hfinds
    cases h
    refine ⟨fun hterminal => absurd hterminal hopen, fun honce => ?_⟩
    obtain hzero | ⟨-, hcompleted⟩ := honce
    · exact .inl hzero
    · exact absurd (.inl hcompleted) hopen
  | markingCompleted hashed =>
    rw [hcall] at h hfinds
    have hopen : ¬ terminal w.shared.session.status := by simpa [UploadCall.findsOpen] using hfinds
    cases h
    refine ⟨fun hterminal => absurd hterminal hopen, fun honce => ?_⟩
    obtain hzero | ⟨-, hcompleted⟩ := honce
    · exact .inr ⟨congrArg (· + 1) hzero, rfl⟩
    · exact absurd (.inl hcompleted) hopen
  | markingCancelled sweep =>
    rw [hcall] at h hfinds
    have hopen : w.shared.session.status ≠ .completed := by
      simpa [UploadCall.findsOpen] using hfinds
    cases h
    constructor
    · rintro (hcompleted | hcancelled)
      · exact absurd hcompleted hopen
      · exact hcancelled.symm
    · rintro (hzero | ⟨-, hcompleted⟩)
      · exact .inl hzero
      · exact absurd hcompleted hopen
  | _ =>
    rw [hcall] at h
    cases h

/-- One step of a run whose updates find the session open. -/
theorem step_terminal {w w' : World UploadState UploadCall} {b : ℕ × UploadAction}
    (hok : updatesOpen w b) (h : (uploadProtocol sha256).machine.step w b = some w') :
    (terminal w.shared.session.status → w'.shared.session.status = w.shared.session.status) ∧
      (AtMostOnce w.shared → AtMostOnce w'.shared) := by
  obtain ⟨p, a⟩ := b
  obtain ⟨s', l', hstep, rfl⟩ := Protocol.machine_step h
  by_cases ha : a = .updateStatus
  · subst ha
    exact updateStatus_open hok hstep
  · have heffect := uploadStep_effect hstep
    exact ⟨heffect.terminal_kept ha, heffect.atMostOnce ha⟩

end Steps

section Runs
variable {sha256 : Bytes → String} {session : UploadSession} {claims : ℤ → Option (Option ℤ)}
  {userId : Uuid} {now expiresAt : ℤ} {checksum : String} {w w' : World UploadState UploadCall}

/-- While every statement that sets the status finds the session open, a completed or cancelled
session stays what it is, and `complete_session` succeeds at most once. -/
theorem terminal_status_final
    (h : (uploadProtocol sha256).machine.Reach updatesOpen
      (openedWorld (openedState session claims userId now expiresAt checksum)) w)
    (h' : (uploadProtocol sha256).machine.Reach updatesOpen w w') :
    (terminal w.shared.session.status → w'.shared.session.status = w.shared.session.status) ∧
      w'.shared.completions ≤ 1 := by
  constructor
  · intro hterminal
    refine h'.invariant (I := fun v => v.shared.session.status = w.shared.session.status) rfl ?_
    intro v b v' hsame hok hstep
    rw [(step_terminal hok hstep).1 (hsame ▸ hterminal), hsame]
  · have honce : AtMostOnce w'.shared :=
      (h.trans h').invariant (I := fun v => AtMostOnce v.shared) (.inl rfl)
        fun v b v' hv hok hstep => (step_terminal hok hstep).2 hv
    obtain hzero | ⟨hone, -⟩ := honce <;> omega

end Runs

/-- One byte in one chunk. -/
def oneByteSession : UploadSession where
  totalSize := 1
  chunkSize := 1048576
  totalChunks := 1
  completedChunks := 0
  bytesReceived := 0
  status := .pending
  chunks := [⟨0, 0, 1, .pending⟩]

/-- SHA-256 on the one input `a`. -/
def sha256OfA (bytes : Bytes) : String :=
  if bytes = [0x61] then "ca978112ca1bbdcafac231b39a23dc4da786eff8147c4e72b9807785afee48bb" else ""

def oneByteWorld : World UploadState UploadCall :=
  openedWorld (openedState oneByteSession (fun _ => none) 7 0 86400000 (sha256OfA [0x61]))

/-- Call `p` uploads the byte. -/
def uploadSteps (p : ℕ) : List (ℕ × UploadAction) :=
  [(p, .patch 7 "bytes 0-0/1" [0x61]), (p, .readSession), (p, .lockChunk), (p, .openFile),
    (p, .write 1), (p, .commitChunk)]

/-- Call `p` runs `complete_session` up to its last statement. -/
def completeSteps (p : ℕ) : List (ℕ × UploadAction) :=
  [(p, .complete 7), (p, .countChunks), (p, .checkSize), (p, .openFile), (p, .readBlock 65536),
    (p, .compareChecksum)]

def cancelSteps (p : ℕ) : List (ℕ × UploadAction) :=
  [(p, .cancel 7), (p, .removeFile true), (p, .updateStatus)]

theorem terminal_status_final_completed : ∃ w : World UploadState UploadCall,
    (uploadProtocol sha256OfA).machine.Reach updatesOpen oneByteWorld w ∧
      w.shared.session.status = .completed ∧ w.shared.completions ≤ 1 := by
  have hrun : ((uploadProtocol sha256OfA).machine.run oneByteWorld
      (uploadSteps 0 ++ completeSteps 1 ++ [(1, .updateStatus)])).map
      (fun w => w.shared.session.status) = some .completed := by decide +kernel
  obtain ⟨w, hw, hstatus⟩ := Option.map_eq_some_iff.mp hrun
  have hreach : (uploadProtocol sha256OfA).machine.Reach updatesOpen oneByteWorld w :=
    Machine.reach_of_run _ hw (by decide +kernel)
  exact ⟨w, hreach, hstatus, (terminal_status_final hreach .refl).2⟩

/-- A completed session is cancelled, and two calls complete one session. -/
theorem completed_session_cancelled :
    createSession 1 0 (some 1048576) = .ok oneByteSession ∧
    (∃ w w' : World UploadState UploadCall,
      (uploadProtocol sha256OfA).machine.Reach Machine.anyStep oneByteWorld w ∧
      (uploadProtocol sha256OfA).machine.Reach Machine.anyStep w w' ∧
      w.shared.session.status = .completed ∧ w'.shared.session.status = .cancelled) ∧
    ∃ w : World UploadState UploadCall,
      (uploadProtocol sha256OfA).machine.Reach Machine.anyStep oneByteWorld w ∧
      w.shared.completions = 2 := by
  refine ⟨by decide +kernel, ?_, ?_⟩
  · obtain ⟨w, w', hw, hw', hview⟩ := Machine.reach_of_runs
      (M := (uploadProtocol sha256OfA).machine) (s := oneByteWorld)
      (f := fun w w' => (w.shared.session.status, w'.shared.session.status))
      (b := (.completed, .cancelled))
      (uploadSteps 0 ++ completeSteps 1 ++ [(1, .updateStatus)]) (cancelSteps 2)
      (by decide +kernel)
    exact ⟨w, w', hw, hw', (Prod.mk.inj hview).1, (Prod.mk.inj hview).2⟩
  · obtain ⟨w, w', hw, hw', hview⟩ := Machine.reach_of_runs
      (M := (uploadProtocol sha256OfA).machine) (s := oneByteWorld)
      (f := fun _ w' => w'.shared.completions) (b := 2)
      (uploadSteps 0 ++ completeSteps 1 ++ completeSteps 2)
      [(1, .updateStatus), (2, .updateStatus)] (by decide +kernel)
    exact ⟨w', hw.trans hw', hview⟩

end ArtifactKeeper.Uploads
