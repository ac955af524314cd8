import ArtifactKeeper.Uploads.Sealed

/-! The range that a PATCH declares and the row that it completes. The handler takes the row from
the start of the range alone, `upload_chunk` writes at the start whatever the row says, and neither
compares the length; the rows and `bytes_received` are right when the requests are. -/

namespace ArtifactKeeper.Uploads
open Chunking Sync

/-- The row of the chunk, if there is one, has this range. -/
def RowIs (s : UploadSession) (index start length : ℤ) : Prop :=
  ∀ r ∈ rowRanges s, r.1 = index → r.2 = (start, length)

instance (s : UploadSession) (index start length : ℤ) : Decidable (RowIs s index start length) :=
  inferInstanceAs (Decidable (∀ r ∈ rowRanges s, _))

/-- A call that is about to claim a row has declared the range of this row. -/
def UploadCall.declaresRow (s : UploadState) : UploadCall → Bool
  | .claiming index start data _ => decide (claimChunk s.session s.now index = .ok true →
      RowIs s.session index start data.length)
  | _ => true

/-- Every PATCH that claims a row has declared the range of this row. -/
def claimsDeclared (w : World UploadState UploadCall) (a : ℕ × UploadAction) : Prop :=
  a.2 = .lockChunk → (w.procs a.1).declaresRow w.shared = true

instance (w : World UploadState UploadCall) (a : ℕ × UploadAction) :
    Decidable (claimsDeclared w a) :=
  inferInstanceAs (Decidable (_ → _))

/-- Sum of `byte_length` over the completed rows. -/
def completedBytes (s : UploadSession) : ℤ :=
  ((s.chunks.filter fun c => c.status == .completed).map (·.byteLength)).sum

/-- Rows are marked for what was written into their range, and the bytes are counted. -/
structure RangesExact (s : UploadState) : Prop where
  marked : ∀ m ∈ s.marked, ∃ c ∈ s.session.chunks, c.chunkIndex = m.chunkIndex ∧
    c.byteOffset = m.offset ∧ c.byteLength = m.length
  completed : ∀ c ∈ s.session.chunks, c.status = .completed →
    ⟨c.chunkIndex, c.byteOffset, c.byteLength⟩ ∈ s.marked
  received : s.session.bytesReceived = completedBytes s.session

/-- A call that holds a row has declared its range. -/
def UploadCall.Declared (s : UploadSession) (l : UploadCall) : Prop :=
  ∀ (index start : ℤ) (length : ℕ), l.holds = some index →
    l.target = some (index, start, length) → RowIs s index start length

section Steps
variable {sha256 : Bytes → String} {p : ℕ} {s s' : UploadState} {l l' : UploadCall}
  {a : UploadAction}

theorem RowIs.mono {t t' : UploadSession} {index start length : ℤ} (h : RowIs t index start length)
    (hplan : SamePlan t t') : RowIs t' index start length := by
  rw [RowIs, hplan.rows]
  exact h

theorem UploadCall.Declared.mono {t t' : UploadSession} (h : l.Declared t) (hplan : SamePlan t t') :
    l.Declared t' := fun index start length hholds htarget =>
  (h index start length hholds htarget).mono hplan

theorem UploadCall.Declared.of_none {t : UploadSession} (h : l.target = none) : l.Declared t := by
  intro index start length _ htarget
  rw [h] at htarget
  cases htarget

theorem UploadCall.Declared.of_eq {t : UploadSession} (h : l.Declared t)
    (hholds : l'.holds = l.holds) (htarget : l'.target = l.target) : l'.Declared t := by
  rw [Declared, hholds, htarget]
  exact h

theorem RowIs.row {t : UploadSession} {start length : ℤ} {c : UploadChunk}
    (h : RowIs t c.chunkIndex start length) (hc : c ∈ t.chunks) :
    c.byteOffset = start ∧ c.byteLength = length :=
  Prod.mk.inj (h _ (List.mem_map_of_mem hc) rfl)

/-- The row of a commit was not completed, and the request wrote its range. -/
theorem RangesExact.commit (h : RangesExact s) {index start : ℤ} {data : Bytes}
    (hdistinct : (s.session.chunks.map (·.chunkIndex)).Nodup)
    (hopen : Unfinished s.session index) (hrow : RowIs s.session index start data.length) :
    RangesExact (s.commitChunk index start data) := by
  obtain ⟨before, row, after, hsplit, rfl, hstatus, hdone⟩ :=
    completeChunk_split data.length hdistinct hopen
  have hmem : row ∈ s.session.chunks := by rw [hsplit]; simp
  obtain ⟨hoffset, hlength⟩ := hrow.row hmem
  have hchunks : (s.commitChunk row.chunkIndex start data).session.chunks =
    before ++ { row with status := .completed } :: after := hdone
  constructor
  · intro m hm
    obtain rfl | hm := List.mem_cons.mp hm
    · exact ⟨{ row with status := .completed }, by rw [hchunks]; simp, rfl, hoffset, hlength⟩
    · obtain ⟨c, hc, hrange⟩ := h.marked m hm
      rw [hsplit] at hc
      rw [hchunks]
      rcases List.mem_append.mp hc with hc | hc
      · exact ⟨c, List.mem_append_left _ hc, hrange⟩
      · obtain rfl | hc := List.mem_cons.mp hc
        · exact ⟨{ c with status := .completed }, by simp, hrange⟩
        · exact ⟨c, by simp [hc], hrange⟩
  · intro c hc hcompleted
    rw [hchunks] at hc
    rcases List.mem_append.mp hc with hc | hc
    · exact List.mem_cons_of_mem _ (h.completed c (by rw [hsplit]; simp [hc]) hcompleted)
    · obtain rfl | hc := List.mem_cons.mp hc
      · rw [hoffset, hlength]
        exact List.mem_cons_self
      · exact List.mem_cons_of_mem _ (h.completed c (by rw [hsplit]; simp [hc]) hcompleted)
  · have hunfinished : (row.status == .completed) = false := by simpa using hstatus
    have hbefore := h.received
    simp only [completedBytes, hsplit, List.filter_append, List.filter_cons, hunfinished,
      List.map_append, List.sum_append, Bool.false_eq_true, if_false] at hbefore
    show s.session.bytesReceived + data.length = _
    simp only [completedBytes, hchunks, List.filter_append, List.filter_cons, BEq.rfl, if_true,
      List.map_append, List.map_cons, List.sum_append, List.sum_cons]
    omega

theorem RangesExact.mono (h : RangesExact s) (hchunks : s'.session.chunks = s.session.chunks)
    (hreceived : s'.session.bytesReceived = s.session.bytesReceived)
    (hmarked : s'.marked = s.marked) : RangesExact s' where
  marked := by rw [hmarked, hchunks]; exact h.marked
  completed := by rw [hmarked, hchunks]; exact h.completed
  received := by rw [hreceived, completedBytes, hchunks]; exact h.received

/-- Steps other than commits leave the rows and what was marked. -/
theorem StepEffect.rangesExact (h : StepEffect sha256 p s l a s' l') (hexact : RangesExact s)
    (hI : Consistent sha256 s) (hA : l.Sound sha256 p s) (hdeclared : l.Declared s.session) :
    RangesExact s' := by
  cases h with
  | commit index start data result hcall =>
    rw [hcall] at hA hdeclared
    exact hexact.commit hI.distinct (hA.1 index rfl).2 (hdeclared index start _ rfl rfl)
  | status hupdate =>
    obtain ⟨status, completions, rfl, -⟩ := updateStatus_spec sha256 hupdate
    exact hexact.mono rfl rfl rfl
  | _ => exact hexact.mono rfl rfl rfl

theorem StepEffect.declared {w : World UploadState UploadCall}
    (h : StepEffect sha256 p w.shared (w.procs p) a s' l') (hok : claimsDeclared w (p, a))
    (hdeclared : (w.procs p).Declared w.shared.session) : l'.Declared s'.session := by
  have hplan := h.samePlan
  cases h with
  | tick millis => exact hdeclared.mono hplan
  | patch user header data hidle =>
    obtain ⟨result, heq⟩ | ⟨start, stop, total, -, -, heq⟩ :=
      beginPatch_cases w.shared user header data
    · rw [heq]
      exact .of_none rfl
    · rw [heq]
      rintro index start length ⟨⟩
  | quiet hholds htarget _ =>
    obtain hnone | hsame := htarget
    · exact .of_none hnone
    · exact hdeclared.of_eq hholds hsame
  | lock index start data seen hcall hfree hclaim =>
    have hdeclares := hok rfl
    dsimp only at hdeclares
    rw [hcall] at hdeclares
    have hrow := of_decide_eq_true hdeclares hclaim
    rintro i start' length ⟨⟩ ⟨⟩
    exact hrow
  | write index start data written n hcall =>
    rw [hcall] at hdeclared
    exact hdeclared.of_eq rfl rfl
  | status hupdate =>
    obtain ⟨status, completions, rfl, -, -, htarget, -⟩ := updateStatus_spec sha256 hupdate
    exact .of_none htarget
  | remove removed _ _ htarget _ => exact .of_none htarget
  | unlock | commit | observe | put => exact .of_none rfl

end Steps

section Runs
variable {sha256 : Bytes → String} {size : ℤ} {maxUploadSize : ℕ} {chunkSize : Option ℤ}
  {session : UploadSession} {claims : ℤ → Option (Option ℤ)} {userId : Uuid}
  {now expiresAt : ℤ} {checksum : String} {w : World UploadState UploadCall}

theorem Created.rangesExact (h : Created size session) :
    RangesExact (openedState session claims userId now expiresAt checksum) := by
  refine ⟨by rintro m ⟨⟩, fun c hc hcompleted => absurd hcompleted (h.not_completed c hc), ?_⟩
  have hnone : completedBytes (withClaims session claims) = 0 := by
    rw [completedBytes, List.filter_eq_nil_iff.mpr fun c hc => by simpa using h.not_completed c hc]
    rfl
  show session.bytesReceived = completedBytes (withClaims session claims)
  rw [hnone, h.bytesReceived]

/-- The rows together are as long as the upload, if none of them was cut off from the plan. -/
theorem Created.sum_rows {s : UploadSession} (h : Created size session)
    (hcount : ceilDiv size session.chunkSize < 2 ^ 31) (hplan : SamePlan session s) :
    (s.chunks.map (·.byteLength)).sum = s.totalSize := by
  have hpos := ceilDiv_pos h.pos h.chunkSize_pos
  have htiles := (tiles_chunkRanges h.pos.le h.chunkSize_pos h.chunkSize_lt).sum_lengths
  have hrows : rowRanges s =
      chunkRanges size session.chunkSize (ceilDiv size session.chunkSize) := by
    have hsize : size ≤ (2 ^ 31 - 1) * session.chunkSize :=
      (ceilDiv_lt_iff h.chunkSize_pos).mp hcount
    rw [hplan.rows, h.rows (by have := h.chunkSize_lt; nlinarith), asI32_of_lt (by omega) hcount]
  have htotal : s.totalSize = size := hplan.totalSize.trans h.totalSize
  rw [← hrows, rowRanges] at htiles
  simpa [htotal, Function.comp_def] using htiles

/-- While every PATCH that claims a row declares its range, rows are marked for exactly the bytes
written, `bytes_received` is their sum, and with every chunk completed it is the total size. -/
theorem chunk_ranges_exact (h : createSession size maxUploadSize chunkSize = .ok session)
    (hcount : ceilDiv size session.chunkSize < 2 ^ 31)
    (hreach : (uploadProtocol sha256).machine.Reach claimsDeclared
      (openedWorld (openedState session claims userId now expiresAt checksum)) w) :
    RangesExact w.shared ∧ ((∀ c ∈ w.shared.session.chunks, c.status = .completed) →
      w.shared.session.bytesReceived = w.shared.session.totalSize) := by
  have hsound : ∀ v, (uploadProtocol sha256).machine.Reach claimsDeclared
      (openedWorld (openedState session claims userId now expiresAt checksum)) v →
      Consistent sha256 v.shared ∧ ∀ p, (v.procs p).Sound sha256 p v.shared :=
    fun v hv => reach_sound h hv
  have hexact : RangesExact w.shared ∧ ∀ p, (w.procs p).Declared w.shared.session := by
    refine Protocol.reach_rely_guarantee (I := RangesExact) (A := fun _ l s => l.Declared s.session)
      (hreach.strengthen hsound) (created h).rangesExact (fun _ => .of_none rfl) ?_
    intro v p a s' l' hI hA ⟨hok, hconsistent, hcalls⟩ hstep
    have heffect := uploadStep_effect hstep
    exact ⟨heffect.rangesExact hI hconsistent (hcalls p) (hA p), heffect.declared hok (hA p),
      fun q _ => (hA q).mono heffect.samePlan⟩
  refine ⟨hexact.1, fun hall => ?_⟩
  have hplan := (samePlan_withClaims session claims).trans (reach_samePlan hreach)
  have hfilter : w.shared.session.chunks.filter (fun c => c.status == .completed) =
      w.shared.session.chunks := List.filter_eq_self.mpr fun c hc => by simpa using hall c hc
  rw [hexact.1.received, completedBytes, hfilter, (created h).sum_rows hcount hplan]

/-- Two bytes in one chunk. -/
def twoByteSession : UploadSession := openedSession 2 1048576

def twoByteWorld : World UploadState UploadCall :=
  openedWorld (openedState twoByteSession (fun _ => none) 7 0 86400000 "")

/-- One PATCH from the header to the commit. -/
def patchSteps (header : String) (data : Bytes) : List (ℕ × UploadAction) :=
  [(0, .patch 7 header data), (0, .readSession), (0, .lockChunk), (0, .openFile),
    (0, .write data.length), (0, .commitChunk)]

theorem chunk_ranges_exact_whole : ∃ w : World UploadState UploadCall,
    (uploadProtocol fun _ => "").machine.Reach claimsDeclared twoByteWorld w ∧
      (∀ c ∈ w.shared.session.chunks, c.status = .completed) ∧
      w.shared.session.bytesReceived = w.shared.session.totalSize := by
  have hrun : ((uploadProtocol fun _ => "").machine.run twoByteWorld
      (patchSteps "bytes 0-1/2" [0x61, 0x62])).map (fun w =>
        decide (∀ c ∈ w.shared.session.chunks, c.status = .completed)) = some true := by
    decide +kernel
  obtain ⟨w, hw, hall⟩ := Option.map_eq_some_iff.mp hrun
  have hcreate : createSession 2 0 (some 1048576) = .ok twoByteSession := by decide +kernel
  have hreach : (uploadProtocol fun _ => "").machine.Reach claimsDeclared twoByteWorld w :=
    Machine.reach_of_run _ hw (by decide +kernel)
  exact ⟨w, hreach, of_decide_eq_true hall,
    (chunk_ranges_exact hcreate (by decide) hreach).2 (of_decide_eq_true hall)⟩

/-- A PATCH of the first byte completes the row of both. -/
theorem short_chunk_completes_row :
    createSession 2 0 (some 1048576) = .ok twoByteSession ∧
    ∃ w : World UploadState UploadCall,
      (uploadProtocol fun _ => "").machine.Reach Machine.anyStep twoByteWorld w ∧
      w.shared.marked = [⟨0, 0, 1⟩] ∧
      w.shared.session.chunks = [⟨0, 0, 2, .completed⟩] ∧
      w.shared.session.bytesReceived = 1 ∧ w.shared.session.totalSize = 2 := by
  refine ⟨by decide +kernel, ?_⟩
  obtain ⟨w, w', hw, hw', hview⟩ := Machine.reach_of_runs
    (M := (uploadProtocol fun _ => "").machine) (s := twoByteWorld)
    (f := fun _ w => (w.shared.marked, w.shared.session.chunks, w.shared.session.bytesReceived,
      w.shared.session.totalSize))
    (b := ([⟨0, 0, 1⟩], [⟨0, 0, 2, .completed⟩], 1, 2))
    (patchSteps "bytes 0-0/2" [0x61]) [] (by decide +kernel)
  simp only [Prod.mk.injEq] at hview
  exact ⟨w', hw.trans hw', hview⟩

end Runs

end ArtifactKeeper.Uploads
