import ArtifactKeeper.Sync.ChunkPlan
import ArtifactKeeper.Uploads.Session

/-! Row locks of concurrent chunk writers, the counter of a session, and the temp file once every
chunk is completed. A writer holds the lock of a row that is not completed from before it opens the
file until its transaction ends, so nobody writes when no such row is left. -/

namespace ArtifactKeeper.Uploads
open Chunking Sync

/-- Index, offset and length of every row. -/
def rowRanges (s : UploadSession) : List (ℤ × ℤ × ℤ) :=
  s.chunks.map fun c => (c.chunkIndex, c.byteOffset, c.byteLength)

def completedCount (s : UploadSession) : ℕ := s.chunks.countP fun c => c.status == .completed

/-- The row of the chunk is there and not completed. -/
def Unfinished (s : UploadSession) (index : ℤ) : Prop :=
  ∃ c ∈ s.chunks, c.chunkIndex = index ∧ c.status ≠ .completed

/-- The columns that no statement changes. -/
structure SamePlan (s s' : UploadSession) : Prop where
  totalSize : s'.totalSize = s.totalSize
  chunkSize : s'.chunkSize = s.chunkSize
  totalChunks : s'.totalChunks = s.totalChunks
  rows : rowRanges s' = rowRanges s

theorem SamePlan.refl (s : UploadSession) : SamePlan s s := ⟨rfl, rfl, rfl, rfl⟩

theorem SamePlan.trans {s t u : UploadSession} (h : SamePlan s t) (h' : SamePlan t u) :
    SamePlan s u :=
  ⟨h'.totalSize.trans h.totalSize, h'.chunkSize.trans h.chunkSize,
    h'.totalChunks.trans h.totalChunks, h'.rows.trans h.rows⟩

section Rows
variable {s : UploadSession} {index : ℤ}

theorem samePlan_withClaims (s : UploadSession) (claims : ℤ → Option (Option ℤ)) :
    SamePlan s (withClaims s claims) := by
  refine ⟨rfl, rfl, rfl, ?_⟩
  simp only [rowRanges, withClaims, List.map_map]
  refine List.map_congr_left fun c _ => ?_
  simp only [Function.comp_apply]
  split <;> rfl

theorem samePlan_completeChunk (s : UploadSession) (index dataLen : ℤ) :
    SamePlan s (s.completeChunk index dataLen) := by
  refine ⟨rfl, rfl, rfl, ?_⟩
  simp only [rowRanges, UploadSession.completeChunk, List.map_map]
  refine List.map_congr_left fun c _ => ?_
  simp only [Function.comp_apply]
  split <;> rfl

/-- A claim is only granted on a row that is not completed. -/
theorem unfinished_of_claim {now : ℤ} (h : claimChunk s now index = .ok true) :
    Unfinished s index := by
  unfold claimChunk at h
  split at h
  · cases h
  · rename_i c hfind
    have hindex : c.chunkIndex = index := by simpa using List.find?_some hfind
    refine ⟨c, List.mem_of_find?_eq_some hfind, hindex, fun hcompleted => ?_⟩
    rw [hcompleted] at h
    cases h

theorem unfinished_completeChunk {other : ℤ} (dataLen : ℤ) (hne : other ≠ index)
    (h : Unfinished s other) : Unfinished (s.completeChunk index dataLen) other := by
  obtain ⟨c, hmem, rfl, hstatus⟩ := h
  exact ⟨c, List.mem_map.mpr ⟨c, hmem, if_neg hne⟩, rfl, hstatus⟩

/-- Completing a chunk changes its row and no other. -/
theorem completeChunk_split (dataLen : ℤ) (hnodup : (s.chunks.map (·.chunkIndex)).Nodup)
    (h : Unfinished s index) : ∃ before row after, s.chunks = before ++ row :: after ∧
      row.chunkIndex = index ∧ row.status ≠ .completed ∧
      (s.completeChunk index dataLen).chunks =
        before ++ { row with status := .completed } :: after := by
  obtain ⟨row, hmem, rfl, hstatus⟩ := h
  obtain ⟨before, after, hsplit⟩ := List.append_of_mem hmem
  rw [hsplit, List.map_append, List.map_cons, List.nodup_append] at hnodup
  obtain ⟨-, hafter, hbefore⟩ := hnodup
  have hkeep : ∀ rows : List UploadChunk, (∀ c ∈ rows, c.chunkIndex ≠ row.chunkIndex) →
      rows.map (fun c => if c.chunkIndex = row.chunkIndex
        then { c with status := .completed } else c) = rows := fun rows hne =>
    (List.map_congr_left fun c hc => if_neg (hne c hc)).trans (List.map_id rows)
  refine ⟨before, row, after, hsplit, rfl, hstatus, ?_⟩
  simp only [UploadSession.completeChunk, hsplit, List.map_append, List.map_cons, if_true]
  rw [hkeep before, hkeep after]
  · intro c hc heq
    exact (List.nodup_cons.mp hafter).1 (List.mem_map.mpr ⟨c, hc, heq⟩)
  · intro c hc heq
    exact hbefore _ (List.mem_map_of_mem hc) _ List.mem_cons_self heq

/-- Completing a row that is not completed adds one to their number. -/
theorem completedCount_completeChunk (dataLen : ℤ)
    (hnodup : (s.chunks.map (·.chunkIndex)).Nodup) (h : Unfinished s index) :
    completedCount (s.completeChunk index dataLen) = completedCount s + 1 := by
  obtain ⟨before, row, after, hsplit, -, hstatus, hdone⟩ := completeChunk_split dataLen hnodup h
  have hopen : (row.status == .completed) = false := by simpa using hstatus
  simp only [completedCount, hsplit, hdone, List.countP_append, List.countP_cons, hopen,
    BEq.rfl, if_true]
  simp only [Bool.false_eq_true, if_false]
  omega

theorem incomplete_eq_zero_iff {s : UploadState} :
    s.incomplete = 0 ↔ ∀ c ∈ s.session.chunks, c.status = .completed := by
  simp [UploadState.incomplete, List.countP_eq_zero]

end Rows

/-- The call holds the lock of a row that is not completed while it writes. -/
def UploadCall.Holding (p : ℕ) (s : UploadState) (l : UploadCall) : Prop :=
  ∀ index, l.holds = some index → s.locks index = some p ∧ Unfinished s.session index

/-- What holds of the rows, the counter and the stored bytes between any two steps. -/
structure Consistent (sha256 : Bytes → String) (s : UploadState) : Prop where
  distinct : (s.session.chunks.map (·.chunkIndex)).Nodup
  counted : s.session.completedChunks = completedCount s.session
  observed : s.observed = true → ∀ c ∈ s.session.chunks, c.status = .completed
  stored : ∀ r ∈ s.stored, r.1 = r.2 ∧ sha256 r.1 = s.checksum

section Locks
variable {sha256 : Bytes → String} {p q : ℕ} {s s' : UploadState} {l l' : UploadCall}
  {a : UploadAction} {index : ℤ}

theorem Consistent.not_observed (h : Consistent sha256 s) (hopen : Unfinished s.session index) :
    s.observed = false := by
  obtain ⟨c, hmem, -, hstatus⟩ := hopen
  exact Bool.eq_false_iff.mpr fun hobserved => hstatus (h.observed hobserved c hmem)

/-- What a call has verified survives every change that leaves the content of an observed file. -/
theorem UploadCall.Verified.mono (h : l.Verified sha256 s)
    (hobserved : s.observed = true → s'.observed = true)
    (hbytes : s.observed = true → s'.bytes = s.bytes) (hchecksum : s'.checksum = s.checksum) :
    l.Verified sha256 s' := by
  cases l with
  | sizing | sized => exact hobserved h
  | hashing read =>
    obtain ⟨hseen, hread⟩ := h
    exact ⟨hobserved hseen, by rw [hbytes hseen]; exact hread⟩
  | markingCompleted hashed | storing hashed =>
    obtain ⟨hseen, hhashed, hsum⟩ := h
    exact ⟨hobserved hseen, by rw [hbytes hseen]; exact hhashed, by rw [hchecksum]; exact hsum⟩
  | copying hashed read =>
    obtain ⟨hseen, hhashed, hsum, hread⟩ := h
    exact ⟨hobserved hseen, by rw [hbytes hseen]; exact hhashed, by rw [hchecksum]; exact hsum,
      by rw [hbytes hseen]; exact hread⟩
  | _ => trivial

theorem UploadCall.Holding.mono (h : l.Holding p s) (hlocks : s'.locks = s.locks)
    (hchunks : s'.session.chunks = s.session.chunks) : l.Holding p s' := by
  intro index hholds
  obtain ⟨hlock, hopen⟩ := h index hholds
  exact ⟨hlocks ▸ hlock, by rw [Unfinished, hchunks]; exact hopen⟩

/-- Two calls hold different rows. -/
theorem UploadCall.Holding.ne (h : l.Holding q s) (hindex : s.locks index ≠ some q) {other : ℤ}
    (hholds : l.holds = some other) : other ≠ index := by
  rintro rfl
  exact hindex (h other hholds).1

/-- What is known of call `p` between two steps. -/
def UploadCall.Sound (sha256 : Bytes → String) (p : ℕ) (s : UploadState) (l : UploadCall) : Prop :=
  l.Holding p s ∧ l.Verified sha256 s

/-- Rows, counter, locks and the content of the file are left alone. -/
structure Untouched (s s' : UploadState) : Prop where
  chunks : s'.session.chunks = s.session.chunks
  completedChunks : s'.session.completedChunks = s.session.completedChunks
  locks : s'.locks = s.locks
  bytes : s'.bytes = s.bytes
  observed : s'.observed = s.observed
  checksum : s'.checksum = s.checksum

theorem Untouched.consistent (h : Untouched s s') (hI : Consistent sha256 s)
    (hstored : ∀ r ∈ s'.stored, r.1 = r.2 ∧ sha256 r.1 = s'.checksum) :
    Consistent sha256 s' where
  distinct := h.chunks ▸ hI.distinct
  counted := by rw [h.completedChunks, completedCount, h.chunks]; exact hI.counted
  observed := by rw [h.observed, h.chunks]; exact hI.observed
  stored := hstored

theorem Untouched.sound (h : Untouched s s') (hl : l.Sound sha256 p s) : l.Sound sha256 p s' :=
  ⟨hl.1.mono h.locks h.chunks,
    hl.2.mono (fun hseen => h.observed.trans hseen) (fun _ => h.bytes) h.checksum⟩

theorem UploadCall.Holding.of_none (h : l.holds = none) : l.Holding p s := by
  intro index hholds
  rw [h] at hholds
  cases hholds

theorem beginPatch_cases (s : UploadState) (user : Uuid) (header : String) (data : Bytes) :
    (∃ result, s.beginPatch user header data = .finished result) ∨
      ∃ start stop total, parseContentRange header = .ok (start, stop, total) ∧
        (data.length : ℤ) = stop - start + 1 ∧
        s.beginPatch user header data =
          .patching user (asI32 (start.tdiv s.session.chunkSize)) start data := by
  unfold UploadState.beginPatch UploadState.getSession
  dsimp only
  split
  · exact .inl ⟨_, rfl⟩
  · rename_i start stop total hparse
    split
    · exact .inl ⟨_, rfl⟩
    · rename_i session hsession
      split
      · exact .inl ⟨_, rfl⟩
      · split
        · exact .inl ⟨_, rfl⟩
        · rename_i hlength
          have hseen : session = s.session := by
            split at hsession
            · cases hsession
            · split at hsession <;> cases hsession
              rfl
          exact .inr ⟨start, stop, total, hparse, not_not.mp hlength, by rw [hseen]⟩

variable {w : World UploadState UploadCall}

/-- A call takes the lock of a row that nobody holds. -/
theorem sound_lock (hI : Consistent sha256 w.shared)
    (hA : ∀ q, (w.procs q).Sound sha256 q w.shared) (hfree : w.shared.locks index = none)
    (hopen : Unfinished w.shared.session index) (start : ℤ) (data : Bytes) :
    Consistent sha256 (w.shared.lock p index) ∧
      (UploadCall.opening index start data).Sound sha256 p (w.shared.lock p index) ∧
      ∀ q, q ≠ p → (w.procs q).Sound sha256 q (w.shared.lock p index) := by
  refine ⟨⟨hI.distinct, hI.counted, hI.observed, hI.stored⟩, ⟨?_, trivial⟩, fun q _ => ⟨?_, ?_⟩⟩
  · rintro i ⟨⟩
    exact ⟨Function.update_self .., hopen⟩
  · intro i hholds
    have hne : i ≠ index := (hA q).1.ne (by simp [hfree]) hholds
    exact ⟨(Function.update_of_ne hne _ _).trans ((hA q).1 i hholds).1, ((hA q).1 i hholds).2⟩
  · exact (hA q).2.mono id (fun _ => rfl) rfl

/-- A call gives its lock back and leaves the rows. -/
theorem sound_unlock (hI : Consistent sha256 w.shared)
    (hA : ∀ q, (w.procs q).Sound sha256 q w.shared) (hholds : (w.procs p).holds = some index)
    (result : UploadResult) :
    Consistent sha256 (w.shared.unlock index) ∧
      (UploadCall.finished result).Sound sha256 p (w.shared.unlock index) ∧
      ∀ q, q ≠ p → (w.procs q).Sound sha256 q (w.shared.unlock index) := by
  have hlock := ((hA p).1 index hholds).1
  refine ⟨⟨hI.distinct, hI.counted, hI.observed, hI.stored⟩, ⟨.of_none rfl, trivial⟩,
    fun q hq => ⟨?_, (hA q).2.mono id (fun _ => rfl) rfl⟩⟩
  intro i hi
  have hne : i ≠ index := (hA q).1.ne (by simpa [hlock] using hq.symm) hi
  exact ⟨(Function.update_of_ne hne _ _).trans ((hA q).1 i hi).1, ((hA q).1 i hi).2⟩

/-- A call writes: the row whose lock it holds shows that nobody has observed the end. -/
theorem sound_write (hI : Consistent sha256 w.shared)
    (hA : ∀ q, (w.procs q).Sound sha256 q w.shared) {start : ℤ} {data : Bytes} {written : ℕ}
    (hcall : w.procs p = .writing index start data written) (n : ℕ) (bytes : Bytes) :
    Consistent sha256 { w.shared with bytes := bytes } ∧
      (UploadCall.writing index start data (written + n)).Sound sha256 p
        { w.shared with bytes := bytes } ∧
      ∀ q, q ≠ p → (w.procs q).Sound sha256 q { w.shared with bytes := bytes } := by
  have hholding : (w.procs p).Holding p w.shared := (hA p).1
  rw [hcall] at hholding
  have hunseen := hI.not_observed (hholding index rfl).2
  refine ⟨⟨hI.distinct, hI.counted, hI.observed, hI.stored⟩, ⟨hholding.mono rfl rfl, trivial⟩,
    fun q _ => ⟨(hA q).1.mono rfl rfl, (hA q).2.mono id (fun hseen => ?_) rfl⟩⟩
  rw [hunseen] at hseen
  cases hseen

/-- A call commits: its row is the one that becomes completed. -/
theorem sound_commit (hI : Consistent sha256 w.shared)
    (hA : ∀ q, (w.procs q).Sound sha256 q w.shared) (hholds : (w.procs p).holds = some index)
    (start : ℤ) (data : Bytes) (result : UploadResult) :
    Consistent sha256 (w.shared.commitChunk index start data) ∧
      (UploadCall.finished result).Sound sha256 p (w.shared.commitChunk index start data) ∧
      ∀ q, q ≠ p → (w.procs q).Sound sha256 q (w.shared.commitChunk index start data) := by
  obtain ⟨hlock, hopen⟩ := (hA p).1 index hholds
  have hunseen := hI.not_observed hopen
  have hplan := samePlan_completeChunk w.shared.session index data.length
  refine ⟨⟨?_, ?_, ?_, hI.stored⟩, ⟨.of_none rfl, trivial⟩, fun q hq => ⟨?_, ?_⟩⟩
  · have hindices : ((w.shared.session.completeChunk index data.length).chunks.map
        (·.chunkIndex)) = w.shared.session.chunks.map (·.chunkIndex) := by
      have hrows := congrArg (List.map Prod.fst) hplan.rows
      simpa [rowRanges, Function.comp_def] using hrows
    exact hindices ▸ hI.distinct
  · have hcount := completedCount_completeChunk data.length hI.distinct hopen
    have hbefore := hI.counted
    show w.shared.session.completedChunks + 1 = _
    rw [show completedCount (w.shared.commitChunk index start data).session = _ from hcount]
    omega
  · intro hseen
    rw [show (w.shared.commitChunk index start data).observed = w.shared.observed from rfl,
      hunseen] at hseen
    cases hseen
  · intro i hi
    have hne : i ≠ index := (hA q).1.ne (by simpa [hlock] using hq.symm) hi
    exact ⟨(Function.update_of_ne hne _ _).trans ((hA q).1 i hi).1,
      unfinished_completeChunk data.length hne ((hA q).1 i hi).2⟩
  · exact (hA q).2.mono id (fun _ => rfl) rfl

/-- `put_file` has read the whole file, which is what was hashed. -/
theorem stored_put (hI : Consistent sha256 s) {hashed read : Bytes}
    (hl : (UploadCall.copying hashed read).Verified sha256 s)
    (hend : s.bytes.length ≤ read.length) :
    ∀ r ∈ (hashed, read) :: s.stored, r.1 = r.2 ∧ sha256 r.1 = s.checksum := by
  obtain ⟨-, hhashed, hsum, hread⟩ := hl
  intro r hr
  obtain rfl | hr := List.mem_cons.mp hr
  · exact ⟨hhashed.trans (hread.eq_of_length_le hend).symm, hsum⟩
  · exact hI.stored r hr

/-- One step of any call. -/
theorem step_sound (hI : Consistent sha256 w.shared)
    (hA : ∀ q, (w.procs q).Sound sha256 q w.shared)
    (h : StepEffect sha256 p w.shared (w.procs p) a s' l') :
    Consistent sha256 s' ∧ l'.Sound sha256 p s' ∧ ∀ q, q ≠ p → (w.procs q).Sound sha256 q s' := by
  -- steps that leave rows, locks and bytes keep what every call knows
  have hquiet : ∀ {t : UploadState} {m : UploadCall}, Untouched w.shared t → t.stored =
      w.shared.stored → m.holds = (w.procs p).holds ∨ m.holds = none → m.Verified sha256 t →
      Consistent sha256 t ∧ m.Sound sha256 p t ∧ ∀ q, q ≠ p → (w.procs q).Sound sha256 q t := by
    intro t m hsame hstored hholds hverified
    refine ⟨hsame.consistent hI (by rw [hstored, hsame.checksum]; exact hI.stored),
      ⟨?_, hverified⟩, fun q _ => hsame.sound (hA q)⟩
    obtain hsameRow | hnone := hholds
    · intro index hindex
      exact ((hA p).1.mono hsame.locks hsame.chunks) index (hsameRow ▸ hindex)
    · exact .of_none hnone
  cases h with
  | tick millis =>
    have hsame : Untouched w.shared { w.shared with now := w.shared.now + millis } :=
      ⟨rfl, rfl, rfl, rfl, rfl, rfl⟩
    exact hquiet hsame rfl (.inl rfl) (hsame.sound (hA p)).2
  | patch user header data hidle =>
    obtain ⟨result, heq⟩ | ⟨start, stop, total, -, -, heq⟩ :=
      beginPatch_cases w.shared user header data
    · rw [heq]
      exact hquiet ⟨rfl, rfl, rfl, rfl, rfl, rfl⟩ rfl (.inr rfl) trivial
    · rw [heq]
      exact hquiet ⟨rfl, rfl, rfl, rfl, rfl, rfl⟩ rfl (.inr rfl) trivial
  | quiet hholds _ hverified =>
    exact hquiet ⟨rfl, rfl, rfl, rfl, rfl, rfl⟩ rfl (.inl hholds) (hverified (hA p).2)
  | lock index start data seen hcall hfree hclaim =>
    exact sound_lock hI hA hfree (unfinished_of_claim hclaim) start data
  | unlock index result hholds => exact sound_unlock hI hA hholds result
  | write index start data written n hcall => exact sound_write hI hA hcall n _
  | commit index start data result hcall =>
    exact sound_commit hI hA (by rw [hcall]; rfl) start data result
  | observe seen hcall hnone =>
    refine ⟨⟨hI.distinct, hI.counted, fun _ => incomplete_eq_zero_iff.mp hnone, hI.stored⟩,
      ⟨.of_none rfl, rfl⟩, fun q _ => ⟨(hA q).1.mono rfl rfl, ?_⟩⟩
    exact (hA q).2.mono (fun _ => rfl) (fun _ => rfl) rfl
  | status hupdate =>
    obtain ⟨status, completions, rfl, -, hholds, -, hverified, -⟩ :=
      updateStatus_spec sha256 hupdate
    exact hquiet ⟨rfl, rfl, rfl, rfl, rfl, rfl⟩ rfl (.inr hholds) (hverified (hA p).2)
  | put hashed read hcall hend =>
    have hverified : (w.procs p).Verified sha256 w.shared := (hA p).2
    rw [hcall] at hverified
    have hsame : Untouched w.shared { w.shared with
        stored := (hashed, read) :: w.shared.stored } := ⟨rfl, rfl, rfl, rfl, rfl, rfl⟩
    exact ⟨hsame.consistent hI (stored_put hI hverified hend), ⟨.of_none rfl, trivial⟩,
      fun q _ => hsame.sound (hA q)⟩
  | remove removed _ hholds _ hverified =>
    have hsame : Untouched w.shared { w.shared with linked := w.shared.linked && !removed } :=
      ⟨rfl, rfl, rfl, rfl, rfl, rfl⟩
    exact hquiet hsame rfl (.inl hholds) (hverified.mono id (fun _ => rfl) rfl)

theorem StepEffect.samePlan (h : StepEffect sha256 p s l a s' l') :
    SamePlan s.session s'.session := by
  cases h with
  | commit index start data result _ => exact samePlan_completeChunk _ _ _
  | status hupdate =>
    obtain ⟨status, completions, rfl, -⟩ := updateStatus_spec sha256 hupdate
    exact ⟨rfl, rfl, rfl, rfl⟩
  | _ => exact .refl _

/-- Once the end has been observed it stays so, and the content of the file stays. -/
theorem StepEffect.frozen (hI : Consistent sha256 s) (hA : l.Sound sha256 p s)
    (hseen : s.observed = true) (h : StepEffect sha256 p s l a s' l') :
    s'.observed = true ∧ s'.bytes = s.bytes := by
  cases h with
  | write index start data written n hcall =>
    rw [hcall] at hA
    rw [hI.not_observed (hA.1 index rfl).2] at hseen
    cases hseen
  | status hupdate =>
    obtain ⟨status, completions, rfl, -⟩ := updateStatus_spec sha256 hupdate
    exact ⟨hseen, rfl⟩
  | observe => exact ⟨rfl, rfl⟩
  | _ => exact ⟨hseen, rfl⟩

end Locks

/-- A session of `size` bytes as `create_session` returns it. -/
structure Created (size : ℤ) (s : UploadSession) : Prop where
  pos : 0 < size
  chunkSize_pos : 0 < s.chunkSize
  chunkSize_lt : s.chunkSize < 2 ^ 31
  totalSize : s.totalSize = size
  totalChunks : s.totalChunks = (countChunks size s.chunkSize).value
  completedChunks : s.completedChunks = 0
  bytesReceived : s.bytesReceived = 0
  indices : s.chunks.map (·.chunkIndex) = (List.range s.totalChunks.toNat).map Nat.cast
  rows : size + s.chunkSize < 2 ^ 63 →
    rowRanges s = chunkRanges size s.chunkSize (asI32 (ceilDiv size s.chunkSize))
  unfinished : ∀ c ∈ s.chunks, c.status ≠ .completed

/-- The counter is right and within the plan, the file is left alone once some `complete_session`
has seen every chunk completed, and what was stored is what was verified. -/
structure Sealed (sha256 : Bytes → String) (w : World UploadState UploadCall) : Prop where
  counted : w.shared.session.completedChunks = completedCount w.shared.session
  bounded : w.shared.session.completedChunks ≤ w.shared.session.totalChunks
  frozen : w.shared.observed = true → ∀ w',
    (uploadProtocol sha256).machine.Reach Machine.anyStep w w' →
      w'.shared.bytes = w.shared.bytes ∧
        ∀ p n, (uploadProtocol sha256).machine.step w' (p, .write n) = none
  stored : ∀ r ∈ w.shared.stored, r.1 = r.2 ∧ sha256 r.1 = w.shared.checksum

section Runs
variable {sha256 : Bytes → String} {size : ℤ} {maxUploadSize : ℕ} {chunkSize : Option ℤ}
  {session : UploadSession} {claims : ℤ → Option (Option ℤ)} {userId : Uuid}
  {now expiresAt : ℤ} {checksum : String} {w w' : World UploadState UploadCall}
  {ok : World UploadState UploadCall → ℕ × UploadAction → Prop}

theorem created (h : createSession size maxUploadSize chunkSize = .ok session) :
    Created size session := by
  have hdefault : createSession size maxUploadSize chunkSize =
      createSession size maxUploadSize (some (chunkSize.getD defaultChunkSize)) := rfl
  obtain ⟨hsize, -, hmin, hmax, rfl⟩ := createSession_iff.mp (hdefault ▸ h)
  refine ⟨hsize, lt_of_lt_of_le (by decide) hmin, lt_of_le_of_lt hmax (by decide), rfl, rfl, rfl,
    rfl, ?_, fun hwrap => ?_, fun c hc => ?_⟩
  · simp [openedSession, openSession, insertedRows, Traced.each, Function.comp_def, chunkRow_index]
  · rw [openedSession_eq hsize hmin hmax hwrap]
    simp [rowRanges, plannedSession, Function.comp_def]
  · obtain ⟨r, -, rfl⟩ := List.mem_map.mp hc
    simp

theorem Created.not_completed (h : Created size session) :
    ∀ c ∈ (withClaims session claims).chunks, c.status ≠ .completed := by
  intro c hc
  obtain ⟨d, hd, rfl⟩ := List.mem_map.mp hc
  split
  · exact h.unfinished d hd
  · simp

theorem Created.consistent (h : Created size session) :
    Consistent sha256 (openedState session claims userId now expiresAt checksum) := by
  have hplan := samePlan_withClaims session claims
  refine ⟨?_, ?_, by rintro ⟨⟩, by rintro r ⟨⟩⟩
  · have hindices : ∀ s : UploadSession,
        s.chunks.map (·.chunkIndex) = (rowRanges s).map Prod.fst := fun s => by
      simp [rowRanges, Function.comp_def]
    show ((withClaims session claims).chunks.map (·.chunkIndex)).Nodup
    rw [hindices, hplan.rows, ← hindices, h.indices]
    exact List.Nodup.map (fun i j h => Int.ofNat.inj h) List.nodup_range
  · have hnone : completedCount (withClaims session claims) = 0 :=
      List.countP_eq_zero.mpr fun c hc => by simpa using h.not_completed c hc
    show session.completedChunks = (completedCount (withClaims session claims) : ℤ)
    rw [hnone, h.completedChunks]
    rfl

/-- The invariant along every run. -/
theorem reach_sound (h : createSession size maxUploadSize chunkSize = .ok session)
    (hreach : (uploadProtocol sha256).machine.Reach ok
      (openedWorld (openedState session claims userId now expiresAt checksum)) w) :
    Consistent sha256 w.shared ∧ ∀ p, (w.procs p).Sound sha256 p w.shared :=
  Protocol.reach_rely_guarantee (A := fun p l s => l.Sound sha256 p s) hreach
    (created h).consistent (fun _ => ⟨.of_none rfl, trivial⟩)
    fun _ _ _ _ _ hI hA _ hstep => step_sound hI hA (uploadStep_effect hstep)

theorem reach_samePlan (hreach : (uploadProtocol sha256).machine.Reach ok w w') :
    SamePlan w.shared.session w'.shared.session := by
  refine hreach.invariant (I := fun v => SamePlan w.shared.session v.shared.session) (.refl _) ?_
  rintro v ⟨p, a⟩ v' hsame - hstep
  obtain ⟨s', l', heffect, rfl⟩ := Protocol.machine_step hstep
  exact hsame.trans (uploadStep_effect heffect).samePlan

/-- From a state where the end has been observed nothing writes any more. -/
theorem reach_frozen (hinv : ∀ v, (uploadProtocol sha256).machine.Reach Machine.anyStep w v →
      Consistent sha256 v.shared ∧ ∀ p, (v.procs p).Sound sha256 p v.shared)
    (hseen : w.shared.observed = true)
    (hreach : (uploadProtocol sha256).machine.Reach Machine.anyStep w w') :
    w'.shared.bytes = w.shared.bytes ∧
      ∀ p n, (uploadProtocol sha256).machine.step w' (p, .write n) = none := by
  have hkept : w'.shared.observed = true ∧ w'.shared.bytes = w.shared.bytes := by
    refine (hreach.strengthen hinv).invariant
      (I := fun v => v.shared.observed = true ∧ v.shared.bytes = w.shared.bytes) ⟨hseen, rfl⟩ ?_
    rintro v ⟨p, a⟩ v' ⟨hobserved, hbytes⟩ ⟨-, hI, hA⟩ hstep
    obtain ⟨s', l', hlocal, rfl⟩ := Protocol.machine_step hstep
    obtain ⟨hobserved', hsame⟩ := (uploadStep_effect hlocal).frozen hI (hA p) hobserved
    exact ⟨hobserved', hsame.trans hbytes⟩
  obtain ⟨hseen', hbytes⟩ := hkept
  obtain ⟨hI', hA'⟩ := hinv w' hreach
  refine ⟨hbytes, fun p n => ?_⟩
  -- a step that writes would be by a call that holds an unfinished row
  cases hstep : (uploadProtocol sha256).machine.step w' (p, .write n) with
  | none => rfl
  | some v =>
    obtain ⟨s', l', hlocal, -⟩ := Protocol.machine_step hstep
    cases hcall : w'.procs p with
    | writing index start data written =>
      have hholding := (hA' p).1
      rw [hcall] at hholding
      rw [hI'.not_observed (hholding index rfl).2] at hseen'
      cases hseen'
    | _ =>
      rw [hcall] at hlocal
      cases hlocal

/-- Every run of a session is sealed exactly when the number of its chunks, in the arithmetic of the
code, is not cut to a negative `i32`: a negative number is below the counter from the start. -/
theorem sealed_iff (h : createSession size maxUploadSize chunkSize = .ok session) :
    (∀ w, (uploadProtocol sha256).machine.Reach Machine.anyStep
        (openedWorld (openedState session claims userId now expiresAt checksum)) w →
      Sealed sha256 w) ↔
      0 ≤ asI32 ((asI64 (size + session.chunkSize - 1)).tdiv session.chunkSize) := by
  have hcreated := created h
  rw [← countChunks_value, ← hcreated.totalChunks]
  constructor
  · intro hsealed
    have hstart : session.completedChunks ≤ session.totalChunks := (hsealed _ .refl).bounded
    rwa [hcreated.completedChunks] at hstart
  · intro hcount w hreach
    obtain ⟨hI, -⟩ := reach_sound h hreach
    have hlater := fun v hrest => reach_sound h (hreach.trans (u := v) hrest)
    refine ⟨hI.counted, ?_, fun hseen w' => reach_frozen hlater hseen, hI.stored⟩
    have hplan := (samePlan_withClaims session claims).trans (reach_samePlan hreach)
    have hrows : w.shared.session.chunks.length = session.totalChunks.toNat := by
      have hlength := congrArg List.length hplan.rows
      have hindices := congrArg List.length hcreated.indices
      simp only [rowRanges, List.length_map, List.length_range] at hlength hindices
      omega
    have hle : completedCount w.shared.session ≤ w.shared.session.chunks.length :=
      List.countP_le_length
    rw [hI.counted, hplan.totalChunks]
    omega

theorem sealed_iff_default : createSession 20000000 0 none = .ok (openedSession 20000000 8388608) ∧
    ∀ (sha256 : Bytes → String) (w : World UploadState UploadCall),
      (uploadProtocol sha256).machine.Reach Machine.anyStep
        (openedWorld (openedState (openedSession 20000000 8388608) (fun _ => none) 7 0 86400000 ""))
        w → Sealed sha256 w := by
  have hcreate : createSession 20000000 0 none = .ok (openedSession 20000000 8388608) := by
    decide +kernel
  exact ⟨hcreate, fun sha256 => (sealed_iff hcreate).mpr (by decide +kernel)⟩

/-- `2 ^ 51` bytes in chunks of 1 MiB: `2 ^ 31` chunks, counted as `-2 ^ 31`. -/
theorem huge_session_unbounded :
    ∃ session, createSession (2 ^ 51) 0 (some 1048576) = .ok session ∧
      ∀ sha256 : Bytes → String, ∃ w, (uploadProtocol sha256).machine.Reach Machine.anyStep
          (openedWorld (openedState session (fun _ => none) 7 0 86400000 "")) w ∧
        ¬ w.shared.session.completedChunks ≤ w.shared.session.totalChunks :=
  ⟨openedSession (2 ^ 51) 1048576, by decide +kernel, fun _ => ⟨_, .refl, by decide +kernel⟩⟩

end Runs

end ArtifactKeeper.Uploads
