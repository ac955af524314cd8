import ArtifactKeeper.Chunking
import ArtifactKeeper.Machine
import ArtifactKeeper.Sync.Tasks
import Mathlib.Tactic.IntervalCases

/-! Swarm transfer sessions of one artifact and one peer: the statements of `transfer_service.rs`
as separate steps of any number of concurrent calls. -/

namespace ArtifactKeeper.Sync
open Chunking

/-- A row of `transfer_chunks`. -/
structure TransferChunk where
  chunkIndex : ℤ
  byteOffset : ℤ
  byteLength : ℤ
  checksum : String
  status : SyncStatus
  sourcePeerId : Option Uuid
  attempts : ℤ
  lastError : Option String
  deriving DecidableEq, Repr

/-- A row of `transfer_sessions`. -/
structure TransferSession where
  totalSize : ℤ
  chunkSize : ℤ
  totalChunks : ℤ
  completedChunks : ℤ
  artifactChecksum : String
  status : SyncStatus
  errorMessage : Option String
  deriving DecidableEq, Repr

/-- The session with its chunk rows, and how often a chunk became or ceased to be completed. -/
structure TransferState where
  session : Option TransferSession
  chunks : List TransferChunk
  changes : ℕ
  deriving DecidableEq, Repr

/-- The ceiling is exact for the sizes that a double represents; the cast to `i32` saturates. -/
def transferChunkCount (totalSize chunkSize : ℤ) : ℤ := saturateI32 (ceilDiv totalSize chunkSize)

def newChunk (totalSize chunkSize totalChunks i : ℤ) : TransferChunk where
  chunkIndex := i
  byteOffset := (chunkAt totalSize chunkSize totalChunks i).1
  byteLength := (chunkAt totalSize chunkSize totalChunks i).2
  checksum := ""
  status := .pending
  sourcePeerId := none
  attempts := 0
  lastError := none

namespace TransferState

def hasChunk (s : TransferState) (i : ℤ) : Bool := s.chunks.any fun c => c.chunkIndex == i

def completedCount (s : TransferState) : ℕ := s.chunks.countP fun c => c.status == .completed

/-- `INSERT INTO transfer_sessions … ON CONFLICT DO UPDATE … RETURNING`. -/
def upsertSession (s : TransferState) (new : TransferSession) : TransferState × TransferSession :=
  let row := match s.session with
    | none => new
    | some old => { old with status := .pending, completedChunks := 0, errorMessage := none }
  ({ s with session := some row }, row)

/-- `INSERT INTO transfer_chunks … ON CONFLICT DO NOTHING`. -/
def insertChunk (s : TransferState) (c : TransferChunk) : TransferState :=
  if s.hasChunk c.chunkIndex then s else { s with chunks := s.chunks ++ [c] }

/-- Update the rows that match. -/
def updateChunks (s : TransferState) (p : TransferChunk → Bool)
    (f : TransferChunk → TransferChunk) : TransferState :=
  { s with chunks := s.chunks.map fun c => if p c then f c else c }

/-- The first statement of `complete_chunk`; `none` when it affects no row. -/
def completeChunk (s : TransferState) (chunkIndex : ℤ) (checksum : String)
    (sourcePeerId : Option Uuid) : Option TransferState :=
  let unfinished := fun c : TransferChunk => c.chunkIndex == chunkIndex && c.status != .completed
  if s.chunks.any unfinished then
    some { s.updateChunks unfinished fun c => { c with
        status := .completed
        checksum := checksum
        sourcePeerId := sourcePeerId
        attempts := c.attempts + 1 } with changes := s.changes + 1 }
  else none

/-- The statement of `fail_chunk`. -/
def failChunk (s : TransferState) (chunkIndex : ℤ) (error : String) : TransferState :=
  { s.updateChunks (fun c => c.chunkIndex == chunkIndex) fun c => { c with
      status := .failed
      lastError := some error
      attempts := c.attempts + 1 } with
    changes := if s.chunks.any fun c => c.chunkIndex == chunkIndex && c.status == .completed
      then s.changes + 1 else s.changes }

/-- The statement of `retry_chunk`. -/
def retryChunk (s : TransferState) (chunkIndex : ℤ) : TransferState :=
  s.updateChunks (fun c => c.chunkIndex == chunkIndex && c.status == .failed) fun c =>
    { c with status := .pending, sourcePeerId := none }

def setSession (s : TransferState) (f : TransferSession → TransferSession) : TransferState :=
  { s with session := s.session.map f }

/-- Every chunk that the session counts has its row. -/
def created (s : TransferState) : Bool :=
  s.session.all fun t => (List.range t.totalChunks.toNat).all fun i => s.hasChunk i

end TransferState

/-- A call between its statements. `counted` holds the count that its update read in its snapshot
and the number of changes up to then. -/
inductive TransferProc where
  | idle
  | initRead (totalSize chunkSize : ℤ) (checksum : String)
  | initChunks (session : TransferSession) (totalSize chunkSize totalChunks next : ℤ)
  | counting
  | counted (count since : ℕ)
  | closing
  | finished (result : Except AppError (Option TransferSession))

inductive TransferAction where
  | initTransfer (artifact : Option (ℤ × String)) (chunkSize : Option ℤ)
  | upsert
  | insertChunk
  | completeChunk (chunkIndex : ℤ) (checksum : String) (sourcePeerId : Option Uuid)
  | snapshot
  | writeCount
  | failChunk (chunkIndex : ℤ) (error : String)
  | retryChunk (chunkIndex : ℤ)
  | completeSession
  | close
  | failSession (error : String)
  | fail

/-- The loop of `init_transfer` at index `next`. -/
def initNext (session : TransferSession) (totalSize chunkSize totalChunks next : ℤ) :
    TransferProc :=
  if next < totalChunks then .initChunks session totalSize chunkSize totalChunks next
  else .finished (.ok (some session))

/-- The calls of any number of clients. All but `init_transfer` carry the id of the session, which
is known once the session exists. `fail` is a database error. -/
def transferProtocol : Protocol TransferState TransferProc TransferAction where
  step _ s l a :=
    match l, a with
    | .idle, .initTransfer artifact chunkSize =>
      some (s, match artifact with
        | none => .finished (.error (.notFound "Artifact not found"))
        | some (size, checksum) => .initRead size (chunkSize.getD 1048576) checksum)
    | .initRead totalSize chunkSize checksum, .upsert =>
      let totalChunks := transferChunkCount totalSize chunkSize
      let (s', session) := s.upsertSession
        ⟨totalSize, chunkSize, totalChunks, 0, checksum, .pending, none⟩
      some (s', initNext session totalSize chunkSize totalChunks 0)
    | .initChunks session totalSize chunkSize totalChunks next, .insertChunk =>
      some (s.insertChunk (newChunk totalSize chunkSize totalChunks next),
        initNext session totalSize chunkSize totalChunks (next + 1))
    | .idle, .completeChunk chunkIndex checksum sourcePeerId =>
      if s.session.isSome then
        match s.completeChunk chunkIndex checksum sourcePeerId with
        | none => some (s, .finished (.ok none))
        | some s' => some (s', .counting)
      else none
    | .counting, .snapshot => some (s, .counted s.completedCount s.changes)
    | .counted count _, .writeCount =>
      some (s.setSession fun t => { t with completedChunks := count }, .finished (.ok none))
    | .idle, .failChunk chunkIndex error =>
      if s.session.isSome then some (s.failChunk chunkIndex error, .finished (.ok none)) else none
    | .idle, .retryChunk chunkIndex =>
      if s.session.isSome then some (s.retryChunk chunkIndex, .finished (.ok none)) else none
    | .idle, .completeSession =>
      if s.session.isSome then
        let pending := s.chunks.countP fun c => c.status != .completed
        some (s, if 0 < pending
          then .finished (.error (.validation (toString pending ++ " chunks still pending/failed")))
          else .closing)
      else none
    | .closing, .close =>
      some (s.setSession fun t => { t with status := .completed }, .finished (.ok none))
    | .idle, .failSession error =>
      if s.session.isSome then
        some (s.setSession fun t => { t with status := .failed, errorMessage := some error },
          .finished (.ok none))
      else none
    | .idle, _ => none
    | .finished _, _ => none
    | _, .fail => some (s, .finished (.error (.database "database error")))
    | _, _ => none

/-- The sizes are in range, and: a repeated `init_transfer` finds no completed chunk and either has
the recorded sizes or finds every row in place; the count is written before another chunk changes;
`fail_chunk` finds its chunk not completed; `complete_session` finds every row in place; and no
call is cut off after its first write. -/
def callsOrderly (w : World TransferState TransferProc) (a : ℕ × TransferAction) : Prop :=
  match w.procs a.1, a.2 with
  | .idle, .initTransfer (some (size, _)) chunkSize =>
    0 ≤ size ∧ size < 2 ^ 53 ∧ 0 < chunkSize.getD 1048576 ∧ chunkSize.getD 1048576 < 2 ^ 31
  | .initRead totalSize chunkSize _, .upsert =>
    match w.shared.session with
    | none => ceilDiv totalSize chunkSize < 2 ^ 31
    | some old => w.shared.completedCount = 0 ∧
        (old.totalSize = totalSize ∧ old.chunkSize = chunkSize ∨
          w.shared.created = true ∧ transferChunkCount totalSize chunkSize ≤ old.totalChunks)
  | .counted _ since, .writeCount => w.shared.changes = since
  | .idle, .failChunk chunkIndex _ =>
    (w.shared.chunks.any fun c => c.chunkIndex == chunkIndex && c.status == .completed) = false
  | .idle, .completeSession => w.shared.created = true
  | .initChunks .., .fail => False
  | .counting, .fail => False
  | .counted .., .fail => False
  | _, _ => True

instance (w : World TransferState TransferProc) (a : ℕ × TransferAction) :
    Decidable (callsOrderly w a) := by
  unfold callsOrderly
  split
  case h_2 => split <;> infer_instance
  all_goals infer_instance

def TransferChunk.range (c : TransferChunk) : ℤ × ℤ × ℤ :=
  (c.chunkIndex, c.byteOffset, c.byteLength)

/-- The chunks that the sizes recorded in the session call for. -/
def TransferSession.ranges (t : TransferSession) : List (ℤ × ℤ × ℤ) :=
  chunkRanges t.totalSize t.chunkSize t.totalChunks

/-- What a session promises when no call is under way. -/
structure TransferSession.Consistent (t : TransferSession) (chunks : List TransferChunk) :
    Prop where
  rows : (chunks.map (·.range)).Perm t.ranges
  length : (chunks.length : ℤ) = t.totalChunks
  tiles : Tiles 0 t.totalSize (t.ranges.map (·.2))
  count : t.completedChunks = chunks.countP fun c => c.status == .completed
  done : t.status = .completed → ∀ c ∈ chunks, c.status = .completed

section Rows
variable {s : TransferState} {t : TransferSession} {i : ℤ}

theorem hasChunk_iff : s.hasChunk i = true ↔ ∃ c ∈ s.chunks, c.chunkIndex = i := by
  simp only [TransferState.hasChunk, List.any_eq_true, beq_iff_eq]

theorem created_iff (h : s.session = some t) :
    s.created = true ↔ ∀ r ∈ t.ranges, s.hasChunk r.1 = true := by
  simp only [TransferState.created, h, Option.all_some, List.all_eq_true, List.mem_range,
    TransferSession.ranges, mem_chunkRanges]
  constructor
  · rintro hall ⟨i, r⟩ ⟨hi, hn, -⟩
    have hi' := hall i.toNat (by omega)
    rwa [Int.toNat_of_nonneg hi] at hi'
  · intro hall i hi
    exact hall ((i : ℤ), chunkAt t.totalSize t.chunkSize t.totalChunks i)
      ⟨by simp, by simp only; omega, rfl⟩

/-- What keeps its indices and ranges keeps every row in place. -/
theorem map_range_updateChunks {p : TransferChunk → Bool} {f : TransferChunk → TransferChunk}
    (hf : ∀ c, (f c).range = c.range) :
    (s.updateChunks p f).chunks.map (·.range) = s.chunks.map (·.range) := by
  simp only [TransferState.updateChunks, List.map_map]
  refine List.map_congr_left fun c _ => ?_
  simp only [Function.comp_apply]
  split
  · exact hf c
  · rfl

end Rows

/-- The rows belong to the session's plan, one per index, and a completed session has all of them
completed. -/
structure TransferSession.RowsOk (t : TransferSession) (chunks : List TransferChunk) : Prop where
  size : 0 ≤ t.totalSize
  chunkSize : 0 < t.chunkSize ∧ t.chunkSize < 2 ^ 31
  count : t.totalChunks = ceilDiv t.totalSize t.chunkSize ∧ t.totalChunks < 2 ^ 31
  rows : ∀ r ∈ chunks.map (·.range), r ∈ t.ranges
  distinct : ((chunks.map (·.range)).map (·.1)).Nodup
  done : t.status = .completed → ∀ r ∈ t.ranges, ∃ c ∈ chunks,
    c.chunkIndex = r.1 ∧ c.status = .completed

def TransferState.Ok (s : TransferState) : Prop :=
  (s.session = none → s.chunks = []) ∧ ∀ t, s.session = some t → t.RowsOk s.chunks

/-- What the steps of other calls leave in place. -/
structure TransferRely (s s' : TransferState) : Prop where
  session : ∀ t, s.session = some t → ∃ t', s'.session = some t' ∧ t'.ranges = t.ranges
  hasChunk : ∀ i, s.hasChunk i = true → s'.hasChunk i = true
  completed : ∀ c ∈ s.chunks, c.status = .completed →
    ∃ c' ∈ s'.chunks, c'.chunkIndex = c.chunkIndex ∧ c'.status = .completed
  changes : s.changes ≤ s'.changes
  count : s'.changes = s.changes → s'.completedCount = s.completedCount

/-- What a call knows between its statements. -/
def TransferOk (_ : ℕ) (l : TransferProc) (s : TransferState) : Prop :=
  match l with
  | .idle | .finished _ | .counting => True
  | .initRead totalSize chunkSize _ => 0 ≤ totalSize ∧ 0 < chunkSize ∧ chunkSize < 2 ^ 31
  | .initChunks _ totalSize chunkSize totalChunks next =>
    0 ≤ next ∧ next < totalChunks ∧ ∃ t, s.session = some t ∧ ∀ i, next ≤ i → i < totalChunks →
      s.hasChunk i = true ∨ (newChunk totalSize chunkSize totalChunks i).range ∈ t.ranges
  | .counted count since =>
    since ≤ s.changes ∧ (s.changes = since → count = s.completedCount)
  | .closing => ∃ t, s.session = some t ∧ ∀ r ∈ t.ranges, ∃ c ∈ s.chunks,
      c.chunkIndex = r.1 ∧ c.status = .completed

/-- The call will see to it that chunk `i` has a row. -/
def TransferProc.Inserting (l : TransferProc) (i : ℤ) : Prop :=
  match l with
  | .initChunks _ _ _ totalChunks next => next ≤ i ∧ i < totalChunks
  | _ => False

/-- The call has yet to write the count. -/
def TransferProc.Recounts (l : TransferProc) : Prop :=
  match l with
  | .counting | .counted .. => True
  | _ => False

/-- What one step of a call does. -/
structure TransferStepOk (p : ℕ) (s s' : TransferState) (l l' : TransferProc) : Prop where
  ok : s'.Ok
  own : TransferOk p l' s'
  rely : TransferRely s s'
  inserting : ∀ i, l.Inserting i → s'.hasChunk i = true ∨ l'.Inserting i
  opened : s.session = none → ∀ t', s'.session = some t' → ∀ r ∈ t'.ranges, l'.Inserting r.1
  count : ∀ t', s'.session = some t' → t'.completedChunks = s'.completedCount ∨ l'.Recounts ∨
    ¬ l.Recounts ∧ ∃ t, s.session = some t ∧ t'.completedChunks = t.completedChunks ∧
      s'.completedCount = s.completedCount

section Steps
variable {s s' : TransferState} {p : ℕ} {l l' : TransferProc} {t : TransferSession}

theorem TransferRely.refl (s : TransferState) : TransferRely s s :=
  ⟨fun t h => ⟨t, h, rfl⟩, fun _ h => h, fun c hc h => ⟨c, hc, rfl, h⟩, le_rfl, fun _ => rfl⟩

/-- What a call knows survives the steps of the others. -/
theorem TransferOk.rely (h : TransferOk p l s) (hrely : TransferRely s s') :
    TransferOk p l s' := by
  cases l with
  | idle | finished _ | counting => trivial
  | initRead totalSize chunkSize checksum => exact h
  | initChunks session totalSize chunkSize totalChunks next =>
    obtain ⟨hnext, hlt, t, ht, hall⟩ := h
    obtain ⟨t', ht', hranges⟩ := hrely.session t ht
    refine ⟨hnext, hlt, t', ht', fun i hi hn => ?_⟩
    rw [hranges]
    exact (hall i hi hn).imp (hrely.hasChunk i) id
  | counted count since =>
    obtain ⟨hsince, hcount⟩ := h
    refine ⟨hsince.trans hrely.changes, fun heq => ?_⟩
    have hsame : s'.changes = s.changes := le_antisymm (heq ▸ hsince) hrely.changes
    rw [hrely.count hsame]
    exact hcount (hsame ▸ heq)
  | closing =>
    obtain ⟨t, ht, hall⟩ := h
    obtain ⟨t', ht', hranges⟩ := hrely.session t ht
    refine ⟨t', ht', fun r hr => ?_⟩
    obtain ⟨c, hc, hindex, hstatus⟩ := hall r (hranges ▸ hr)
    obtain ⟨c', hc', hindex', hstatus'⟩ := hrely.completed c hc hstatus
    exact ⟨c', hc', hindex'.trans hindex, hstatus'⟩

/-- A step that reads. -/
theorem TransferStepOk.read (h : s.Ok) (hl' : TransferOk p l' s) (hl : ∀ i, ¬ l.Inserting i)
    (hcount : l.Recounts → l'.Recounts) : TransferStepOk p s s l l' where
  ok := h
  own := hl'
  rely := .refl s
  inserting i hi := (hl i hi).elim
  opened hnone t ht := by simp [hnone] at ht
  count t ht := by
    by_cases hr : l.Recounts
    · exact .inr (.inl (hcount hr))
    · exact .inr (.inr ⟨hr, t, ht, rfl, rfl⟩)

theorem hasChunk_of_ranges (h : s'.chunks.map (·.range) = s.chunks.map (·.range)) (i : ℤ) :
    s'.hasChunk i = s.hasChunk i := by
  have hany : ∀ s : TransferState,
      s.hasChunk i = (s.chunks.map (·.range)).any fun r => r.1 == i := by
    intro s
    simp only [TransferState.hasChunk, List.any_map]
    rfl
  rw [hany, hany, h]

/-- A call that updates chunk rows and leaves completed ones completed. -/
theorem TransferStepOk.update {f : TransferChunk → TransferChunk} {q : TransferChunk → Bool}
    {changes : ℕ} (h : s.Ok) (hf : ∀ c, (f c).range = c.range)
    (hdone : ∀ c ∈ s.chunks, q c = true → c.status = .completed → (f c).status = .completed)
    (hchanges : s.changes ≤ changes)
    (hsame : changes = s.changes → (s.updateChunks q f).completedCount = s.completedCount)
    (hcount : l'.Recounts ∨ changes = s.changes) (hl' : ∀ s, TransferOk p l' s) :
    TransferStepOk p s { s.updateChunks q f with changes := changes } .idle l' := by
  have hranges : (s.updateChunks q f).chunks.map (·.range) = s.chunks.map (·.range) :=
    map_range_updateChunks hf
  have hkeep : ∀ c ∈ s.chunks, c.status = .completed →
      ∃ c' ∈ (s.updateChunks q f).chunks, c'.chunkIndex = c.chunkIndex ∧
        c'.status = .completed := by
    intro c hc hstatus
    refine ⟨_, List.mem_map_of_mem hc, ?_⟩
    split
    · next hq => exact ⟨(Prod.mk.inj (hf c)).1, hdone c hc hq hstatus⟩
    · exact ⟨rfl, hstatus⟩
  refine ⟨⟨fun hnone => ?_, fun t ht => ?_⟩, hl' _,
    ⟨fun t ht => ⟨t, ht, rfl⟩, fun i hi => ?_, hkeep, hchanges, hsame⟩, fun i hi => hi.elim,
    fun hnone t ht => ?_, fun t ht => ?_⟩
  · simp [TransferState.updateChunks, h.1 hnone]
  · have hrows := h.2 t ht
    refine ⟨hrows.size, hrows.chunkSize, hrows.count, hranges ▸ hrows.rows,
      hranges ▸ hrows.distinct, fun hstatus r hr => ?_⟩
    obtain ⟨c, hc, hindex, hcompleted⟩ := hrows.done hstatus r hr
    obtain ⟨c', hc', hindex', hcompleted'⟩ := hkeep c hc hcompleted
    exact ⟨c', hc', hindex'.trans hindex, hcompleted'⟩
  · exact (hasChunk_of_ranges hranges i).trans hi
  · exact absurd (hnone.symm.trans ht) (by simp)
  · rcases hcount with hcount | hcount
    · exact .inr (.inl hcount)
    · exact .inr (.inr ⟨id, t, ht, rfl, hsame hcount⟩)

/-- A call that updates the session row. -/
theorem TransferStepOk.session {f : TransferSession → TransferSession} (h : s.Ok)
    (hl : ∀ i, ¬ l.Inserting i) (hf : ∀ t, (f t).totalSize = t.totalSize ∧
      (f t).chunkSize = t.chunkSize ∧ (f t).totalChunks = t.totalChunks)
    (hdone : ∀ t, s.session = some t → (f t).status = .completed →
      ∀ r ∈ t.ranges, ∃ c ∈ s.chunks, c.chunkIndex = r.1 ∧ c.status = .completed)
    (hcount : ∀ t, s.session = some t → (f t).completedChunks = s.completedCount ∨
      ¬ l.Recounts ∧ (f t).completedChunks = t.completedChunks)
    (hl' : ∀ s, TransferOk p l' s) :
    TransferStepOk p s (s.setSession f) l l' := by
  have hranges : ∀ t, (f t).ranges = t.ranges := by
    intro t
    obtain ⟨hsize, hchunk, hchunks⟩ := hf t
    simp only [TransferSession.ranges, hsize, hchunk, hchunks]
  refine ⟨⟨fun hnone => ?_, fun t' ht' => ?_⟩, hl' _, ⟨fun t ht => ?_, fun _ h => h,
    fun c hc h => ⟨c, hc, rfl, h⟩, le_rfl, fun _ => rfl⟩, fun i hi => (hl i hi).elim,
    fun hnone t ht => ?_, fun t' ht' => ?_⟩
  · exact h.1 (Option.map_eq_none_iff.mp hnone)
  · obtain ⟨t, ht, rfl⟩ := Option.map_eq_some_iff.mp ht'
    have hrows := h.2 t ht
    obtain ⟨hsize, hchunk, hchunks⟩ := hf t
    refine ⟨hsize ▸ hrows.size, hchunk ▸ hrows.chunkSize, ?_, ?_, hrows.distinct, ?_⟩
    · rw [hchunks, hsize, hchunk]
      exact hrows.count
    · rw [hranges]
      exact hrows.rows
    · rw [hranges]
      exact hdone t ht
  · exact ⟨f t, by simp [TransferState.setSession, ht], hranges t⟩
  · simp [TransferState.setSession, hnone] at ht
  · obtain ⟨t, ht, rfl⟩ := Option.map_eq_some_iff.mp ht'
    rcases hcount t ht with hcount | ⟨hl, hcount⟩
    · exact .inl hcount
    · exact .inr (.inr ⟨hl, t, ht, hcount, rfl⟩)

theorem newChunk_range (totalSize chunkSize : ℤ) {n i : ℤ} (hi : 0 ≤ i) (hn : i < n) :
    (newChunk totalSize chunkSize n i).range ∈ chunkRanges totalSize chunkSize n :=
  mem_chunkRanges.mpr ⟨hi, hn, rfl⟩

theorem initNext_inserting {session : TransferSession} {totalSize chunkSize n next i : ℤ}
    (hi : next ≤ i) (hn : i < n) :
    (initNext session totalSize chunkSize n next).Inserting i := by
  rw [initNext, if_pos (by omega)]
  exact ⟨hi, hn⟩

theorem transferChunkCount_eq {totalSize chunkSize : ℤ} (hsize : 0 ≤ totalSize)
    (hchunk : 0 < chunkSize) (h : ceilDiv totalSize chunkSize < 2 ^ 31) :
    transferChunkCount totalSize chunkSize = ceilDiv totalSize chunkSize := by
  have hnonneg : 0 ≤ ceilDiv totalSize chunkSize := Int.ediv_nonneg (by omega) (by omega)
  unfold transferChunkCount saturateI32
  omega

/-- The loop of `init_transfer` starts with every chunk of its plan still to come. -/
theorem initNext_ok {session : TransferSession} {totalSize chunkSize n : ℤ}
    (ht : s.session = some t) (hplan : ∀ i, 0 ≤ i → i < n →
      s.hasChunk i = true ∨ (newChunk totalSize chunkSize n i).range ∈ t.ranges) :
    TransferOk p (initNext session totalSize chunkSize n 0) s := by
  unfold initNext
  split
  · next hpos => exact ⟨le_rfl, hpos, t, ht, hplan⟩
  · trivial

/-- The session row is new. -/
theorem upsert_new_ok {new : TransferSession} {checksum : String} (h : s.Ok)
    (hs : s.session = none) (hsize : 0 ≤ new.totalSize)
    (hchunk : 0 < new.chunkSize ∧ new.chunkSize < 2 ^ 31)
    (hcount : new.totalChunks = transferChunkCount new.totalSize new.chunkSize)
    (hfits : ceilDiv new.totalSize new.chunkSize < 2 ^ 31) (hstatus : new.status ≠ .completed)
    (hzero : new.completedChunks = 0) :
    TransferStepOk p s { s with session := some new }
      (.initRead new.totalSize new.chunkSize checksum)
      (initNext new new.totalSize new.chunkSize new.totalChunks 0) := by
  have hempty := h.1 hs
  have hchunks := hcount.trans (transferChunkCount_eq hsize hchunk.1 hfits)
  refine ⟨⟨by simp, fun t ht => ?_⟩, ?_, ⟨by simp [hs], fun _ h => h,
    fun c hc h => ⟨c, hc, rfl, h⟩, le_rfl, fun _ => rfl⟩, fun i hi => hi.elim,
    fun _ t ht r hr => ?_, fun t ht => .inl ?_⟩
  · obtain rfl := Option.some.inj ht
    refine ⟨hsize, hchunk, ⟨hchunks, hchunks ▸ hfits⟩, ?_, ?_, fun hdone => absurd hdone hstatus⟩
    · simp [hempty]
    · simp [hempty]
  · exact initNext_ok rfl fun i hi hn => .inr (newChunk_range _ _ hi hn)
  · obtain rfl := Option.some.inj ht
    obtain ⟨hi, hn, -⟩ := mem_chunkRanges.mp hr
    exact initNext_inserting hi hn
  · obtain rfl := Option.some.inj ht
    simp [TransferState.completedCount, hempty, hzero]

/-- The call repeats one whose chunks it would not change. -/
theorem upsert_again_ok {old new : TransferSession} {totalSize chunkSize : ℤ} {checksum : String}
    (h : s.Ok) (hs : s.session = some old)
    (hnew : new.totalSize = old.totalSize ∧ new.chunkSize = old.chunkSize ∧
      new.totalChunks = old.totalChunks ∧ new.status ≠ .completed ∧ new.completedChunks = 0)
    (hzero : s.completedCount = 0)
    (hplan : old.totalSize = totalSize ∧ old.chunkSize = chunkSize ∨
      s.created = true ∧ transferChunkCount totalSize chunkSize ≤ old.totalChunks) :
    TransferStepOk p s { s with session := some new } (.initRead totalSize chunkSize checksum)
      (initNext new totalSize chunkSize (transferChunkCount totalSize chunkSize) 0) := by
  obtain ⟨hsize, hchunk, hchunks, hstatus, hcount⟩ := hnew
  have hrows := h.2 old hs
  have hranges : new.ranges = old.ranges := by
    simp only [TransferSession.ranges, hsize, hchunk, hchunks]
  refine ⟨⟨by simp, fun t ht => ?_⟩, ?_, ⟨fun t ht => ⟨new, rfl, ?_⟩, fun _ h => h,
    fun c hc h => ⟨c, hc, rfl, h⟩, le_rfl, fun _ => rfl⟩, fun i hi => hi.elim,
    fun hnone => by simp [hs] at hnone, fun t ht => .inl ?_⟩
  · obtain rfl := Option.some.inj ht
    refine ⟨hsize ▸ hrows.size, hchunk ▸ hrows.chunkSize, ?_, hranges ▸ hrows.rows,
      hrows.distinct, fun hdone => absurd hdone hstatus⟩
    rw [hchunks, hsize, hchunk]
    exact hrows.count
  · refine initNext_ok rfl fun i hi hn => ?_
    rcases hplan with ⟨rfl, rfl⟩ | ⟨hcreated, hfew⟩
    · right
      have hsame : transferChunkCount old.totalSize old.chunkSize = old.totalChunks :=
        (transferChunkCount_eq hrows.size hrows.chunkSize.1
          (hrows.count.1 ▸ hrows.count.2)).trans hrows.count.1.symm
      rw [hranges, TransferSession.ranges, hsame]
      exact newChunk_range _ _ hi (hsame ▸ hn)
    · left
      exact (created_iff hs).mp hcreated (newChunk old.totalSize old.chunkSize _ i).range
        (newChunk_range _ _ hi (by omega))
  · obtain rfl := Option.some.inj (hs.symm.trans ht)
    exact hranges
  · obtain rfl := Option.some.inj ht
    simp only [hcount, TransferState.completedCount] at hzero ⊢
    exact congrArg Nat.cast hzero.symm

/-- The first write of `init_transfer`. -/
theorem upsert_ok {totalSize chunkSize : ℤ} {checksum : String}
    {w : World TransferState TransferProc} (h : w.shared.Ok)
    (hp : w.procs p = .initRead totalSize chunkSize checksum)
    (hl : TransferOk p (w.procs p) w.shared) (hok : callsOrderly w (p, .upsert))
    (hstep : transferProtocol.step p w.shared (w.procs p) .upsert = some (s', l')) :
    TransferStepOk p w.shared s' (w.procs p) l' := by
  simp only [callsOrderly, hp] at hok
  rw [hp] at hl hstep ⊢
  obtain ⟨hsize, hchunk⟩ := hl
  obtain ⟨s, procs⟩ := w
  simp only at h hok hstep ⊢
  cases hstep
  cases hs : s.session with
  | none =>
    simp only [hs] at hok
    dsimp only
    refine upsert_new_ok h hs hsize hchunk rfl hok ?_ rfl
    simp
  | some old =>
    simp only [hs] at hok
    dsimp only
    exact upsert_again_ok h hs ⟨rfl, rfl, rfl, by simp, rfl⟩ hok.1 hok.2

section InsertChunk
variable {c : TransferChunk}

@[simp] theorem insertChunk_session : (s.insertChunk c).session = s.session := by
  unfold TransferState.insertChunk
  split <;> rfl

@[simp] theorem insertChunk_changes : (s.insertChunk c).changes = s.changes := by
  unfold TransferState.insertChunk
  split <;> rfl

theorem mem_insertChunk {x : TransferChunk} (hx : x ∈ s.chunks) : x ∈ (s.insertChunk c).chunks := by
  unfold TransferState.insertChunk
  split
  · exact hx
  · exact List.mem_append_left _ hx

theorem hasChunk_insertChunk {i : ℤ} (hi : s.hasChunk i = true) :
    (s.insertChunk c).hasChunk i = true := by
  obtain ⟨x, hx, hxi⟩ := hasChunk_iff.mp hi
  exact hasChunk_iff.mpr ⟨x, mem_insertChunk hx, hxi⟩

theorem hasChunk_insertChunk_self : (s.insertChunk c).hasChunk c.chunkIndex = true := by
  unfold TransferState.insertChunk
  split
  · next hhas => exact hhas
  · exact hasChunk_iff.mpr ⟨c, List.mem_append_right _ (List.mem_singleton.mpr rfl), rfl⟩

theorem completedCount_insertChunk (hc : c.status ≠ .completed) :
    (s.insertChunk c).completedCount = s.completedCount := by
  unfold TransferState.insertChunk
  split
  · rfl
  · simp [TransferState.completedCount, hc]

/-- A row of the plan, inserted where there is none, keeps the rows in order. -/
theorem TransferSession.RowsOk.insertChunk (h : t.RowsOk s.chunks)
    (hc : s.hasChunk c.chunkIndex = true ∨ c.range ∈ t.ranges) :
    t.RowsOk (s.insertChunk c).chunks := by
  refine ⟨h.size, h.chunkSize, h.count, ?_, ?_, fun hstatus r hr => ?_⟩
  · unfold TransferState.insertChunk
    split
    · exact h.rows
    · next hfresh =>
      intro r hr
      simp only [List.map_append, List.map_cons, List.map_nil, List.mem_append,
        List.mem_singleton] at hr
      rcases hr with hr | rfl
      · exact h.rows r hr
      · exact hc.resolve_left hfresh
  · unfold TransferState.insertChunk
    split
    · exact h.distinct
    · next hfresh =>
      simp only [List.map_append, List.map_cons, List.map_nil]
      refine List.nodup_append.mpr ⟨h.distinct, List.nodup_singleton _, ?_⟩
      intro i hi j hj hij
      obtain rfl := List.mem_singleton.mp hj
      simp only [List.map_map, List.mem_map, Function.comp_apply] at hi
      obtain ⟨x, hx, hxi⟩ := hi
      exact hfresh (hasChunk_iff.mpr ⟨x, hx, hxi.trans hij⟩)
  · obtain ⟨x, hx, hxr⟩ := h.done hstatus r hr
    exact ⟨x, mem_insertChunk hx, hxr⟩

end InsertChunk

/-- One round of the loop of `init_transfer`. -/
theorem insertChunk_ok {session : TransferSession} {totalSize chunkSize n next : ℤ} (h : s.Ok)
    (hl : TransferOk p (.initChunks session totalSize chunkSize n next) s) :
    TransferStepOk p s (s.insertChunk (newChunk totalSize chunkSize n next))
      (.initChunks session totalSize chunkSize n next)
      (initNext session totalSize chunkSize n (next + 1)) := by
  obtain ⟨hnext, hlt, t, ht, hall⟩ := hl
  have hcount : (s.insertChunk (newChunk totalSize chunkSize n next)).completedCount =
      s.completedCount := completedCount_insertChunk (by simp [newChunk])
  refine ⟨⟨fun hnone => by simp [ht] at hnone, fun t' ht' => ?_⟩, ?_,
    ⟨fun t' ht' => ⟨t', insertChunk_session.trans ht', rfl⟩, fun i => hasChunk_insertChunk,
      fun x hx hstatus => ⟨x, mem_insertChunk hx, rfl, hstatus⟩, insertChunk_changes.ge,
      fun _ => hcount⟩,
    fun i hi => ?_, fun hnone => by simp [ht] at hnone, fun t' ht' => ?_⟩
  · rw [insertChunk_session] at ht'
    obtain rfl := Option.some.inj (ht.symm.trans ht')
    exact (h.2 t ht).insertChunk (hall next le_rfl hlt)
  · unfold initNext
    split
    · next hmore =>
      refine ⟨by omega, hmore, t, insertChunk_session.trans ht, fun i hi hn => ?_⟩
      exact (hall i (by omega) hn).imp hasChunk_insertChunk id
    · trivial
  · obtain ⟨hi, hn⟩ := hi
    rcases hi.eq_or_lt with rfl | hlt'
    · exact .inl hasChunk_insertChunk_self
    · exact .inr (initNext_inserting (by omega) hn)
  · exact .inr (.inr ⟨id, t', insertChunk_session.symm.trans ht', rfl, hcount⟩)

theorem idle_completeChunk_ok {chunkIndex : ℤ} {checksum : String} {sourcePeerId : Option Uuid}
    (h : s.Ok) (hs : s.completeChunk chunkIndex checksum sourcePeerId = some s') :
    TransferStepOk p s s' .idle .counting := by
  simp only [TransferState.completeChunk] at hs
  split at hs
  · cases hs
    exact .update h (fun _ => rfl) (fun _ _ _ _ => rfl) (Nat.le_succ _) (by omega)
      (.inl trivial) fun _ => trivial
  · cases hs

theorem idle_failChunk_ok {chunkIndex : ℤ} {error : String}
    {r : Except AppError (Option TransferSession)} (h : s.Ok)
    (hok : (s.chunks.any fun c => c.chunkIndex == chunkIndex && c.status == .completed) = false) :
    TransferStepOk p s (s.failChunk chunkIndex error) .idle (.finished r) := by
  have hnone : ∀ c ∈ s.chunks, c.chunkIndex = chunkIndex → c.status ≠ .completed := by
    simpa using hok
  have hchanges : (s.failChunk chunkIndex error).changes = s.changes := by
    simp only [TransferState.failChunk, hok, Bool.false_eq_true, if_false]
  unfold TransferState.failChunk at hchanges ⊢
  refine .update h (fun _ => rfl) ?_ hchanges.ge (fun _ => ?_) (.inr hchanges) fun _ => trivial
  · intro c hc hindex hstatus
    exact absurd hstatus (hnone c hc (by simpa using hindex))
  · simp only [TransferState.completedCount, TransferState.updateChunks, List.countP_map]
    refine List.countP_congr fun c hc => ?_
    simp only [Function.comp_apply, beq_iff_eq]
    split
    · next hindex => simp [hnone c hc hindex]
    · exact Iff.rfl

theorem idle_retryChunk_ok {chunkIndex : ℤ} {r : Except AppError (Option TransferSession)}
    (h : s.Ok) : TransferStepOk p s (s.retryChunk chunkIndex) .idle (.finished r) := by
  refine .update h (fun _ => rfl) ?_ (le_refl s.changes) (fun _ => ?_) (.inr rfl)
    fun _ => trivial
  · intro c _ hfailed hstatus
    simp [hstatus] at hfailed
  · simp only [TransferState.completedCount, TransferState.updateChunks, List.countP_map]
    refine List.countP_congr fun c hc => ?_
    simp only [Function.comp_apply, beq_iff_eq, Bool.and_eq_true]
    split
    · next hfailed => simp [hfailed.2]
    · exact Iff.rfl

/-- With every row in place and none unfinished, every chunk of the plan is completed. -/
theorem closing_ok (hcreated : s.created = true) (hs : s.session.isSome = true)
    (hpending : s.chunks.countP (fun c => c.status != .completed) = 0) :
    TransferOk p .closing s := by
  obtain ⟨t, ht⟩ := Option.isSome_iff_exists.mp hs
  refine ⟨t, ht, fun r hr => ?_⟩
  obtain ⟨c, hc, hindex⟩ := hasChunk_iff.mp ((created_iff ht).mp hcreated r hr)
  refine ⟨c, hc, hindex, ?_⟩
  simpa using List.countP_eq_zero.mp hpending c hc

theorem transfer_idle_ok {w : World TransferState TransferProc} {a : TransferAction}
    (h : w.shared.Ok) (hp : w.procs p = .idle) (hok : callsOrderly w (p, a))
    (hstep : transferProtocol.step p w.shared .idle a = some (s', l')) :
    TransferStepOk p w.shared s' .idle l' := by
  cases a
  case initTransfer artifact chunkSize =>
    cases hstep
    refine .read h ?_ (fun _ => id) False.elim
    cases artifact with
    | none => trivial
    | some artifact =>
      simp only [callsOrderly, hp] at hok
      exact ⟨hok.1, hok.2.2⟩
  case completeChunk chunkIndex checksum sourcePeerId =>
    obtain ⟨-, hstep⟩ := Option.ite_none_right_eq_some.mp hstep
    split at hstep
    · cases hstep
      exact .read h trivial (fun _ => id) False.elim
    · next s'' hs =>
      cases hstep
      exact idle_completeChunk_ok h hs
  case failChunk chunkIndex error =>
    simp only [callsOrderly, hp] at hok
    obtain ⟨-, heq⟩ := Option.ite_none_right_eq_some.mp hstep
    cases heq
    exact idle_failChunk_ok h hok
  case retryChunk chunkIndex =>
    obtain ⟨-, heq⟩ := Option.ite_none_right_eq_some.mp hstep
    cases heq
    exact idle_retryChunk_ok h
  case completeSession =>
    simp only [callsOrderly, hp] at hok
    obtain ⟨hs, heq⟩ := Option.ite_none_right_eq_some.mp hstep
    cases heq
    refine .read h ?_ (fun _ => id) False.elim
    split
    · trivial
    · exact closing_ok hok hs (by omega)
  case failSession error =>
    obtain ⟨-, heq⟩ := Option.ite_none_right_eq_some.mp hstep
    cases heq
    exact .session h (fun _ => id) (fun _ => ⟨rfl, rfl, rfl⟩) (fun t ht hstatus => by cases hstatus)
      (fun t ht => .inr ⟨id, rfl⟩) fun _ => trivial
  all_goals cases hstep

/-- Every step that meets the conditions keeps the rows in order and what every call knows. -/
theorem transferCall_ok {w : World TransferState TransferProc} {a : TransferAction}
    (h : w.shared.Ok) (hl : TransferOk p (w.procs p) w.shared) (hok : callsOrderly w (p, a))
    (hstep : transferProtocol.step p w.shared (w.procs p) a = some (s', l')) :
    TransferStepOk p w.shared s' (w.procs p) l' := by
  cases hp : w.procs p with
  | idle => exact transfer_idle_ok h hp hok (hp ▸ hstep)
  | initRead totalSize chunkSize checksum =>
    cases a
    case upsert => exact hp ▸ upsert_ok h hp hl hok hstep
    case fail =>
      rw [hp] at hstep
      cases hstep
      exact .read h trivial (fun _ => id) False.elim
    all_goals
      rw [hp] at hstep
      cases hstep
  | initChunks session totalSize chunkSize totalChunks next =>
    rw [hp] at hstep hl
    cases a
    case insertChunk =>
      cases hstep
      exact insertChunk_ok h hl
    case fail => simp only [callsOrderly, hp] at hok
    all_goals cases hstep
  | counting =>
    rw [hp] at hstep
    cases a
    case snapshot =>
      cases hstep
      exact .read h ⟨le_rfl, fun _ => rfl⟩ (fun _ => id) fun _ => trivial
    case fail => simp only [callsOrderly, hp] at hok
    all_goals cases hstep
  | counted count since =>
    rw [hp] at hstep hl
    cases a
    case writeCount =>
      simp only [callsOrderly, hp] at hok
      cases hstep
      refine .session h (fun _ => id) (fun _ => ⟨rfl, rfl, rfl⟩)
        (fun t ht => (h.2 t ht).done) (fun t ht => .inl ?_) fun _ => trivial
      rw [← hl.2 hok]
    case fail => simp only [callsOrderly, hp] at hok
    all_goals cases hstep
  | closing =>
    rw [hp] at hstep hl
    cases a
    case close =>
      cases hstep
      refine .session h (fun _ => id) (fun _ => ⟨rfl, rfl, rfl⟩) (fun t ht _ => ?_)
        (fun t ht => .inr ⟨id, rfl⟩) fun _ => trivial
      obtain ⟨t', ht', hall⟩ := hl
      obtain rfl := Option.some.inj (ht.symm.trans ht')
      exact hall
    case fail =>
      cases hstep
      exact .read h trivial (fun _ => id) False.elim
    all_goals cases hstep
  | finished r =>
    rw [hp] at hstep
    cases a <;> cases hstep

end Steps

/-- No call is between its statements. -/
def TransferQuiescent (w : World TransferState TransferProc) : Prop :=
  ∀ p, w.procs p = .idle ∨ ∃ r, w.procs p = .finished r

/-- Before the first call. -/
def noTransfer : World TransferState TransferProc := ⟨⟨none, [], 0⟩, fun _ => .idle⟩

/-- What a missing row or a stale count waits for. -/
structure TransferPending (w : World TransferState TransferProc) : Prop where
  rows : ∀ t, w.shared.session = some t → ∀ r ∈ t.ranges,
    w.shared.hasChunk r.1 = true ∨ ∃ p, (w.procs p).Inserting r.1
  count : ∀ t, w.shared.session = some t →
    t.completedChunks = w.shared.completedCount ∨ ∃ p, (w.procs p).Recounts

theorem transfer_ok_of_reach {w : World TransferState TransferProc}
    (h : transferProtocol.machine.Reach callsOrderly noTransfer w) :
    w.shared.Ok ∧ ∀ p, TransferOk p (w.procs p) w.shared := by
  refine Protocol.reach_rely_guarantee (I := TransferState.Ok) (A := TransferOk) h
    ⟨fun _ => rfl, fun t ht => by cases ht⟩ (fun _ => trivial) ?_
  intro w p a s' l' hok hprocs hguard hstep
  have hstep' := transferCall_ok hok (hprocs p) hguard hstep
  exact ⟨hstep'.ok, hstep'.own, fun q _ => (hprocs q).rely hstep'.rely⟩

/-- One step leaves every missing row and every stale count to a call that will see to it. -/
theorem TransferPending.step {w : World TransferState TransferProc} {p : ℕ} {s' : TransferState}
    {l' : TransferProc} (h : TransferPending w)
    (hstep : TransferStepOk p w.shared s' (w.procs p) l') :
    TransferPending ⟨s', Function.update w.procs p l'⟩ := by
  constructor
  · intro t' ht' r hr
    cases hs : w.shared.session with
    | none =>
      refine .inr ⟨p, ?_⟩
      simpa only [Function.update_self] using hstep.opened hs t' ht' r hr
    | some t =>
      obtain ⟨t'', ht'', hranges⟩ := hstep.rely.session t hs
      obtain rfl : t' = t'' := Option.some.inj (ht'.symm.trans ht'')
      rcases h.rows t hs r (hranges ▸ hr) with hhas | ⟨q, hq⟩
      · exact .inl (hstep.rely.hasChunk _ hhas)
      by_cases hqp : q = p
      · subst hqp
        refine (hstep.inserting _ hq).imp id fun hl' => ⟨q, ?_⟩
        simpa only [Function.update_self] using hl'
      · exact .inr ⟨q, by simpa only [Function.update_of_ne hqp] using hq⟩
  · intro t' ht'
    rcases hstep.count t' ht' with hcount | hrecounts | ⟨hidle, t, ht, hsame, hcount⟩
    · exact .inl hcount
    · exact .inr ⟨p, by simpa only [Function.update_self] using hrecounts⟩
    · rcases h.count t ht with hold | ⟨q, hq⟩
      · left
        simp only [hsame, hold, hcount]
      · have hqp : q ≠ p := by
          rintro rfl
          exact hidle hq
        exact .inr ⟨q, by simpa only [Function.update_of_ne hqp] using hq⟩

theorem transfer_pending_of_reach {w : World TransferState TransferProc}
    (h : transferProtocol.machine.Reach callsOrderly noTransfer w) : TransferPending w := by
  have hstrong := h.strengthen fun t ht => transfer_ok_of_reach ht
  refine hstrong.invariant (by constructor <;> intro t ht <;> cases ht) ?_
  rintro w ⟨p, a⟩ w' hw ⟨hguard, hok, hprocs⟩ hstep
  obtain ⟨s', l', hr, rfl⟩ := Protocol.machine_step hstep
  exact hw.step (transferCall_ok hok (hprocs p) hguard hr)

/-- Rows of the plan, one per index and none missing, are the plan. -/
theorem TransferSession.RowsOk.consistent {t : TransferSession} {s : TransferState}
    (h : t.RowsOk s.chunks) (hall : ∀ r ∈ t.ranges, s.hasChunk r.1 = true)
    (hcount : t.completedChunks = s.completedCount) : t.Consistent s.chunks := by
  have hperm : (s.chunks.map (·.range)).Perm t.ranges := by
    refine (List.perm_ext_iff_of_nodup h.distinct.of_map nodup_chunkRanges).mpr fun r => ?_
    refine ⟨h.rows r, fun hr => ?_⟩
    obtain ⟨c, hc, hindex⟩ := hasChunk_iff.mp (hall r hr)
    have hmem : c.range ∈ s.chunks.map (·.range) := List.mem_map_of_mem hc
    obtain ⟨-, -, hchunk⟩ := mem_chunkRanges.mp (h.rows _ hmem)
    obtain ⟨-, -, hr'⟩ := mem_chunkRanges.mp hr
    have heq : c.range = r := Prod.ext hindex (by rw [hchunk, hr']; exact congrArg _ hindex)
    exact heq ▸ hmem
  refine ⟨hperm, ?_, ?_, hcount, fun hstatus c hc => ?_⟩
  · have hlength := hperm.length_eq
    rw [List.length_map, TransferSession.ranges, length_chunkRanges] at hlength
    have hnonneg : 0 ≤ t.totalChunks := by
      rw [h.count.1]
      exact Int.ediv_nonneg (by linarith [h.size, h.chunkSize.1]) h.chunkSize.1.le
    omega
  · unfold TransferSession.ranges
    rw [h.count.1]
    exact tiles_chunkRanges h.size h.chunkSize.1 h.chunkSize.2
  · have hmem : c.range ∈ s.chunks.map (·.range) := List.mem_map_of_mem hc
    obtain ⟨c', hc', hindex, hcompleted⟩ := h.done hstatus _ (h.rows _ hmem)
    have hdistinct := h.distinct
    rw [List.map_map] at hdistinct
    have heq : c' = c := List.inj_on_of_nodup_map hdistinct hc' hc hindex
    exact heq ▸ hcompleted

/-- When the conditions hold at every step, a session is consistent whenever no call is under
way. -/
theorem transfer_session_consistent (w : World TransferState TransferProc)
    (h : transferProtocol.machine.Reach callsOrderly noTransfer w) (hquiet : TransferQuiescent w)
    (t : TransferSession) (ht : w.shared.session = some t) : t.Consistent w.shared.chunks := by
  have hpending := transfer_pending_of_reach h
  have hquiet' : ∀ p, (∀ i, ¬ (w.procs p).Inserting i) ∧ ¬ (w.procs p).Recounts := by
    intro p
    rcases hquiet p with hp | ⟨r, hp⟩
    · rw [hp]
      exact ⟨fun _ => id, id⟩
    · rw [hp]
      exact ⟨fun _ => id, id⟩
  refine ((transfer_ok_of_reach h).1.2 t ht).consistent (fun r hr => ?_) ?_
  · rcases hpending.rows t ht r hr with hhas | ⟨p, hp⟩
    · exact hhas
    · exact ((hquiet' p).1 _ hp).elim
  · rcases hpending.count t ht with hcount | ⟨p, hp⟩
    · exact hcount
    · exact ((hquiet' p).2 hp).elim

section Runs

/-- The whole of an `init_transfer` that inserts `rows` chunk rows. -/
def initCall (p : ℕ) (size chunkSize : ℤ) (rows : ℕ) : List (ℕ × TransferAction) :=
  (p, .initTransfer (some (size, "")) (some chunkSize)) :: (p, .upsert) ::
    List.replicate rows (p, .insertChunk)

def completeCall (p : ℕ) (chunkIndex : ℤ) : List (ℕ × TransferAction) :=
  [(p, .completeChunk chunkIndex "" none), (p, .snapshot), (p, .writeCount)]

/-- The first calls ran to their end and no other call began. -/
theorem quiescent_of_run (labels : List (ℕ × TransferAction)) (n : ℕ)
    {w : World TransferState TransferProc}
    (h : transferProtocol.machine.run noTransfer labels = some w)
    (hlabels : ∀ a ∈ labels, a.1 < n) (hdone : ∀ p < n, ∃ r, w.procs p = .finished r) :
    TransferQuiescent w := by
  intro p
  by_cases hp : p < n
  · exact .inr (hdone p hp)
  · refine .inl (Protocol.procs_of_run h fun a ha hap => hp ?_)
    exact hap ▸ hlabels a ha

def reinitCalls : List (ℕ × TransferAction) :=
  initCall 0 10 10 1 ++ completeCall 1 0 ++ initCall 2 10 10 1

/-- A repeated `init_transfer` after the only chunk was completed: the counter is back at 0, the row
is still completed. -/
theorem reinit_forgets_completed_chunk :
    ∃ w t, transferProtocol.machine.Reach Machine.anyStep noTransfer w ∧ TransferQuiescent w ∧
      w.shared.session = some t ∧ t.completedChunks = 0 ∧ w.shared.completedCount = 1 ∧
      ¬ t.Consistent w.shared.chunks := by
  refine ⟨_, _, Machine.reach_of_run reinitCalls rfl ?_,
    quiescent_of_run reinitCalls 3 rfl (by decide) ?_, rfl, rfl, rfl,
    fun hcons => ?_⟩
  · repeat' constructor
  · intro p hp
    interval_cases p <;> exact ⟨_, rfl⟩
  · exact absurd hcons.count (by decide)

/-- Three chunks, one of them failed and retried, completed one after the other. -/
def threeChunkCalls : List (ℕ × TransferAction) :=
  initCall 0 10 4 3 ++ [(1, .failChunk 1 "timeout"), (2, .retryChunk 1)] ++ completeCall 3 0 ++
    completeCall 4 1 ++ completeCall 5 2 ++ [(6, .completeSession), (6, .close)]

theorem transfer_session_consistent_of_three_chunks :
    ∃ w t, transferProtocol.machine.run noTransfer threeChunkCalls = some w ∧
      w.shared.session = some t ∧ t.status = .completed ∧ t.completedChunks = 3 ∧
      t.Consistent w.shared.chunks := by
  have hmeets : transferProtocol.machine.Meets callsOrderly noTransfer threeChunkCalls := by decide
  refine ⟨_, _, rfl, rfl, rfl, rfl,
    transfer_session_consistent _ (Machine.reach_of_run _ rfl hmeets)
    (quiescent_of_run threeChunkCalls 7 rfl (by decide) ?_) _ rfl⟩
  intro p hp
  interval_cases p <;> exact ⟨_, rfl⟩

end Runs

end ArtifactKeeper.Sync
