import ArtifactKeeper.Sync.Worker
import ArtifactKeeper.Sync.UploadSession

/-! The chunk plan of a replication: the sender's ranges against the rows of the receiver's session.
Sizes are below `2 ^ 53`, where the sender's floating-point quotient rounds up exactly. -/

namespace ArtifactKeeper.Sync
open Chunking

def shouldUseChunkedTransfer (artifactSize threshold : ℤ) : Bool :=
  decide (threshold ≤ artifactSize)

def shouldUseChunkedTransferForTask (task : TaskRow) (threshold : ℤ) : Bool :=
  shouldUseChunkedTransfer task.artifact.sizeBytes threshold || task.hasReplicationMetadata

/-- The number of chunks is a `f64` quotient rounded up and converted with saturation. -/
def computeChunkRanges (totalSize chunkSize : ℤ) : List (ℤ × ℤ × ℤ) :=
  if totalSize ≤ 0 ∨ chunkSize ≤ 0 then []
  else chunkRanges totalSize chunkSize (saturateI32 (ceilDiv totalSize chunkSize))

def buildContentRange (byteOffset byteLength totalSize : ℤ) : String :=
  "bytes " ++ toString byteOffset ++ "-" ++ toString (byteOffset + byteLength - 1) ++ "/" ++
    toString totalSize

/-- The PATCH requests of `execute_chunked_transfer`; `now` is the receiver's clock at each. -/
def sendChunks (now : ℤ → ℤ) (size : ℤ) (ranges : List (ℤ × ℤ × ℤ)) (s : UploadSession) :
    Except PatchError UploadSession :=
  ranges.foldlM (fun s r => s.patch (now r.1) (buildContentRange r.2.1 r.2.2 size) r.2.2) s

/-- The sender's ranges are the receiver's rows, each header is read as it was written and selects
the row of its own index, and the requests complete every row. -/
structure PlanAgrees (size chunkSize : ℤ) (s : UploadSession) : Prop where
  rows : s.chunks.map (fun c => (c.chunkIndex, c.byteOffset, c.byteLength)) =
    computeChunkRanges size chunkSize
  header : ∀ r ∈ computeChunkRanges size chunkSize,
    parseContentRange (buildContentRange r.2.1 r.2.2 size) = .ok (r.2.1, r.2.1 + r.2.2 - 1, size)
  index : ∀ r ∈ computeChunkRanges size chunkSize, asI32 (r.2.1.tdiv s.chunkSize) = r.1
  complete : ∀ now, ∃ s', sendChunks now size (computeChunkRanges size chunkSize) s = .ok s' ∧
    ∀ c ∈ s'.chunks, c.status = .completed

/-- If the receiver opens the session the plans agree, and it opens one within its limit. -/
def TransferAgrees (size : ℤ) (maxUploadSize : ℕ) (chunkSize : ℤ) : Prop :=
  (∀ s, createSession size maxUploadSize (some chunkSize) = .ok s →
      PlanAgrees size chunkSize s) ∧
    (withinLimit size maxUploadSize →
      ∃ s, createSession size maxUploadSize (some chunkSize) = .ok s)

section Plan
variable {size chunkSize : ℤ} {maxUploadSize : ℕ}

def openedSession (size chunkSize : ℤ) : UploadSession := (openSession size chunkSize).value

/-- The session whose count and rows are those of exact arithmetic, but for the cut of the count. -/
def plannedSession (size chunkSize : ℤ) : UploadSession where
  totalSize := size
  chunkSize := chunkSize
  totalChunks := asI32 (ceilDiv size chunkSize)
  completedChunks := 0
  bytesReceived := 0
  status := .pending
  chunks := (chunkRanges size chunkSize (asI32 (ceilDiv size chunkSize))).map fun r =>
    ⟨r.1, r.2.1, r.2.2, .pending⟩

theorem asI64_pred (x : ℤ) : asI64 (asI64 x - 1) = asI64 (x - 1) := by
  unfold asI64
  omega

theorem countChunks_value (size chunkSize : ℤ) : (countChunks size chunkSize).value =
    asI32 ((asI64 (size + chunkSize - 1)).tdiv chunkSize) := by
  simp [countChunks, i64, i32, asI64_pred]

theorem countChunks_eq (hsize : 0 < size) (hchunk : 0 < chunkSize)
    (hwrap : size + chunkSize < 2 ^ 63) :
    (countChunks size chunkSize).value = asI32 (ceilDiv size chunkSize) := by
  rw [countChunks_value, asI64_of_lt (by omega) (by omega), Int.tdiv_eq_ediv_of_nonneg (by omega)]
  rfl

theorem chunkRow_index (size chunkSize n i : ℤ) : (chunkRow size chunkSize n i).value.1 = i := by
  unfold chunkRow
  simp only [Traced.bind_value]
  split <;> rfl

/-- Without a wrap the row of a chunk is its range. -/
theorem chunkRow_value {n i : ℤ} (hsize : 0 < size) (hwrap : size + chunkSize < 2 ^ 63)
    (hchunk : 0 < chunkSize) (hmax : chunkSize ≤ maxChunkSize) (hn : n < 2 ^ 31) (hi : 0 ≤ i)
    (hi' : i < n) :
    (chunkRow size chunkSize n i).value = (i, chunkAt size chunkSize n i) := by
  have hmax : chunkSize ≤ 268435456 := hmax
  have hoffset : i * chunkSize < 2 ^ 59 := by nlinarith
  have hoffset' : 0 ≤ i * chunkSize := Int.mul_nonneg hi hchunk.le
  unfold chunkRow chunkAt
  rw [i64_eq (by omega) (by omega), i32_eq (by omega) (by omega)]
  by_cases hlast : i = n - 1
  · simp only [bind, pure, if_pos hlast]
    rw [i64_eq (by omega) (by omega)]
    rfl
  · simp only [bind, pure, if_neg hlast]

theorem insertedRows_value {n : ℤ} (hsize : 0 < size) (hwrap : size + chunkSize < 2 ^ 63)
    (hchunk : 0 < chunkSize) (hmax : chunkSize ≤ maxChunkSize) (hn : n < 2 ^ 31) :
    (insertedRows size chunkSize n).value = chunkRanges size chunkSize n := by
  refine List.map_congr_left fun i hi => chunkRow_value hsize hwrap hchunk hmax hn (by omega) ?_
  rw [List.mem_range] at hi
  omega

theorem openedSession_eq (hsize : 0 < size) (hmin : minChunkSize ≤ chunkSize)
    (hmax : chunkSize ≤ maxChunkSize) (hwrap : size + chunkSize < 2 ^ 63) :
    openedSession size chunkSize = plannedSession size chunkSize := by
  have hchunk : 0 < chunkSize := lt_of_lt_of_le (by decide) hmin
  simp only [openedSession, openSession, plannedSession, Traced.bind_value, Traced.pure_value,
    countChunks_eq hsize hchunk hwrap,
    insertedRows_value hsize hwrap hchunk hmax (asI32_lt (ceilDiv size chunkSize))]

theorem createSessionTraced_iff {t : Traced UploadSession} :
    createSessionTraced size maxUploadSize (some chunkSize) = .ok t ↔
      0 < size ∧ withinLimit size maxUploadSize ∧ minChunkSize ≤ chunkSize ∧
        chunkSize ≤ maxChunkSize ∧ t = openSession size chunkSize := by
  unfold createSessionTraced enforceMaxTotalSize withinLimit
  by_cases hsize : size ≤ 0
  · simp [hsize, not_lt.mpr hsize]
  by_cases hmax : maxUploadSize ≠ 0 ∧ (maxUploadSize : ℤ) < size
  · simp [hsize, hmax, not_le.mpr hmax.2]
  by_cases hchunk : chunkSize < minChunkSize ∨ maxChunkSize < chunkSize
  · have hout : ¬ (minChunkSize ≤ chunkSize ∧ chunkSize ≤ maxChunkSize) := by
      rintro ⟨hlo, hhi⟩
      rcases hchunk with h | h <;> omega
    simp only [hsize, hmax, Option.getD_some, if_pos hchunk, if_false]
    constructor
    · rintro ⟨⟩
    · rintro ⟨-, -, hlo, hhi, -⟩
      exact (hout ⟨hlo, hhi⟩).elim
  · have hlimit : maxUploadSize = 0 ∨ size ≤ maxUploadSize := by
      by_contra hcon
      push Not at hcon
      exact hmax hcon
    push Not at hchunk
    simp [hsize, hmax, not_lt.mpr hchunk.1, not_lt.mpr hchunk.2, not_le.mp hsize, hlimit, hchunk.1,
      hchunk.2, eq_comm]

theorem createSession_iff {s : UploadSession} :
    createSession size maxUploadSize (some chunkSize) = .ok s ↔
      0 < size ∧ withinLimit size maxUploadSize ∧ minChunkSize ≤ chunkSize ∧
        chunkSize ≤ maxChunkSize ∧ s = openedSession size chunkSize := by
  rw [createSession, Except.map_eq_ok_iff]
  constructor
  · rintro ⟨t, ht, rfl⟩
    obtain ⟨hsize, hlimit, hmin, hmax, rfl⟩ := createSessionTraced_iff.mp ht
    exact ⟨hsize, hlimit, hmin, hmax, rfl⟩
  · rintro ⟨hsize, hlimit, hmin, hmax, rfl⟩
    exact ⟨_, createSessionTraced_iff.mpr ⟨hsize, hlimit, hmin, hmax, rfl⟩, rfl⟩

/-- Rows and ranges agree where both counts do, and only there. -/
theorem chunkRanges_eq_iff {n m : ℤ} (hn : 0 ≤ n) :
    chunkRanges size chunkSize m = chunkRanges size chunkSize n ↔ m = n ∨ m ≤ 0 ∧ n = 0 := by
  constructor
  · intro h
    have hlength := congrArg List.length h
    simp only [length_chunkRanges] at hlength
    omega
  · rintro (rfl | ⟨hm, rfl⟩)
    · rfl
    · have hzero : m.toNat = 0 := by omega
      simp [chunkRanges, hzero]

/-- The number of chunks is one that both sides convert alike: below `2 ^ 31`, or the one count
that truncates to the largest `i32`. -/
def CountAgrees (size chunkSize : ℤ) : Prop :=
  ceilDiv size chunkSize < 2 ^ 31 ∨ ceilDiv size chunkSize = 2 ^ 32 + 2 ^ 31 - 1

theorem ceilDiv_le (hsize : size < 2 ^ 53) (hchunk : minChunkSize ≤ chunkSize) :
    ceilDiv size chunkSize ≤ 2 ^ 33 := by
  have hpos : 0 < chunkSize := lt_of_lt_of_le (by decide) hchunk
  have hmin : (1048576 : ℤ) ≤ chunkSize := hchunk
  refine Int.lt_add_one_iff.mp ((Int.ediv_lt_iff_lt_mul hpos).mpr ?_)
  nlinarith

theorem countAgrees_iff (hsize : 0 < size) (hsize' : size < 2 ^ 53)
    (hchunk : minChunkSize ≤ chunkSize) :
    asI32 (ceilDiv size chunkSize) = saturateI32 (ceilDiv size chunkSize) ↔
      CountAgrees size chunkSize := by
  have hpos := ceilDiv_pos hsize (lt_of_lt_of_le (by decide) hchunk : (0 : ℤ) < chunkSize)
  have hle := ceilDiv_le hsize' hchunk
  unfold CountAgrees asI32 saturateI32
  omega

theorem buildContentRange_parses {offset length total : ℤ} (hoffset : 0 ≤ offset)
    (hlength : 0 < length) (hle : offset + length ≤ total) (htotal : total < 2 ^ 63) :
    parseContentRange (buildContentRange offset length total) =
      .ok (offset, offset + length - 1, total) :=
  parseContentRange_format hoffset (by omega) (by omega) htotal

/-- The last of the ranges is cut right even where the count was truncated. -/
theorem asI32_rest (hsize : 0 < size) (hchunk : 0 < chunkSize) (hchunk' : chunkSize < 2 ^ 31)
    (hcount : CountAgrees size chunkSize) :
    asI32 (size - (saturateI32 (ceilDiv size chunkSize) - 1) * chunkSize) =
      lastLength size chunkSize := by
  have hcut := asI32_lastLength size hchunk hchunk'
  have hpos := ceilDiv_pos hsize hchunk
  rcases hcount with hlt | heq
  · have hsat : saturateI32 (ceilDiv size chunkSize) = ceilDiv size chunkSize := by
      unfold saturateI32
      omega
    rw [hsat, hcut]
  · have hsat : saturateI32 (ceilDiv size chunkSize) = 2 ^ 31 - 1 := by
      rw [heq]
      rfl
    have hrest : size - (2 ^ 31 - 1 - 1) * chunkSize = 2 ^ 32 * chunkSize +
        (size - (ceilDiv size chunkSize - 1) * chunkSize) := by
      rw [heq]
      ring
    rw [hsat, hrest, asI32_add_words, hcut]

/-- The rows of a session of which the first `k` chunks were sent. -/
structure Sent (size chunkSize m : ℤ) (k : ℕ) (s : UploadSession) : Prop where
  size_eq : s.chunkSize = chunkSize
  status : s.status = .pending ∨ s.status = .inProgress
  chunks : s.chunks = (chunkRanges size chunkSize m).map fun r =>
    ⟨r.1, r.2.1, r.2.2, if r.1 < k then .completed else .pending⟩

/-- The next PATCH is accepted and completes the row of its index. -/
theorem Sent.patch {m : ℤ} {k : ℕ} {s : UploadSession} (h : Sent size chunkSize m k s)
    (hchunk : 0 < chunkSize) (hm : m < 2 ^ 31) (hk : (k : ℤ) < m) (hsize : size < 2 ^ 63)
    (hlen : 0 < (chunkAt size chunkSize m k).2)
    (hle : (chunkAt size chunkSize m k).1 + (chunkAt size chunkSize m k).2 ≤ size) (now : ℤ) :
    ∃ s', s.patch now (buildContentRange (chunkAt size chunkSize m k).1
        (chunkAt size chunkSize m k).2 size) (chunkAt size chunkSize m k).2 = .ok s' ∧
      Sent size chunkSize m (k + 1) s' := by
  set offset := (chunkAt size chunkSize m k).1 with hoffset
  set length := (chunkAt size chunkSize m k).2 with hlength
  have hmul : offset = k * chunkSize := rfl
  have hnonneg : 0 ≤ offset := by
    rw [hmul]
    positivity
  have hindex : asI32 (offset.tdiv s.chunkSize) = k := by
    rw [h.size_eq, hmul, Int.mul_tdiv_cancel _ hchunk.ne']
    exact asI32_of_lt (by omega) (by omega)
  -- the row of index `k` is there and pending
  have hfind : ∃ c ∈ s.chunks.find? fun c => c.chunkIndex == (k : ℤ), c.status = .pending := by
    cases hf : s.chunks.find? fun c => c.chunkIndex == (k : ℤ) with
    | none =>
      have hrow := List.find?_eq_none.mp hf ⟨k, offset, length, .pending⟩ (by
        rw [h.chunks]
        refine List.mem_map.mpr ⟨(k, chunkAt size chunkSize m k), ?_, by simp [offset, length]⟩
        exact mem_chunkRanges.mpr ⟨by simp, hk, rfl⟩)
      simp at hrow
    | some c =>
      have hc := List.mem_of_find?_eq_some hf
      have hkey := List.find?_some hf
      rw [h.chunks] at hc
      obtain ⟨r, -, rfl⟩ := List.mem_map.mp hc
      simp only [beq_iff_eq] at hkey
      exact ⟨_, rfl, by simp [hkey]⟩
  obtain ⟨c, hc, hpending⟩ := hfind
  refine ⟨s.completeChunk k length, ?_, ?_⟩
  · have hstatus : ¬ (s.status = .completed ∨ s.status = .cancelled) := by
      rcases h.status with hs | hs <;> simp [hs]
    have hservice : s.uploadChunk now k length = .ok (s.completeChunk k length) := by
      unfold UploadSession.uploadChunk
      rw [if_neg hstatus, hc]
      simp only [hpending]
    have hexpected : offset + length - 1 - offset + 1 = length := by ring
    unfold UploadSession.patch
    simp [buildContentRange_parses hnonneg hlen hle hsize, hindex, hservice, hexpected,
      Except.mapError]
  · refine ⟨h.size_eq, ?_, ?_⟩
    · rcases h.status with hs | hs <;> simp [UploadSession.completeChunk, hs]
    · simp only [UploadSession.completeChunk, h.chunks, List.map_map]
      refine List.map_congr_left fun r hr => ?_
      simp only [Function.comp_apply]
      by_cases hrk : r.1 = k
      · simp [hrk]
      · have hiff : r.1 < (k : ℤ) ↔ r.1 < (k : ℤ) + 1 := by omega
        simp [hrk, hiff]

/-- Sending the first `k` ranges completes the first `k` rows. -/
theorem sendChunks_sent {m : ℤ} (hchunk : 0 < chunkSize) (hm : m < 2 ^ 31) (hsize : size < 2 ^ 63)
    (hbounds : ∀ i : ℤ, 0 ≤ i → i < m → 0 < (chunkAt size chunkSize m i).2 ∧
      (chunkAt size chunkSize m i).1 + (chunkAt size chunkSize m i).2 ≤ size)
    {s : UploadSession} (h : Sent size chunkSize m 0 s) (now : ℤ → ℤ) (k : ℕ) (hk : (k : ℤ) ≤ m) :
    ∃ s', sendChunks now size ((List.range k).map fun (i : ℕ) =>
        ((i : ℤ), chunkAt size chunkSize m i)) s = .ok s' ∧ Sent size chunkSize m k s' := by
  induction k with
  | zero => exact ⟨s, rfl, h⟩
  | succ k ih =>
    obtain ⟨s₁, hsend, hsent⟩ := ih (by push_cast at hk; omega)
    have hlt : (k : ℤ) < m := by push_cast at hk; omega
    obtain ⟨hlen, hle⟩ := hbounds k (by simp) hlt
    obtain ⟨s₂, hpatch, hsent'⟩ := hsent.patch hchunk hm hlt hsize hlen hle (now k)
    refine ⟨s₂, ?_, hsent'⟩
    unfold sendChunks at hsend ⊢
    rw [List.range_succ, List.map_append, List.foldlM_append, hsend]
    simpa using hpatch

/-- An opened session agrees with the sender's plan exactly when their counts do. -/
theorem planAgrees_iff (hsize : 0 < size) (hsize' : size < 2 ^ 53)
    (hmin : minChunkSize ≤ chunkSize) (hmax : chunkSize ≤ maxChunkSize) :
    PlanAgrees size chunkSize (openedSession size chunkSize) ↔ CountAgrees size chunkSize := by
  have hchunk : 0 < chunkSize := lt_of_lt_of_le (by decide) hmin
  have hchunk' : chunkSize < 2 ^ 31 := lt_of_le_of_lt hmax (by decide)
  rw [openedSession_eq hsize hmin hmax (by omega)]
  have hpos := ceilDiv_pos hsize hchunk
  set m := saturateI32 (ceilDiv size chunkSize) with hm
  have hm' : 0 < m ∧ m < 2 ^ 31 ∧ m ≤ ceilDiv size chunkSize := by
    rw [hm]
    unfold saturateI32
    omega
  have hranges : computeChunkRanges size chunkSize = chunkRanges size chunkSize m := by
    unfold computeChunkRanges
    rw [if_neg (by omega)]
  have hrows : (plannedSession size chunkSize).chunks.map
      (fun c => (c.chunkIndex, c.byteOffset, c.byteLength)) =
      chunkRanges size chunkSize (asI32 (ceilDiv size chunkSize)) := by
    simp [plannedSession, Function.comp_def]
  constructor
  · intro hagree
    have heq := hrows.symm.trans (hagree.rows.trans hranges)
    refine (countAgrees_iff hsize hsize' hmin).mp ?_
    rcases (chunkRanges_eq_iff hm'.1.le).mp heq with hcount | ⟨-, hzero⟩
    · exact hcount
    · omega
  · intro hcount
    have hasI32 := (countAgrees_iff hsize hsize' hmin).mpr hcount
    have hbounds : ∀ i : ℤ, 0 ≤ i → i < m → 0 < (chunkAt size chunkSize m i).2 ∧
        (chunkAt size chunkSize m i).1 + (chunkAt size chunkSize m i).2 ≤ size :=
      fun i _ hi => chunkAt_bounds hchunk hm'.2.2 (asI32_rest hsize hchunk hchunk' hcount) hi
    refine ⟨?_, ?_, ?_, ?_⟩
    · rw [hrows, hranges, hasI32]
    · intro r hr
      rw [hranges] at hr
      obtain ⟨hr0, hrm, hreq⟩ := mem_chunkRanges.mp hr
      obtain ⟨hlen, hle⟩ := hbounds r.1 hr0 hrm
      rw [hreq]
      refine buildContentRange_parses ?_ hlen hle (by omega)
      exact mul_nonneg hr0 hchunk.le
    · intro r hr
      rw [hranges] at hr
      obtain ⟨hr0, hrm, hreq⟩ := mem_chunkRanges.mp hr
      have hoffset : r.2.1 = r.1 * chunkSize := by rw [hreq]; rfl
      rw [hoffset]
      simp only [plannedSession, Int.mul_tdiv_cancel _ hchunk.ne']
      exact asI32_of_lt (by omega) (by omega)
    · intro now
      have hstart : Sent size chunkSize m 0 (plannedSession size chunkSize) := by
        refine ⟨rfl, .inl rfl, ?_⟩
        simp only [plannedSession, hasI32, ← hm]
        refine List.map_congr_left fun r hr => ?_
        have hr0 := (mem_chunkRanges.mp hr).1
        rw [if_neg (by simpa using hr0)]
      obtain ⟨s', hsend, hsent⟩ := sendChunks_sent hchunk hm'.2.1 (by omega) hbounds hstart now
        m.toNat (by omega)
      refine ⟨s', by rw [hranges]; exact hsend, fun c hc => ?_⟩
      rw [hsent.chunks] at hc
      obtain ⟨r, hr, rfl⟩ := List.mem_map.mp hc
      have hrm := (mem_chunkRanges.mp hr).2.1
      simp only
      rw [if_pos (by omega)]

/-- Sender and receiver agree exactly when, within the receiver's limit, the size is positive, the
chunk size is one the receiver takes, and both sides convert the number of chunks alike. -/
theorem chunk_plan_agrees_iff (size : ℤ) (maxUploadSize : ℕ) (chunkSize : ℤ)
    (hsize : size < 2 ^ 53) :
    TransferAgrees size maxUploadSize chunkSize ↔
      (withinLimit size maxUploadSize → 0 < size ∧ minChunkSize ≤ chunkSize ∧
        chunkSize ≤ maxChunkSize ∧ CountAgrees size chunkSize) := by
  constructor
  · rintro ⟨hagree, haccept⟩ hlimit
    obtain ⟨s, hs⟩ := haccept hlimit
    obtain ⟨hpos, -, hmin, hmax, rfl⟩ := createSession_iff.mp hs
    exact ⟨hpos, hmin, hmax, (planAgrees_iff hpos hsize hmin hmax).mp (hagree _ hs)⟩
  · intro hcond
    refine ⟨fun s hs => ?_, fun hlimit => ?_⟩
    · obtain ⟨hpos, hlimit, hmin, hmax, rfl⟩ := createSession_iff.mp hs
      exact (planAgrees_iff hpos hsize hmin hmax).mpr (hcond hlimit).2.2.2
    · obtain ⟨hpos, hmin, hmax, -⟩ := hcond hlimit
      exact ⟨_, createSession_iff.mpr ⟨hpos, hlimit, hmin, hmax, rfl⟩⟩

/-- An artifact of 250 MB in chunks of 50 MB, towards a receiver that takes up to 10 GB. -/
theorem chunk_plan_agrees_of_large_artifact : TransferAgrees 262144000 10737418240 52428800 :=
  (chunk_plan_agrees_iff 262144000 10737418240 52428800 (by norm_num)).mpr fun _ =>
    ⟨by norm_num, by decide, by decide, .inl (by decide)⟩

/-- A task for an artifact of the given size that has metadata of its own. -/
def describedTask (sizeBytes : ℤ) : TaskRow where
  id := 40
  peerInstanceId := 2
  artifactId := 10
  artifact := ⟨10, 7, false, "lib", some "1.0", sizeBytes, some "generic", some "meta", none, none⟩
  taskType := "push"
  replicationFilter := none
  retryCount := 0
  maxRetries := 3
  claimToken := 900

/-- An empty artifact with metadata takes the chunked path and is refused; so is every artifact
when the configured chunk size is 512 KB; and for `2 ^ 51` bytes in chunks of 1 MB the counts
differ. -/
theorem chunk_plans_disagree :
    shouldUseChunkedTransferForTask (describedTask 0) 104857600 = true ∧
      createSession 0 0 (some 52428800) =
        .error (.invalidChunk "total_size must be a positive integer") ∧
      ¬ TransferAgrees (describedTask 0).artifact.sizeBytes 0 52428800 ∧
      ¬ TransferAgrees 209715200 0 524288 ∧ ¬ TransferAgrees (2 ^ 51) 0 1048576 := by
  refine ⟨by decide, rfl, fun h => ?_, fun h => ?_, fun h => ?_⟩
  · obtain ⟨s, hs⟩ := h.2 (.inl rfl)
    exact absurd (createSession_iff.mp hs).1 (by decide)
  · obtain ⟨s, hs⟩ := h.2 (.inl rfl)
    exact absurd (createSession_iff.mp hs).2.2.1 (by decide)
  · obtain ⟨s, hs⟩ := h.2 (.inl rfl)
    obtain ⟨hpos, -, hmin, hmax, rfl⟩ := createSession_iff.mp hs
    have hcount := (planAgrees_iff hpos (by norm_num) hmin hmax).mp (h.1 _ hs)
    norm_num [CountAgrees, ceilDiv] at hcount

end Plan

end ArtifactKeeper.Sync
