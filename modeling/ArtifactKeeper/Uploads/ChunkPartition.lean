import ArtifactKeeper.Uploads.Sealed
import ArtifactKeeper.Traced

/-! The rows that `create_session` inserts, with its arithmetic in the widths of the code: an exact
partition of the upload as long as the number of chunks is an `i32`. -/

namespace ArtifactKeeper.Uploads
open Chunking Sync

/-- The rows of the session, and whether the arithmetic of `create_session` was cut anywhere. -/
def chunkRows (totalSize chunkSize : ℤ) : Traced (List (ℤ × ℤ × ℤ)) :=
  rowRanges <$> openSession totalSize chunkSize

def createSessionRows (totalSize : ℤ) (maxUploadSize : ℕ) (chunkSize : Option ℤ) :
    Except UploadError (Traced (List (ℤ × ℤ × ℤ))) :=
  (fun session => rowRanges <$> session) <$> createSessionTraced totalSize maxUploadSize chunkSize

/-- The rows partition the upload and nothing was cut on the way to them. -/
structure ExactPartition (totalSize chunkSize : ℤ) (rows : Traced (List (ℤ × ℤ × ℤ))) : Prop where
  lossless : rows.lossless = true
  count : (rows.value.length : ℤ) = ceilDiv totalSize chunkSize
  nonempty : 1 ≤ rows.value.length
  lengths : ∀ r ∈ rows.value, 0 < r.2.2 ∧ r.2.2 ≤ chunkSize
  tiles : Tiles 0 totalSize (rows.value.map (·.2))

section
variable {size chunk : ℤ}

theorem chunkRow_eq {i : ℤ} (hchunk : 0 < chunk) (hchunk' : chunk ≤ maxChunkSize)
    (hcount : ceilDiv size chunk < 2 ^ 31) (hi : 0 ≤ i) (hi' : i < ceilDiv size chunk) :
    chunkRow size chunk (ceilDiv size chunk) i =
      ⟨(i, chunkAt size chunk (ceilDiv size chunk) i), true⟩ := by
  have hmax : chunk ≤ 268435456 := hchunk'
  have hoffset : i * chunk < 2 ^ 59 := by nlinarith
  have hoffset' : 0 ≤ i * chunk := Int.mul_nonneg hi hchunk.le
  have hpos := lastLength_pos size hchunk
  have hle := lastLength_le size hchunk
  unfold chunkRow chunkAt
  rw [i64_eq (by omega) (by omega), i32_eq (by omega) (by omega)]
  by_cases hlast : i = ceilDiv size chunk - 1
  · have hleft : size - i * chunk = lastLength size chunk := by rw [hlast, lastLength]
    simp only [bind, pure, if_pos hlast, hleft]
    rw [i64_eq (by omega) (by omega)]
    dsimp only
    rw [i32_eq (by omega) (by omega), asI32_of_lt (by omega) (by omega)]
    rfl
  · simp only [bind, pure, if_neg hlast]
    rfl

/-- Up to `2 ^ 31 - 1` chunks nothing is cut, and the rows are the ranges of the division. -/
theorem chunkRows_eq (hsize : 0 < size) (hchunk : 0 < chunk) (hchunk' : chunk ≤ maxChunkSize)
    (hcount : ceilDiv size chunk < 2 ^ 31) :
    chunkRows size chunk = ⟨chunkRanges size chunk (ceilDiv size chunk), true⟩ := by
  have hmax : chunk ≤ 268435456 := hchunk'
  have hsize' := (ceilDiv_lt_iff hchunk).mp hcount
  have hlt : size < 2 ^ 59 := by nlinarith
  have hpos := ceilDiv_pos hsize hchunk
  have hdiv : (size + chunk - 1).tdiv chunk = ceilDiv size chunk :=
    Int.tdiv_eq_ediv_of_nonneg (by omega)
  have hcounted : countChunks size chunk = ⟨ceilDiv size chunk, true⟩ := by
    unfold countChunks
    rw [i64_eq (by omega) (by omega)]
    simp only [bind]
    rw [i64_eq (by omega) (by omega), hdiv, i32_eq (by omega) hcount]
    rfl
  have hrow (i : ℕ) (hi : i ∈ List.range (ceilDiv size chunk).toNat) :=
    chunkRow_eq hchunk hchunk' hcount (Int.natCast_nonneg i)
      (by rw [List.mem_range] at hi; omega)
  have hinserted : insertedRows size chunk (ceilDiv size chunk) =
      ⟨chunkRanges size chunk (ceilDiv size chunk), true⟩ := by
    simp only [insertedRows, Traced.each, chunkRanges]
    congr 1
    · exact List.map_congr_left fun i hi => congrArg Traced.value (hrow i hi)
    · exact List.all_eq_true.mpr fun i hi => congrArg Traced.lossless (hrow i hi)
  simp [chunkRows, openSession, hcounted, hinserted, rowRanges, Functor.map, bind, pure,
    Function.comp_def]

theorem exactPartition_of_count (hsize : 0 < size) (hchunk : 0 < chunk)
    (hchunk' : chunk ≤ maxChunkSize) (hcount : ceilDiv size chunk < 2 ^ 31) :
    ExactPartition size chunk (chunkRows size chunk) := by
  have hmax : chunk ≤ 268435456 := hchunk'
  have hpos := ceilDiv_pos hsize hchunk
  rw [chunkRows_eq hsize hchunk hchunk' hcount]
  constructor
  · rfl
  · rw [length_chunkRanges]
    omega
  · rw [length_chunkRanges]
    omega
  · intro r hr
    obtain ⟨-, -, hrange⟩ := mem_chunkRanges.mp hr
    have hpos := lastLength_pos size hchunk
    have hle := lastLength_le size hchunk
    rw [hrange, chunkAt]
    split
    · next hlast =>
      rw [hlast, asI32_lastLength size hchunk (by omega)]
      exact ⟨hpos, hle⟩
    · exact ⟨hchunk, le_rfl⟩
  · exact tiles_chunkRanges hsize.le hchunk (by omega)

/-- The number of rows is an `i32` whatever is divided. -/
theorem length_chunkRows : ((chunkRows size chunk).value.length : ℤ) < 2 ^ 31 := by
  have hlt := asI32_lt ((asI64 (size + chunk - 1)).tdiv chunk)
  have hlength : (chunkRows size chunk).value.length = (countChunks size chunk).value.toNat := by
    simp [chunkRows, openSession, insertedRows, Traced.each, rowRanges, Functor.map, bind, pure]
  rw [countChunks_value] at hlength
  omega

theorem exactPartition_iff (hsize : 0 < size) (hchunk : 0 < chunk)
    (hchunk' : chunk ≤ maxChunkSize) :
    ExactPartition size chunk (chunkRows size chunk) ↔ size ≤ (2 ^ 31 - 1) * chunk := by
  rw [← ceilDiv_lt_iff hchunk]
  constructor
  · intro h
    rw [← h.count]
    exact length_chunkRows
  · exact exactPartition_of_count hsize hchunk hchunk'

theorem openSession_of_ok {maxUploadSize : ℕ} {chunkSize : Option ℤ} {t : Traced UploadSession}
    (h : createSessionTraced size maxUploadSize chunkSize = .ok t) :
    t = openSession size (chunkSize.getD defaultChunkSize) := by
  have hdefault : createSessionTraced size maxUploadSize chunkSize =
      createSessionTraced size maxUploadSize (some (chunkSize.getD defaultChunkSize)) := rfl
  exact (createSessionTraced_iff.mp (hdefault ▸ h)).2.2.2.2

theorem createSessionRows_iff {maxUploadSize : ℕ} {chunkSize : Option ℤ}
    {rows : Traced (List (ℤ × ℤ × ℤ))} :
    createSessionRows size maxUploadSize chunkSize = .ok rows ↔
      (∃ s, createSession size maxUploadSize chunkSize = .ok s) ∧
        rows = chunkRows size (chunkSize.getD defaultChunkSize) := by
  rw [createSessionRows, createSession, Except.map_eq_ok_iff]
  simp only [Except.map_eq_ok_iff]
  constructor
  · rintro ⟨t, ht, rfl⟩
    exact ⟨⟨_, t, ht, rfl⟩, congrArg (rowRanges <$> ·) (openSession_of_ok ht)⟩
  · rintro ⟨⟨_, t, ht, -⟩, rfl⟩
    exact ⟨t, ht, congrArg (rowRanges <$> ·) (openSession_of_ok ht)⟩

end

/-- The rows of every admitted session are an exact partition exactly up to `2 ^ 31 - 1` chunks. -/
theorem chunk_partition_iff {totalSize : ℤ} {maxUploadSize : ℕ} {chunkSize : Option ℤ}
    {rows : Traced (List (ℤ × ℤ × ℤ))}
    (h : createSessionRows totalSize maxUploadSize chunkSize = .ok rows) :
    ExactPartition totalSize (chunkSize.getD defaultChunkSize) rows ↔
      totalSize ≤ (2 ^ 31 - 1) * chunkSize.getD defaultChunkSize := by
  obtain ⟨⟨s, hs⟩, rfl⟩ := createSessionRows_iff.mp h
  have hdefault : createSession totalSize maxUploadSize chunkSize =
      createSession totalSize maxUploadSize (some (chunkSize.getD defaultChunkSize)) := rfl
  obtain ⟨hsize, -, hmin, hmax, -⟩ := createSession_iff.mp (hdefault ▸ hs)
  exact exactPartition_iff hsize (lt_of_lt_of_le (by decide) hmin) hmax

theorem chunk_partition_default :
    ExactPartition 20000000 8388608 (chunkRows 20000000 8388608) := by
  have h : createSessionRows 20000000 0 none = .ok (chunkRows 20000000 8388608) := by rfl
  exact (chunk_partition_iff h).mpr (by decide)

/-- Two pebibytes in chunks of one mebibyte and no limit: no rows at all. -/
theorem huge_upload_without_rows :
    ∃ rows, createSessionRows (2 ^ 51) 0 (some 1048576) = .ok rows ∧ rows.lossless = false ∧
      rows.value = [] ∧ ¬ ExactPartition (2 ^ 51) 1048576 rows := by
  have hrows : (chunkRows (2 ^ 51) 1048576).value = [] := by decide +kernel
  refine ⟨chunkRows (2 ^ 51) 1048576, by rfl, by decide +kernel, hrows, fun h => ?_⟩
  have hnonempty := h.nonempty
  rw [hrows] at hnonempty
  exact absurd hnonempty (by decide)

end ArtifactKeeper.Uploads
