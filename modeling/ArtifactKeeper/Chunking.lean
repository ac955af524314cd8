import Mathlib.Algebra.Order.Ring.Int
import Mathlib.Data.List.Nodup
import Mathlib.Data.List.Range
import Mathlib.Tactic.Linarith
import Mathlib.Tactic.Ring

/-! Fixed-width conversions of integers, and the division of a byte range into chunks of one size
of which the last takes the rest. -/

namespace Chunking

/-- Conversion to a signed 32-bit integer by truncation. -/
def asI32 (x : ℤ) : ℤ := (x + 2 ^ 31) % 2 ^ 32 - 2 ^ 31

/-- Conversion to a signed 64-bit integer by truncation: what wrapping arithmetic yields. -/
def asI64 (x : ℤ) : ℤ := (x + 2 ^ 63) % 2 ^ 64 - 2 ^ 63

/-- Conversion to a signed 32-bit integer that saturates. -/
def saturateI32 (x : ℤ) : ℤ := max (-2 ^ 31) (min x (2 ^ 31 - 1))

theorem asI32_of_lt {x : ℤ} (h : -2 ^ 31 ≤ x) (h' : x < 2 ^ 31) : asI32 x = x := by
  unfold asI32
  omega

theorem asI64_of_lt {x : ℤ} (h : -2 ^ 63 ≤ x) (h' : x < 2 ^ 63) : asI64 x = x := by
  unfold asI64
  omega

/-- A whole number of words on top does not show. -/
theorem asI32_add_words (x k : ℤ) : asI32 (2 ^ 32 * k + x) = asI32 x := by
  unfold asI32
  omega

/-- The quotient rounded up. -/
def ceilDiv (size chunk : ℤ) : ℤ := (size + chunk - 1) / chunk

/-- What is left for the last chunk. -/
def lastLength (size chunk : ℤ) : ℤ := size - (ceilDiv size chunk - 1) * chunk

section
variable {size chunk n : ℤ}

theorem lastLength_pos (size : ℤ) (hchunk : 0 < chunk) : 0 < lastLength size chunk := by
  have hdiv := Int.mul_ediv_add_emod (size + chunk - 1) chunk
  have hpos := Int.emod_nonneg (size + chunk - 1) hchunk.ne'
  unfold lastLength ceilDiv
  nlinarith

theorem lastLength_le (size : ℤ) (hchunk : 0 < chunk) : lastLength size chunk ≤ chunk := by
  have hdiv := Int.mul_ediv_add_emod (size + chunk - 1) chunk
  have hlt := Int.emod_lt_of_pos (size + chunk - 1) hchunk
  unfold lastLength ceilDiv
  nlinarith

theorem size_eq_lastLength (size chunk : ℤ) :
    size = (ceilDiv size chunk - 1) * chunk + lastLength size chunk := by
  unfold lastLength
  ring

theorem ceilDiv_pos (hsize : 0 < size) (hchunk : 0 < chunk) : 0 < ceilDiv size chunk := by
  have hle : (1 : ℤ) ≤ ceilDiv size chunk := (Int.le_ediv_iff_mul_le hchunk).mpr (by omega)
  omega

theorem ceilDiv_zero (hchunk : 0 < chunk) : ceilDiv 0 chunk = 0 := by
  unfold ceilDiv
  exact Int.ediv_eq_zero_of_lt (by omega) (by omega)

theorem ceilDiv_lt_iff (hchunk : 0 < chunk) : ceilDiv size chunk < n ↔ size ≤ (n - 1) * chunk := by
  unfold ceilDiv
  rw [Int.ediv_lt_iff_lt_mul hchunk]
  constructor <;> intro h <;> linarith

end

/-- Offset and length of chunk `i` of `n`. -/
def chunkAt (size chunk n i : ℤ) : ℤ × ℤ :=
  (i * chunk, if i = n - 1 then asI32 (size - i * chunk) else chunk)

/-- Index, offset and length of each of `n` chunks. -/
def chunkRanges (size chunk n : ℤ) : List (ℤ × ℤ × ℤ) :=
  (List.range n.toNat).map fun (i : ℕ) => ((i : ℤ), chunkAt size chunk n i)

section
variable {size chunk n i : ℤ}

/-- Every chunk is within the range and not empty, once the last one is cut right. -/
theorem chunkAt_bounds (hchunk : 0 < chunk) (hn : n ≤ ceilDiv size chunk)
    (hlast : asI32 (size - (n - 1) * chunk) = lastLength size chunk) (hi : i < n) :
    0 < (chunkAt size chunk n i).2 ∧
      (chunkAt size chunk n i).1 + (chunkAt size chunk n i).2 ≤ size := by
  have hpos := lastLength_pos size hchunk
  have hsize := size_eq_lastLength size chunk
  unfold chunkAt
  split
  · next hi' =>
    subst hi'
    rw [hlast]
    have hoff : (n - 1) * chunk ≤ (ceilDiv size chunk - 1) * chunk :=
      Int.mul_le_mul_of_nonneg_right (by omega) hchunk.le
    exact ⟨hpos, by linarith⟩
  · have hoff : (i + 1) * chunk ≤ (ceilDiv size chunk - 1) * chunk :=
      Int.mul_le_mul_of_nonneg_right (by omega) hchunk.le
    exact ⟨hchunk, by linarith⟩

/-- Cutting as many chunks as fit cuts the last one right. -/
theorem asI32_lastLength (size : ℤ) (hchunk : 0 < chunk) (hchunk' : chunk < 2 ^ 31) :
    asI32 (size - (ceilDiv size chunk - 1) * chunk) = lastLength size chunk := by
  have hpos := lastLength_pos size hchunk
  have hle := lastLength_le size hchunk
  exact asI32_of_lt (by unfold lastLength at hpos; omega) (by unfold lastLength at hle; omega)

theorem length_chunkRanges : (chunkRanges size chunk n).length = n.toNat := by
  simp [chunkRanges]

theorem mem_chunkRanges {r : ℤ × ℤ × ℤ} : r ∈ chunkRanges size chunk n ↔
    0 ≤ r.1 ∧ r.1 < n ∧ r.2 = chunkAt size chunk n r.1 := by
  obtain ⟨i, p⟩ := r
  simp only [chunkRanges, List.mem_map, List.mem_range, Prod.mk.injEq]
  constructor
  · rintro ⟨k, hk, rfl, rfl⟩
    exact ⟨by omega, by omega, rfl⟩
  · rintro ⟨hi, hin, rfl⟩
    exact ⟨i.toNat, by omega, by omega, by rw [Int.toNat_of_nonneg hi]⟩

end

/-- The ranges lie one after the other from `start` to `stop`, none of them empty. -/
def Tiles (start stop : ℤ) : List (ℤ × ℤ) → Prop
  | [] => start = stop
  | (offset, length) :: rest => offset = start ∧ 0 < length ∧ Tiles (offset + length) stop rest

/-- Ranges that lie one after the other are as long together as what they cover. -/
theorem Tiles.sum_lengths {start stop : ℤ} {ranges : List (ℤ × ℤ)} (h : Tiles start stop ranges) :
    (ranges.map (·.2)).sum = stop - start := by
  induction ranges generalizing start with
  | nil =>
    have hends : start = stop := h
    simp [hends]
  | cons r rest ih =>
    obtain ⟨hoffset, -, hrest⟩ := h
    rw [List.map_cons, List.sum_cons, ih hrest, hoffset]
    ring

section
variable {size chunk : ℤ}

theorem nodup_chunkRanges {n : ℤ} : (chunkRanges size chunk n).Nodup := by
  refine List.Nodup.map (fun i j h => ?_) List.nodup_range
  exact Int.ofNat.inj (Prod.mk.inj h).1

/-- From chunk `k` on, the chunks cover the rest. -/
theorem tiles_from (size : ℤ) (hchunk : 0 < chunk) (hchunk' : chunk < 2 ^ 31) (m : ℕ) :
    ∀ k : ℕ, ((k + m + 1 : ℕ) : ℤ) = ceilDiv size chunk → Tiles (k * chunk) size
      ((List.range' k (m + 1)).map fun (i : ℕ) => chunkAt size chunk (ceilDiv size chunk) i) := by
  induction m with
  | zero =>
    intro k hk
    have hlast := asI32_lastLength size hchunk hchunk'
    have hpos := lastLength_pos size hchunk
    have hsize := size_eq_lastLength size chunk
    have hk' : (k : ℤ) = ceilDiv size chunk - 1 := by omega
    simp only [List.range', List.map_cons, List.map_nil, Tiles, chunkAt]
    rw [if_pos hk', hk', hlast]
    exact ⟨trivial, hpos, hsize.symm⟩
  | succ m ih =>
    intro k hk
    have hk' : (k : ℤ) ≠ ceilDiv size chunk - 1 := by omega
    have hrest := ih (k + 1) (by omega)
    rw [List.range'_succ]
    simp only [List.map_cons, Tiles, chunkAt, if_neg hk', true_and]
    refine ⟨hchunk, ?_⟩
    have hnext : (k : ℤ) * chunk + chunk = ((k + 1 : ℕ) : ℤ) * chunk := by
      push_cast
      ring
    rw [hnext]
    exact hrest

/-- As many chunks as fit cover the whole range. -/
theorem tiles_chunkRanges (hsize : 0 ≤ size) (hchunk : 0 < chunk) (hchunk' : chunk < 2 ^ 31) :
    Tiles 0 size ((chunkRanges size chunk (ceilDiv size chunk)).map (·.2)) := by
  rcases hsize.eq_or_lt with rfl | hpos
  · rw [ceilDiv_zero hchunk]
    rfl
  · have hcount := ceilDiv_pos hpos hchunk
    have htiles := tiles_from size hchunk hchunk' ((ceilDiv size chunk).toNat - 1) 0
      (by omega)
    have hlength : (ceilDiv size chunk).toNat - 1 + 1 = (ceilDiv size chunk).toNat := by omega
    rw [hlength] at htiles
    simpa [chunkRanges, List.range_eq_range', Function.comp_def] using htiles

end

end Chunking
