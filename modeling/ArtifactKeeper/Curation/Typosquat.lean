import ArtifactKeeper.EditDistance
import Mathlib.Data.List.MinMax
import Mathlib.Data.List.Range

/-! The lexical squat test of the `popularity` curation rule. -/

namespace ArtifactKeeper.Curation
open EditDistance

/-- The three rows of `damerau_levenshtein`. -/
structure DistanceRows where
  prevPrev : Array ℕ
  prev : Array ℕ
  curr : Array ℕ
  deriving DecidableEq, Repr

namespace DistanceRows

/-- The value of `curr[j]`. -/
def cell (a b : List Char) (r : DistanceRows) (i j : ℕ) : ℕ :=
  let cost := if a[i - 1]? ≠ b[j - 1]? then 1 else 0
  let d := min (min (r.prev.getD j 0 + 1) (r.curr.getD (j - 1) 0 + 1))
    (r.prev.getD (j - 1) 0 + cost)
  if 1 < i ∧ 1 < j ∧ a[i - 1]? = b[j - 2]? ∧ a[i - 2]? = b[j - 1]? then
    min d (r.prevPrev.getD (j - 2) 0 + 1)
  else d

def setCurr (r : DistanceRows) (j d : ℕ) : DistanceRows :=
  { r with curr := r.curr.setIfInBounds j d }

/-- The inner loop up to column `n`. -/
def fill (a b : List Char) (i n : ℕ) (r : DistanceRows) : DistanceRows :=
  (List.range' 1 n).foldl (fun r j => r.setCurr j (r.cell a b i j)) (r.setCurr 0 i)

/-- The two swaps. -/
def rotate (r : DistanceRows) : DistanceRows := ⟨r.prev, r.curr, r.prevPrev⟩

def start (n : ℕ) : DistanceRows :=
  ⟨Array.replicate (n + 1) 0, Array.range (n + 1), Array.replicate (n + 1) 0⟩

/-- The outer loop up to row `m`. -/
def sweep (a b : List Char) (m n : ℕ) : DistanceRows :=
  (List.range' 1 m).foldl (fun r i => (r.fill a b i n).rotate) (start n)

end DistanceRows

def damerauLevenshtein (a b : String) : ℕ :=
  let a := a.toList
  let b := b.toList
  let m := a.length
  let n := b.length
  if m = 0 then n
  else if n = 0 then m
  else (DistanceRows.sweep a b m n).prev.getD n 0

/-- `nearest_popular`, for any `str::to_lowercase`. -/
def nearestPopular (toLowercase : String → String) (name : String) (popular : List String) :
    Option (String × ℕ) :=
  popular.foldl (fun best candidate =>
    let d := damerauLevenshtein (toLowercase name) (toLowercase candidate)
    match best with
    | some (t, bestD) => if bestD ≤ d then some (t, bestD) else some (candidate, d)
    | none => some (candidate, d)) none

def isTyposquat (toLowercase : String → String) (name : String) (popular : List String)
    (maxDistance : ℕ) : Option String :=
  if popular.any fun p => toLowercase p == toLowercase name then none
  else match nearestPopular toLowercase name popular with
  | none => none
  | some (target, distance) =>
    if 1 ≤ distance ∧ distance ≤ maxDistance then some target else none

namespace DistanceRows
variable {a b : List Char} {r : DistanceRows} {i j n : ℕ}

/-- The entry of the full table. -/
def table (a b : List Char) (i j : ℕ) : ℕ := osa (fun k => a[k]?) (fun k => b[k]?) i j

/-- Before row `i + 1`: the row above, and the one above that if there is one. -/
structure RowsAt (a b : List Char) (n i : ℕ) (r : DistanceRows) : Prop where
  size : r.prev.size = n + 1 ∧ r.curr.size = n + 1 ∧ r.prevPrev.size = n + 1
  prev : ∀ j ≤ n, r.prev.getD j 0 = table a b i j
  prevPrev : 0 < i → ∀ j ≤ n, r.prevPrev.getD j 0 = table a b (i - 1) j

/-- Row `i + 1` is filled up to column `j`. -/
structure FilledTo (a b : List Char) (n i j : ℕ) (r : DistanceRows) : Prop
    extends RowsAt a b n i r where
  curr : ∀ k ≤ j, r.curr.getD k 0 = table a b (i + 1) k

theorem getD_setIfInBounds (x : Array ℕ) (j k d : ℕ) (hj : j < x.size) :
    (x.setIfInBounds j d).getD k 0 = if k = j then d else x.getD k 0 := by
  by_cases hk : k = j
  · subst hk
    simp [hj]
  · simp [hk, Ne.symm hk]

theorem RowsAt.setCurr (h : RowsAt a b n i r) (j d : ℕ) : RowsAt a b n i (r.setCurr j d) :=
  ⟨by simpa [DistanceRows.setCurr] using h.size, h.prev, h.prevPrev⟩

/-- One column: the cell is the entry of the table. -/
theorem FilledTo.cell_eq (h : FilledTo a b n i j r) (hj : j < n) :
    r.cell a b (i + 1) (j + 1) = table a b (i + 1) (j + 1) := by
  have hleft := h.curr j le_rfl
  have hup := h.prev (j + 1) hj
  have hdiag := h.prev j hj.le
  rw [table, osa_succ_succ]
  simp only [cell, Nat.add_sub_cancel, hleft, hup, hdiag, ne_eq, ite_not, table,
    show i + 1 - 2 = i - 1 by omega, show j + 1 - 2 = j - 1 by omega,
    show (1 < i + 1) = (0 < i) by simp, show (1 < j + 1) = (0 < j) by simp]
  split
  · next hswap =>
    rw [h.prevPrev hswap.1 (j - 1) (by omega), table]
  · rfl

theorem FilledTo.step (h : FilledTo a b n i j r) (hj : j < n) :
    FilledTo a b n i (j + 1) (r.setCurr (j + 1) (r.cell a b (i + 1) (j + 1))) := by
  refine ⟨h.toRowsAt.setCurr _ _, fun k hk => ?_⟩
  have hsize := h.size.2.1
  rw [DistanceRows.setCurr, getD_setIfInBounds _ _ _ _ (by omega)]
  split
  · next heq => rw [heq, h.cell_eq hj]
  · exact h.curr k (by omega)

theorem RowsAt.setCurr_zero (h : RowsAt a b n i r) : FilledTo a b n i 0 (r.setCurr 0 (i + 1)) := by
  refine ⟨h.setCurr _ _, fun k hk => ?_⟩
  have hsize := h.size.2.1
  obtain rfl : k = 0 := by omega
  rw [DistanceRows.setCurr, getD_setIfInBounds _ _ _ _ (by omega), if_pos rfl, table,
    osa_zero_right]

/-- The inner loop, up to any column. -/
theorem RowsAt.filledTo (h : RowsAt a b n i r) (hj : j ≤ n) :
    FilledTo a b n i j (r.fill a b (i + 1) j) := by
  induction j with
  | zero => exact h.setCurr_zero
  | succ j ih =>
    have hprev := ih (by omega)
    rw [fill, List.range'_1_concat, List.foldl_append, Nat.add_comm 1 j]
    exact hprev.step hj

theorem FilledTo.rotate (h : FilledTo a b n i n r) : RowsAt a b n (i + 1) r.rotate :=
  ⟨⟨h.size.2.1, h.size.2.2, h.size.1⟩, h.curr, fun _ => h.prev⟩

theorem rowsAt_start (a b : List Char) (n : ℕ) : RowsAt a b n 0 (start n) := by
  refine ⟨by simp [start], fun j hj => ?_, nofun⟩
  rw [table, osa_zero_left]
  simp [start, Nat.lt_succ_of_le hj]

/-- The outer loop, up to any row. -/
theorem rowsAt_sweep (a b : List Char) (m n : ℕ) : RowsAt a b n m (sweep a b m n) := by
  induction m with
  | zero => exact rowsAt_start a b n
  | succ m ih =>
    rw [sweep, List.range'_1_concat, List.foldl_append, Nat.add_comm 1 m]
    exact (ih.filledTo le_rfl).rotate

end DistanceRows

theorem damerauLevenshtein_eq (a b : String) :
    damerauLevenshtein a b = osa (fun k => a.toList[k]?) (fun k => b.toList[k]?)
      a.toList.length b.toList.length := by
  unfold damerauLevenshtein
  simp only
  split
  · next hm => rw [hm, osa_zero_left]
  split
  · next hn => rw [hn, osa_zero_right]
  · exact (DistanceRows.rowsAt_sweep _ _ _ _).prev _ le_rfl

/-- The minimum number of edits that turn `a` into `b`. -/
theorem damerauLevenshtein_le_iff {a b : String} {c : ℕ} :
    damerauLevenshtein a b ≤ c ↔ ∃ c' ≤ c, Aligns (fun k => a.toList[k]?) (fun k => b.toList[k]?)
      a.toList.length b.toList.length c' := by
  rw [damerauLevenshtein_eq, osa_le_iff]

example : damerauLevenshtein "reqeusts" "requests" = 1 := by decide +kernel

theorem damerauLevenshtein_comm (a b : String) :
    damerauLevenshtein a b = damerauLevenshtein b a := by
  rw [damerauLevenshtein_eq, damerauLevenshtein_eq, osa_comm]

theorem damerauLevenshtein_eq_zero_iff {a b : String} : damerauLevenshtein a b = 0 ↔ a = b := by
  rw [damerauLevenshtein_eq, osa_eq_zero_iff]
  constructor
  · rintro ⟨hlen, hall⟩
    refine String.toList_inj.mp (List.ext_getElem? fun k => ?_)
    by_cases hk : k < a.toList.length
    · exact hall k hk
    · rw [List.getElem?_eq_none (by omega), List.getElem?_eq_none (by omega)]
  · rintro rfl
    exact ⟨rfl, fun _ _ => rfl⟩

/-- The first entry at the least distance. -/
structure FirstNearest (dist : String → ℕ) (popular : List String) (t : String) : Prop where
  mem : t ∈ popular
  least : ∀ p ∈ popular, dist t ≤ dist p
  first : ∀ p ∈ popular, dist p = dist t → popular.idxOf t ≤ popular.idxOf p

variable {toLowercase : String → String} {name t : String} {popular : List String} {d : ℕ}

theorem nearestPopular_eq (toLowercase : String → String) (name : String) (popular : List String) :
    nearestPopular toLowercase name popular =
      (popular.argmin fun p => damerauLevenshtein (toLowercase name) (toLowercase p)).map fun p =>
        (p, damerauLevenshtein (toLowercase name) (toLowercase p)) := by
  induction popular using List.reverseRecOn with
  | nil => rfl
  | append_singleton popular candidate ih =>
    rw [nearestPopular] at ih
    rw [nearestPopular, List.foldl_append, ih, List.argmin_concat]
    cases popular.argmin fun p => damerauLevenshtein (toLowercase name) (toLowercase p) with
    | none => rfl
    | some best =>
      simp only [Option.map_some, List.foldl_cons, List.foldl_nil]
      split
      · next hle => rw [if_neg (by omega), Option.map_some]
      · next hlt => rw [if_pos (by omega), Option.map_some]

theorem nearestPopular_eq_none_iff :
    nearestPopular toLowercase name popular = none ↔ popular = [] := by
  rw [nearestPopular_eq, Option.map_eq_none_iff, List.argmin_eq_none]

theorem nearestPopular_some (h : nearestPopular toLowercase name popular = some (t, d)) :
    d = damerauLevenshtein (toLowercase name) (toLowercase t) ∧
      FirstNearest (fun p => damerauLevenshtein (toLowercase name) (toLowercase p)) popular t := by
  rw [nearestPopular_eq, Option.map_eq_some_iff] at h
  obtain ⟨p, hp, heq⟩ := h
  obtain ⟨rfl, rfl⟩ := Prod.mk.inj heq
  obtain ⟨hmem, hleast, hfirst⟩ := List.mem_argmin_iff.mp hp
  exact ⟨rfl, hmem, hleast, fun q hq hle => hfirst q hq hle.le⟩

theorem isTyposquat_some {maxDistance : ℕ}
    (h : isTyposquat toLowercase name popular maxDistance = some t) :
    (∀ p ∈ popular, toLowercase p ≠ toLowercase name) ∧
      damerauLevenshtein (toLowercase name) (toLowercase t) ≤ maxDistance ∧
      FirstNearest (fun p => damerauLevenshtein (toLowercase name) (toLowercase p)) popular t := by
  unfold isTyposquat at h
  split at h
  · cases h
  next hself =>
  split at h
  · cases h
  next target distance hnear =>
  split at h
  · next hle =>
    cases h
    obtain ⟨rfl, hfirst⟩ := nearestPopular_some hnear
    exact ⟨by simpa using hself, hle.2, hfirst⟩
  · cases h

theorem isTyposquat_isSome {maxDistance : ℕ}
    (hself : ∀ p ∈ popular, toLowercase p ≠ toLowercase name) {p : String} (hp : p ∈ popular)
    (hle : damerauLevenshtein (toLowercase name) (toLowercase p) ≤ maxDistance) :
    (isTyposquat toLowercase name popular maxDistance).isSome = true := by
  have hany : ¬ (popular.any fun p => toLowercase p == toLowercase name) = true := by
    simpa using hself
  rw [isTyposquat, if_neg hany]
  cases hnear : nearestPopular toLowercase name popular with
  | none => simp [nearestPopular_eq_none_iff.mp hnear] at hp
  | some r =>
    obtain ⟨hd, hfirst⟩ := nearestPopular_some hnear
    have hpos : r.2 ≠ 0 := by
      rw [hd]
      exact fun h0 => hself r.1 hfirst.mem (damerauLevenshtein_eq_zero_iff.mp h0).symm
    have hmax : r.2 ≤ maxDistance := hd ▸ (hfirst.least p hp).trans hle
    simp only
    rw [if_pos ⟨Nat.one_le_iff_ne_zero.mpr hpos, hmax⟩, Option.isSome_some]

/-- The distance is the one of the recurrence, and the test finds the nearest entry. -/
theorem typosquat_exact (toLowercase : String → String) :
    (∀ a b : String,
      damerauLevenshtein a b = osa (fun k => a.toList[k]?) (fun k => b.toList[k]?)
        a.toList.length b.toList.length ∧
      damerauLevenshtein a b = damerauLevenshtein b a ∧
      (damerauLevenshtein a b = 0 ↔ a = b)) ∧
    ∀ (name : String) (popular : List String) (maxDistance : ℕ),
      ((isTyposquat toLowercase name popular maxDistance).isSome = true ↔
        (∀ p ∈ popular, toLowercase p ≠ toLowercase name) ∧
        ∃ p ∈ popular, damerauLevenshtein (toLowercase name) (toLowercase p) ≤ maxDistance) ∧
      ∀ t, isTyposquat toLowercase name popular maxDistance = some t →
        FirstNearest (fun p => damerauLevenshtein (toLowercase name) (toLowercase p)) popular
          t := by
  refine ⟨fun a b => ⟨damerauLevenshtein_eq a b, damerauLevenshtein_comm a b,
    damerauLevenshtein_eq_zero_iff⟩, fun name popular maxDistance => ⟨⟨fun h => ?_, ?_⟩,
    fun t ht => (isTyposquat_some ht).2.2⟩⟩
  · obtain ⟨t, ht⟩ := Option.isSome_iff_exists.mp h
    obtain ⟨hself, hle, hfirst⟩ := isTyposquat_some ht
    exact ⟨hself, t, hfirst.mem, hle⟩
  · rintro ⟨hself, p, hp, hle⟩
    exact isTyposquat_isSome hself hp hle

end ArtifactKeeper.Curation
