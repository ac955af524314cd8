import ArtifactKeeper.Auth.SelectorScope
import ArtifactKeeper.SyncCode

/-! The matcher of repository patterns on the bytes of its strings, where a slice may be taken
between characters only. -/

namespace ArtifactKeeper.Auth

/-- `str::is_char_boundary`. -/
def isCharBoundary (value : List UInt8) (pos : ℕ) : Bool :=
  pos = 0 || match value[pos]? with
    | none => pos = value.length
    | some b => !(128 ≤ b.toNat && b.toNat < 192)

/-- `value[pos..]`, which panics within a character. -/
def sliceFrom (value : List UInt8) (pos : ℕ) : Option (List UInt8) :=
  if isCharBoundary value pos then some (value.drop pos) else none

/-- The loop over the parts; `last` is the index of the last one. -/
def likeScan (value : List UInt8) (last : ℕ) : ℕ → List (List UInt8) → ℕ → Option Bool
  | _, [], _ => some true
  | i, part :: parts, pos =>
    if part.isEmpty then likeScan value last (i + 1) parts pos
    else if i = 0 then
      if part.isPrefixOf value then likeScan value last (i + 1) parts part.length else some false
    else if i = last then
      (sliceFrom value pos).bind fun rest =>
        if part.isSuffixOf rest then likeScan value last (i + 1) parts value.length else some false
    else
      (sliceFrom value pos).bind fun rest =>
        match Occurrence.find part rest with
        | some found => likeScan value last (i + 1) parts (pos + (found + part.length))
        | none => some false

/-- `sql_like_match`; nothing is returned where a slice panics. -/
def sqlLikeMatchUtf8 (value pattern : String) : Option Bool :=
  let parts := (pattern.toList.splitOn '%').map (List.flatMap String.utf8EncodeChar)
  if parts.length = 1 then some (value == pattern)
  else likeScan (value.toList.flatMap String.utf8EncodeChar) (parts.length - 1) 0 parts 0

section Slices

theorem not_continuation_of_firstByte (b : UInt8) (h : b.IsUTF8FirstByte) :
    ¬ (128 ≤ b.toNat ∧ b.toNat < 192) := by
  have hall : ∀ n < 256, (UInt8.ofNat n).IsUTF8FirstByte → ¬ (128 ≤ n ∧ n < 192) := by
    decide +kernel
  have hb := hall b.toNat b.toNat_lt
  rw [UInt8.ofNat_toNat] at hb
  exact hb h

/-- The end of some characters is a boundary. -/
theorem sliceFrom_flatMap (done rest : List Char) :
    sliceFrom ((done ++ rest).flatMap String.utf8EncodeChar)
      (done.flatMap String.utf8EncodeChar).length = some (rest.flatMap String.utf8EncodeChar) := by
  rw [List.flatMap_append, sliceFrom, if_pos, List.drop_left]
  rw [isCharBoundary, Bool.or_eq_true]
  right
  rw [List.getElem?_append_right (Nat.le_refl _), Nat.sub_self, ← List.head?_eq_getElem?]
  cases hhead : (rest.flatMap String.utf8EncodeChar).head? with
  | none => simp [List.head?_eq_none_iff.mp hhead]
  | some b =>
    have h := not_continuation_of_firstByte b (SyncCode.utf8.head_flatMap rest b hhead)
    simp only [Bool.not_eq_true', Bool.and_eq_false_iff, decide_eq_false_iff_not]
    omega

end Slices

section Scan
variable {part : List Char} {parts : List (List Char)}

theorem afterFirst_eq_find (hne : part ≠ []) (rest : List Char) :
    afterFirst part rest =
      (Occurrence.find part rest).map fun n => rest.drop (n + part.length) := by
  induction rest with
  | nil => simp [afterFirst, Occurrence.find, hne]
  | cons c rest ih =>
    rw [afterFirst, Occurrence.find]
    simp only [List.isPrefixOf_iff_prefix]
    split
    · simp
    · rw [ih, Option.map_map]
      congr 1
      funext n
      simp [Nat.add_right_comm]

/-- On the bytes, with a position, the loop does what it does on what is left of the characters. -/
theorem likeScan_eq (done rest : List Char) (last i : ℕ) (hstart : i = 0 → done = [])
    (hlast : i + parts.length = last + 1) :
    likeScan ((done ++ rest).flatMap String.utf8EncodeChar) last i
        (parts.map (List.flatMap String.utf8EncodeChar))
        (done.flatMap String.utf8EncodeChar).length =
      some (likeLoop (i == 0) parts rest) := by
  have hcode := SyncCode.utf8
  induction parts generalizing done rest i with
  | nil => rw [List.map_nil, likeScan, likeLoop]
  | cons part parts ih =>
    have hnext : i + 1 + parts.length = last + 1 := by rw [← hlast, List.length_cons]; omega
    have hmore : ∀ done rest, likeScan ((done ++ rest).flatMap String.utf8EncodeChar) last (i + 1)
        (parts.map (List.flatMap String.utf8EncodeChar))
        (done.flatMap String.utf8EncodeChar).length = some (likeLoop false parts rest) :=
      fun done rest => ih done rest (i + 1) (by simp) hnext
    rw [List.map_cons, likeScan, likeLoop]
    by_cases hempty : part = []
    · rw [hempty, if_pos (by simp), if_pos (by simp), hmore]
    have hcoded : ¬ (part.flatMap String.utf8EncodeChar).isEmpty = true := by
      rw [List.isEmpty_iff, hcode.flatMap_eq_nil_iff]
      exact hempty
    rw [if_neg hcoded, if_neg (mt List.isEmpty_iff.mp hempty)]
    by_cases hi : i = 0
    · obtain rfl := hstart hi
      have hfirst : (i == 0) = true := by simp [hi]
      rw [if_pos hi, if_pos hfirst, List.nil_append]
      simp only [List.isPrefixOf_iff_prefix, hcode.flatMap_prefix_iff]
      by_cases hpre : part <+: rest
      · obtain ⟨tail, rfl⟩ := hpre
        rw [if_pos (List.prefix_append _ _), if_pos (List.prefix_append _ _), hmore part tail,
          List.drop_left]
      · rw [if_neg hpre, if_neg hpre]
    have hfirst : ¬ (i == 0) = true := by simpa using hi
    rw [if_neg hi, if_neg hfirst, sliceFrom_flatMap]
    have hend : parts = [] ↔ i = last := by
      rw [← List.length_eq_zero_iff]
      omega
    by_cases hilast : i = last
    · obtain rfl := hend.mpr hilast
      rw [if_pos hilast, if_pos List.isEmpty_nil, Option.bind_some, List.map_nil, likeScan]
      simp only [List.isSuffixOf_iff_suffix, hcode.flatMap_suffix_iff]
      by_cases hsuffix : part <:+ rest
      · rw [if_pos hsuffix, List.isSuffixOf_iff_suffix.mpr hsuffix]
      · rw [if_neg hsuffix, Bool.eq_false_iff.mpr (mt List.isSuffixOf_iff_suffix.mp hsuffix)]
    · rw [if_neg hilast, if_neg (mt List.isEmpty_iff.mp (mt hend.mp hilast)), Option.bind_some,
        hcode.find_flatMap hempty, afterFirst_eq_find hempty]
      cases hfind : Occurrence.find part rest with
      | none => rfl
      | some n =>
        obtain ⟨tail, htail⟩ := (Occurrence.find_eq_some_iff.mp hfind).here
        have hrest : rest = rest.take n ++ (part ++ tail) := by rw [htail, List.take_append_drop]
        have hskipped := hmore (done ++ rest.take n ++ part) tail
        rw [List.append_assoc, List.append_assoc, ← hrest] at hskipped
        have hdrop : rest.drop (n + part.length) = tail := by
          rw [← List.drop_drop, ← htail, List.drop_left]
        simp only [Option.map_some, hdrop]
        rw [← hskipped]
        congr 1
        simp only [List.flatMap_append, List.length_append]
        omega

/-- No slice panics, and the bytes are matched as the characters are. -/
theorem sqlLikeMatchUtf8_eq (value pattern : String) :
    sqlLikeMatchUtf8 value pattern = some (sqlLikeMatch value pattern) := by
  rw [sqlLikeMatchUtf8, sqlLikeMatch]
  rw [List.length_map]
  split
  · rfl
  · next hlen =>
    have hne : (pattern.toList.splitOn '%').length ≠ 0 := by simp
    exact likeScan_eq [] value.toList _ 0 (fun _ => rfl) (by omega)

end Scan

/-- `sql_like_match` is true exactly if the value consists of the parts of the pattern with some
text for every wildcard between them. -/
theorem sql_like_match_iff_filled (value pattern : String) :
    ∃ matched, sqlLikeMatchUtf8 value pattern = some matched ∧
      (matched = true ↔ ∃ fillings : List (List Char),
        fillings.length + 1 = (pattern.toList.splitOn '%').length ∧
        value.toList =
          (List.zipWith (· ++ ·) (pattern.toList.splitOn '%') (fillings ++ [[]])).flatten) := by
  refine ⟨sqlLikeMatch value pattern, sqlLikeMatchUtf8_eq value pattern, ?_⟩
  rw [sqlLikeMatch_eq, Wildcard.matches_iff_matchesParts,
    Wildcard.matchesParts_iff_filled (List.splitOn_ne_nil '%' _)]

example : sqlLikeMatchUtf8 "dépôt-é" "d%t%é" = some true := by decide

end ArtifactKeeper.Auth
