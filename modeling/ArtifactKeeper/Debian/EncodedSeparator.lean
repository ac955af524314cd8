import ArtifactKeeper.Bytes
import ArtifactKeeper.PercentEncoding
import Mathlib.Data.List.Infix
import Mathlib.Data.Nat.Find
import Mathlib.Tactic.FinCases

/-! The guard of the Debian proxy against encoded path separators. A path is its UTF-8 bytes. -/

namespace ArtifactKeeper.Debian

open Bytes PercentEncoding

def asciiLower (b : UInt8) : UInt8 := if 65 ≤ b ∧ b ≤ 90 then b + 32 else b

/-- `lower.contains("%2f") || lower.contains("%5c")`. -/
def containsSeparator (cur : List UInt8) : Bool :=
  let lower := cur.map asciiLower
  decide ([37, 50, 102] <:+: lower) || decide ([37, 53, 99] <:+: lower)

/-- The loop of `has_encoded_path_separator` with `rounds` to go. -/
def peelSeparators (urlDecode : List UInt8 → Option (List UInt8)) : ℕ → List UInt8 → Bool
  | 0, _ => true
  | rounds + 1, cur =>
    if containsSeparator cur then true
    else if 37 ∉ cur then false
    else
      match urlDecode cur with
      | some decoded => if decoded = cur then false else peelSeparators urlDecode rounds decoded
      | none => false

def hasEncodedPathSeparator (urlDecode : List UInt8 → Option (List UInt8)) (raw : List UInt8) :
    Bool :=
  peelSeparators urlDecode 8 raw

/-- `urlencoding::decode` as documented: the decoded bytes, if they are UTF-8. -/
def DecodesUtf8 (urlDecode : List UInt8 → Option (List UInt8)) : Prop :=
  ∀ bytes, urlDecode bytes = (ofUtf8 (percentDecode bytes)).map utf8

def ValidUtf8 (bytes : List UInt8) : Prop := (ofUtf8 bytes).isSome

instance (bytes : List UInt8) : Decidable (ValidUtf8 bytes) :=
  inferInstanceAs (Decidable (_ = true))

/-- `%2f`, `%2F`, `%5c` or `%5C` is somewhere in the bytes. -/
def EncodesSeparator (bytes : List UInt8) : Prop :=
  ∃ s ∈ ([[37, 50, 102], [37, 50, 70], [37, 53, 99], [37, 53, 67]] : List (List UInt8)),
    s <:+: bytes

section Characters

theorem asciiLower_eq_iff {b c : UInt8} (hc : ¬ (65 ≤ c ∧ c ≤ 90)) :
    asciiLower b = c ↔ b = c ∨ (97 ≤ c ∧ c ≤ 122) ∧ b = c - 32 := by
  unfold asciiLower
  split <;> grind

/-- Lowering the case finds an escape of one digit and one small letter in both cases. -/
theorem escape_infix_lower_iff {digit letter : UInt8} (hdigit : ¬ 65 ≤ digit)
    (hletter : 97 ≤ letter ∧ letter ≤ 122) (cur : List UInt8) :
    [37, digit, letter] <:+: cur.map asciiLower ↔
      [37, digit, letter] <:+: cur ∨ [37, digit, letter - 32] <:+: cur := by
  have hpercent (b : UInt8) : asciiLower b = 37 ↔ b = 37 := by
    rw [asciiLower_eq_iff (by decide)]
    simp
  have hdigit' (b : UInt8) : asciiLower b = digit ↔ b = digit := by
    rw [asciiLower_eq_iff (fun h => hdigit h.1)]
    grind
  have hletter' (b : UInt8) : asciiLower b = letter ↔ b = letter ∨ b = letter - 32 := by
    rw [asciiLower_eq_iff (by grind)]
    simp [hletter]
  rw [List.infix_map_iff]
  constructor
  · rintro ⟨escape, hocc, hescape⟩
    obtain ⟨b₀, rest, rfl, h₀, hrest⟩ := List.map_eq_cons_iff.mp hescape.symm
    obtain ⟨b₁, rest, rfl, h₁, hrest⟩ := List.map_eq_cons_iff.mp hrest
    obtain ⟨b₂, rest, rfl, h₂, hrest⟩ := List.map_eq_cons_iff.mp hrest
    obtain rfl := List.map_eq_nil_iff.mp hrest
    rw [hpercent] at h₀
    rw [hdigit'] at h₁
    subst h₀ h₁
    rcases (hletter' b₂).mp h₂ with rfl | rfl
    · exact .inl hocc
    · exact .inr hocc
  · rintro (h | h)
    · have hlower := (hletter' letter).mpr (.inl rfl)
      exact ⟨_, h, by simp [(hpercent _).mpr rfl, (hdigit' _).mpr rfl, hlower]⟩
    · have hlower := (hletter' (letter - 32)).mpr (.inr rfl)
      exact ⟨_, h, by simp [(hpercent _).mpr rfl, (hdigit' _).mpr rfl, hlower]⟩

theorem containsSeparator_iff (cur : List UInt8) :
    containsSeparator cur = true ↔ EncodesSeparator cur := by
  have hslash := @escape_infix_lower_iff 50 102 (by decide) (by decide) cur
  have hback := @escape_infix_lower_iff 53 99 (by decide) (by decide) cur
  rw [containsSeparator, Bool.or_eq_true, decide_eq_true_iff, decide_eq_true_iff, hslash, hback]
  simp [EncodesSeparator, or_assoc]

end Characters

section Loop
variable {urlDecode : List UInt8 → Option (List UInt8)}

theorem urlDecode_of_valid (hdecode : DecodesUtf8 urlDecode) {cur : List UInt8}
    (h : ValidUtf8 (percentDecode cur)) : urlDecode cur = some (percentDecode cur) := by
  obtain ⟨s, hs⟩ := Option.isSome_iff_exists.mp h
  rw [hdecode, hs, Option.map_some, ofUtf8_eq_some_iff.mp hs]

theorem urlDecode_of_invalid (hdecode : DecodesUtf8 urlDecode) {cur : List UInt8}
    (h : ¬ ValidUtf8 (percentDecode cur)) : urlDecode cur = none := by
  rw [hdecode, Option.map_eq_none_iff]
  exact Option.not_isSome_iff_eq_none.mp h

/-- A separator is found if all the layers down to its own are UTF-8. -/
theorem peelSeparators_of_valid (hdecode : DecodesUtf8 urlDecode) (rounds : ℕ) (cur : List UInt8)
    (k : ℕ) (hk : k ≤ rounds) (hsep : EncodesSeparator (layer k cur))
    (hvalid : ∀ j, 1 ≤ j → j ≤ k → ValidUtf8 (layer j cur)) :
    peelSeparators urlDecode rounds cur = true := by
  induction rounds generalizing cur k with
  | zero => rfl
  | succ rounds ih =>
    rw [peelSeparators]
    split
    · rfl
    next hnow =>
    cases k with
    | zero => exact absurd ((containsSeparator_iff cur).mpr hsep) hnow
    | succ k =>
      have hmoves : percentDecode cur ≠ cur := by
        intro hfixed
        rw [layer_of_fixed hfixed] at hsep
        exact hnow ((containsSeparator_iff cur).mpr hsep)
      rw [if_neg fun hmem => hmoves (percentDecode_of_not_mem hmem),
        urlDecode_of_valid hdecode (hvalid 1 le_rfl (by omega))]
      dsimp only
      rw [if_neg hmoves]
      apply ih (percentDecode cur) k (by omega) hsep
      intro j hj hjk
      exact hvalid (j + 1) (by omega) (by omega)

/-- A layer that is not UTF-8 ends the loop before any separator behind it is seen. -/
theorem peelSeparators_of_invalid (hdecode : DecodesUtf8 urlDecode) (rounds : ℕ)
    (cur : List UInt8) (j : ℕ) (hj : j < rounds) (hinvalid : ¬ ValidUtf8 (layer (j + 1) cur))
    (hsep : ∀ i ≤ j, ¬ EncodesSeparator (layer i cur)) :
    peelSeparators urlDecode rounds cur = false := by
  induction rounds generalizing cur j with
  | zero => omega
  | succ rounds ih =>
    have hnow : ¬ containsSeparator cur = true := fun h =>
      hsep 0 (by omega) ((containsSeparator_iff cur).mp h)
    rw [peelSeparators, if_neg hnow]
    split
    · rfl
    by_cases hvalid : ValidUtf8 (percentDecode cur)
    · rw [urlDecode_of_valid hdecode hvalid]
      dsimp only
      split
      · rfl
      cases j with
      | zero => exact absurd hvalid hinvalid
      | succ j =>
        apply ih (percentDecode cur) j (by omega) hinvalid
        intro i hi
        exact hsep (i + 1) (by omega)
    · rw [urlDecode_of_invalid hdecode hvalid]

end Loop

/-- Every separator within eight layers is refused exactly if no layer that is not UTF-8 comes
before the first of them. -/
theorem encoded_separator_refused_iff {urlDecode : List UInt8 → Option (List UInt8)}
    (hdecode : DecodesUtf8 urlDecode) (raw : List UInt8) :
    ((∃ k ≤ 8, EncodesSeparator (layer k raw)) →
        hasEncodedPathSeparator urlDecode raw = true) ↔
      ∀ j k, 1 ≤ j → j ≤ k → k ≤ 8 → ¬ ValidUtf8 (layer j raw) → EncodesSeparator (layer k raw) →
        ∃ i < j, EncodesSeparator (layer i raw) := by
  constructor
  · intro h j k hj hjk hk hinvalid hsep
    by_contra hnone
    push Not at hnone
    obtain ⟨j, rfl⟩ : ∃ i, j = i + 1 := ⟨j - 1, by omega⟩
    have hfalse := peelSeparators_of_invalid hdecode 8 raw j (by omega) hinvalid
      fun i hi => hnone i (by omega)
    exact absurd ((h ⟨k, hk, hsep⟩).symm.trans hfalse) (by decide)
  · rintro hcond ⟨k, hk, hsep⟩
    classical
    -- the first separator, before which every layer is UTF-8
    have hex : ∃ k, EncodesSeparator (layer k raw) := ⟨k, hsep⟩
    let first := Nat.find hex
    have hfirst : EncodesSeparator (layer first raw) := Nat.find_spec hex
    have hle : first ≤ k := Nat.find_min' hex hsep
    apply peelSeparators_of_valid hdecode 8 raw first (by omega) hfirst
    intro j hj hjk
    by_contra hinvalid
    obtain ⟨i, hi, hearlier⟩ := hcond j first hj hjk (by omega) hinvalid hfirst
    exact Nat.find_min hex (show i < Nat.find hex by omega) hearlier

/-- What `urlencoding::decode` does, as a function. -/
def decodeUtf8 (bytes : List UInt8) : Option (List UInt8) :=
  (ofUtf8 (percentDecode bytes)).map utf8

/-- `main%252fcontrib`. -/
def twiceEncodedSlash : List UInt8 :=
  [109, 97, 105, 110, 37, 50, 53, 50, 102, 99, 111, 110, 116, 114, 105, 98]

theorem twiceEncodedSlash_refused :
    hasEncodedPathSeparator decodeUtf8 twiceEncodedSlash = true := by
  refine (encoded_separator_refused_iff (fun _ => rfl) twiceEncodedSlash).mpr ?_ ⟨1, by decide, ?_⟩
  · intro j k hj hjk hk hinvalid
    have hlayers : ∀ j < 9, ValidUtf8 (layer j twiceEncodedSlash) := by decide +kernel
    exact absurd (hlayers j (by omega)) hinvalid
  · exact ⟨[37, 50, 102], by decide, by decide⟩

/-- `%ff%252f`: the escape of a byte that is not UTF-8 hides the separator in the next layer. -/
theorem invalid_utf8_hides_separator :
    EncodesSeparator (layer 1 [37, 102, 102, 37, 50, 53, 50, 102]) ∧
      hasEncodedPathSeparator decodeUtf8 [37, 102, 102, 37, 50, 53, 50, 102] = false :=
  ⟨⟨[37, 50, 102], by decide, by decide⟩, by decide +kernel⟩

end ArtifactKeeper.Debian
