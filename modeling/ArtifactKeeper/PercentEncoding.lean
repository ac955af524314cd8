import Mathlib.Data.List.Basic
import Mathlib.Logic.Function.Iterate
import Mathlib.Tactic.Common

/-! Percent-encoded bytes, decoded once or layer by layer. -/

namespace PercentEncoding

def hexDigit (b : UInt8) : Option UInt8 :=
  if 48 ≤ b ∧ b ≤ 57 then some (b - 48)
  else if 97 ≤ b ∧ b ≤ 102 then some (b - 87)
  else if 65 ≤ b ∧ b ≤ 70 then some (b - 55)
  else none

/-- Every `%` in front of two hexadecimal digits becomes the byte that they stand for. -/
def percentDecode : List UInt8 → List UInt8
  | [] => []
  | 37 :: a :: b :: rest =>
    match hexDigit a, hexDigit b with
    | some hi, some lo => (hi * 16 + lo) :: percentDecode rest
    | _, _ => 37 :: percentDecode (a :: b :: rest)
  | c :: rest => c :: percentDecode rest

/-- The bytes behind `k` layers of encoding. -/
def layer (k : ℕ) (bytes : List UInt8) : List UInt8 := percentDecode^[k] bytes

@[simp] theorem layer_zero (bytes : List UInt8) : layer 0 bytes = bytes := rfl

theorem hexDigit_le {b h : UInt8} (hb : hexDigit b = some h) : h ≤ 15 := by
  unfold hexDigit at hb
  split_ifs at hb <;> grind

theorem percentDecode_escape {a c hi lo : UInt8} (hhi : hexDigit a = some hi)
    (hlo : hexDigit c = some lo) (rest : List UInt8) :
    percentDecode (37 :: a :: c :: rest) = (hi * 16 + lo) :: percentDecode rest := by
  rw [percentDecode, hhi, hlo]

/-- The escapes of a byte, by the values of their digits. -/
theorem escape_digits {a c hi lo : UInt8} {n m : ℕ} (hn : n < 16) (hm : m < 16)
    (hhi : hexDigit a = some hi) (hlo : hexDigit c = some lo)
    (h : hi * 16 + lo = UInt8.ofNat (n * 16 + m)) :
    hexDigit a = some (UInt8.ofNat n) ∧ hexDigit c = some (UInt8.ofNat m) := by
  have hhi' := UInt8.le_iff_toNat_le.mp (hexDigit_le hhi)
  have hlo' := UInt8.le_iff_toNat_le.mp (hexDigit_le hlo)
  have hnat := congrArg UInt8.toNat h
  rw [UInt8.toNat_add, UInt8.toNat_mul, UInt8.toNat_ofNat'] at hnat
  have h15 : (15 : UInt8).toNat = 15 := rfl
  have h16 : (16 : UInt8).toNat = 16 := rfl
  rw [h15] at hhi' hlo'
  rw [h16] at hnat
  have hhin : hi.toNat = n := by omega
  have hlom : lo.toNat = m := by omega
  rw [hhi, hlo, ← hhin, ← hlom, UInt8.ofNat_toNat, UInt8.ofNat_toNat]
  exact ⟨rfl, rfl⟩

/-- A digit is written in one way, a letter in two. -/
theorem hexDigit_eq_iff {a h : UInt8} :
    hexDigit a = some h ↔
      a = h + 48 ∧ h ≤ 9 ∨ (a = h + 87 ∨ a = h + 55) ∧ 10 ≤ h ∧ h ≤ 15 := by
  unfold hexDigit
  split_ifs <;> grind

theorem percentDecode_eq_nil {s : List UInt8} : percentDecode s = [] ↔ s = [] := by
  fun_cases percentDecode s <;> simp

/-- A byte that begins no escape is decoded by itself. -/
theorem percentDecode_cons {b : UInt8} {rest : List UInt8}
    (h : b = 37 → ∀ a c tail, rest = a :: c :: tail → hexDigit a = none ∨ hexDigit c = none) :
    percentDecode (b :: rest) = b :: percentDecode rest := by
  rw [percentDecode.eq_def]
  split
  · contradiction
  · rename_i a c tail heq
    obtain ⟨rfl, rfl⟩ := List.cons.inj heq
    split
    · rename_i hi lo hhi hlo
      rcases h rfl a c tail rfl with hnone | hnone
      · rw [hnone] at hhi
        cases hhi
      · rw [hnone] at hlo
        cases hlo
    · rfl
  · rename_i heq
    obtain ⟨rfl, rfl⟩ := List.cons.inj heq
    rfl

/-- No escape goes over into what begins with a byte that is no hexadecimal digit. -/
theorem percentDecode_append {after : List UInt8} (h : ∀ b ∈ after.head?, hexDigit b = none)
    (before : List UInt8) :
    percentDecode (before ++ after) = percentDecode before ++ percentDecode after := by
  fun_induction percentDecode before with
  | case1 => rfl
  | case2 a c rest hi lo hlo hhi ih =>
    rw [List.cons_append, List.cons_append, List.cons_append, percentDecode_escape hhi hlo, ih,
      List.cons_append]
  | case3 a c rest hnot ih =>
    rw [List.cons_append, percentDecode_cons, ih, List.cons_append]
    rintro - x y tail htail
    obtain ⟨rfl, rfl, -⟩ : a = x ∧ c = y ∧ _ := by simpa using htail
    by_contra hsome
    rw [not_or, ← ne_eq, ← ne_eq, Option.ne_none_iff_exists', Option.ne_none_iff_exists'] at hsome
    obtain ⟨⟨hi, hhi⟩, lo, hlo⟩ := hsome
    exact hnot hi lo hhi hlo
  | case4 d rest hnot ih =>
    rw [List.cons_append, percentDecode_cons, ih, List.cons_append]
    rintro rfl x y tail htail
    cases rest with
    | nil =>
      rw [List.nil_append] at htail
      exact .inl (h x (by simp [htail]))
    | cons z rest =>
      cases rest with
      | nil =>
        have hafter : after = y :: tail := (List.cons.inj htail).2
        exact .inr (h y (by simp [hafter]))
      | cons w rest => exact absurd rfl (hnot z w rest rfl)

/-- What the decoded bytes begin with: a byte of their own or an escape. -/
theorem percentDecode_eq_cons {s t : List UInt8} {b : UInt8} (h : percentDecode s = b :: t) :
    (∃ s', s = b :: s' ∧ percentDecode s' = t) ∨
      ∃ a c hi lo s', hexDigit a = some hi ∧ hexDigit c = some lo ∧ hi * 16 + lo = b ∧
        s = 37 :: a :: c :: s' ∧ percentDecode s' = t := by
  fun_induction percentDecode s with
  | case1 => cases h
  | case2 a c rest hi lo hlo hhi ih =>
    obtain ⟨hb, ht⟩ := List.cons.inj h
    exact .inr ⟨a, c, hi, lo, rest, hhi, hlo, hb, rfl, ht⟩
  | case3 a c rest hnot ih =>
    obtain ⟨rfl, ht⟩ := List.cons.inj h
    exact .inl ⟨_, rfl, ht⟩
  | case4 d rest hnot ih =>
    obtain ⟨rfl, ht⟩ := List.cons.inj h
    exact .inl ⟨_, rfl, ht⟩

/-- What stands in the decoded bytes was there, or is the value of an escape. -/
theorem mem_percentDecode {b : UInt8} {bytes : List UInt8} (h : b ∈ percentDecode bytes) :
    b ∈ bytes ∨ ∃ a c hi lo, hexDigit a = some hi ∧ hexDigit c = some lo ∧ hi * 16 + lo = b ∧
      [37, a, c] <:+: bytes := by
  fun_induction percentDecode bytes with
  | case1 => cases h
  | case2 a c rest hi lo hlo hhi ih =>
    rcases List.mem_cons.mp h with rfl | h
    · exact .inr ⟨a, c, hi, lo, hhi, hlo, rfl, [], rest, rfl⟩
    · rcases ih h with hmem | ⟨a', c', hi', lo', ha, hc, hb, hin⟩
      · exact .inl (by simp [hmem])
      · exact .inr ⟨a', c', hi', lo', ha, hc, hb, hin.trans ⟨[37, a, c], [], by simp⟩⟩
  | case3 a c rest hnot ih =>
    rcases List.mem_cons.mp h with rfl | h
    · exact .inl List.mem_cons_self
    · rcases ih h with hmem | ⟨a', c', hi', lo', ha, hc, hb, hin⟩
      · exact .inl (List.mem_cons_of_mem _ hmem)
      · exact .inr ⟨a', c', hi', lo', ha, hc, hb, hin.trans (List.suffix_cons _ _).isInfix⟩
  | case4 c rest hnot ih =>
    rcases List.mem_cons.mp h with rfl | h
    · exact .inl List.mem_cons_self
    · rcases ih h with hmem | ⟨a', c', hi', lo', ha, hc, hb, hin⟩
      · exact .inl (List.mem_cons_of_mem _ hmem)
      · exact .inr ⟨a', c', hi', lo', ha, hc, hb, hin.trans (List.suffix_cons _ _).isInfix⟩

/-- An escape is decoded wherever it stands. -/
theorem mem_percentDecode_of_escape {a c hi lo : UInt8} {bytes : List UInt8}
    (hhi : hexDigit a = some hi) (hlo : hexDigit c = some lo) (h : [37, a, c] <:+: bytes) :
    hi * 16 + lo ∈ percentDecode bytes := by
  obtain ⟨before, after, rfl⟩ := h
  have hpercent : ∀ b ∈ ([37, a, c] ++ after).head?, hexDigit b = none := by
    simp [show hexDigit 37 = none from rfl]
  rw [List.append_assoc, percentDecode_append hpercent, List.cons_append, List.cons_append,
    List.singleton_append, percentDecode_escape hhi hlo]
  simp
theorem percentDecode_of_not_mem {bytes : List UInt8} (h : 37 ∉ bytes) :
    percentDecode bytes = bytes := by
  induction bytes with
  | nil => rfl
  | cons c rest ih =>
    rw [List.mem_cons, not_or] at h
    rw [percentDecode, ih h.2]
    rintro a b rest' rfl
    exact absurd rfl h.1

theorem layer_of_fixed {bytes : List UInt8} (h : percentDecode bytes = bytes) (k : ℕ) :
    layer k bytes = bytes := Function.iterate_fixed h k

section Encode

/-- The letters, the digits and `-`, `.`, `_`, `~`. -/
def unreserved (b : UInt8) : Bool :=
  (48 ≤ b && b ≤ 57) || (65 ≤ b && b ≤ 90) || (97 ≤ b && b ≤ 122) || b == 45 || b == 46 ||
    b == 95 || b == 126

/-- The upper-case digit of a value below 16. -/
def upperDigit (n : UInt8) : UInt8 := if n < 10 then n + 48 else n + 55

def percentEncode (bytes : List UInt8) : List UInt8 :=
  bytes.flatMap fun b =>
    if unreserved b then [b] else [37, upperDigit (b / 16), upperDigit (b % 16)]

theorem hexDigit_upperDigit {n : UInt8} (h : n ≤ 15) : hexDigit (upperDigit n) = some n := by
  rw [hexDigit_eq_iff, upperDigit]
  split <;> grind

theorem percentDecode_percentEncode (bytes : List UInt8) :
    percentDecode (percentEncode bytes) = bytes := by
  induction bytes with
  | nil => rfl
  | cons b bytes ih =>
    rw [percentEncode, List.flatMap_cons, ← percentEncode]
    split
    · next hb =>
      have hne : b ≠ 37 := by
        rintro rfl
        exact absurd hb (by decide)
      rw [List.singleton_append, percentDecode_cons fun h => (hne h).elim, ih]
    · have hhi : b / 16 ≤ 15 := by grind
      have hlo : b % 16 ≤ 15 := by grind
      simp only [List.cons_append, List.nil_append]
      rw [percentDecode_escape (hexDigit_upperDigit hhi) (hexDigit_upperDigit hlo), ih]
      congr 1
      grind

end Encode

end PercentEncoding
