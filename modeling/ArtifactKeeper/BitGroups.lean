import Mathlib.Data.List.Basic
import Mathlib.Data.Nat.Bitwise

/-! Numbers of a fixed width as bits, the most significant first, and streams of bits cut into
numbers. Nothing here is about a particular encoding. -/

namespace BitGroups

/-- The low `width` bits of `n`. -/
def bitsOf (width n : ℕ) : List Bool := (List.range width).map fun i => n.testBit (width - 1 - i)

/-- What a buffer of 32 bits has behind the next `width` bits. -/
def push (width buffer n : ℕ) : ℕ := (buffer <<< width) % 2 ^ 32 ||| n

variable {width k n m buffer : ℕ}

@[simp] theorem length_bitsOf (width n : ℕ) : (bitsOf width n).length = width := by simp [bitsOf]

theorem getElem_bitsOf {i : ℕ} (h : i < (bitsOf width n).length) :
    (bitsOf width n)[i] = n.testBit (width - 1 - i) := by simp [bitsOf]

theorem bitsOf_congr (h : ∀ i < width, n.testBit i = m.testBit i) :
    bitsOf width n = bitsOf width m := by
  refine List.map_congr_left fun i hi => h _ ?_
  have hlt := List.mem_range.mp hi
  omega

theorem bitsOf_add (k width n : ℕ) :
    bitsOf (k + width) n = bitsOf k (n >>> width) ++ bitsOf width n := by
  refine List.ext_getElem (by simp) fun i h₁ h₂ => ?_
  rw [length_bitsOf] at h₁
  rw [getElem_bitsOf, List.getElem_append]
  split
  · next hi =>
    rw [length_bitsOf] at hi
    rw [getElem_bitsOf, Nat.testBit_shiftRight]
    congr 1
    omega
  · next hi =>
    rw [length_bitsOf] at hi
    rw [getElem_bitsOf, length_bitsOf]
    congr 1
    omega

/-- Equal bits are equal numbers. -/
theorem bitsOf_injective (hn : n < 2 ^ width) (hm : m < 2 ^ width)
    (h : bitsOf width n = bitsOf width m) : n = m := by
  refine Nat.eq_of_testBit_eq fun i => ?_
  by_cases hi : i < width
  · have hbit : (bitsOf width n)[width - 1 - i]? = (bitsOf width m)[width - 1 - i]? := by rw [h]
    rw [List.getElem?_eq_getElem (by rw [length_bitsOf]; omega),
      List.getElem?_eq_getElem (by rw [length_bitsOf]; omega), getElem_bitsOf,
      getElem_bitsOf, Option.some.injEq, show width - 1 - (width - 1 - i) = i by omega] at hbit
    exact hbit
  · have hpow : 2 ^ width ≤ 2 ^ i := Nat.pow_le_pow_right (by decide) (not_lt.mp hi)
    rw [Nat.testBit_lt_two_pow (hn.trans_le hpow), Nat.testBit_lt_two_pow (hm.trans_le hpow)]

theorem bitsOf_push (hk : k + width ≤ 32) (hn : n < 2 ^ width) :
    bitsOf (k + width) (push width buffer n) = bitsOf k buffer ++ bitsOf width n := by
  rw [bitsOf_add]
  congr 1
  · refine bitsOf_congr fun i hi => ?_
    have hhigh : n.testBit (width + i) = false :=
      Nat.testBit_lt_two_pow (hn.trans_le (Nat.pow_le_pow_right (by decide) (by omega)))
    have hlow : width + i < 32 := by omega
    rw [Nat.testBit_shiftRight, push, Nat.testBit_or, hhigh, Bool.or_false,
      Nat.testBit_mod_two_pow, Nat.testBit_shiftLeft, decide_eq_true hlow, Bool.true_and,
      decide_eq_true (Nat.le_add_right width i), Bool.true_and, Nat.add_sub_cancel_left]
  · refine bitsOf_congr fun i hi => ?_
    rw [push, Nat.testBit_or, Nat.testBit_mod_two_pow, Nat.testBit_shiftLeft,
      decide_eq_false (not_le.mpr hi), Bool.false_and, Bool.and_false, Bool.false_or]

/-- The number in front of the last `k` bits of a buffer. -/
def front (width buffer k : ℕ) : ℕ := (buffer >>> k) &&& (2 ^ width - 1)

theorem front_lt (width buffer k : ℕ) : front width buffer k < 2 ^ width := by
  rw [front, Nat.and_two_pow_sub_one_eq_mod]
  exact Nat.mod_lt _ (Nat.two_pow_pos width)

theorem bitsOf_front (width buffer k : ℕ) :
    bitsOf (width + k) buffer = bitsOf width (front width buffer k) ++ bitsOf k buffer := by
  rw [bitsOf_add]
  congr 1
  refine bitsOf_congr fun i hi => ?_
  rw [front, Nat.and_two_pow_sub_one_eq_mod, Nat.testBit_mod_two_pow, decide_eq_true hi,
    Bool.true_and]

/-- The bits of a list of numbers of one width. -/
def bitStream (width : ℕ) (ns : List ℕ) : List Bool := ns.flatMap (bitsOf width)

@[simp] theorem bitStream_nil : bitStream width [] = [] := rfl

@[simp] theorem bitStream_cons (n : ℕ) (ns : List ℕ) :
    bitStream width (n :: ns) = bitsOf width n ++ bitStream width ns := rfl

@[simp] theorem bitStream_append (ns ms : List ℕ) :
    bitStream width (ns ++ ms) = bitStream width ns ++ bitStream width ms := List.flatMap_append

/-- A stream is cut into numbers and less than one more in one way only. -/
theorem bitStream_unique {ns ms : List ℕ} {rest rest' : List Bool} (hns : ∀ n ∈ ns, n < 2 ^ width)
    (hms : ∀ m ∈ ms, m < 2 ^ width) (hrest : rest.length < width) (hrest' : rest'.length < width)
    (h : bitStream width ns ++ rest = bitStream width ms ++ rest') : ns = ms ∧ rest = rest' := by
  induction ns generalizing ms with
  | nil =>
    cases ms with
    | nil => exact ⟨rfl, h⟩
    | cons m ms =>
      have hlength := congrArg List.length h
      simp only [bitStream_nil, bitStream_cons, List.length_append, List.length_nil,
        length_bitsOf] at hlength
      omega
  | cons n ns ih =>
    cases ms with
    | nil =>
      have hlength := congrArg List.length h
      simp only [bitStream_nil, bitStream_cons, List.length_append, List.length_nil,
        length_bitsOf] at hlength
      omega
    | cons m ms =>
      rw [bitStream_cons, bitStream_cons, List.append_assoc, List.append_assoc] at h
      obtain ⟨hbits, htail⟩ := List.append_inj h (by simp)
      obtain rfl := bitsOf_injective (hns n List.mem_cons_self) (hms m List.mem_cons_self) hbits
      obtain ⟨rfl, hsame⟩ := ih (fun n hn => hns n (List.mem_cons_of_mem _ hn))
        (fun m hm => hms m (List.mem_cons_of_mem _ hm)) htail
      exact ⟨rfl, hsame⟩

end BitGroups
