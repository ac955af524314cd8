import Mathlib.Data.List.Basic
import Mathlib.Data.Option.Basic
import Mathlib.Data.Set.Operations

/-! Lexicographic comparison of lists of unequal length in which the missing part of the shorter one
counts as padding, and when such a comparison is transitive. Nothing here is about a particular
program. -/

namespace PaddedLex
open Std
variable {α : Type*} (cmp : α → α → Ordering) (rest : List α → Ordering)

/-- Compare place by place by `cmp`; what one list has beyond the other is compared with padding by
`rest`. -/
def order : List α → List α → Ordering
  | [], ys => (rest ys).swap
  | x :: xs, [] => rest (x :: xs)
  | x :: xs, y :: ys => (cmp x y).then (order xs ys)

/-- What a list has beyond an initial part that is equal to `b` place by place. -/
def remainder : List α → List α → Option (List α)
  | [], ys => some ys
  | _ :: _, [] => none
  | x :: xs, y :: ys => if cmp x y = .eq then remainder xs ys else none

/-- Two comparisons with padding fix the comparison with each other, except where both are strict
and on the same side. -/
def Agrees (left right o : Ordering) : Prop :=
  (left = right → left = .eq) → o = left.then right.swap

instance (left right o : Ordering) : Decidable (Agrees left right o) :=
  inferInstanceAs (Decidable (_ → _))

/-- Where `b` is an initial part of both lists, their remainders compare with each other as they do
through the padding. -/
def Coherent (b a c : List α) : Prop :=
  ∀ a' ∈ remainder cmp b a, ∀ c' ∈ remainder cmp b c,
    Agrees (rest a') (rest c') (order cmp rest a' c')

variable {cmp rest}

theorem coherent_cons_iff [TransCmp cmp] {x y z : α} {xs ys zs : List α} (hxy : cmp y x = .eq)
    (hyz : cmp y z = .eq) :
    Coherent cmp rest (y :: ys) (x :: xs) (z :: zs) ↔ Coherent cmp rest ys xs zs := by
  simp only [Coherent, remainder, hxy, hyz, if_true]

theorem order_of_remainder [OrientedCmp cmp] (hnil : rest [] = .eq) {a b a' : List α}
    (h : remainder cmp b a = some a') : order cmp rest a b = rest a' := by
  induction b generalizing a with
  | nil =>
    obtain rfl : a = a' := by simpa [remainder] using h
    cases a with
    | nil => simp [order, hnil]
    | cons x xs => rfl
  | cons y ys ih =>
    cases a with
    | nil => simp [remainder] at h
    | cons x xs =>
      simp only [remainder] at h
      split at h
      · next heq =>
        rw [order, OrientedCmp.eq_symm heq, Ordering.eq_then]
        exact ih h
      · cases h

theorem order_of_remainders [TransCmp cmp] {a b c a' c' : List α}
    (ha : remainder cmp b a = some a') (hc : remainder cmp b c = some c') :
    order cmp rest a c = order cmp rest a' c' := by
  induction b generalizing a c with
  | nil =>
    obtain rfl : a = a' := by simpa [remainder] using ha
    obtain rfl : c = c' := by simpa [remainder] using hc
    rfl
  | cons y ys ih =>
    cases a with
    | nil => simp [remainder] at ha
    | cons x xs =>
      cases c with
      | nil => simp [remainder] at hc
      | cons z zs =>
        simp only [remainder] at ha hc
        split at ha
        · next hyx =>
          split at hc
          · next hyz =>
            rw [order, TransCmp.eq_trans (OrientedCmp.eq_symm hyx) hyz, Ordering.eq_then]
            exact ih ha hc
          · cases hc
        · cases ha

theorem order_swap [OrientedCmp cmp] (hnil : rest [] = .eq) (a b : List α) :
    order cmp rest b a = (order cmp rest a b).swap := by
  induction a generalizing b with
  | nil =>
    cases b with
    | nil => simp [order, hnil]
    | cons y ys => simp [order]
  | cons x xs ih =>
    cases b with
    | nil => simp [order]
    | cons y ys =>
      rw [order, order, ih, Ordering.swap_then, ← OrientedCmp.eq_swap (a := y)]

theorem Agrees.isLE : ∀ {left right o : Ordering}, Agrees left right o → left.isLE → right.isGE →
    o.isLE := by
  decide

theorem Agrees.isGE_right : ∀ {left right o : Ordering}, Agrees left right o → left.isGE →
    o.isLE → right.isGE := by
  decide

theorem Agrees.isLE_left : ∀ {left right o : Ordering}, Agrees left right o → right.isLE →
    o.isLE → left.isLE := by
  decide

theorem order_nil_right (hnil : rest [] = .eq) (a : List α) : order cmp rest a [] = rest a := by
  cases a with
  | nil => simp [order, hnil]
  | cons x xs => rfl

/-- Transitivity at three lists that are coherent whichever of them is the initial part. -/
theorem order_trans_of_coherent [TransCmp cmp] (hnil : rest [] = .eq) {a b c : List α}
    (hb : Coherent cmp rest b a c) (ha : Coherent cmp rest a b c) (hc : Coherent cmp rest c a b)
    (hab : (order cmp rest a b).isLE) (hbc : (order cmp rest b c).isLE) :
    (order cmp rest a c).isLE := by
  induction b generalizing a c with
  | nil =>
    rw [order_nil_right hnil] at hab
    rw [order, Ordering.isLE_swap] at hbc
    exact (hb a rfl c rfl).isLE hab hbc
  | cons y ys ih =>
    cases a with
    | nil =>
      rw [order, Ordering.isLE_swap] at hab ⊢
      exact (ha _ rfl c rfl).isGE_right hab hbc
    | cons x xs =>
      cases c with
      | nil =>
        rw [order_nil_right hnil] at hbc ⊢
        exact (hc _ rfl _ rfl).isLE_left hbc hab
      | cons z zs =>
        simp only [order, Ordering.isLE_then_iff_or] at hab hbc ⊢
        rcases hab with hxy | ⟨hxy, hab⟩ <;> rcases hbc with hyz | ⟨hyz, hbc⟩
        · exact .inl (TransCmp.lt_trans hxy hyz)
        · exact .inl (TransCmp.lt_of_lt_of_eq hxy hyz)
        · exact .inl (TransCmp.lt_of_eq_of_lt hxy hyz)
        · -- the three heads are equal, so coherence passes to the tails
          have hyx := OrientedCmp.eq_symm hxy
          have hzy := OrientedCmp.eq_symm hyz
          have hxz := TransCmp.eq_trans hxy hyz
          refine .inr ⟨hxz, ih ?_ ?_ ?_ hab hbc⟩
          · exact (coherent_cons_iff hyx hyz).mp hb
          · exact (coherent_cons_iff hxy hxz).mp ha
          · exact (coherent_cons_iff (OrientedCmp.eq_symm hxz) hzy).mp hc

/-- What transitivity leaves for the comparison of two lists that are compared with a third. -/
theorem Agrees.of_trans : ∀ {left right o : Ordering}, (left.isLE → right.isGE → o.isLE) →
    (left.isGE → right.isLE → o.isGE) → (o.isGE → left.isLE → right.isLE) →
    (o.isLE → left.isGE → right.isGE) → (o.isGE → right.isGE → left.isGE) →
    (o.isLE → right.isLE → left.isLE) → Agrees left right o := by
  decide

/-- Among the lists of a set the comparison is transitive exactly when they are coherent. -/
theorem order_trans_iff_coherent [TransCmp cmp] (hnil : rest [] = .eq) (S : Set (List α)) :
    (∀ a ∈ S, ∀ b ∈ S, ∀ c ∈ S, (order cmp rest a b).isLE → (order cmp rest b c).isLE →
      (order cmp rest a c).isLE) ↔
    ∀ a ∈ S, ∀ b ∈ S, ∀ c ∈ S, Coherent cmp rest b a c := by
  constructor
  · intro htrans a ha b hb c hc a' ha' c' hc'
    have hle : ∀ x y : List α, (order cmp rest x y).isGE ↔ (order cmp rest y x).isLE := by
      intro x y
      rw [order_swap hnil y x, Ordering.isGE_swap]
    rw [← order_of_remainder hnil ha', ← order_of_remainder hnil hc',
      ← order_of_remainders ha' hc']
    apply Agrees.of_trans
    · exact fun h₁ h₂ => htrans a ha b hb c hc h₁ ((hle c b).mp h₂)
    · exact fun h₁ h₂ => (hle a c).mpr (htrans c hc b hb a ha h₂ ((hle a b).mp h₁))
    · exact fun h₁ h₂ => htrans c hc a ha b hb ((hle a c).mp h₁) h₂
    · exact fun h₁ h₂ => (hle c b).mpr (htrans b hb a ha c hc ((hle a b).mp h₂) h₁)
    · exact fun h₁ h₂ => (hle a b).mpr (htrans b hb c hc a ha ((hle c b).mp h₂) ((hle a c).mp h₁))
    · exact fun h₁ h₂ => htrans a ha c hc b hb h₁ h₂
  · intro h a ha b hb c hc
    exact order_trans_of_coherent hnil (h a ha b hb c hc) (h b hb a ha c hc) (h a ha c hc b hb)

end PaddedLex
