import Mathlib.Algebra.BigOperators.Group.List.Basic
import Mathlib.Algebra.Order.BigOperators.Group.List
import Mathlib.Algebra.Order.Group.Defs
import Mathlib.Tactic.Common

/-! The shortest beginning of a list whose weights add up to a goal. -/

namespace ShortestPrefix
variable {α M : Type*} [AddCommGroup M] {w : α → M} {goal : M} {xs ys zs : List α}

def weigh (w : α → M) (xs : List α) : M := (xs.map w).sum

@[simp] theorem weigh_nil : weigh w [] = 0 := rfl

@[simp] theorem weigh_cons (x : α) (xs : List α) : weigh w (x :: xs) = w x + weigh w xs := by
  simp [weigh]

@[simp] theorem weigh_append (xs ys : List α) : weigh w (xs ++ ys) = weigh w xs + weigh w ys := by
  simp [weigh]

theorem weigh_perm (h : xs.Perm ys) : weigh w xs = weigh w ys := (h.map w).sum_eq

variable [LinearOrder M]

/-- `ys` is the shortest prefix of `xs` that reaches the goal. -/
structure IsShortest (w : α → M) (goal : M) (ys xs : List α) : Prop where
  isPrefix : ys <+: xs
  enough : goal ≤ weigh w ys
  minimal : ∀ zs, zs <+: xs → goal ≤ weigh w zs → ys.length ≤ zs.length

/-- Without its last element it falls short. -/
theorem IsShortest.dropLast_lt (h : IsShortest w goal ys xs) (hne : ys ≠ []) :
    weigh w ys.dropLast < goal := by
  by_contra hge
  have hlen := h.minimal ys.dropLast (ys.dropLast_prefix.trans h.isPrefix) (not_lt.mp hge)
  rw [List.length_dropLast] at hlen
  have hpos := List.length_pos_iff.mpr hne
  omega

theorem isShortest_nil (h : goal ≤ 0) : IsShortest w goal [] xs :=
  ⟨List.nil_prefix, h, fun _ _ _ => Nat.zero_le _⟩

/-- Go on while the goal is not reached. -/
def reach (w : α → M) (goal : M) : List α → List α
  | [] => []
  | x :: xs => if goal ≤ 0 then [] else x :: reach w (goal - w x) xs

variable [IsOrderedAddMonoid M]

theorem weigh_nonneg (h : ∀ x ∈ xs, 0 ≤ w x) : 0 ≤ weigh w xs := by
  refine List.sum_nonneg fun m hm => ?_
  obtain ⟨x, hx, rfl⟩ := List.mem_map.mp hm
  exact h x hx

/-- If the whole list reaches the goal, the search returns the shortest prefix that does. -/
theorem reach_isShortest (h : goal ≤ weigh w xs) : IsShortest w goal (reach w goal xs) xs := by
  induction xs generalizing goal with
  | nil => exact isShortest_nil h
  | cons x xs ih =>
    rw [reach]
    split
    · next hgoal => exact isShortest_nil hgoal
    · next hgoal =>
      have hrest := ih (sub_le_iff_le_add'.mpr (weigh_cons (w := w) x xs ▸ h))
      refine ⟨(List.prefix_cons_inj x).mpr hrest.isPrefix, ?_, ?_⟩
      · rw [weigh_cons]
        exact sub_le_iff_le_add'.mp hrest.enough
      · rintro (_ | ⟨z, zs⟩) hzs hreach
        · exact absurd hreach hgoal
        · obtain ⟨rfl, htail⟩ := List.cons_prefix_cons.mp hzs
          rw [weigh_cons] at hreach
          exact Nat.succ_le_succ (hrest.minimal zs htail (sub_le_iff_le_add'.mpr hreach))

end ShortestPrefix
