import Mathlib.Algebra.Order.BigOperators.Group.Finset
import Mathlib.Algebra.BigOperators.Group.Finset.Piecewise
import Mathlib.Data.Set.Card

/-! Amounts of one resource held by processes: only finitely many hold something, and what they hold
adds up to a total. Nothing here is about a particular program. -/

open scoped BigOperators

variable {ι : Type*} {f : ι → ℕ} {n m : ℕ}

/-- Together the processes hold `n`, each of them its share `f`. -/
def Shares (f : ι → ℕ) (n : ℕ) : Prop :=
  ∃ S : Finset ι, (∀ q ∉ S, f q = 0) ∧ ∑ q ∈ S, f q = n

namespace Shares

theorem zero : Shares (fun _ : ι => 0) 0 := ⟨∅, fun _ _ => rfl, rfl⟩

/-- One process changes its share. -/
theorem update [DecidableEq ι] (h : Shares f n) (p : ι) {v : ℕ} (hm : m + f p = n + v) :
    Shares (Function.update f p v) m := by
  obtain ⟨S, hout, hsum⟩ := h
  have hmem : p ∈ insert p S := Finset.mem_insert_self p S
  have hgrow : ∑ q ∈ insert p S, f q = n :=
    (Finset.sum_insert_of_eq_zero_if_notMem (hout p)).trans hsum
  refine ⟨insert p S, fun q hq => ?_, ?_⟩
  · obtain ⟨hne, hS⟩ := not_or.mp (Finset.mem_insert.not.mp hq)
    rw [Function.update_of_ne hne]
    exact hout q hS
  · have hsplit := Finset.add_sum_erase (insert p S) f hmem
    rw [Finset.sum_update_of_mem hmem, ← Finset.erase_eq]
    omega

/-- One process goes from one local state to another, where the share is a function of it. -/
theorem update_comp [DecidableEq ι] {σ : Type*} {procs : ι → σ} {F : σ → ℕ}
    (h : Shares (fun q => F (procs q)) n) (p : ι) {l : σ} (hm : m + F (procs p) = n + F l) :
    Shares (fun q => F (Function.update procs p l q)) m := by
  have heq : (fun q => F (Function.update procs p l q)) =
      Function.update (fun q => F (procs q)) p (F l) := Function.comp_update F procs p l
  rw [heq]
  exact h.update p hm

theorem apply_le (h : Shares f n) (q : ι) : f q ≤ n := by
  obtain ⟨S, hout, rfl⟩ := h
  by_cases hq : q ∈ S
  · exact Finset.single_le_sum (fun _ _ => Nat.zero_le _) hq
  · rw [hout q hq]
    exact Nat.zero_le _

theorem unique (h : Shares f n) (h' : Shares f m) : n = m := by
  classical
  obtain ⟨S, hout, rfl⟩ := h
  obtain ⟨T, hout', rfl⟩ := h'
  calc ∑ q ∈ S, f q
      = ∑ q ∈ S ∪ T, f q := Finset.sum_subset Finset.subset_union_left fun q _ hq => hout q hq
    _ = ∑ q ∈ T, f q :=
      (Finset.sum_subset Finset.subset_union_right fun q _ hq => hout' q hq).symm

/-- No more than the total hold something. -/
theorem encard_le (h : Shares f n) {A : Set ι} (hA : ∀ q ∈ A, 1 ≤ f q) : A.encard ≤ n := by
  classical
  obtain ⟨S, hout, rfl⟩ := h
  have hsub : A ⊆ ↑(S.filter fun q => 1 ≤ f q) := by
    intro q hq
    have hle := hA q hq
    have hS : q ∈ S := by
      by_contra hnot
      rw [hout q hnot] at hle
      exact absurd hle (by decide)
    exact Finset.mem_coe.mpr (Finset.mem_filter.mpr ⟨hS, hle⟩)
  have hcard : (S.filter fun q => 1 ≤ f q).card ≤ ∑ q ∈ S, f q := by
    have hall := Finset.sum_le_sum_of_subset (f := f) (Finset.filter_subset (fun q => 1 ≤ f q) S)
    rw [Finset.card_eq_sum_ones]
    apply le_trans _ hall
    exact Finset.sum_le_sum fun q hq => (Finset.mem_filter.mp hq).2
  calc A.encard
      ≤ (↑(S.filter fun q => 1 ≤ f q) : Set ι).encard := Set.encard_le_encard hsub
    _ = ((S.filter fun q => 1 ≤ f q).card : ℕ∞) := Set.encard_coe_eq_coe_finsetCard _
    _ ≤ ((∑ q ∈ S, f q : ℕ) : ℕ∞) := Nat.cast_le.mpr hcard

end Shares
