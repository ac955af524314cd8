import Mathlib.Data.Nat.Notation
import Mathlib.Order.MinMax
import Mathlib.Algebra.Order.Group.Nat
import Mathlib.Tactic.Common

/-! The optimal string alignment distance: its recurrence over prefixes, and the alignments whose
least cost it is. -/

namespace EditDistance
variable {α : Type*}

/-- An alignment of the first `i` letters of `a` with the first `j` of `b` at the given cost; no
letter is edited twice. -/
inductive Aligns (a b : ℕ → α) : ℕ → ℕ → ℕ → Prop
  | nil : Aligns a b 0 0 0
  | delete {i j c : ℕ} : Aligns a b i j c → Aligns a b (i + 1) j (c + 1)
  | insert {i j c : ℕ} : Aligns a b i j c → Aligns a b i (j + 1) (c + 1)
  | keep {i j c : ℕ} : a i = b j → Aligns a b i j c → Aligns a b (i + 1) (j + 1) c
  | substitute {i j c : ℕ} : Aligns a b i j c → Aligns a b (i + 1) (j + 1) (c + 1)
  | transpose {i j c : ℕ} : a (i + 1) = b j → a i = b (j + 1) → Aligns a b i j c →
      Aligns a b (i + 2) (j + 2) (c + 1)

namespace Aligns
variable {a b : ℕ → α} {i j c : ℕ}

theorem symm (h : Aligns a b i j c) : Aligns b a j i c := by
  induction h with
  | nil => exact .nil
  | delete _ ih => exact .insert ih
  | insert _ ih => exact .delete ih
  | keep heq _ ih => exact .keep heq.symm ih
  | substitute _ ih => exact .substitute ih
  | transpose h₁ h₂ _ ih => exact .transpose h₂.symm h₁.symm ih

theorem eq_of_zero (h : Aligns a b i j 0) : i = j ∧ ∀ k < i, a k = b k := by
  generalize hc : (0 : ℕ) = c at h
  induction h with
  | nil => exact ⟨rfl, nofun⟩
  | delete => omega
  | insert => omega
  | @keep i j _ heq _ ih =>
    obtain ⟨rfl, hall⟩ := ih hc
    refine ⟨rfl, fun k hk => ?_⟩
    rcases Nat.lt_succ_iff_lt_or_eq.mp hk with hk | rfl
    · exact hall k hk
    · exact heq
  | substitute => omega
  | transpose => omega

theorem of_eq (h : ∀ k < i, a k = b k) : Aligns a b i i 0 := by
  induction i with
  | zero => exact .nil
  | succ i ih => exact .keep (h i (Nat.lt_succ_self i)) (ih fun k hk => h k (by omega))

theorem deletes (a b : ℕ → α) : ∀ i, Aligns a b i 0 i
  | 0 => .nil
  | i + 1 => .delete (deletes a b i)

theorem inserts (a b : ℕ → α) : ∀ j, Aligns a b 0 j j
  | 0 => .nil
  | j + 1 => .insert (inserts a b j)

end Aligns

section Recurrence
variable [DecidableEq α]

/-- The table of the recurrence, at row `i` and column `j`. -/
def osa (a b : ℕ → α) : ℕ → ℕ → ℕ
  | 0, j => j
  | i + 1, 0 => i + 1
  | i + 1, j + 1 =>
    let d := min (min (osa a b i (j + 1) + 1) (osa a b (i + 1) j + 1))
      (osa a b i j + if a i = b j then 0 else 1)
    if 0 < i ∧ 0 < j ∧ a i = b (j - 1) ∧ a (i - 1) = b j then
      min d (osa a b (i - 1) (j - 1) + 1)
    else d
  termination_by i j => (i, j)

variable {a b : ℕ → α} {i j c : ℕ}

@[simp] theorem osa_zero_left (a b : ℕ → α) (j : ℕ) : osa a b 0 j = j := by rw [osa]

@[simp] theorem osa_zero_right (a b : ℕ → α) (i : ℕ) : osa a b i 0 = i := by
  cases i <;> rw [osa]

theorem osa_succ_succ (a b : ℕ → α) (i j : ℕ) : osa a b (i + 1) (j + 1) =
    if 0 < i ∧ 0 < j ∧ a i = b (j - 1) ∧ a (i - 1) = b j then
      min (min (min (osa a b i (j + 1) + 1) (osa a b (i + 1) j + 1))
        (osa a b i j + if a i = b j then 0 else 1)) (osa a b (i - 1) (j - 1) + 1)
    else min (min (osa a b i (j + 1) + 1) (osa a b (i + 1) j + 1))
      (osa a b i j + if a i = b j then 0 else 1) := by
  rw [osa]

theorem osa_delete_le (a b : ℕ → α) (i j : ℕ) : osa a b (i + 1) j ≤ osa a b i j + 1 := by
  cases j with
  | zero => simp
  | succ j =>
    rw [osa_succ_succ]
    split <;> omega

theorem osa_insert_le (a b : ℕ → α) (i j : ℕ) : osa a b i (j + 1) ≤ osa a b i j + 1 := by
  cases i with
  | zero => simp
  | succ i =>
    rw [osa_succ_succ]
    split <;> omega

theorem osa_substitute_le (a b : ℕ → α) (i j : ℕ) :
    osa a b (i + 1) (j + 1) ≤ osa a b i j + if a i = b j then 0 else 1 := by
  rw [osa_succ_succ]
  split <;> omega

theorem osa_transpose_le (h₁ : a (i + 1) = b j) (h₂ : a i = b (j + 1)) :
    osa a b (i + 2) (j + 2) ≤ osa a b i j + 1 := by
  rw [osa_succ_succ, if_pos ⟨Nat.succ_pos i, Nat.succ_pos j, h₁, h₂⟩]
  exact min_le_right _ _

theorem Aligns.osa_le (h : Aligns a b i j c) : osa a b i j ≤ c := by
  induction h with
  | nil => simp
  | @delete i j c _ ih => exact (osa_delete_le a b i j).trans (Nat.succ_le_succ ih)
  | @insert i j c _ ih => exact (osa_insert_le a b i j).trans (Nat.succ_le_succ ih)
  | @keep i j c heq _ ih =>
    have hle := osa_substitute_le a b i j
    rw [if_pos heq] at hle
    exact hle.trans ih
  | @substitute i j c _ ih =>
    have hle := osa_substitute_le a b i j
    split at hle <;> omega
  | transpose h₁ h₂ _ ih => exact (osa_transpose_le h₁ h₂).trans (Nat.succ_le_succ ih)

theorem aligns_substitute (h : Aligns a b i j c) :
    Aligns a b (i + 1) (j + 1) (c + if a i = b j then 0 else 1) := by
  split
  · next heq => exact .keep heq h
  · exact .substitute h

omit [DecidableEq α] in
theorem aligns_min {m n : ℕ} (hm : Aligns a b i j m) (hn : Aligns a b i j n) :
    Aligns a b i j (min m n) := by
  rcases min_choice m n with h | h
  · rwa [h]
  · rwa [h]

theorem aligns_osa (a b : ℕ → α) (i j : ℕ) : Aligns a b i j (osa a b i j) := by
  induction i, j using osa.induct a b with
  | case1 j => simpa using Aligns.inserts a b j
  | case2 i => simpa using Aligns.deletes a b (i + 1)
  | case3 i j hswap ih₁ ih₂ ih₃ ih₄ =>
    rw [osa_succ_succ, if_pos hswap]
    obtain ⟨hi, hj, h₁, h₂⟩ := hswap
    obtain ⟨i, rfl⟩ : ∃ k, i = k + 1 := ⟨i - 1, by omega⟩
    obtain ⟨j, rfl⟩ : ∃ k, j = k + 1 := ⟨j - 1, by omega⟩
    exact aligns_min (aligns_min (aligns_min (.delete ih₁) (.insert ih₂)) (aligns_substitute ih₃))
      (.transpose h₁ h₂ ih₄)
  | case4 i j hswap ih₁ ih₂ ih₃ =>
    rw [osa_succ_succ, if_neg hswap]
    exact aligns_min (aligns_min (.delete ih₁) (.insert ih₂)) (aligns_substitute ih₃)

/-- The recurrence computes the least cost of an alignment. -/
theorem osa_le_iff : osa a b i j ≤ c ↔ ∃ c' ≤ c, Aligns a b i j c' :=
  ⟨fun h => ⟨_, h, aligns_osa a b i j⟩, fun ⟨_, hle, h⟩ => h.osa_le.trans hle⟩

theorem osa_comm (a b : ℕ → α) (i j : ℕ) : osa a b i j = osa b a j i :=
  le_antisymm (aligns_osa b a j i).symm.osa_le (aligns_osa a b i j).symm.osa_le

theorem osa_eq_zero_iff : osa a b i j = 0 ↔ i = j ∧ ∀ k < i, a k = b k := by
  constructor
  · intro h
    exact (h ▸ aligns_osa a b i j).eq_of_zero
  · rintro ⟨rfl, hall⟩
    exact Nat.le_zero.mp (Aligns.of_eq hall).osa_le

end Recurrence

end EditDistance
