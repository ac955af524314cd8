import Mathlib.Logic.Function.Basic
import Mathlib.Data.Nat.Notation

/-! A registry of slots under keys, where a slot is told from others by its identity: each new slot
gets a number that was not used before, and a slot is removed only by whoever names that number.
Nothing here is about a particular program. -/

/-- `next` is the number of the next slot. -/
structure SlotRegistry (κ : Type*) where
  slots : κ → Option ℕ
  next : ℕ

namespace SlotRegistry
variable {κ : Type*}

def empty : SlotRegistry κ := ⟨fun _ => none, 0⟩

/-- The slots of the registry are those that the processes hold leases on, one holder each. -/
structure Leased (r : SlotRegistry κ) (lease : ℕ → Option (κ × ℕ)) : Prop where
  slots : ∀ key slot, r.slots key = some slot ↔ ∃ p, lease p = some (key, slot)
  holder : ∀ p q key key' slot, lease p = some (key, slot) → lease q = some (key', slot) → p = q
  lt_next : ∀ p key slot, lease p = some (key, slot) → slot < r.next

theorem leased_empty : Leased (empty : SlotRegistry κ) fun _ => none where
  slots key slot := by simp [empty]
  holder p q key key' slot h := by cases h
  lt_next p key slot h := by cases h

theorem Leased.holder_of_key {r : SlotRegistry κ} {lease : ℕ → Option (κ × ℕ)}
    (h : Leased r lease) {p q : ℕ} {key : κ} {slot slot' : ℕ} (hp : lease p = some (key, slot))
    (hq : lease q = some (key, slot')) : p = q := by
  have hslot := (h.slots key slot).mpr ⟨p, hp⟩
  have hslot' := (h.slots key slot').mpr ⟨q, hq⟩
  obtain rfl : slot = slot' := by simpa [hslot] using hslot'
  exact h.holder p q key key slot hp hq

variable [DecidableEq κ]

/-- Put a new slot under the key. -/
def insertNew (r : SlotRegistry κ) (key : κ) : SlotRegistry κ :=
  ⟨Function.update r.slots key (some r.next), r.next + 1⟩

/-- Remove the slot under the key if it is the given one. -/
def removeOwned (r : SlotRegistry κ) (key : κ) (slot : ℕ) : SlotRegistry κ :=
  if r.slots key = some slot then { r with slots := Function.update r.slots key none } else r

/-- What a process does with the registry and with the lease it holds: nothing, put a new slot under
a free key, or give its slot back. -/
inductive LeaseStep (r : SlotRegistry κ) :
    Option (κ × ℕ) → SlotRegistry κ → Option (κ × ℕ) → Prop
  | quiet (lease : Option (κ × ℕ)) : LeaseStep r lease r lease
  | acquire {key : κ} (hfree : r.slots key = none) :
    LeaseStep r none (r.insertNew key) (some (key, r.next))
  | release {key : κ} {slot : ℕ} :
    LeaseStep r (some (key, slot)) (r.removeOwned key slot) none

variable {r : SlotRegistry κ} {key key' : κ} {slot slot' : ℕ}

theorem next_removeOwned : (r.removeOwned key slot).next = r.next := by
  unfold removeOwned
  split <;> rfl

theorem slots_insertNew_eq_some (hfree : r.slots key = none) :
    (r.insertNew key).slots key' = some slot' ↔
      (key' = key ∧ slot' = r.next) ∨ r.slots key' = some slot' := by
  by_cases hkey : key' = key
  · subst hkey
    simp [insertNew, hfree, eq_comm]
  · simp [insertNew, hkey]

theorem slots_removeOwned_eq_some :
    (r.removeOwned key slot).slots key' = some slot' ↔
      r.slots key' = some slot' ∧ ¬ (key' = key ∧ slot' = slot) := by
  unfold removeOwned
  split
  · next howned =>
    by_cases hkey : key' = key
    · subst hkey
      simp [howned, eq_comm]
    · simp [hkey]
  · next hother =>
    constructor
    · intro h
      refine ⟨h, ?_⟩
      rintro ⟨rfl, rfl⟩
      exact hother h
    · exact And.left

section Step
variable {lease : ℕ → Option (κ × ℕ)} {p : ℕ} (h : Leased r lease)
include h

theorem Leased.insertNew (hp : lease p = none) (hfree : r.slots key = none) :
    Leased (r.insertNew key) (Function.update lease p (some (key, r.next))) where
  slots key' slot' := by
    rw [slots_insertNew_eq_some hfree, h.slots]
    constructor
    · rintro (⟨rfl, rfl⟩ | ⟨q, hq⟩)
      · exact ⟨p, Function.update_self _ _ _⟩
      · have hne : q ≠ p := fun heq => by simp [heq, hp] at hq
        exact ⟨q, by rwa [Function.update_of_ne hne]⟩
    · rintro ⟨q, hq⟩
      by_cases hne : q = p
      · subst hne
        left
        simpa [eq_comm] using hq
      · exact .inr ⟨q, by rwa [Function.update_of_ne hne] at hq⟩
  holder q q' key₁ key₂ slot' hq hq' := by
    -- no lease was on the new slot before
    have hold : ∀ q key', lease q ≠ some (key', r.next) := fun q key' hq =>
      absurd (h.lt_next q key' r.next hq) (Nat.lt_irrefl _)
    by_cases hqp : q = p <;> by_cases hqp' : q' = p
    · rw [hqp, hqp']
    · rw [Function.update_of_ne hqp'] at hq'
      subst hqp
      simp only [Function.update_self, Option.some.injEq, Prod.mk.injEq] at hq
      obtain ⟨-, rfl⟩ := hq
      exact absurd hq' (hold q' key₂)
    · rw [Function.update_of_ne hqp] at hq
      subst hqp'
      simp only [Function.update_self, Option.some.injEq, Prod.mk.injEq] at hq'
      obtain ⟨-, rfl⟩ := hq'
      exact absurd hq (hold q key₁)
    · rw [Function.update_of_ne hqp] at hq
      rw [Function.update_of_ne hqp'] at hq'
      exact h.holder q q' key₁ key₂ slot' hq hq'
  lt_next q key' slot' hq := by
    show slot' < r.next + 1
    by_cases hqp : q = p
    · subst hqp
      simp only [Function.update_self, Option.some.injEq, Prod.mk.injEq] at hq
      omega
    · rw [Function.update_of_ne hqp] at hq
      have := h.lt_next q key' slot' hq
      omega

theorem Leased.removeOwned (hp : lease p = some (key, slot)) :
    Leased (r.removeOwned key slot) (Function.update lease p none) where
  slots key' slot' := by
    rw [slots_removeOwned_eq_some, h.slots]
    constructor
    · rintro ⟨⟨q, hq⟩, hother⟩
      have hne : q ≠ p := by
        rintro rfl
        simp only [hp, Option.some.injEq, Prod.mk.injEq] at hq
        exact hother ⟨hq.1.symm, hq.2.symm⟩
      exact ⟨q, by rwa [Function.update_of_ne hne]⟩
    · rintro ⟨q, hq⟩
      have hne : q ≠ p := fun heq => by simp [heq] at hq
      rw [Function.update_of_ne hne] at hq
      refine ⟨⟨q, hq⟩, ?_⟩
      rintro ⟨rfl, rfl⟩
      exact hne (h.holder q p key' key' slot' hq hp)
  holder q q' key₁ key₂ slot' hq hq' := by
    have hne : q ≠ p := fun heq => by simp [heq] at hq
    have hne' : q' ≠ p := fun heq => by simp [heq] at hq'
    rw [Function.update_of_ne hne] at hq
    rw [Function.update_of_ne hne'] at hq'
    exact h.holder q q' key₁ key₂ slot' hq hq'
  lt_next q key' slot' hq := by
    have hne : q ≠ p := fun heq => by simp [heq] at hq
    rw [Function.update_of_ne hne] at hq
    rw [next_removeOwned]
    exact h.lt_next q key' slot' hq

theorem Leased.step {r' : SlotRegistry κ} {l' : Option (κ × ℕ)}
    (hstep : LeaseStep r (lease p) r' l') : Leased r' (Function.update lease p l') := by
  generalize hp : lease p = l at hstep
  cases hstep with
  | quiet =>
    rw [← hp, Function.update_eq_self]
    exact h
  | acquire hfree => exact h.insertNew hp hfree
  | release => exact h.removeOwned hp

end Step

end SlotRegistry
