import Mathlib.Algebra.BigOperators.Group.Finset.Basic
import Mathlib.Algebra.Order.BigOperators.Group.Finset
import Mathlib.Tactic.Abel

/-! Tables under READ COMMITTED with row locks that are held to the end of the transaction. A row
has a committed content and, while a transaction holds its lock, the content that this transaction
gave it. Weights of rows are summed over what a transaction sees. -/

namespace RowLocks

structure Cell (α : Type*) where
  committed : Option α
  pending : Option (ℕ × Option α)

namespace Cell
variable {α : Type*} {p q : ℕ} {c : Cell α} {v : Option α}

def empty : Cell α := ⟨none, none⟩

/-- What transaction `p` sees. -/
def view (p : ℕ) (c : Cell α) : Option α :=
  match c.pending with
  | some (q, v) => if q = p then v else c.committed
  | none => c.committed

def heldBy (p : ℕ) (c : Cell α) : Bool := c.pending.any fun h => h.1 == p

/-- No other transaction holds the lock. -/
def writable (p : ℕ) (c : Cell α) : Bool := c.pending.all fun h => h.1 == p

def write (p : ℕ) (v : Option α) (c : Cell α) : Cell α := { c with pending := some (p, v) }

def commit (p : ℕ) (c : Cell α) : Cell α :=
  if c.heldBy p then ⟨c.view p, none⟩ else c

def rollback (p : ℕ) (c : Cell α) : Cell α :=
  if c.heldBy p then { c with pending := none } else c

@[simp] theorem view_empty : (empty : Cell α).view p = none := rfl
@[simp] theorem heldBy_empty : (empty : Cell α).heldBy p = false := rfl
@[simp] theorem commit_empty : (empty : Cell α).commit p = empty := rfl
@[simp] theorem rollback_empty : (empty : Cell α).rollback p = empty := rfl
@[simp] theorem committed_write : (c.write p v).committed = c.committed := rfl

@[simp] theorem view_write_self : (c.write p v).view p = v := by simp [view, write]

@[simp] theorem heldBy_write_self : (c.write p v).heldBy p = true := by simp [heldBy, write]

theorem view_of_not_held (h : c.heldBy p = false) : c.view p = c.committed := by
  obtain ⟨committed, pending⟩ := c
  cases pending with
  | none => rfl
  | some held =>
    have hne : held.1 ≠ p := by simpa [heldBy] using h
    simp [view, hne]

/-- At most one transaction holds the lock. -/
theorem heldBy_unique (h : c.heldBy p = true) (hq : q ≠ p) : c.heldBy q = false := by
  obtain ⟨committed, pending⟩ := c
  cases pending with
  | none => rfl
  | some held =>
    have heq : held.1 = p := by simpa [heldBy] using h
    simp [heldBy, heq, Ne.symm hq]

theorem not_heldBy_of_writable (h : c.writable p = true) (hq : q ≠ p) : c.heldBy q = false := by
  obtain ⟨committed, pending⟩ := c
  cases pending with
  | none => rfl
  | some held =>
    have heq : held.1 = p := by simpa [writable] using h
    simp [heldBy, heq, Ne.symm hq]

theorem writable_of_held (h : c.heldBy p = true) : c.writable p = true := by
  obtain ⟨committed, pending⟩ := c
  cases pending with
  | none => rfl
  | some held => simpa [heldBy, writable] using h

theorem heldBy_write_other (hq : q ≠ p) : (c.write p v).heldBy q = false :=
  heldBy_unique heldBy_write_self hq

theorem view_write_other (h : c.writable p = true) (hq : q ≠ p) :
    (c.write p v).view q = c.view q := by
  rw [view_of_not_held (heldBy_write_other hq), view_of_not_held (not_heldBy_of_writable h hq),
    committed_write]

theorem committed_commit : (c.commit p).committed = c.view p := by
  unfold commit
  split
  · rfl
  · next h => exact (view_of_not_held (by simpa using h)).symm

theorem committed_rollback : (c.rollback p).committed = c.committed := by
  unfold rollback
  split <;> rfl

theorem heldBy_commit_other (hq : q ≠ p) : (c.commit p).heldBy q = c.heldBy q := by
  unfold commit
  split
  · next h => rw [heldBy_unique h hq]; rfl
  · rfl

theorem heldBy_rollback_other (hq : q ≠ p) : (c.rollback p).heldBy q = c.heldBy q := by
  unfold rollback
  split
  · next h => rw [heldBy_unique h hq]; rfl
  · rfl

theorem view_rollback_other (hq : q ≠ p) : (c.rollback p).view q = c.view q := by
  unfold rollback
  split
  · next h => rw [view_of_not_held (heldBy_unique h hq)]; rfl
  · rfl

/-- A transaction that holds the lock sees its own content across the commits of others. -/
theorem view_commit_of_held (h : c.heldBy q = true) (hq : q ≠ p) :
    (c.commit p).view q = c.view q := by
  rw [commit, if_neg (by simp [heldBy_unique h hq.symm])]

/-- The others see what was committed. -/
theorem view_commit_of_not_held (h : c.heldBy q = false) (hq : q ≠ p) :
    (c.commit p).view q = c.view p := by
  rw [view_of_not_held ((heldBy_commit_other hq).trans h), committed_commit]

end Cell

/-- A table; all but finitely many of its rows are absent and not locked. -/
structure Table (κ α : Type*) where
  cells : κ → Cell α
  keys : Finset κ
  outside : ∀ k, k ∉ keys → cells k = Cell.empty

namespace Table
variable {κ α : Type*} {t : Table κ α} {p q : ℕ} {k k' : κ} {v : Option α}

def view (t : Table κ α) (p : ℕ) (k : κ) : Option α := (t.cells k).view p
def committed (t : Table κ α) (k : κ) : Option α := (t.cells k).committed
def heldBy (t : Table κ α) (p : ℕ) (k : κ) : Bool := (t.cells k).heldBy p
def writable (t : Table κ α) (p : ℕ) (k : κ) : Bool := (t.cells k).writable p

def commit (t : Table κ α) (p : ℕ) : Table κ α where
  cells k := (t.cells k).commit p
  keys := t.keys
  outside k h := by rw [t.outside k h, Cell.commit_empty]

def rollback (t : Table κ α) (p : ℕ) : Table κ α where
  cells k := (t.cells k).rollback p
  keys := t.keys
  outside k h := by rw [t.outside k h, Cell.rollback_empty]

def write [DecidableEq κ] (t : Table κ α) (p : ℕ) (k : κ) (v : Option α) : Table κ α where
  cells := Function.update t.cells k ((t.cells k).write p v)
  keys := insert k t.keys
  outside k' h := by
    rw [Finset.mem_insert, not_or] at h
    rw [Function.update_of_ne h.1]
    exact t.outside k' h.2

/-- No transaction holds a lock. -/
def Quiet (t : Table κ α) : Prop := ∀ p k, t.heldBy p k = false

@[simp] theorem committed_commit : (t.commit p).committed = t.view p := by
  funext k
  exact Cell.committed_commit

@[simp] theorem committed_rollback : (t.rollback p).committed = t.committed := by
  funext k
  exact Cell.committed_rollback

theorem heldBy_commit_other (hq : q ≠ p) : (t.commit p).heldBy q = t.heldBy q := by
  funext k
  exact Cell.heldBy_commit_other hq

theorem heldBy_rollback_other (hq : q ≠ p) : (t.rollback p).heldBy q = t.heldBy q := by
  funext k
  exact Cell.heldBy_rollback_other hq

theorem view_rollback_other (hq : q ≠ p) : (t.rollback p).view q = t.view q := by
  funext k
  exact Cell.view_rollback_other hq

theorem view_commit_of_held (h : t.heldBy q k = true) (hq : q ≠ p) :
    (t.commit p).view q k = t.view q k :=
  Cell.view_commit_of_held h hq

theorem view_commit_of_not_held (h : t.heldBy q k = false) (hq : q ≠ p) :
    (t.commit p).view q k = t.view p k :=
  Cell.view_commit_of_not_held h hq

theorem view_of_not_held (h : t.heldBy p k = false) : t.view p k = t.committed k :=
  Cell.view_of_not_held h

theorem heldBy_unique (h : t.heldBy p k = true) (hq : q ≠ p) : t.heldBy q k = false :=
  Cell.heldBy_unique h hq

theorem writable_of_held (h : t.heldBy p k = true) : t.writable p k = true :=
  Cell.writable_of_held h

theorem not_heldBy_of_writable (h : t.writable p k = true) (hq : q ≠ p) : t.heldBy q k = false :=
  Cell.not_heldBy_of_writable h hq

theorem view_outside (hk : k ∉ t.keys) : t.view p k = none := by
  rw [view, t.outside k hk, Cell.view_empty]

theorem committed_outside (hk : k ∉ t.keys) : t.committed k = none := by
  rw [committed, t.outside k hk]
  rfl

theorem heldBy_outside (hk : k ∉ t.keys) : t.heldBy p k = false := by
  rw [heldBy, t.outside k hk, Cell.heldBy_empty]

section Write
variable [DecidableEq κ]

@[simp] theorem view_write_self : (t.write p k v).view p k = v := by simp [view, write]
@[simp] theorem heldBy_write_self : (t.write p k v).heldBy p k = true := by simp [heldBy, write]
@[simp] theorem keys_write : (t.write p k v).keys = insert k t.keys := rfl

theorem view_write_ne (hk : k' ≠ k) : (t.write p k v).view q k' = t.view q k' := by
  simp [view, write, Function.update_of_ne hk]

theorem heldBy_write_ne (hk : k' ≠ k) : (t.write p k v).heldBy q k' = t.heldBy q k' := by
  simp [heldBy, write, Function.update_of_ne hk]

theorem heldBy_write_of_held (h : t.heldBy p k' = true) : (t.write p k v).heldBy p k' = true := by
  by_cases hk : k' = k
  · rw [hk, heldBy_write_self]
  · rw [heldBy_write_ne hk, h]

theorem writable_write_ne (hk : k' ≠ k) : (t.write p k v).writable q k' = t.writable q k' := by
  simp [writable, write, Function.update_of_ne hk]

theorem view_write_other (h : t.writable p k = true) (hq : q ≠ p) :
    (t.write p k v).view q = t.view q := by
  funext k'
  by_cases hk : k' = k
  · subst hk
    simpa [view, write] using Cell.view_write_other h hq
  · exact view_write_ne hk

theorem heldBy_write_other (h : t.writable p k = true) (hq : q ≠ p) :
    (t.write p k v).heldBy q = t.heldBy q := by
  funext k'
  by_cases hk : k' = k
  · subst hk
    rw [not_heldBy_of_writable h hq]
    simpa [heldBy, write] using Cell.heldBy_write_other hq
  · exact heldBy_write_ne hk

@[simp] theorem committed_write : (t.write p k v).committed = t.committed := by
  funext k'
  by_cases hk : k' = k
  · subst hk
    simp [committed, write]
  · simp [committed, write, Function.update_of_ne hk]

end Write

section Sums
variable {M : Type*} [AddCommGroup M] (f : κ → α → M)

/-- The weight of a row, 0 when it is absent. -/
def weight (k : κ) (v : Option α) : M := v.elim 0 (f k)

@[simp] theorem weight_none : weight f k none = 0 := rfl

/-- The weight of all rows under a reading of the table. -/
def total (t : Table κ α) (rows : κ → Option α) : M := ∑ k ∈ t.keys, weight f k (rows k)

/-- The weight of the rows that `p` has locked, as `p` sees them. -/
def own (t : Table κ α) (p : ℕ) : M :=
  ∑ k ∈ t.keys, if t.heldBy p k then weight f k (t.view p k) else 0

variable {f}

theorem total_commit_committed : (t.commit p).total f (t.commit p).committed =
    t.total f (t.view p) := by
  rw [committed_commit]
  rfl

theorem total_rollback_committed : (t.rollback p).total f (t.rollback p).committed =
    t.total f t.committed := by
  rw [committed_rollback]
  rfl

/-- The rows of two transactions are disjoint: a commit changes what another one sees by what the
committed one had changed. -/
theorem total_commit_other (hq : q ≠ p) : (t.commit p).total f ((t.commit p).view q) =
    t.total f (t.view q) + (t.total f (t.view p) - t.total f t.committed) := by
  unfold total
  rw [← Finset.sum_sub_distrib, ← Finset.sum_add_distrib]
  refine Finset.sum_congr rfl fun k _ => ?_
  by_cases h : t.heldBy q k = true
  · have hp : t.view p k = t.committed k := view_of_not_held (heldBy_unique h hq.symm)
    rw [view_commit_of_held h hq, hp, sub_self, add_zero]
  · have hnot : t.heldBy q k = false := by simpa using h
    rw [view_commit_of_not_held hnot hq, view_of_not_held hnot]
    abel

theorem own_commit_other (hq : q ≠ p) : (t.commit p).own f q = t.own f q := by
  unfold own
  rw [heldBy_commit_other hq]
  refine Finset.sum_congr rfl fun k _ => ?_
  split
  · next h => rw [view_commit_of_held h hq]
  · rfl

theorem own_rollback_other (hq : q ≠ p) : (t.rollback p).own f q = t.own f q := by
  unfold own
  rw [heldBy_rollback_other hq, view_rollback_other hq]
  rfl

section Write
variable [DecidableEq κ]

theorem total_write {rows : κ → Option α} (h : ∀ k', k' ∉ t.keys → rows k' = none) :
    (t.write p k v).total f rows = t.total f rows := by
  refine Finset.sum_insert_of_eq_zero_if_notMem fun hk => ?_
  rw [h k hk, weight_none]

/-- A write changes the writer's sum by the difference of the weights. -/
theorem total_write_self : (t.write p k v).total f ((t.write p k v).view p) =
    t.total f (t.view p) + (weight f k v - weight f k (t.view p k)) := by
  have hold : t.total f (t.view p) = (t.write p k v).total f (t.view p) :=
    (total_write fun k' => view_outside).symm
  have hdiff : ∑ k' ∈ (t.write p k v).keys,
      (weight f k' ((t.write p k v).view p k') - weight f k' (t.view p k')) =
        weight f k v - weight f k (t.view p k) := by
    rw [keys_write, Finset.sum_eq_single_of_mem k (Finset.mem_insert_self k t.keys)]
    · rw [view_write_self]
    · intro k' _ hk
      rw [view_write_ne hk, sub_self]
  rw [Finset.sum_sub_distrib] at hdiff
  rw [hold, ← hdiff]
  unfold total
  abel

theorem total_write_other (h : t.writable p k = true) (hq : q ≠ p) :
    (t.write p k v).total f ((t.write p k v).view q) = t.total f (t.view q) := by
  rw [view_write_other h hq]
  exact total_write fun k' => view_outside

theorem total_write_committed :
    (t.write p k v).total f (t.write p k v).committed = t.total f t.committed := by
  rw [committed_write]
  exact total_write fun k' => committed_outside

theorem own_write_other (h : t.writable p k = true) (hq : q ≠ p) :
    (t.write p k v).own f q = t.own f q := by
  unfold own
  rw [view_write_other h hq, heldBy_write_other h hq]
  refine Finset.sum_insert_of_eq_zero_if_notMem fun hk => ?_
  rw [heldBy_outside hk]
  rfl

end Write

variable [PartialOrder M] [IsOrderedAddMonoid M]

omit [IsOrderedAddMonoid M] in
theorem weight_nonneg (hf : ∀ k a, 0 ≤ f k a) : 0 ≤ weight f k v := by
  cases v with
  | none => exact le_rfl
  | some a => exact hf k a

theorem total_nonneg (hf : ∀ k a, 0 ≤ f k a) (rows : κ → Option α) : 0 ≤ t.total f rows :=
  Finset.sum_nonneg fun _ _ => weight_nonneg hf

/-- What a transaction has locked is part of what it sees. -/
theorem own_le_total (hf : ∀ k a, 0 ≤ f k a) : t.own f p ≤ t.total f (t.view p) := by
  refine Finset.sum_le_sum fun k _ => ?_
  split
  · exact le_rfl
  · exact weight_nonneg hf

theorem own_nonneg (hf : ∀ k a, 0 ≤ f k a) : 0 ≤ t.own f p := by
  refine Finset.sum_nonneg fun k _ => ?_
  split
  · exact weight_nonneg hf
  · exact le_rfl

/-- One row weighs at most what all rows weigh. -/
theorem weight_le_total (hf : ∀ k a, 0 ≤ f k a) :
    weight f k (t.view p k) ≤ t.total f (t.view p) := by
  by_cases hk : k ∈ t.keys
  · exact Finset.single_le_sum (f := fun k => weight f k (t.view p k))
      (fun _ _ => weight_nonneg hf) hk
  · rw [view_outside hk]
    exact total_nonneg hf _

/-- A write raises the weight of the locked rows by at least the difference it makes. -/
theorem own_write_self [DecidableEq κ] (hf : ∀ k a, 0 ≤ f k a) :
    t.own f p + (weight f k v - weight f k (t.view p k)) ≤ (t.write p k v).own f p := by
  have hold : t.own f p = ∑ k' ∈ (t.write p k v).keys,
      if t.heldBy p k' then weight f k' (t.view p k') else 0 := by
    refine (Finset.sum_insert_of_eq_zero_if_notMem fun hk => ?_).symm
    rw [heldBy_outside hk]
    rfl
  have hdiff : weight f k v - weight f k (t.view p k) ≤ ∑ k' ∈ (t.write p k v).keys,
      ((if (t.write p k v).heldBy p k' then weight f k' ((t.write p k v).view p k') else 0) -
        if t.heldBy p k' then weight f k' (t.view p k') else 0) := by
    rw [keys_write, Finset.sum_eq_single_of_mem k (Finset.mem_insert_self k t.keys)]
    · rw [heldBy_write_self, view_write_self, if_pos rfl]
      split
      · exact le_rfl
      · rw [sub_zero]
        exact sub_le_self _ (weight_nonneg hf)
    · intro k' _ hk
      rw [heldBy_write_ne hk, view_write_ne hk, sub_self]
  rw [Finset.sum_sub_distrib] at hdiff
  rw [hold]
  exact le_sub_iff_add_le'.mp hdiff

end Sums

end Table
end RowLocks
