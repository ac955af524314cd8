import Mathlib.Data.List.Destutter
import Mathlib.Order.Defs.LinearOrder
import Mathlib.Algebra.Order.Group.Nat
import Mathlib.Tactic.Common

/-! Cursor pagination of a sorted list without repetitions: the merge of several lists, the binary
search for the cursor, and the run that follows the cursors to the end. -/

namespace CursorPages
variable {α : Type*}

section PartitionPoint

/-- The halving of a stretch of `size` indices that starts at `base`. -/
def bisect (p : ℕ → Bool) (base size : ℕ) : ℕ :=
  if size ≤ 1 then base
  else bisect p (if p (base + size / 2) then base + size / 2 else base) (size - size / 2)
  termination_by size

/-- The first index at which `p` fails, found by halving. -/
def partitionPoint (p : α → Bool) (l : List α) : ℕ :=
  if l = [] then 0
  else
    let base := bisect (fun i => l[i]?.any p) 0 l.length
    if l[base]?.any p then base + 1 else base

theorem bisect_bounds {p : ℕ → Bool} {k base size : ℕ} (hp : ∀ i, p i = true ↔ i < k)
    (hbase : base = 0 ∨ base < k) (hk : k ≤ base + size) (hsize : 0 < size) :
    (bisect p base size = 0 ∨ bisect p base size < k) ∧ k ≤ bisect p base size + 1 := by
  induction base, size using bisect.induct p with
  | case1 base size hle =>
    rw [bisect, if_pos hle]
    exact ⟨hbase, by omega⟩
  | case2 base size hlt ih =>
    rw [bisect, if_neg hlt]
    refine ih ?_ ?_ (by omega)
    · split
      · next h => exact .inr ((hp _).mp h)
      · exact hbase
    · split
      · omega
      · next h =>
        rw [hp] at h
        omega

theorem partitionPoint_eq {p : α → Bool} {before after : List α} (hb : ∀ x ∈ before, p x = true)
    (ha : ∀ x ∈ after, p x = false) : partitionPoint p (before ++ after) = before.length := by
  have hp : ∀ i, (before ++ after)[i]?.any p = true ↔ i < before.length := by
    intro i
    rcases Nat.lt_or_ge i before.length with h | h
    · simp [List.getElem?_append_left h, h, hb]
    · rw [List.getElem?_append_right h]
      cases hget : after[i - before.length]? with
      | none => simpa using h
      | some x => simpa [ha x (List.mem_of_getElem? hget)] using h
  unfold partitionPoint
  split
  · next hnil => simp [(List.append_eq_nil_iff.mp hnil).1]
  · next hne =>
    have hpos : 0 < (before ++ after).length := List.length_pos_of_ne_nil hne
    obtain ⟨hlow, hhigh⟩ := bisect_bounds hp (.inl rfl) (by simp) hpos
    simp only [hp]
    split <;> omega

end PartitionPoint

section Sorted
variable (cmp : α → α → Ordering)

/-- Strictly increasing. -/
def Increasing (l : List α) : Prop := l.Pairwise fun a b => cmp a b = .lt

/-- The lists one after the other, sorted, less the repetitions that stand side by side. -/
def mergeDedup [DecidableEq α] (ls : List (List α)) : List α :=
  (ls.flatten.mergeSort fun a b => (cmp a b).isLE).destutter (· ≠ ·)

variable {cmp} [Std.TransCmp cmp] [Std.LawfulEqCmp cmp]

theorem eq_of_isLE {a b : α} (hab : (cmp a b).isLE) (hba : (cmp b a).isLE) : a = b := by
  rw [show cmp b a = (cmp a b).swap from Std.OrientedCmp.eq_swap, Ordering.isLE_swap] at hba
  exact Std.LawfulEqCmp.eq_of_compare (Ordering.eq_eq_of_isLE_of_isGE hab hba)

omit [Std.LawfulEqCmp cmp] in
theorem pairwise_mergeSort_isLE (l : List α) :
    (l.mergeSort fun a b => (cmp a b).isLE).Pairwise fun a b => (cmp a b).isLE := by
  refine List.pairwise_mergeSort (fun a b c => Std.TransCmp.isLE_trans) (fun a b => ?_) l
  rw [show cmp b a = (cmp a b).swap from Std.OrientedCmp.eq_swap]
  cases cmp a b <;> rfl

variable [DecidableEq α]

theorem mergeDedup_eq (ls : List (List α)) :
    mergeDedup cmp ls = (ls.flatten.mergeSort fun a b => (cmp a b).isLE).dedup := by
  have : Std.Antisymm fun a b => ((cmp a b).isLE : Prop) := ⟨fun _ _ => eq_of_isLE⟩
  exact (pairwise_mergeSort_isLE ls.flatten).destutter_eq_dedup

theorem increasing_mergeDedup (ls : List (List α)) : Increasing cmp (mergeDedup cmp ls) := by
  have hsort := (@pairwise_mergeSort_isLE _ cmp _ ls.flatten).sublist
    (List.destutter_sublist (· ≠ ·) _)
  have hnodup : (mergeDedup cmp ls).Pairwise (· ≠ ·) := by
    rw [mergeDedup_eq]
    exact List.nodup_dedup _
  refine (hsort.and hnodup).imp fun {a b} h => ?_
  cases hab : cmp a b with
  | lt => rfl
  | eq => exact (h.2 (Std.LawfulEqCmp.eq_of_compare hab)).elim
  | gt => simp [hab] at h

theorem mem_mergeDedup {ls : List (List α)} {x : α} :
    x ∈ mergeDedup cmp ls ↔ ∃ l ∈ ls, x ∈ l := by
  rw [mergeDedup_eq, List.mem_dedup, List.mem_mergeSort, List.mem_flatten]

end Sorted

section Cursor
variable {cmp : α → α → Ordering} [Std.TransCmp cmp]

/-- What is not beyond the cursor. -/
def upTo (cmp : α → α → Ordering) (cursor : α) (x : α) : Bool := (cmp x cursor).isLE

/-- A cursor cuts the list in two. -/
theorem Increasing.split {l : List α} (h : Increasing cmp l) (cursor : α) :
    ∃ before after, l = before ++ after ∧ (∀ x ∈ before, upTo cmp cursor x = true) ∧
      ∀ x ∈ after, cmp cursor x = .lt := by
  induction l with
  | nil => exact ⟨[], [], rfl, nofun, nofun⟩
  | cons x l ih =>
    obtain ⟨hx, hl⟩ := List.pairwise_cons.mp h
    by_cases hup : upTo cmp cursor x = true
    · obtain ⟨before, after, rfl, hb, ha⟩ := ih hl
      exact ⟨x :: before, after, rfl, List.forall_mem_cons.mpr ⟨hup, hb⟩, ha⟩
    · have hlt : cmp cursor x = .lt := by
        rw [show cmp cursor x = (cmp x cursor).swap from Std.OrientedCmp.eq_swap]
        simpa [upTo, Ordering.isLE_eq_false] using hup
      exact ⟨[], x :: l, rfl, nofun, List.forall_mem_cons.mpr
        ⟨hlt, fun y hy => Std.TransCmp.lt_trans hlt (hx y hy)⟩⟩

theorem upTo_eq_false {cursor x : α} (h : cmp cursor x = .lt) : upTo cmp cursor x = false := by
  rw [upTo, show cmp x cursor = (cmp cursor x).swap from Std.OrientedCmp.eq_swap, h]
  rfl

theorem filter_of_split {cursor : α} {before after : List α}
    (hb : ∀ x ∈ before, upTo cmp cursor x = true) (ha : ∀ x ∈ after, cmp cursor x = .lt) :
    ((before ++ after).filter fun x => cmp cursor x == .lt) = after := by
  have hnone : (before.filter fun x => cmp cursor x == .lt) = [] := by
    refine List.filter_eq_nil_iff.mpr fun x hx hlt => ?_
    rw [beq_iff_eq] at hlt
    simpa [hb x hx] using upTo_eq_false hlt
  rw [List.filter_append, hnone, List.nil_append]
  exact List.filter_eq_self.mpr fun x hx => by simp [ha x hx]

/-- The partition point of a cursor is where the greater elements begin. -/
theorem drop_partitionPoint {l : List α} (h : Increasing cmp l) (cursor : α) :
    l.drop (partitionPoint (upTo cmp cursor) l) = l.filter fun x => cmp cursor x == .lt := by
  obtain ⟨before, after, rfl, hb, ha⟩ := h.split cursor
  rw [partitionPoint_eq hb fun x hx => upTo_eq_false (ha x hx), List.drop_left,
    filter_of_split hb ha]

theorem Increasing.filter_of_mem {pre post : List α} {x : α}
    (h : Increasing cmp (pre ++ x :: post)) :
    ((pre ++ x :: post).filter fun y => cmp x y == .lt) = post := by
  obtain ⟨-, hpost, hcross⟩ := List.pairwise_append.mp h
  have hpre : ∀ y ∈ pre ++ [x], upTo cmp x y = true := by
    intro y hy
    rcases List.mem_append.mp hy with hy | hy
    · simp [upTo, hcross y hy x List.mem_cons_self]
    · rw [List.mem_singleton.mp hy, upTo, show cmp x x = .eq from Std.ReflCmp.compare_self]
      rfl
  have hsplit := filter_of_split hpre (List.pairwise_cons.mp hpost).1
  rwa [List.append_assoc, List.singleton_append] at hsplit

end Cursor

section Run

/-- Ask for the next page as long as there are more, from the last element of the page before;
`none` if the given number of requests does not reach the end. -/
def follow (page : Option α → List α × Bool) : ℕ → Option α → Option (List (List α))
  | 0, _ => none
  | k + 1, last =>
    let r := page last
    if r.2 then (follow page k r.1.getLast?).map (r.1 :: ·) else some [r.1]

/-- Each page is the `n` elements that follow the cursor. -/
structure Paged (l : List α) (n : ℕ) (page : Option α → List α × Bool) : Prop where
  first : page none = (l.take n, decide (n < l.length))
  next : ∀ {pre x post}, l = pre ++ x :: post →
    page (some x) = (post.take n, decide (n < post.length))

/-- The number of pages of `n` elements that `len` elements fill, but at least one. -/
def pageCount (len n : ℕ) : ℕ := max 1 ((len + n - 1) / n)

variable {l : List α} {n : ℕ} {page : Option α → List α × Bool}

theorem pageCount_of_le {len : ℕ} (h : len ≤ n) : pageCount len n = 1 := by
  have hlt : (len + n - 1) / n < 2 := by
    rcases Nat.eq_zero_or_pos n with rfl | hn
    · simp
    · exact Nat.div_lt_of_lt_mul (by omega)
  unfold pageCount
  omega

theorem pageCount_of_lt {len : ℕ} (hn : 0 < n) (h : n < len) :
    pageCount len n = pageCount (len - n) n + 1 := by
  have hdiv : (len + n - 1) / n = (len - n + n - 1) / n + 1 := by
    rw [← Nat.add_div_right _ hn]
    congr 1
    omega
  have hpos : 0 < (len - n + n - 1) / n := Nat.div_pos (by omega) hn
  unfold pageCount
  omega

/-- From a cursor whose rest is `rest`, the pages are the rest. -/
theorem Paged.follow_rest (h : Paged l n page) (hn : 0 < n) {k : ℕ} {last : Option α}
    {pre rest : List α} (hsplit : l = pre ++ rest)
    (hpage : page last = (rest.take n, decide (n < rest.length)))
    (hk : pageCount rest.length n ≤ k) :
    ∃ pages, follow page k last = some pages ∧ pages.flatten = rest ∧
      pages.length = pageCount rest.length n := by
  induction k generalizing last pre rest with
  | zero =>
    have hone : 1 ≤ pageCount rest.length n := Nat.le_max_left _ _
    omega
  | succ k ih =>
    rw [follow, hpage]
    by_cases hmore : n < rest.length
    · -- the cursor of the next page is the last element of this one
      obtain ⟨x, hx⟩ : ∃ x, rest.take n = rest.take (n - 1) ++ [x] := by
        have hlt : n - 1 < rest.length := by omega
        refine ⟨rest[n - 1], ?_⟩
        rw [List.take_append_getElem hlt, Nat.sub_add_cancel hn]
      have hsplit' : l = pre ++ rest.take (n - 1) ++ x :: rest.drop n := by
        rw [hsplit]
        conv_lhs => rw [← List.take_append_drop n rest, hx]
        simp
      have hcount := pageCount_of_lt hn hmore
      obtain ⟨pages, hpages, hflat, hlen⟩ := @ih (some x) (pre ++ rest.take (n - 1) ++ [x])
        (rest.drop n) (by rw [hsplit']; simp) (h.next hsplit') (by
          rw [List.length_drop]
          omega)
      refine ⟨rest.take n :: pages, ?_, ?_, ?_⟩
      · simp [hmore, hx, hpages]
      · rw [List.flatten_cons, hflat, List.take_append_drop]
      · rw [List.length_cons, hlen, List.length_drop, hcount]
    · have hall : rest.take n = rest := List.take_of_length_le (by omega)
      refine ⟨[rest], ?_, by simp, ?_⟩
      · simp [hmore, hall]
      · rw [pageCount_of_le (by omega), List.length_singleton]

/-- The whole run, from no cursor. -/
theorem Paged.follow_all (h : Paged l n page) (hn : 0 < n) {k : ℕ}
    (hk : pageCount l.length n ≤ k) :
    ∃ pages, follow page k none = some pages ∧ pages.flatten = l ∧
      pages.length = pageCount l.length n :=
  h.follow_rest hn (List.nil_append l).symm h.first hk

end Run

end CursorPages
