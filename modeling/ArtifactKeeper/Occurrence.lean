import Mathlib.Data.List.Infix
import Mathlib.Data.List.TakeWhile
import Mathlib.Tactic.Common

/-! Occurrences of a pattern in a list, the stretches from one pattern to the next, and what is left
of a list when some of its stretches are taken out. -/

namespace Occurrence
variable {α β : Type*}

/-- `n` is the first position at which `pat` occurs in `s`. -/
structure First (pat s : List α) (n : ℕ) : Prop where
  here : pat <+: s.drop n
  before : ∀ m < n, ¬ pat <+: s.drop m

namespace First
variable {pat s : List α} {m n : ℕ}

theorem unique (hm : First pat s m) (hn : First pat s n) : m = n := by
  rcases Nat.lt_trichotomy m n with h | h | h
  · exact (hn.before m h hm.here).elim
  · exact h
  · exact (hm.before n h hn.here).elim

/-- A nonempty pattern that occurs lies within the list. -/
theorem add_length_le (h : First pat s n) (hpat : pat ≠ []) : n + pat.length ≤ s.length := by
  have hle : pat.length ≤ s.length - n := by
    simpa using h.here.length_le
  have hpos : 0 < pat.length := List.length_pos_of_ne_nil hpat
  omega

/-- Where a pattern occurs, it occurs first somewhere. -/
theorem exists_of_prefix_drop (h : pat <+: s.drop n) : ∃ m, First pat s m := by
  induction n using Nat.strong_induction_on with
  | _ n ih =>
    by_cases hbefore : ∃ m < n, pat <+: s.drop m
    · obtain ⟨m, hm, hpre⟩ := hbefore
      exact ih m hm hpre
    · exact ⟨n, h, fun m hm hpre => hbefore ⟨m, hm, hpre⟩⟩

end First

section Find
variable [DecidableEq α]

def find (pat : List α) : List α → Option ℕ
  | [] => if pat = [] then some 0 else none
  | c :: s => if pat <+: c :: s then some 0 else (find pat s).map (· + 1)

theorem find_eq_some_iff {pat s : List α} {n : ℕ} : find pat s = some n ↔ First pat s n := by
  induction s generalizing n with
  | nil =>
    constructor
    · intro h
      by_cases hpat : pat = []
      · simp only [find, hpat, if_true, Option.some.injEq] at h
        subst h
        exact ⟨by simp [hpat], fun m hm => absurd hm (Nat.not_lt_zero m)⟩
      · simp [find, hpat] at h
    · intro h
      have hpat : pat = [] := by simpa using h.here
      have hn : n = 0 := by
        by_contra hne
        exact h.before 0 (Nat.pos_of_ne_zero hne) (by simp [hpat])
      simp [find, hpat, hn]
  | cons c s ih =>
    by_cases hpre : pat <+: c :: s
    · have hzero : First pat (c :: s) 0 := ⟨hpre, fun m hm => absurd hm (Nat.not_lt_zero m)⟩
      constructor
      · intro h
        have hn : n = 0 := by simpa [find, hpre] using h.symm
        exact hn ▸ hzero
      · intro h
        simp [find, hpre, h.unique hzero]
    · rw [find, if_neg hpre, Option.map_eq_some_iff]
      constructor
      · rintro ⟨k, hk, rfl⟩
        have hfirst := ih.mp hk
        refine ⟨hfirst.here, fun m hm => ?_⟩
        cases m with
        | zero => exact hpre
        | succ m => exact hfirst.before m (by omega)
      · intro h
        cases n with
        | zero => exact (hpre h.here).elim
        | succ k =>
          exact ⟨k, ih.mpr ⟨h.here, fun m hm => h.before (m + 1) (by omega)⟩, rfl⟩

theorem find_eq_none_iff {pat s : List α} : find pat s = none ↔ ∀ n, ¬ First pat s n := by
  constructor
  · intro h n hn
    rw [find_eq_some_iff.mpr hn] at h
    cases h
  · intro h
    cases hfind : find pat s with
    | none => rfl
    | some n => exact (h n (find_eq_some_iff.mp hfind)).elim

end Find

/-- The stretches of `s` from `cursor` on, read from the left without overlap: each begins where
`opening` next occurs and ends with the first `closing` from there. -/
inductive Stretches (opening closing s : List α) : ℕ → List (ℕ × ℕ) → Prop
  | done {cursor : ℕ} : (∀ n, First opening (s.drop cursor) n →
      ∀ m, ¬ First closing (s.drop (cursor + n)) m) → Stretches opening closing s cursor []
  | next {cursor n m : ℕ} {rest : List (ℕ × ℕ)} : First opening (s.drop cursor) n →
      First closing (s.drop (cursor + n)) m →
      Stretches opening closing s (cursor + n + m + closing.length) rest →
      Stretches opening closing s cursor
        ((cursor + n, cursor + n + m + closing.length) :: rest)

/-- Reading from the left leaves no choice. -/
theorem Stretches.unique {opening closing s : List α} {cursor : ℕ} {l l' : List (ℕ × ℕ)}
    (h : Stretches opening closing s cursor l) (h' : Stretches opening closing s cursor l') :
    l = l' := by
  induction h generalizing l' with
  | done hnone =>
    cases h' with
    | done _ => rfl
    | next hopen hclose _ => exact (hnone _ hopen _ hclose).elim
  | next hopen hclose _ ih =>
    cases h' with
    | done hnone => exact (hnone _ hopen _ hclose).elim
    | next hopen' hclose' hrest' =>
      obtain rfl := hopen.unique hopen'
      obtain rfl := hclose.unique hclose'
      rw [ih hrest']

/-- Regions in order, without overlap, from `cursor` on. -/
inductive Ordered : ℕ → List (ℕ × ℕ) → Prop
  | nil {cursor : ℕ} : Ordered cursor []
  | cons {cursor start stop : ℕ} {rest : List (ℕ × ℕ)} : cursor ≤ start → start ≤ stop →
      Ordered stop rest → Ordered cursor ((start, stop) :: rest)

theorem Stretches.ordered {opening closing s : List α} {cursor : ℕ} {l : List (ℕ × ℕ)}
    (h : Stretches opening closing s cursor l) : Ordered cursor l := by
  induction h with
  | done _ => exact .nil
  | next _ _ _ ih => exact .cons (by omega) (by omega) ih

theorem Ordered.start_le {cursor : ℕ} {l : List (ℕ × ℕ)} (h : Ordered cursor l) :
    ∀ r ∈ l, cursor ≤ r.1 := by
  induction h with
  | nil => simp
  | cons hle hlen _ ih =>
    intro r hr
    rcases List.mem_cons.mp hr with rfl | hr
    · exact hle
    · have hstop := ih r hr
      omega

/-- A pattern at its first position, with what stands around it. -/
theorem First.split {pat s : List α} {n : ℕ} (h : First pat s n) (hpat : pat ≠ []) :
    s = s.take n ++ pat ++ s.drop (n + pat.length) ∧ (s.take n).length = n := by
  have hlen := h.add_length_le hpat
  obtain ⟨after, hafter⟩ := h.here
  have hdrop : s.drop (n + pat.length) = after := by
    rw [← List.drop_drop, ← hafter, List.drop_left]
  constructor
  · rw [hdrop, List.append_assoc, hafter, List.take_append_drop]
  · rw [List.length_take]
    omega

/-- One item is first where none like it stands before. -/
theorem first_singleton_iff {c : α} {before after : List α} :
    First [c] (before ++ c :: after) before.length ↔ c ∉ before := by
  have hat : ∀ m < before.length,
      ([c] <+: (before ++ c :: after).drop m ↔ before[m]? = some c) := by
    intro m hm
    rw [List.drop_append_of_le_length (by omega), List.drop_eq_getElem_cons hm,
      List.cons_append, List.cons_prefix_cons]
    simp [List.getElem?_eq_getElem hm, eq_comm]
  constructor
  · intro h hmem
    obtain ⟨m, hm⟩ := List.mem_iff_getElem?.mp hmem
    have hlt : m < before.length := (List.getElem?_eq_some_iff.mp hm).1
    exact h.before m hlt ((hat m hlt).mpr hm)
  · intro hnot
    refine ⟨by simp, fun m hm hpre => hnot ?_⟩
    exact List.mem_of_getElem? ((hat m hm).mp hpre)

theorem takeWhile_eq_iff {p : α → Bool} {l s : List α} :
    l.takeWhile p = s ↔
      ∃ tail, l = s ++ tail ∧ (∀ x ∈ s, p x = true) ∧ ∀ x ∈ tail.head?, p x = false := by
  constructor
  · rintro rfl
    refine ⟨l.dropWhile p, List.takeWhile_append_dropWhile.symm,
      fun x hx => List.mem_takeWhile_imp hx, fun x hx => ?_⟩
    have hhead := List.head?_dropWhile_not p l
    rw [Option.mem_def.mp hx] at hhead
    exact hhead
  · rintro ⟨tail, rfl, hs, htail⟩
    rw [List.takeWhile_append_of_pos hs]
    cases tail with
    | nil => simp
    | cons x tail => simp [htail x rfl]

section Cuts
variable [DecidableEq α]

def afterLast (c : α) (l : List α) : List α := (l.reverse.takeWhile (· ≠ c)).reverse

theorem afterLast_eq_iff {c : α} {l s : List α} :
    afterLast c l = s ↔
      ∃ dir, l = dir ++ s ∧ c ∉ s ∧ ∀ x ∈ dir.getLast?, x = c := by
  rw [afterLast, ← List.reverse_inj, List.reverse_reverse, takeWhile_eq_iff]
  constructor
  · rintro ⟨tail, hl, hs, htail⟩
    refine ⟨tail.reverse, ?_, fun hc => ?_, fun x hx => ?_⟩
    · rw [← List.reverse_inj, hl, List.reverse_append, List.reverse_reverse]
    · simpa using hs c (List.mem_reverse.mpr hc)
    · rw [List.getLast?_reverse] at hx
      simpa using htail x hx
  · rintro ⟨dir, rfl, hs, hdir⟩
    refine ⟨dir.reverse, List.reverse_append, fun x hx => ?_, fun x hx => ?_⟩
    · have hne : x ≠ c := fun h => hs (h ▸ List.mem_reverse.mp hx)
      simpa using hne
    · rw [List.head?_reverse] at hx
      simpa using hdir x hx

end Cuts

def slice (l : List α) (start stop : ℕ) : List α := (l.drop start).take (stop - start)

theorem slice_map (f : α → β) (l : List α) (start stop : ℕ) :
    slice (l.map f) start stop = (slice l start stop).map f := by
  rw [slice, slice, List.map_take, List.map_drop]

theorem mem_drop_range {n start i : ℕ} : i ∈ (List.range n).drop start ↔ start ≤ i ∧ i < n := by
  simp only [List.mem_iff_getElem?, List.getElem?_drop]
  constructor
  · rintro ⟨k, hk⟩
    obtain ⟨hlt, heq⟩ := List.getElem?_eq_some_iff.mp hk
    rw [List.getElem_range] at heq
    rw [List.length_range] at hlt
    omega
  · rintro ⟨hstart, hn⟩
    refine ⟨i - start, ?_⟩
    rw [show start + (i - start) = i by omega]
    simp [hn]

theorem mem_slice_range {n start stop i : ℕ} :
    i ∈ slice (List.range n) start stop ↔ start ≤ i ∧ i < stop ∧ i < n := by
  rw [slice]
  simp only [List.mem_iff_getElem?, List.getElem?_take, List.getElem?_drop]
  constructor
  · rintro ⟨k, hk⟩
    split at hk
    · rw [List.getElem?_eq_some_iff] at hk
      obtain ⟨hlt, heq⟩ := hk
      simp only [List.getElem_range] at heq
      simp only [List.length_range] at hlt
      omega
    · cases hk
  · rintro ⟨hstart, hstop, hn⟩
    refine ⟨i - start, ?_⟩
    rw [if_pos (by omega), show start + (i - start) = i by omega]
    simp [hn]

end Occurrence
