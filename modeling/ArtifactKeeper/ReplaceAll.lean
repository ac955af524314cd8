import ArtifactKeeper.Occurrence

/-! Replacement of every occurrence of a pattern in a list, from the left and without overlaps. -/

namespace ReplaceAll

variable {α : Type} [DecidableEq α]

/-- `skip` more elements belong to an occurrence that has been replaced. -/
def copyFrom (pat value : List α) : ℕ → List α → List α
  | _, [] => []
  | skip + 1, _ :: rest => copyFrom pat value skip rest
  | 0, a :: rest =>
    if pat.isPrefixOf (a :: rest) then value ++ copyFrom pat value (pat.length - 1) rest
    else a :: copyFrom pat value 0 rest

def replaceAll (pat value xs : List α) : List α := copyFrom pat value 0 xs

/-- How often the pattern starts in the first of two lists, of which the second follows. -/
def startsIn (pat : List α) : List α → List α → ℕ
  | [], _ => 0
  | a :: xs, ys => (if pat.isPrefixOf (a :: (xs ++ ys)) then 1 else 0) + startsIn pat xs ys

def occurrences (pat xs : List α) : ℕ := startsIn pat xs []

variable {pat value : List α}

theorem startsIn_append (xs ys zs : List α) :
    startsIn pat (xs ++ ys) zs = startsIn pat xs (ys ++ zs) + startsIn pat ys zs := by
  induction xs with
  | nil => simp [startsIn]
  | cons a xs ih => rw [List.cons_append, startsIn, startsIn, ih, List.append_assoc, Nat.add_assoc]

theorem occurrences_append (xs ys : List α) :
    occurrences pat (xs ++ ys) = startsIn pat xs ys + occurrences pat ys := by
  rw [occurrences, startsIn_append, List.append_nil]
  rfl

/-- A pattern that starts with an element which is not in the list does not start there. -/
theorem startsIn_of_not_mem {a : α} (hhead : pat.head? = some a) {xs : List α} (h : a ∉ xs)
    (ys : List α) : startsIn pat xs ys = 0 := by
  induction xs with
  | nil => rfl
  | cons b xs ih =>
    rw [List.mem_cons, not_or] at h
    obtain ⟨rest, rfl⟩ : ∃ rest, pat = a :: rest := by
      cases pat with
      | nil => cases hhead
      | cons c rest => exact ⟨rest, by rw [Option.some.inj hhead]⟩
    rw [startsIn, ih h.2]
    simp [List.isPrefixOf, h.1]

theorem startsIn_self {a : α} {rest : List α} (h : a ∉ rest) (ys : List α) :
    startsIn (a :: rest) (a :: rest) ys = 1 := by
  have hstart : (a :: rest).isPrefixOf (a :: (rest ++ ys)) = true := by
    rw [List.isPrefixOf_iff_prefix]
    exact List.prefix_append (a :: rest) ys
  rw [startsIn, hstart, startsIn_of_not_mem rfl h]
  rfl

theorem startsIn_append_eq_zero {xs ys zs : List α} :
    startsIn pat (xs ++ ys) zs = 0 ↔ startsIn pat xs (ys ++ zs) = 0 ∧ startsIn pat ys zs = 0 := by
  rw [startsIn_append, Nat.add_eq_zero_iff]

theorem startsIn_cons_eq_zero {a : α} {xs ys : List α} :
    startsIn pat (a :: xs) ys = 0 ↔ ¬ pat <+: a :: (xs ++ ys) ∧ startsIn pat xs ys = 0 := by
  rw [startsIn, Nat.add_eq_zero_iff, ite_eq_right_iff, List.isPrefixOf_iff_prefix]
  simp

/-- The first occurrence of a pattern that does not start before it. -/
theorem find_of_startsIn {xs ys : List α} (h : startsIn pat xs (pat ++ ys) = 0) :
    Occurrence.find pat (xs ++ (pat ++ ys)) = some xs.length := by
  induction xs with
  | nil =>
    have hpre : pat <+: pat ++ ys := List.prefix_append pat ys
    cases pat with
    | nil => cases ys <;> simp [Occurrence.find]
    | cons p pat => exact if_pos hpre
  | cons a xs ih =>
    obtain ⟨hnot, hrest⟩ := startsIn_cons_eq_zero.mp h
    rw [List.cons_append, Occurrence.find, if_neg hnot, ih hrest]
    rfl

theorem find_eq_none {xs : List α} (hpat : pat ≠ []) (h : startsIn pat xs [] = 0) :
    Occurrence.find pat xs = none := by
  induction xs with
  | nil => exact if_neg hpat
  | cons a xs ih =>
    obtain ⟨hnot, hrest⟩ := startsIn_cons_eq_zero.mp h
    rw [List.append_nil] at hnot
    rw [Occurrence.find, if_neg hnot, ih hrest]
    rfl

/-- What no occurrence starts in is copied. -/
theorem replaceAll_append_of_none {xs : List α} (ys : List α) (h : startsIn pat xs ys = 0) :
    replaceAll pat value (xs ++ ys) = xs ++ replaceAll pat value ys := by
  induction xs with
  | nil => rfl
  | cons a xs ih =>
    rw [startsIn] at h
    have hnot : ¬ pat.isPrefixOf (a :: (xs ++ ys)) = true := by
      intro hpre
      simp [hpre] at h
    rw [replaceAll, List.cons_append, copyFrom, if_neg hnot, List.cons_append]
    congr 1
    exact ih (by omega)

theorem copyFrom_length_append (xs ys : List α) :
    copyFrom pat value xs.length (xs ++ ys) = replaceAll pat value ys := by
  induction xs with
  | nil => rfl
  | cons a xs ih => rw [List.length_cons, List.cons_append, copyFrom, ih]

theorem replaceAll_append_self (a : α) (rest ys : List α) :
    replaceAll (a :: rest) value (a :: rest ++ ys) = value ++ replaceAll (a :: rest) value ys := by
  have hstart : (a :: rest).isPrefixOf (a :: (rest ++ ys)) = true := by
    rw [List.isPrefixOf_iff_prefix]
    exact List.prefix_append (a :: rest) ys
  rw [replaceAll, List.cons_append, copyFrom, if_pos hstart, List.length_cons,
    Nat.add_sub_cancel, copyFrom_length_append]

end ReplaceAll
