import Mathlib.Data.List.Basic
import Mathlib.Data.List.DropRight
import Mathlib.Data.Nat.Notation

/-! The segments of a list between separators. -/

namespace Segments

variable {α β : Type} [DecidableEq α] [DecidableEq β] {sep : α}

/-- The segments that have a separator on both sides. -/
def between (sep : α) (xs : List α) : List (List α) := (xs.splitOn sep).tail.dropLast

def last (sep : α) (xs : List α) : List α := (xs.splitOn sep).getLastD xs

omit [DecidableEq α] in
theorem intercalate_append {ls ms : List (List α)} (hls : ls ≠ []) (hms : ms ≠ []) :
    [sep].intercalate (ls ++ ms) = [sep].intercalate ls ++ sep :: [sep].intercalate ms := by
  induction ls with
  | nil => contradiction
  | cons l ls ih =>
    cases ls with
    | nil => cases ms with
      | nil => contradiction
      | cons m ms => simp [List.intercalate]
    | cons l' ls =>
      have hrest := ih (List.cons_ne_nil _ _)
      simp only [List.intercalate, List.cons_append, List.intersperse, List.flatten_cons] at hrest ⊢
      rw [hrest]
      simp

/-- Enclosed in separators, a list without them is found exactly where it is a segment. -/
theorem enclosed_infix_iff {x xs : List α} (hx : sep ∉ x) :
    sep :: (x ++ [sep]) <:+: xs ↔ x ∈ between sep xs := by
  constructor
  · rintro ⟨a, b, rfl⟩
    obtain ⟨s, ss, hss⟩ := List.exists_cons_of_ne_nil (List.splitOn_ne_nil sep a)
    have hsplit : (a ++ sep :: (x ++ [sep]) ++ b).splitOn sep =
        s :: (ss ++ x :: b.splitOn sep) := by
      have hshape : a ++ sep :: (x ++ [sep]) ++ b = a ++ sep :: (x ++ sep :: b) := by simp
      rw [hshape, List.splitOn_append_cons_self, hss,
        List.splitOn_append_cons_self_of_not_mem hx, List.cons_append]
    rw [between, hsplit, List.tail_cons, List.dropLast_append_of_ne_nil (List.cons_ne_nil _ _),
      List.dropLast_cons_of_ne_nil (List.splitOn_ne_nil sep b)]
    simp
  · intro h
    obtain ⟨s, ss, hss⟩ := List.exists_cons_of_ne_nil (List.splitOn_ne_nil sep xs)
    rw [between, hss, List.tail_cons] at h
    obtain ⟨u, v, huv⟩ := List.append_of_mem h
    have hne : ss ≠ [] := by
      rintro rfl
      simp at huv
    have hlast : ss = u ++ x :: v ++ [ss.getLast hne] := by
      rw [← huv, List.dropLast_append_getLast]
    have hxs : [sep].intercalate (xs.splitOn sep) = xs := List.intercalate_splitOn sep
    have hshape : s :: ss = (s :: u) ++ ([x] ++ (v ++ [ss.getLast hne])) := by
      conv_lhs => rw [hlast]
      simp
    rw [hss, hshape, intercalate_append (List.cons_ne_nil _ _) (by simp),
      intercalate_append (by simp) (by simp)] at hxs
    refine ⟨[sep].intercalate (s :: u), [sep].intercalate (v ++ [ss.getLast hne]), ?_⟩
    rw [← hxs]
    simp [List.intercalate]

omit [DecidableEq α] in
theorem infix_intercalate {ls : List (List α)} {l : List α} (hl : l ∈ ls) :
    l <:+: [sep].intercalate ls := by
  induction ls with
  | nil => cases hl
  | cons x ls ih =>
    have hone : [sep].intercalate [x] = x := by simp [List.intercalate]
    cases ls with
    | nil =>
      obtain rfl := List.mem_singleton.mp hl
      simp [hone]
    | cons y ls =>
      have hsplit := @intercalate_append α sep [x] (y :: ls) (by simp) (by simp)
      rw [List.singleton_append, hone] at hsplit
      rw [hsplit]
      rcases List.mem_cons.mp hl with rfl | hl
      · exact (List.prefix_append _ _).isInfix
      · exact (ih hl).trans ⟨x ++ [sep], [], by simp⟩

theorem infix_of_mem_splitOn {xs seg : List α} (hseg : seg ∈ xs.splitOn sep) : seg <:+: xs := by
  have hxs : [sep].intercalate (xs.splitOn sep) = xs := List.intercalate_splitOn sep
  rw [← hxs]
  exact infix_intercalate hseg

/-- What is in a segment is in the list. -/
theorem mem_of_mem_splitOn {xs seg : List α} {a : α} (hseg : seg ∈ xs.splitOn sep)
    (ha : a ∈ seg) : a ∈ xs := (infix_of_mem_splitOn hseg).subset ha

theorem sep_not_mem_of_mem_splitOn {xs seg : List α} (hseg : seg ∈ xs.splitOn sep) :
    sep ∉ seg := by
  induction xs generalizing seg with
  | nil =>
    rw [List.splitOn_nil, List.mem_singleton] at hseg
    simp [hseg]
  | cons a rest ih =>
    rw [List.splitOn_cons_eq_if_modifyHead] at hseg
    by_cases ha : a = sep
    · rw [if_pos (by simpa using ha)] at hseg
      rcases List.mem_cons.mp hseg with rfl | hseg
      · simp
      · exact ih hseg
    · rw [if_neg (by simpa using ha)] at hseg
      cases hsplit : rest.splitOn sep with
      | nil => exact absurd hsplit (List.splitOn_ne_nil sep rest)
      | cons s ss =>
        rw [hsplit, List.modifyHead_cons] at hseg
        rcases List.mem_cons.mp hseg with rfl | hseg
        · have hs : sep ∉ s := ih (by simp [hsplit])
          simp [hs, Ne.symm ha]
        · exact ih (by simp [hsplit, hseg])

omit [DecidableEq α] in
/-- Segments put together with separators come apart again. -/
theorem splitOnP_flatMap {p : α → Bool} {first : List α} (rest : List (α × List α))
    (hfirst : ∀ a ∈ first, p a = false)
    (hrest : ∀ part ∈ rest, p part.1 = true ∧ ∀ a ∈ part.2, p a = false) :
    (first ++ rest.flatMap fun part => part.1 :: part.2).splitOnP p =
      first :: rest.map Prod.snd := by
  induction rest generalizing first with
  | nil => simp [List.splitOnP_eq_singleton hfirst]
  | cons part rest ih =>
    obtain ⟨hsep, hpart⟩ := hrest part List.mem_cons_self
    rw [List.flatMap_cons, List.cons_append,
      List.splitOnP_append_cons_of_forall_mem hfirst part.1 hsep,
      ih hpart fun x hx => hrest x (List.mem_cons_of_mem part hx), List.map_cons]

/-- A function that keeps separators apart from the rest goes through. -/
theorem splitOn_map {f : α → β} {sep' : β} (hf : ∀ a, f a = sep' ↔ a = sep) (xs : List α) :
    (xs.map f).splitOn sep' = (xs.splitOn sep).map (·.map f) := by
  induction xs with
  | nil => simp [List.splitOn_nil]
  | cons a rest ih =>
    rw [List.map_cons, List.splitOn_cons_eq_if_modifyHead, List.splitOn_cons_eq_if_modifyHead, ih]
    by_cases ha : a = sep
    · subst ha
      simp [(hf a).mpr rfl]
    · have hfa : f a ≠ sep' := fun h => ha ((hf a).mp h)
      simp only [beq_iff_eq, ha, hfa, if_false]
      cases rest.splitOn sep with
      | nil => rfl
      | cons s ss => simp

/-- So does one that gives lists, if the separator comes from separators only. -/
theorem splitOn_flatMap {f : α → List β} {sep' : β} (hsep : f sep = [sep'])
    (hf : ∀ a, a ≠ sep → sep' ∉ f a) (xs : List α) :
    (xs.flatMap f).splitOn sep' = (xs.splitOn sep).map (·.flatMap f) := by
  have hcons : ∀ (pre rest : List β), sep' ∉ pre →
      (pre ++ rest).splitOn sep' = (rest.splitOn sep').modifyHead (pre ++ ·) := by
    intro pre rest hpre
    induction pre with
    | nil =>
      rw [List.nil_append]
      cases rest.splitOn sep' <;> rfl
    | cons b pre ih =>
      obtain ⟨hb, hpre⟩ := not_or.mp (mt List.mem_cons.mpr hpre)
      rw [List.cons_append, List.splitOn_cons_eq_if_modifyHead, ih hpre]
      simp only [beq_iff_eq, Ne.symm hb, if_false]
      cases rest.splitOn sep' <;> rfl
  induction xs with
  | nil => simp [List.splitOn_nil]
  | cons a rest ih =>
    rw [List.flatMap_cons, List.splitOn_cons_eq_if_modifyHead]
    by_cases ha : a = sep
    · subst ha
      rw [hsep, List.singleton_append, List.splitOn_cons_eq_if_modifyHead, ih]
      simp
    · rw [hcons _ _ (hf a ha), ih]
      simp only [beq_iff_eq, ha, if_false]
      cases rest.splitOn sep <;> simp

/-- A function that goes through separators goes through the segments. -/
theorem splitOn_of_append {f : List α → List α}
    (hf : ∀ before after, f (before ++ sep :: after) = f before ++ sep :: f after) {xs : List α}
    (hsegs : ∀ seg ∈ xs.splitOn sep, sep ∉ f seg) :
    (f xs).splitOn sep = (xs.splitOn sep).map f := by
  have hxs : [sep].intercalate (xs.splitOn sep) = xs := List.intercalate_splitOn sep
  have hne : xs.splitOn sep ≠ [] := List.splitOn_ne_nil sep xs
  generalize xs.splitOn sep = segs at hsegs hxs hne
  induction segs generalizing xs with
  | nil => exact absurd rfl hne
  | cons seg segs ih =>
    have hseg := hsegs seg List.mem_cons_self
    cases segs with
    | nil =>
      have hsingle : xs = seg := by simpa [List.intercalate] using hxs.symm
      rw [hsingle, List.splitOn_eq_singleton hseg]
      rfl
    | cons seg' segs =>
      have hrest := ih (fun s hs => hsegs s (List.mem_cons_of_mem _ hs)) rfl (by simp)
      have hsplit := @intercalate_append α sep [seg] (seg' :: segs) (by simp) (by simp)
      rw [List.singleton_append, hxs] at hsplit
      have hone : [sep].intercalate [seg] = seg := by simp [List.intercalate]
      rw [hsplit, hone, hf, List.splitOn_append_cons_self_of_not_mem hseg, hrest]
      rfl

theorem between_map {f : α → β} {sep' : β} (hf : ∀ a, f a = sep' ↔ a = sep) (xs : List α) :
    between sep' (xs.map f) = (between sep xs).map (·.map f) := by
  rw [between, between, splitOn_map hf, ← List.map_tail, List.map_dropLast]

theorem last_eq_getLast (sep : α) (xs : List α) :
    last sep xs = (xs.splitOn sep).getLast (List.splitOn_ne_nil sep xs) := by
  rw [last, List.getLastD_eq_getLast?, List.getLast?_eq_some_getLast (List.splitOn_ne_nil sep xs),
    Option.getD_some]

theorem last_map {f : α → β} {sep' : β} (hf : ∀ a, f a = sep' ↔ a = sep) (xs : List α) :
    last sep' (xs.map f) = (last sep xs).map f := by
  simp only [last_eq_getLast, splitOn_map hf, List.getLast_map]

/-- Separators at the start do not change the last segment. -/
theorem last_dropWhile (xs : List α) : last sep (xs.dropWhile (· == sep)) = last sep xs := by
  induction xs with
  | nil => rfl
  | cons a rest ih =>
    by_cases ha : a = sep
    · subst ha
      rw [List.dropWhile_cons_of_pos (by simp), ih, last_eq_getLast, last_eq_getLast]
      simp only [List.splitOn_cons_eq_if_modifyHead, beq_self_eq_true, if_true]
      rw [List.getLast_cons (List.splitOn_ne_nil a rest)]
    · rw [List.dropWhile_cons_of_neg (by simpa using ha)]

end Segments
