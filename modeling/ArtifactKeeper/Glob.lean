import Mathlib.Data.List.Forall2

/-! The shared `*` / `?` matcher of the allow lists. -/

namespace ArtifactKeeper.Glob

/-- The recursive matcher over two character vectors. `none` is a panic of the code: an index
outside of a vector, or a subtraction below zero. -/
def globMatchInner (pattern text : List Char) (pi ti : ℕ) : Option Bool :=
  if pi = pattern.length ∧ ti = text.length then some true
  else if pi = pattern.length then some false
  else
    match _h : pattern[pi]? with
    | none => none
    | some c =>
      if c = '*' then
        if text.length < ti then none
        else
          (List.range (text.length - ti + 1)).anyM fun skip =>
            globMatchInner pattern text (pi + 1) (ti + skip)
      else if ti = text.length then some false
      else if c = '?' then globMatchInner pattern text (pi + 1) (ti + 1)
      else
        match text[ti]? with
        | none => none
        | some d => if c = d then globMatchInner pattern text (pi + 1) (ti + 1) else some false
termination_by pattern.length - pi
decreasing_by
  all_goals
    have hpi := (List.getElem?_eq_some_iff.mp _h).1
    omega

def globMatch (pattern text : String) : Option Bool :=
  globMatchInner pattern.toList text.toList 0 0

section Meaning

/-- The pieces of text that one character of a pattern stands for. -/
def StandsFor (c : Char) (piece : List Char) : Prop :=
  if c = '*' then True else if c = '?' then piece.length = 1 else piece = [c]

/-- The text is split into one piece for each character of the pattern. -/
def GlobMeaning (pattern text : List Char) : Prop :=
  ∃ pieces, List.Forall₂ StandsFor pattern pieces ∧ pieces.flatten = text

theorem globMeaning_nil {text : List Char} : GlobMeaning [] text ↔ text = [] := by
  simp [GlobMeaning, eq_comm]

theorem globMeaning_cons {c : Char} {pattern text : List Char} :
    GlobMeaning (c :: pattern) text ↔
      ∃ n ≤ text.length, StandsFor c (text.take n) ∧ GlobMeaning pattern (text.drop n) := by
  constructor
  · rintro ⟨_, hpieces, rfl⟩
    obtain ⟨piece, pieces, hc, hrest, rfl⟩ := List.forall₂_cons_left_iff.mp hpieces
    refine ⟨piece.length, by simp, by simpa using hc, pieces, hrest, by simp⟩
  · rintro ⟨n, -, hc, pieces, hrest, hflat⟩
    refine ⟨text.take n :: pieces, .cons hc hrest, ?_⟩
    rw [List.flatten_cons, hflat, List.take_append_drop]

theorem globMeaning_star {pattern text : List Char} :
    GlobMeaning ('*' :: pattern) text ↔ ∃ n ≤ text.length, GlobMeaning pattern (text.drop n) := by
  simp [globMeaning_cons, StandsFor]

theorem globMeaning_star_append {pattern text : List Char} :
    GlobMeaning ('*' :: pattern) text ↔ ∃ skipped rest, text = skipped ++ rest ∧
      GlobMeaning pattern rest := by
  rw [globMeaning_star]
  constructor
  · rintro ⟨n, -, h⟩
    exact ⟨text.take n, text.drop n, (List.take_append_drop n text).symm, h⟩
  · rintro ⟨skipped, rest, rfl, h⟩
    exact ⟨skipped.length, by simp, by simpa using h⟩

/-- A star may take nothing. -/
theorem GlobMeaning.star {pattern text : List Char} (h : GlobMeaning pattern text) :
    GlobMeaning ('*' :: pattern) text := globMeaning_star_append.mpr ⟨[], text, rfl, h⟩

/-- A star may take one character more. -/
theorem GlobMeaning.star_cons {pattern text : List Char} (d : Char)
    (h : GlobMeaning ('*' :: pattern) text) : GlobMeaning ('*' :: pattern) (d :: text) := by
  obtain ⟨skipped, rest, rfl, hrest⟩ := globMeaning_star_append.mp h
  exact globMeaning_star_append.mpr ⟨d :: skipped, rest, rfl, hrest⟩

theorem globMeaning_star_star {pattern text : List Char} :
    GlobMeaning ('*' :: '*' :: pattern) text ↔ GlobMeaning ('*' :: pattern) text := by
  refine ⟨fun h => ?_, GlobMeaning.star⟩
  obtain ⟨skipped, rest, rfl, hrest⟩ := globMeaning_star_append.mp h
  obtain ⟨skipped', rest', rfl, hrest'⟩ := globMeaning_star_append.mp hrest
  exact globMeaning_star_append.mpr ⟨skipped ++ skipped', rest', by simp, hrest'⟩

/-- Any character other than a star takes exactly one character of the text. -/
theorem globMeaning_single {c : Char} (hc : c ≠ '*') {pattern text : List Char} :
    GlobMeaning (c :: pattern) text ↔
      ∃ d rest, text = d :: rest ∧ (c = '?' ∨ c = d) ∧ GlobMeaning pattern rest := by
  rw [globMeaning_cons]
  constructor
  · rintro ⟨n, hn, hstands, hrest⟩
    cases text with
    | nil =>
      by_cases hq : c = '?' <;> simp [StandsFor, hc, hq] at hstands
    | cons d rest =>
      have hone : n = 1 := by
        have hlen : ((d :: rest).take n).length = 1 := by
          by_cases hq : c = '?'
          · simpa [StandsFor, hc, hq] using hstands
          · have h : (d :: rest).take n = [c] := by simpa [StandsFor, hc, hq] using hstands
            rw [h, List.length_singleton]
        rw [List.length_take] at hlen
        omega
      subst hone
      refine ⟨d, rest, rfl, ?_, hrest⟩
      by_cases hq : c = '?'
      · exact .inl hq
      · have h : [d] = [c] := by simpa [StandsFor, hc, hq] using hstands
        exact .inr (List.singleton_inj.mp h).symm
  · rintro ⟨d, rest, rfl, hd, hrest⟩
    refine ⟨1, by simp, ?_, hrest⟩
    rcases hd with rfl | rfl
    · simp [StandsFor]
    · by_cases hq : c = '?' <;> simp [StandsFor, hc, hq]

theorem globMeaning_literal {c : Char} {pattern text : List Char} (hstar : c ≠ '*')
    (hmark : c ≠ '?') :
    GlobMeaning (c :: pattern) text ↔ ∃ rest, text = c :: rest ∧ GlobMeaning pattern rest := by
  rw [globMeaning_single hstar]
  constructor
  · rintro ⟨d, rest, rfl, hd, h⟩
    obtain rfl := hd.resolve_left hmark
    exact ⟨rest, rfl, h⟩
  · rintro ⟨rest, rfl, h⟩
    exact ⟨c, rest, rfl, .inr rfl, h⟩

theorem globMeaning_mark {pattern text : List Char} :
    GlobMeaning ('?' :: pattern) text ↔ ∃ d rest, text = d :: rest ∧ GlobMeaning pattern rest := by
  simp [globMeaning_single (show '?' ≠ '*' by decide)]

theorem globMeaning_append {pattern pattern' text : List Char} :
    GlobMeaning (pattern ++ pattern') text ↔ ∃ front back, text = front ++ back ∧
      GlobMeaning pattern front ∧ GlobMeaning pattern' back := by
  constructor
  · rintro ⟨pieces, hpieces, rfl⟩
    have hfront := (List.forall₂_take_append pieces pattern pattern' hpieces.flip).flip
    have hback := (List.forall₂_drop_append pieces pattern pattern' hpieces.flip).flip
    refine ⟨_, _, ?_, ⟨_, hfront, rfl⟩, _, hback, rfl⟩
    rw [← List.flatten_append, List.take_append_drop]
  · rintro ⟨_, _, rfl, ⟨front, hfront, rfl⟩, back, hback, rfl⟩
    exact ⟨front ++ back, List.rel_append hfront hback, List.flatten_append⟩

theorem globMeaning_reverse {pattern text : List Char} (h : GlobMeaning pattern text) :
    GlobMeaning pattern.reverse text.reverse := by
  obtain ⟨pieces, hpieces, rfl⟩ := h
  refine ⟨(pieces.map List.reverse).reverse, ?_, List.reverse_flatten.symm⟩
  rw [List.forall₂_reverse_iff, List.forall₂_map_right_iff]
  refine hpieces.imp fun c piece hc => ?_
  unfold StandsFor at hc ⊢
  split
  · exact trivial
  · next hstar =>
    rw [if_neg hstar] at hc
    split
    · next hmark =>
      rw [if_pos hmark] at hc
      rw [List.length_reverse, hc]
    · next hmark =>
      rw [if_neg hmark] at hc
      rw [hc, List.reverse_singleton]

/-- A question mark may change places with the stars in front of it. -/
theorem globMeaning_stars_mark (k : ℕ) {pattern text : List Char} :
    GlobMeaning (List.replicate k '*' ++ '?' :: pattern) text ↔
      GlobMeaning ('?' :: (List.replicate k '*' ++ pattern)) text := by
  induction k generalizing text with
  | zero => rfl
  | succ k ih =>
    rw [List.replicate_succ, List.cons_append, List.cons_append]
    constructor
    · intro h
      obtain ⟨skipped, rest, rfl, hrest⟩ := globMeaning_star_append.mp h
      obtain ⟨d, rest', rfl, hrest'⟩ := globMeaning_mark.mp (ih.mp hrest)
      cases skipped with
      | nil => exact globMeaning_mark.mpr ⟨d, rest', rfl, hrest'.star⟩
      | cons c skipped =>
        exact globMeaning_mark.mpr ⟨c, skipped ++ d :: rest', rfl,
          globMeaning_star_append.mpr ⟨skipped ++ [d], rest', by simp, hrest'⟩⟩
    · intro h
      obtain ⟨d, rest, rfl, hrest⟩ := globMeaning_mark.mp h
      obtain ⟨skipped, rest', rfl, hrest'⟩ := globMeaning_star_append.mp hrest
      obtain ⟨front, e, hfront⟩ : ∃ front e, d :: skipped = front ++ [e] :=
        ⟨_, _, (List.dropLast_append_getLast (List.cons_ne_nil _ _)).symm⟩
      refine globMeaning_star_append.mpr ⟨front, e :: rest', ?_,
        ih.mpr (globMeaning_mark.mpr ⟨e, rest', rfl, hrest'⟩)⟩
      rw [← List.cons_append, hfront, List.append_assoc]
      rfl

end Meaning

/-- A loop without a panic finds a round that returns true if there is one. -/
theorem anyM_eq_some {α : Type} (body : α → Option Bool) (P : α → Prop) (xs : List α)
    (h : ∀ x ∈ xs, ∃ b, body x = some b ∧ (b = true ↔ P x)) :
    ∃ b, xs.anyM body = some b ∧ (b = true ↔ ∃ x ∈ xs, P x) := by
  induction xs with
  | nil => exact ⟨false, rfl, by simp⟩
  | cons x rest ih =>
    obtain ⟨b, hb, hiff⟩ := h x List.mem_cons_self
    obtain ⟨b', hb', hiff'⟩ := ih fun y hy => h y (List.mem_cons_of_mem _ hy)
    cases b with
    | true =>
      have hx : P x := hiff.mp rfl
      exact ⟨true, by simp [List.anyM, hb], by simp [hx]⟩
    | false =>
      have hx : ¬P x := fun hp => Bool.false_ne_true (hiff.mpr hp)
      refine ⟨b', by simp [List.anyM, hb, hb'], ?_⟩
      rw [hiff']
      simp [hx]

theorem globMatchInner_eq (pattern text : List Char) (pi ti : ℕ) (hpi : pi ≤ pattern.length)
    (hti : ti ≤ text.length) :
    ∃ b, globMatchInner pattern text pi ti = some b ∧
      (b = true ↔ GlobMeaning (pattern.drop pi) (text.drop ti)) := by
  -- on how much of the pattern is left, every call takes one character of it
  induction hleft : pattern.length - pi generalizing pi ti with
  | zero =>
    have hend : pi = pattern.length := by omega
    rw [globMatchInner, List.drop_of_length_le (by omega), globMeaning_nil,
      List.drop_eq_nil_iff]
    by_cases hall : ti = text.length
    · exact ⟨true, by simp [hend, hall], by simp [hall]⟩
    · refine ⟨false, by simp [hend, hall], ?_⟩
      simp only [Bool.false_eq_true, false_iff]
      omega
  | succ left ih =>
    have hlt : pi < pattern.length := by omega
    have hne : pi ≠ pattern.length := by omega
    have hc : pattern[pi]? = some pattern[pi] := List.getElem?_eq_getElem hlt
    rw [globMatchInner, List.drop_eq_getElem_cons hlt]
    generalize pattern[pi] = c at hc ⊢
    simp only [hne, false_and, if_false]
    split
    · simp_all
    · rename_i c' hc'
      obtain rfl : c = c' := Option.some.inj (hc.symm.trans hc')
      by_cases hstar : c = '*'
      · subst hstar
        rw [if_pos rfl, if_neg (by omega), globMeaning_star]
        obtain ⟨b, hb, hiff⟩ := anyM_eq_some
          (fun skip => globMatchInner pattern text (pi + 1) (ti + skip))
          (fun skip => GlobMeaning (pattern.drop (pi + 1)) (text.drop (ti + skip)))
          (List.range (text.length - ti + 1)) fun skip hskip => by
            rw [List.mem_range] at hskip
            apply ih <;> omega
        refine ⟨b, hb, hiff.trans ?_⟩
        simp only [List.mem_range, Nat.lt_add_one_iff, List.length_drop, List.drop_drop]
      · rw [if_neg hstar, globMeaning_single hstar]
        by_cases hall : ti = text.length
        · exact ⟨false, by simp [hall], by simp [hall]⟩
        · have htlt : ti < text.length := by omega
          rw [if_neg hall, List.getElem?_eq_getElem htlt, List.drop_eq_getElem_cons htlt]
          generalize text[ti] = d
          obtain ⟨b, hb, hiff⟩ := ih (pi + 1) (ti + 1) (by omega) (by omega) (by omega)
          by_cases hq : c = '?'
          · refine ⟨b, by simp [hq, hb], hiff.trans ?_⟩
            simp [hq]
          · by_cases hd : c = d
            · refine ⟨b, by simp [hd, hb], hiff.trans ?_⟩
              simp [hd]
            · refine ⟨false, by simp [hq, hd], ?_⟩
              simp [hq, hd]

/-- The matcher always returns, and returns true exactly for the texts that the pattern means. -/
theorem globMatch_iff (pattern text : String) :
    ∃ b, globMatch pattern text = some b ∧
      (b = true ↔ GlobMeaning pattern.toList text.toList) :=
  globMatchInner_eq pattern.toList text.toList 0 0 (Nat.zero_le _) (Nat.zero_le _)

end ArtifactKeeper.Glob
