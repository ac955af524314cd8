import Mathlib.Data.List.Infix
import Mathlib.Order.Nat

/-! A list cut in order into pieces that fit, each as long as possible. Nothing here is about a
particular program. -/

namespace GreedyPieces
variable {α : Type*} {fits : List α → Bool} {piece keys : List α}

/-- Go on from a piece that has been begun. -/
def cut (fits : List α → Bool) : List α → List α → List (List α)
  | piece, [] => if piece.isEmpty then [] else [piece]
  | piece, key :: rest =>
    if fits (piece ++ [key]) then cut fits (piece ++ [key]) rest
    else piece :: cut fits [key] rest

theorem flatten_cut : (cut fits piece keys).flatten = piece ++ keys := by
  fun_induction cut fits piece keys with
  | case1 piece hempty => simp [List.isEmpty_iff.mp hempty]
  | case2 piece hne => simp
  | case3 piece key rest hfits ih => simpa using ih
  | case4 piece key rest hfits ih => simpa using ih

/-- Every piece fits and has something in it. -/
theorem fits_of_mem_cut (hone : ∀ key, fits [key] = true)
    (hpiece : piece = [] ∨ fits piece = true) :
    ∀ p ∈ cut fits piece keys, p ≠ [] ∧ fits p = true := by
  fun_induction cut fits piece keys with
  | case1 piece hempty => simp
  | case2 piece hne =>
    have hne : piece ≠ [] := by simpa using hne
    simpa using ⟨hne, hpiece.resolve_left hne⟩
  | case3 piece key rest hfits ih => exact ih (.inr hfits)
  | case4 piece key rest hfits ih =>
    have hne : piece ≠ [] := by
      rintro rfl
      exact hfits (hone key)
    intro p hp
    rcases List.mem_cons.mp hp with rfl | hp
    · exact ⟨hne, hpiece.resolve_left hne⟩
    · exact ih (.inr (hone key)) p hp

/-- The first piece is as long as any beginning that fits. -/
theorem cut_first (hone : ∀ key, fits [key] = true)
    (hfront : ∀ p q, fits (p ++ q) = true → p ≠ [] → fits p = true) (hne : piece ++ keys ≠ []) :
    ∃ first rest, cut fits piece keys = first :: cut fits [] rest ∧ piece ++ keys = first ++ rest ∧
      ∀ p, p <+: piece ++ keys → fits p = true → p.length ≤ first.length := by
  fun_induction cut fits piece keys with
  | case1 piece hempty =>
    rw [List.isEmpty_iff.mp hempty] at hne
    exact absurd rfl hne
  | case2 piece hempty =>
    exact ⟨piece, [], rfl, rfl, fun p hp _ => by simpa using hp.length_le⟩
  | case3 piece key rest hfits ih =>
    obtain ⟨first, rest', hcut, happend, hlongest⟩ := ih (by simp)
    rw [List.append_assoc] at happend hlongest
    exact ⟨first, rest', hcut, happend, hlongest⟩
  | case4 piece key rest hfits ih =>
    refine ⟨piece, key :: rest, ?_, rfl, fun p hp hpfits => ?_⟩
    · rw [cut, List.nil_append, if_pos (hone key)]
    · by_contra hlong
      have hlong : (piece ++ [key]).length ≤ p.length := by
        simp only [List.length_append, List.length_singleton]
        omega
      have hsub : piece ++ [key] <+: piece ++ key :: rest := ⟨rest, by simp⟩
      obtain ⟨q, rfl⟩ := List.prefix_of_prefix_length_le hsub hp hlong
      exact hfits (hfront _ _ hpfits (by simp))

/-- No other pieces that fit are fewer, even for a longer list. -/
theorem length_cut_le (hone : ∀ key, fits [key] = true)
    (hfront : ∀ p q, fits (p ++ q) = true → p ≠ [] → fits p = true)
    (hback : ∀ p q, fits (p ++ q) = true → q ≠ [] → fits q = true) {pieces : List (List α)}
    (hpieces : ∀ p ∈ pieces, fits p = true) (hkeys : keys <:+ pieces.flatten) :
    (cut fits [] keys).length ≤ pieces.length := by
  induction pieces generalizing keys with
  | nil =>
    rw [List.flatten_nil, List.suffix_nil] at hkeys
    rw [hkeys]
    exact le_rfl
  | cons p pieces ih =>
    have hrest : ∀ q ∈ pieces, fits q = true := fun q hq => hpieces q (List.mem_cons_of_mem p hq)
    rw [List.flatten_cons] at hkeys
    obtain ⟨before, happend⟩ := hkeys
    rcases List.append_eq_append_iff.mp happend with ⟨begun, rfl, rfl⟩ | ⟨later, rfl, hlater⟩
    · by_cases hbegun : begun = []
      · subst hbegun
        exact (ih hrest List.suffix_rfl).trans (Nat.le_succ _)
      · have hfits := hback _ _ (hpieces _ List.mem_cons_self) hbegun
        obtain ⟨first, rest, hcut, hsplit, hlongest⟩ :=
          @cut_first _ _ [] (begun ++ pieces.flatten) hone hfront (by simp [hbegun])
        rw [List.nil_append] at hsplit hlongest
        have hle := hlongest begun (List.prefix_append _ _) hfits
        have hback : rest <:+ pieces.flatten := by
          rcases List.append_eq_append_iff.mp hsplit with ⟨more, rfl, hmore⟩ | ⟨x, rfl, rfl⟩
          · exact ⟨more, hmore.symm⟩
          · rw [List.length_append] at hle
            obtain rfl : x = [] := List.length_eq_zero_iff.mp (by omega)
            exact List.suffix_rfl
        rw [hcut]
        exact Nat.succ_le_succ (ih hrest hback)
    · exact (ih hrest ⟨later, hlater.symm⟩).trans (Nat.le_succ _)

end GreedyPieces
