import Mathlib.Data.Sum.Order
import Mathlib.Order.Nat
import Mathlib.Tactic.Common

/-! Comparison place by place, where the first place that differs decides, and when such a
comparison is transitive although the one of the places is not. -/

namespace PlaceOrder
variable {ι ι' σ α : Type*} [LinearOrder ι] [LinearOrder ι'] (cmp : σ → σ → Ordering)

/-- The two do not differ before place `i`. -/
def AlikeBelow (f g : ι → σ) (i : ι) : Prop := ∀ j < i, cmp (f j) (g j) = .eq

/-- The first place at which the two differ, if there is one, comes out as `o`. -/
inductive Decides (f g : ι → σ) : Ordering → Prop
  | alike : (∀ i, cmp (f i) (g i) = .eq) → Decides f g .eq
  | differ (i : ι) : AlikeBelow cmp f g i → cmp (f i) (g i) ≠ .eq → Decides f g (cmp (f i) (g i))

variable {cmp} {f g : ι → σ} {o o' : Ordering} {i : ι}

/-- Up to the first difference a place is alike or decides. -/
theorem Decides.at_place (h : Decides cmp f g o) (hi : AlikeBelow cmp f g i) :
    cmp (f i) (g i) = .eq ∨ cmp (f i) (g i) = o := by
  cases h with
  | alike hall => exact .inl (hall i)
  | differ k hk hne =>
    rcases lt_trichotomy i k with hlt | rfl | hlt
    · exact .inl (hk i hlt)
    · exact .inr rfl
    · exact (hne (hi k hlt)).elim

theorem Decides.eq_of_differ (h : Decides cmp f g o) (hi : AlikeBelow cmp f g i)
    (hne : cmp (f i) (g i) ≠ .eq) : o = cmp (f i) (g i) :=
  ((h.at_place hi).resolve_left hne).symm

theorem Decides.alike_of_eq (h : Decides cmp f g o) (ho : o = .eq) (i : ι) :
    cmp (f i) (g i) = .eq := by
  cases h with
  | alike hall => exact hall i
  | differ k _ hne => exact (hne ho).elim

theorem Decides.exists_differ (h : Decides cmp f g o) (ho : o ≠ .eq) :
    ∃ i, AlikeBelow cmp f g i ∧ cmp (f i) (g i) = o := by
  cases h with
  | alike => exact (ho rfl).elim
  | differ i hi _ => exact ⟨i, hi, rfl⟩

/-- Two stretches of places, one before the other. -/
theorem Decides.sum {f₁ g₁ : ι → σ} {f₂ g₂ : ι' → σ} (h : Decides cmp f₁ g₁ o)
    (h' : Decides cmp f₂ g₂ o') :
    Decides cmp (fun i : ι ⊕ₗ ι' => Sum.elim f₁ f₂ (ofLex i))
      (fun i => Sum.elim g₁ g₂ (ofLex i)) (o.then o') := by
  cases h with
  | alike hall =>
    cases h' with
    | alike hall' =>
      refine .alike fun i => ?_
      cases hi : ofLex i with
      | inl i => exact hall i
      | inr i => exact hall' i
    | differ k hk hne =>
      refine .differ (Sum.inrₗ k) (fun j hj => ?_) hne
      cases hj' : ofLex j with
      | inl j => exact hall j
      | inr j =>
        obtain rfl : _ = Sum.inrₗ j := hj'
        exact hk j (Sum.Lex.inr_lt_inr_iff.mp hj)
  | differ k hk hne =>
    have hthen : (cmp (f₁ k) (g₁ k)).then o' = cmp (f₁ k) (g₁ k) := by
      cases hcmp : cmp (f₁ k) (g₁ k) with
      | eq => exact (hne hcmp).elim
      | lt => rfl
      | gt => rfl
    rw [hthen]
    refine .differ (Sum.inlₗ k) (fun j hj => ?_) hne
    cases hj' : ofLex j with
    | inl j =>
      obtain rfl : _ = Sum.inlₗ j := hj'
      exact hk j (Sum.Lex.inl_lt_inl_iff.mp hj)
    | inr j =>
      obtain rfl : _ = Sum.inrₗ j := hj'
      exact (Sum.Lex.not_inr_lt_inl hj).elim

/-- A first place and the ones behind it. -/
theorem Decides.succ {f g : ℕ → σ} (h : Decides cmp (fun n => f (n + 1)) (fun n => g (n + 1)) o) :
    Decides cmp f g ((cmp (f 0) (g 0)).then o) := by
  by_cases h0 : cmp (f 0) (g 0) = .eq
  · rw [h0, Ordering.eq_then]
    cases h with
    | alike hall =>
      refine .alike fun i => ?_
      cases i with
      | zero => exact h0
      | succ i => exact hall i
    | differ k hk hne =>
      refine .differ (k + 1) (fun j hj => ?_) hne
      cases j with
      | zero => exact h0
      | succ j => exact hk j (by omega)
  · have hthen : (cmp (f 0) (g 0)).then o = cmp (f 0) (g 0) := by
      cases hcmp : cmp (f 0) (g 0) with
      | eq => exact (h0 hcmp).elim
      | lt => rfl
      | gt => rfl
    rw [hthen]
    exact .differ 0 (fun j hj => (Nat.not_lt_zero j hj).elim) h0

section Trans
variable {compare : α → α → Ordering} {place : α → ι → σ}

/-- At place `i` the three go round in a circle: `b` below `c`, `c` below `a`, and `a` not above `b`
there or behind. -/
def Circle (cmp : σ → σ → Ordering) (compare : α → α → Ordering) (place : α → ι → σ) (i : ι)
    (a b c : α) : Prop :=
  cmp (place b i) (place c i) = .lt ∧ cmp (place c i) (place a i) = .lt ∧
    (cmp (place a i) (place b i) = .lt ∨
      cmp (place a i) (place b i) = .eq ∧ compare a b ≠ .gt)

theorem AlikeBelow.symm (hswap : ∀ x y, cmp x y = (cmp y x).swap) (h : AlikeBelow cmp f g i) :
    AlikeBelow cmp g f i := by
  intro j hj
  rw [hswap, h j hj]
  rfl

theorem AlikeBelow.trans (heq : ∀ x y z, cmp x y = .eq → cmp y z = .eq → cmp x z = .eq)
    {k : ι → σ} (h : AlikeBelow cmp f g i) (h' : AlikeBelow cmp g k i) : AlikeBelow cmp f k i :=
  fun j hj => heq _ _ _ (h j hj) (h' j hj)

/-- The first place at which three are not all alike. -/
theorem exists_first_place {h : ι → σ} (hfg : Decides cmp f g o) (hgh : Decides cmp g h o')
    (hne : o ≠ .eq ∨ o' ≠ .eq) : ∃ i, AlikeBelow cmp f g i ∧ AlikeBelow cmp g h i ∧
      ¬ (cmp (f i) (g i) = .eq ∧ cmp (g i) (h i) = .eq) := by
  cases hfg with
  | alike hall =>
    obtain ⟨i, hi, rfl⟩ := hgh.exists_differ (hne.resolve_left fun h => h rfl)
    exact ⟨i, fun j _ => hall j, hi, fun h => (hne.resolve_left fun h => h rfl) h.2⟩
  | differ i hi hi' =>
    cases hgh with
    | alike hall => exact ⟨i, hi, fun j _ => hall j, fun h => hi' h.1⟩
    | differ k hk hk' =>
      rcases le_total i k with hle | hle
      · exact ⟨i, hi, fun j hj => hk j (hj.trans_le hle), fun h => hi' h.1⟩
      · exact ⟨k, fun j hj => hi j (hj.trans_le hle), hk, fun h => hk' h.2⟩

variable {S : α → Prop} {a b c : α}

/-- A comparison that says `b` is not above `c` says so at the first place, too. -/
theorem Decides.at_place_of_ne_gt (h : Decides cmp f g o) (hi : AlikeBelow cmp f g i)
    (ho : o ≠ .gt) : cmp (f i) (g i) = .eq ∨ cmp (f i) (g i) = .lt := by
  rcases h.at_place hi with heq | ho'
  · exact .inl heq
  · cases o with
    | lt => exact .inr ho'
    | eq => exact .inl ho'
    | gt => exact (ho rfl).elim

/-- Where transitivity fails, the first place at which the three differ shows a circle. -/
theorem exists_circle (hswap : ∀ x y, cmp x y = (cmp y x).swap)
    (heq : ∀ x y z, cmp x y = .eq → cmp y z = .eq → cmp x z = .eq)
    (hdec : ∀ a b, Decides cmp (place a) (place b) (compare a b)) (ha : S a) (hb : S b) (hc : S c)
    (hab : compare a b ≠ .gt) (hbc : compare b c ≠ .gt) (hac : compare a c = .gt) :
    ∃ a b c i, S a ∧ S b ∧ S c ∧ AlikeBelow cmp (place a) (place b) i ∧
      AlikeBelow cmp (place b) (place c) i ∧ Circle cmp compare place i a b c := by
  have hne : compare a b ≠ .eq ∨ compare b c ≠ .eq := by
    by_contra hcon
    push Not at hcon
    obtain ⟨i, -, hi⟩ := (hdec a c).exists_differ (by simp [hac])
    rw [heq _ _ _ ((hdec a b).alike_of_eq hcon.1 i) ((hdec b c).alike_of_eq hcon.2 i), hac] at hi
    cases hi
  obtain ⟨i, hi, hi', hfirst⟩ := exists_first_place (hdec a b) (hdec b c) hne
  have hi'' := hi.trans heq hi'
  have h1 := (hdec a b).at_place_of_ne_gt hi hab
  have h2 := (hdec b c).at_place_of_ne_gt hi' hbc
  have h3 := (hdec a c).at_place hi''
  rw [hac] at h3
  have hca : compare c a ≠ .gt := by
    obtain ⟨k, hk, hgt⟩ := (hdec a c).exists_differ (by simp [hac])
    have hlt : cmp (place c k) (place a k) = .lt := by
      rw [hswap, hgt, hac]
      rfl
    rw [(hdec c a).eq_of_differ (hk.symm hswap) (by simp [hlt]), hlt]
    decide
  have hgt : cmp (place a i) (place c i) = .gt → cmp (place c i) (place a i) = .lt := by
    intro h
    rw [hswap, h]
    rfl
  have heq' : ∀ {x y}, cmp x y = .eq → cmp y x = .eq := by
    intro x y h
    rw [hswap, h]
    rfl
  rcases h1 with h1 | h1
  · rcases h2 with h2 | h2
    · exact (hfirst ⟨h1, h2⟩).elim
    · rcases h3 with h3 | h3
      · rw [heq _ _ _ (heq' h1) h3] at h2
        cases h2
      · exact ⟨a, b, c, i, ha, hb, hc, hi, hi', h2, hgt h3, .inr ⟨h1, hab⟩⟩
  · rcases h3 with h3 | h3
    · rcases h2 with h2 | h2
      · rw [heq _ _ _ h3 (heq' h2)] at h1
        cases h1
      · exact ⟨c, a, b, i, hc, ha, hb, hi''.symm hswap, hi, h1, h2, .inr ⟨heq' h3, hca⟩⟩
    · rcases h2 with h2 | h2
      · exact ⟨b, c, a, i, hb, hc, ha, hi', hi''.symm hswap, hgt h3, h1, .inr ⟨h2, hbc⟩⟩
      · exact ⟨a, b, c, i, ha, hb, hc, hi, hi', h2, hgt h3, .inl h1⟩

/-- Transitivity fails exactly where three members go round in a circle. -/
theorem trans_iff (hswap : ∀ x y, cmp x y = (cmp y x).swap)
    (heq : ∀ x y z, cmp x y = .eq → cmp y z = .eq → cmp x z = .eq)
    (hdec : ∀ a b, Decides cmp (place a) (place b) (compare a b)) :
    (∀ a b c, S a → S b → S c → compare a b ≠ .gt → compare b c ≠ .gt → compare a c ≠ .gt) ↔
      ∀ a b c, S a → S b → S c → ∀ i, AlikeBelow cmp (place a) (place b) i →
        AlikeBelow cmp (place b) (place c) i → ¬ Circle cmp compare place i a b c := by
  constructor
  · rintro htrans a b c ha hb hc i hi hi' ⟨hbc, hca, hab⟩
    have hbc' : compare b c = .lt := by
      rw [(hdec b c).eq_of_differ hi' (by simp [hbc]), hbc]
    have hac' : compare a c = .gt := by
      have hgt : cmp (place a i) (place c i) = .gt := by
        rw [hswap, hca]
        rfl
      rw [(hdec a c).eq_of_differ (hi.trans heq hi') (by simp [hgt]), hgt]
    have hab' : compare a b ≠ .gt := by
      rcases hab with hlt | ⟨-, hle⟩
      · rw [(hdec a b).eq_of_differ hi (by simp [hlt]), hlt]
        decide
      · exact hle
    exact htrans a b c ha hb hc hab' (by simp [hbc']) hac'
  · intro hfree a b c ha hb hc hab hbc hac
    obtain ⟨a, b, c, i, ha, hb, hc, hi, hi', hcircle⟩ :=
      exists_circle hswap heq hdec ha hb hc hab hbc hac
    exact hfree a b c ha hb hc i hi hi' hcircle

end Trans

end PlaceOrder
