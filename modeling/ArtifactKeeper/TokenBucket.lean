import Mathlib.Algebra.Order.Field.Basic
import Mathlib.Tactic.Linarith
import Mathlib.Tactic.Ring

/-! Token buckets that are refilled when they are looked at: the tokens after a time, and how many
draws fit into an interval. -/

namespace TokenBucket
variable {K : Type*} [Field K] [LinearOrder K]

/-- The tokens after `dt`, at `rate` a unit of time and up to `cap`. -/
def refill (cap rate tokens dt : K) : K := min (tokens + dt * rate) cap

variable {cap rate tokens dt dt' : K}

theorem refill_le_cap (cap rate tokens dt : K) : refill cap rate tokens dt ≤ cap :=
  min_le_right _ _

theorem refill_le_add (cap rate tokens dt : K) : refill cap rate tokens dt ≤ tokens + dt * rate :=
  min_le_left _ _

theorem refill_zero (h : tokens ≤ cap) : refill cap rate tokens 0 = tokens := by
  simp [refill, h]

variable [IsStrictOrderedRing K]

theorem refill_nonneg (hcap : 0 ≤ cap) (hrate : 0 ≤ rate) (htokens : 0 ≤ tokens) (hdt : 0 ≤ dt) :
    0 ≤ refill cap rate tokens dt :=
  le_min (add_nonneg htokens (mul_nonneg hdt hrate)) hcap

/-- Looking at a bucket does not change what it holds later. -/
theorem refill_refill (hrate : 0 ≤ rate) (hdt' : 0 ≤ dt') :
    refill cap rate (refill cap rate tokens dt) dt' = refill cap rate tokens (dt + dt') := by
  have hpos : 0 ≤ dt' * rate := mul_nonneg hdt' hrate
  unfold refill
  rw [← min_add_add_right, min_assoc, min_eq_right (le_add_of_nonneg_right hpos)]
  ring_nf

/-- A bucket that nobody has drawn from for long is full. -/
theorem refill_eq_cap (htokens : 0 ≤ tokens) (hdt : cap ≤ dt * rate) :
    refill cap rate tokens dt = cap :=
  min_eq_right (hdt.trans (le_add_of_nonneg_left htokens))

/-- The instants at which a bucket is looked at and whether a token is drawn then; `tokens` is what
it holds at `t`. -/
def Metered (cap rate : K) : K → K → List (K × Bool) → Prop
  | _, _, [] => True
  | tokens, t, (t', drawn) :: rest => t ≤ t' ∧ ∃ tokens', 0 ≤ tokens' ∧
      tokens' + (if drawn then 1 else 0) ≤ refill cap rate tokens (t' - t) ∧
      Metered cap rate tokens' t' rest

namespace Metered
variable {t t₁ t₂ : K} {events : List (K × Bool)}

omit [IsStrictOrderedRing K] in
theorem le_of_mem (h : Metered cap rate tokens t events) : ∀ e ∈ events, t ≤ e.1 := by
  induction events generalizing tokens t with
  | nil => nofun
  | cons e events ih =>
    obtain ⟨hle, tokens', -, -, hrest⟩ := h
    exact List.forall_mem_cons.mpr ⟨hle, fun e' he' => hle.trans (ih hrest e' he')⟩

/-- The draws up to an instant: the tokens there are at first and those that flow in. -/
theorem count_le (h : Metered cap rate tokens t events) (hrate : 0 ≤ rate) (htokens : 0 ≤ tokens)
    (ht : t ≤ t₂) :
    ((events.countP fun e => e.2 && decide (e.1 ≤ t₂) : ℕ) : K) ≤ tokens + (t₂ - t) * rate := by
  induction events generalizing tokens t with
  | nil => simpa using add_nonneg htokens (mul_nonneg (sub_nonneg.mpr ht) hrate)
  | cons e events ih =>
    obtain ⟨t', drawn⟩ := e
    by_cases hlate : t' ≤ t₂
    · obtain ⟨hle, tokens', h0, htake, hrest⟩ := h
      have hcount := ih hrest h0 hlate
      have hflow := refill_le_add cap rate tokens (t' - t)
      rw [List.countP_cons]
      cases drawn with
      | true =>
        simp only [hlate, decide_true, Bool.and_self, if_true] at htake ⊢
        push_cast
        linarith
      | false =>
        simp only [Bool.false_and, Bool.false_eq_true, if_false] at htake ⊢
        push_cast
        linarith
    · -- every draw is later than `t₂`
      have hnone : (((t', drawn) :: events).countP fun e => e.2 && decide (e.1 ≤ t₂)) = 0 := by
        refine List.countP_eq_zero.mpr fun e he => ?_
        obtain ⟨hle, tokens', -, -, hrest⟩ := h
        have hlt : t₂ < e.1 := by
          rcases List.mem_cons.mp he with rfl | he
          · exact not_le.mp hlate
          · exact (not_le.mp hlate).trans_le (hrest.le_of_mem e he)
        simp [hlt]
      rw [hnone, Nat.cast_zero]
      exact add_nonneg htokens (mul_nonneg (sub_nonneg.mpr ht) hrate)

/-- The draws within an interval: a full bucket and what flows in meanwhile. -/
theorem count_interval_le (h : Metered cap rate tokens t events) (hcap : 0 ≤ cap)
    (hrate : 0 ≤ rate) (ht : t₁ ≤ t₂) :
    ((events.countP fun e => e.2 && decide (t₁ ≤ e.1 ∧ e.1 ≤ t₂) : ℕ) : K) ≤
      cap + (t₂ - t₁) * rate := by
  induction events generalizing tokens t with
  | nil => simpa using add_nonneg hcap (mul_nonneg (sub_nonneg.mpr ht) hrate)
  | cons e events ih =>
    obtain ⟨t', drawn⟩ := e
    obtain ⟨hle, tokens', h0, htake, hrest⟩ := h
    by_cases hearly : t' < t₁
    · rw [List.countP_cons_of_neg (by simp [hearly])]
      exact ih hrest
    · -- from the first draw in the interval on, what the bucket holds counts
      have hfrom : ∀ e ∈ (t', drawn) :: events, t₁ ≤ e.1 := by
        refine List.forall_mem_cons.mpr ⟨not_lt.mp hearly, fun e he => ?_⟩
        exact (not_lt.mp hearly).trans (hrest.le_of_mem e he)
      have hsame : (((t', drawn) :: events).countP fun e => e.2 && decide (t₁ ≤ e.1 ∧ e.1 ≤ t₂)) =
          ((t', drawn) :: events).countP fun e => e.2 && decide (e.1 ≤ t₂) := by
        refine List.countP_congr fun e he => ?_
        simp [hfrom e he]
      rw [hsame]
      have hfull : Metered cap rate cap t₁ ((t', drawn) :: events) := by
        refine ⟨not_lt.mp hearly, tokens', h0, htake.trans ?_, hrest⟩
        have hflow : 0 ≤ (t' - t₁) * rate :=
          mul_nonneg (sub_nonneg.mpr (not_lt.mp hearly)) hrate
        exact (refill_le_cap _ _ _ _).trans
          (le_min (le_add_of_nonneg_right hflow) le_rfl)
      exact hfull.count_le hrate hcap ht

end Metered

end TokenBucket
