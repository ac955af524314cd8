import Mathlib.Data.Nat.Notation
import Mathlib.Data.Option.Basic
import Mathlib.Tactic.Common

/-! Loops that turn a state into the next one until they answer, with a measure that every round
lowers. -/

/-- What one round of a loop comes to. -/
inductive Loop.Round (σ α : Type)
  | again (s : σ)
  | done (answer : α)

namespace Loop.Round
variable {σ α : Type} {measure : σ → ℕ} {n : ℕ}

/-- The next state measures less than `n`, if there is one. -/
def Below (measure : σ → ℕ) (n : ℕ) (r : Round σ α) : Prop :=
  ∀ s, r = .again s → measure s < n

theorem below_again {s : σ} (h : measure s < n) : Below measure n (.again s : Round σ α) := by
  intro s' hs
  cases hs
  exact h

theorem below_done (a : α) : Below measure n (.done a) := by
  intro s hs
  cases hs

theorem below_ite {p : Prop} [Decidable p] {r r' : Round σ α} (h : Below measure n r)
    (h' : Below measure n r') : Below measure n (if p then r else r') := by
  split
  · exact h
  · exact h'

end Loop.Round

structure Loop (σ α : Type) where
  step : σ → Loop.Round σ α
  measure : σ → ℕ
  descends : ∀ {s s' : σ}, step s = .again s' → measure s' < measure s

namespace Loop
variable {σ α : Type} (l : Loop σ α)

/-- The answer, if it comes within the given number of rounds. -/
def rounds : ℕ → σ → Option α
  | 0, _ => none
  | n + 1, s =>
    match l.step s with
    | .again s' => rounds n s'
    | .done a => some a

theorem rounds_again {s s' : σ} (h : l.step s = .again s') (n : ℕ) :
    l.rounds (n + 1) s = l.rounds n s' := by
  rw [rounds, h]

theorem rounds_done {s : σ} {a : α} (h : l.step s = .done a) (n : ℕ) :
    l.rounds (n + 1) s = some a := by
  rw [rounds, h]

theorem isSome_rounds {n : ℕ} {s : σ} (h : l.measure s < n) : (l.rounds n s).isSome = true := by
  induction n generalizing s with
  | zero => omega
  | succ n ih =>
    cases hstep : l.step s with
    | again s' =>
      have hless := l.descends hstep
      rw [l.rounds_again hstep]
      exact ih (by omega)
    | done a => rw [l.rounds_done hstep, Option.isSome_some]

/-- Rounds to spare change nothing. -/
theorem rounds_eq_of_measure_lt {n m : ℕ} {s : σ} (hn : l.measure s < n) (hm : l.measure s < m) :
    l.rounds n s = l.rounds m s := by
  induction n generalizing m s with
  | zero => omega
  | succ n ih =>
    obtain ⟨m, rfl⟩ : ∃ k, m = k + 1 := ⟨m - 1, by omega⟩
    cases hstep : l.step s with
    | again s' =>
      have hless := l.descends hstep
      rw [l.rounds_again hstep, l.rounds_again hstep]
      exact ih (by omega) (by omega)
    | done a => rw [l.rounds_done hstep, l.rounds_done hstep]

/-- The answer of the loop. -/
def run (s : σ) : α := (l.rounds (l.measure s + 1) s).get (l.isSome_rounds (Nat.lt_succ_self _))

theorem rounds_eq_run {n : ℕ} {s : σ} (h : l.measure s < n) : l.rounds n s = some (l.run s) := by
  rw [run, Option.some_get]
  exact l.rounds_eq_of_measure_lt h (Nat.lt_succ_self _)

theorem run_again {s s' : σ} (h : l.step s = .again s') : l.run s = l.run s' := by
  have hs := l.rounds_eq_run (Nat.lt_succ_self (l.measure s))
  rw [l.rounds_again h, l.rounds_eq_run (l.descends h)] at hs
  exact (Option.some.inj hs).symm

theorem run_done {s : σ} {a : α} (h : l.step s = .done a) : l.run s = a := by
  have hs := l.rounds_eq_run (Nat.lt_succ_self (l.measure s))
  rw [l.rounds_done h] at hs
  exact (Option.some.inj hs).symm

end Loop
