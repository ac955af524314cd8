import Mathlib.Tactic.Common

/-! Inversion of `Except` computations that returned a value, and rules for the errors that a
computation can raise. -/

namespace Except
variable {ε ε' α β : Type}

@[simp] theorem bind_eq_ok_iff {x : Except ε α} {f : α → Except ε β} {b : β} :
    (x >>= f) = .ok b ↔ ∃ a, x = .ok a ∧ f a = .ok b := by
  cases x with
  | error e => simp [bind, Except.bind]
  | ok a => simp [bind, Except.bind]

@[simp] theorem pure_eq_ok_iff {a b : α} : (pure a : Except ε α) = .ok b ↔ a = b := by
  simp [pure, Except.pure]

@[simp] theorem mapError_eq_ok_iff {x : Except ε α} {f : ε → ε'} {a : α} :
    x.mapError f = .ok a ↔ x = .ok a := by
  cases x <;> simp [Except.mapError]

@[simp] theorem map_eq_ok_iff {x : Except ε α} {f : α → β} {b : β} :
    f <$> x = .ok b ↔ ∃ a, x = .ok a ∧ f a = b := by
  cases x <;> simp [Functor.map, Except.map]

/-- Go on if `c` holds, and end with the error otherwise. -/
def ensure (c : Prop) [Decidable c] (e : ε) : Except ε Unit := if c then .ok () else .error e

@[simp] theorem ensure_eq_ok_iff {c : Prop} [Decidable c] {e : ε} {u : Unit} :
    ensure c e = .ok u ↔ c := by
  unfold ensure
  split <;> simp_all

/-- Every error that the computation raises meets `P`. -/
def RaisesOnly (P : ε → Prop) (x : Except ε α) : Prop := ∀ e, x = .error e → P e

section
variable {P : ε → Prop}

theorem RaisesOnly.ok (a : α) : RaisesOnly P (.ok a : Except ε α) := by rintro e ⟨⟩

theorem RaisesOnly.throw {e : ε} (h : P e) : RaisesOnly P (throw e : Except ε α) := by
  rintro _ ⟨⟩
  exact h

theorem RaisesOnly.bind {x : Except ε α} {f : α → Except ε β} (hx : RaisesOnly P x)
    (hf : ∀ a, x = .ok a → RaisesOnly P (f a)) : RaisesOnly P (x >>= f) := by
  cases x with
  | error e =>
    rintro _ ⟨⟩
    exact hx e rfl
  | ok a => exact hf a rfl

theorem RaisesOnly.ensure_bind {c : Prop} [Decidable c] {e : ε} {f : Unit → Except ε β}
    (h : ¬ c → P e) (hf : c → RaisesOnly P (f ())) : RaisesOnly P (ensure c e >>= f) := by
  refine RaisesOnly.bind ?_ fun _ hc => hf (ensure_eq_ok_iff.mp hc)
  unfold Except.ensure
  split
  · exact .ok ()
  · next hc => exact .throw (h hc)

theorem RaisesOnly.mapError {x : Except ε' α} {f : ε' → ε} (h : ∀ e, P (f e)) :
    RaisesOnly P (x.mapError f) := by
  cases x with
  | error e => exact .throw (h e)
  | ok a => exact .ok a

end

end Except
