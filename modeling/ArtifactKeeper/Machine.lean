import Mathlib.Logic.Function.Basic
import Mathlib.Data.Option.Basic
import Mathlib.Data.Nat.Notation

/-! Labelled step machines, their guarded runs, and a rely-guarantee rule for machines made of
processes over a shared state. Nothing here is about a particular program. -/

/-- A step machine; `step s a` is `none` where the label `a` is not enabled in `s`. -/
structure Machine (σ α : Type*) where
  step : σ → α → Option σ

namespace Machine
variable {σ α : Type*} (M : Machine σ α)

/-- Follow a list of labels, failing at the first one that is not enabled. -/
def run (s : σ) : List α → Option σ
  | [] => some s
  | a :: rest =>
    match M.step s a with
    | none => none
    | some s' => run s' rest

/-- States reached from `s₀` by steps that all meet `ok` in the state they start from. -/
inductive Reach (ok : σ → α → Prop) (s₀ : σ) : σ → Prop
  | refl : Reach ok s₀ s₀
  | tail {s s' : σ} {a : α} : Reach ok s₀ s → ok s a → M.step s a = some s' → Reach ok s₀ s'

/-- The guard that admits every step. -/
def anyStep : σ → α → Prop := fun _ _ => True

variable {M}

theorem Reach.trans {ok : σ → α → Prop} {s t u : σ} (h₁ : M.Reach ok s t)
    (h₂ : M.Reach ok t u) : M.Reach ok s u := by
  induction h₂ with
  | refl => exact h₁
  | tail _ hok hstep ih => exact ih.tail hok hstep

theorem Reach.mono {ok ok' : σ → α → Prop} (himp : ∀ s a, ok s a → ok' s a) {s t : σ}
    (h : M.Reach ok s t) : M.Reach ok' s t := by
  induction h with
  | refl => exact .refl
  | tail _ hok hstep ih => exact ih.tail (himp _ _ hok) hstep

/-- A property that holds at the start and is kept by every guarded step holds throughout. -/
theorem Reach.invariant {ok : σ → α → Prop} {I : σ → Prop} {s₀ s : σ} (h : M.Reach ok s₀ s)
    (h₀ : I s₀) (hstep : ∀ s a s', I s → ok s a → M.step s a = some s' → I s') : I s := by
  induction h with
  | refl => exact h₀
  | tail _ hok hs ih => exact hstep _ _ _ ih hok hs

/-- What holds of every state reached may be assumed at every step. -/
theorem Reach.strengthen {ok : σ → α → Prop} {I : σ → Prop} {s₀ s : σ} (h : M.Reach ok s₀ s)
    (hI : ∀ t, M.Reach ok s₀ t → I t) : M.Reach (fun t a => ok t a ∧ I t) s₀ s := by
  induction h with
  | refl => exact .refl
  | tail hreach hok hstep ih => exact ih.tail ⟨hok, hI _ hreach⟩ hstep

variable (M) in
/-- Every step along the labels meets `ok`. -/
def Meets (ok : σ → α → Prop) (s : σ) : List α → Prop
  | [] => True
  | a :: rest => ok s a ∧
    match M.step s a with
    | none => True
    | some s' => Meets ok s' rest

instance Meets.decidable {ok : σ → α → Prop} [∀ s a, Decidable (ok s a)] (s : σ) :
    ∀ labels, Decidable (M.Meets ok s labels)
  | [] => .isTrue trivial
  | a :: rest =>
    haveI : Decidable (match M.step s a with
        | none => True
        | some s' => M.Meets ok s' rest) :=
      match M.step s a with
      | none => .isTrue trivial
      | some s' => Meets.decidable s' rest
    inferInstanceAs (Decidable (_ ∧ _))

theorem meets_anyStep (s : σ) : ∀ labels : List α, M.Meets anyStep s labels
  | [] => trivial
  | a :: rest => by
    refine ⟨trivial, ?_⟩
    split
    · trivial
    · exact meets_anyStep _ rest

theorem reach_of_run {ok : σ → α → Prop} {s t : σ} (labels : List α)
    (h : M.run s labels = some t) (hok : M.Meets ok s labels) : M.Reach ok s t := by
  induction labels generalizing s with
  | nil =>
    simp only [run, Option.some.injEq] at h
    exact h ▸ .refl
  | cons a rest ih =>
    obtain ⟨ha, hrest⟩ := hok
    simp only [run] at h
    split at h
    · cases h
    · next s' hs =>
      simp only [hs] at hrest
      exact (Reach.refl.tail ha hs).trans (ih h hrest)

/-- What two runs, one after the other, show at their ends is reached. -/
theorem reach_of_runs {β : Type*} {s : σ} (first second : List α) {f : σ → σ → β} {b : β}
    (h : ((M.run s first).bind fun t => (M.run t second).map (f t)) = some b) :
    ∃ t u, M.Reach anyStep s t ∧ M.Reach anyStep t u ∧ f t u = b := by
  obtain ⟨t, hfirst, h⟩ := Option.bind_eq_some_iff.mp h
  obtain ⟨u, hsecond, rfl⟩ := Option.map_eq_some_iff.mp h
  exact ⟨t, u, reach_of_run first hfirst (meets_anyStep s first),
    reach_of_run second hsecond (meets_anyStep t second), rfl⟩

end Machine

/-- Processes numbered by `ℕ`, each with a local state `ℓ`, over a shared state `σ`. -/
structure Protocol (σ ℓ α : Type*) where
  step : ℕ → σ → ℓ → α → Option (σ × ℓ)

/-- A global state of a protocol. -/
structure World (σ ℓ : Type*) where
  shared : σ
  procs : ℕ → ℓ

namespace Protocol
variable {σ ℓ α : Type*} (P : Protocol σ ℓ α)

/-- The interleaving machine: a label names the process that moves and what it does. -/
def machine : Machine (World σ ℓ) (ℕ × α) where
  step w a := (P.step a.1 w.shared (w.procs a.1) a.2).map fun r =>
    ⟨r.1, Function.update w.procs a.1 r.2⟩

/-- One process that runs alone. -/
def solo (p : ℕ) : Machine (σ × ℓ) α where
  step x a := P.step p x.1 x.2 a

variable {P}

theorem machine_step {w w' : World σ ℓ} {p : ℕ} {a : α}
    (h : P.machine.step w (p, a) = some w') :
    ∃ s' l', P.step p w.shared (w.procs p) a = some (s', l') ∧
      w' = ⟨s', Function.update w.procs p l'⟩ := by
  simp only [machine, Option.map_eq_some_iff] at h
  obtain ⟨⟨s', l'⟩, hr, heq⟩ := h
  exact ⟨s', l', hr, heq.symm⟩

/-- A process that no label names does not move. -/
theorem procs_of_run {labels : List (ℕ × α)} {w w' : World σ ℓ} {p : ℕ}
    (h : P.machine.run w labels = some w') (hp : ∀ a ∈ labels, a.1 ≠ p) :
    w'.procs p = w.procs p := by
  induction labels generalizing w with
  | nil =>
    simp only [Machine.run, Option.some.injEq] at h
    rw [h]
  | cons a rest ih =>
    simp only [Machine.run] at h
    split at h
    · cases h
    · next w₁ hstep =>
      obtain ⟨s', l', -, rfl⟩ := machine_step (p := a.1) (a := a.2) hstep
      have hne : p ≠ a.1 := (hp a List.mem_cons_self).symm
      rw [ih h fun b hb => hp b (List.mem_cons_of_mem a hb)]
      exact Function.update_of_ne hne l' w.procs

/-- Rely-guarantee rule: a step of `p` keeps the shared invariant `I`, establishes `p`'s own
assertion, and leaves the assertion of every other process intact. -/
theorem reach_rely_guarantee {ok : World σ ℓ → ℕ × α → Prop} {I : σ → Prop}
    {A : ℕ → ℓ → σ → Prop} {w₀ w : World σ ℓ} (h : P.machine.Reach ok w₀ w)
    (hI : I w₀.shared) (hA : ∀ p, A p (w₀.procs p) w₀.shared)
    (hstep : ∀ (w : World σ ℓ) (p : ℕ) (a : α) (s' : σ) (l' : ℓ), I w.shared →
      (∀ q, A q (w.procs q) w.shared) → ok w (p, a) →
      P.step p w.shared (w.procs p) a = some (s', l') →
      I s' ∧ A p l' s' ∧ ∀ q, q ≠ p → A q (w.procs q) s') :
    I w.shared ∧ ∀ p, A p (w.procs p) w.shared := by
  refine h.invariant (I := fun w => I w.shared ∧ ∀ p, A p (w.procs p) w.shared) ⟨hI, hA⟩ ?_
  rintro w ⟨p, a⟩ w' ⟨hIw, hAw⟩ hok hs
  obtain ⟨s', l', hr, rfl⟩ := machine_step hs
  obtain ⟨hI', hp, hq⟩ := hstep w p a s' l' hIw hAw hok hr
  refine ⟨hI', fun q => ?_⟩
  by_cases hqp : q = p
  · subst hqp
    simpa only [Function.update_self] using hp
  · simpa only [Function.update_of_ne hqp] using hq q hqp

/-- What one process reaches alone is reached among processes that stand still. -/
theorem reach_of_solo {p : ℕ} {procs : ℕ → ℓ} {s : σ} {x : σ × ℓ}
    (h : (P.solo p).Reach Machine.anyStep (s, procs p) x) :
    P.machine.Reach Machine.anyStep ⟨s, procs⟩ ⟨x.1, Function.update procs p x.2⟩ := by
  induction h with
  | refl =>
    rw [Function.update_eq_self]
    exact .refl
  | @tail x x' a _ _ hstep ih =>
    refine ih.tail (a := (p, a)) trivial ?_
    have hsolo : P.step p x.1 x.2 a = some x' := hstep
    simp [machine, hsolo]

end Protocol
