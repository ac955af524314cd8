import ArtifactKeeper.Chunking

/-! Fixed-width arithmetic that remembers whether any result was cut. -/

namespace Chunking

/-- The value of a computation, and whether every conversion on the way kept its argument. -/
structure Traced (α : Type) where
  value : α
  lossless : Bool
  deriving DecidableEq, Repr

namespace Traced
variable {α β : Type}

instance : Monad Traced where
  pure a := ⟨a, true⟩
  bind x f := ⟨(f x.value).value, x.lossless && (f x.value).lossless⟩

@[simp] theorem pure_value (a : α) : (pure a : Traced α).value = a := rfl

@[simp] theorem pure_lossless (a : α) : (pure a : Traced α).lossless = true := rfl

@[simp] theorem bind_value (x : Traced α) (f : α → Traced β) :
    (x >>= f).value = (f x.value).value := rfl

@[simp] theorem bind_lossless (x : Traced α) (f : α → Traced β) :
    (x >>= f).lossless = (x.lossless && (f x.value).lossless) := rfl

/-- One computation after the other. -/
def each (f : α → Traced β) (xs : List α) : Traced (List β) :=
  ⟨xs.map fun x => (f x).value, xs.all fun x => (f x).lossless⟩

end Traced

def i64 (x : ℤ) : Traced ℤ := ⟨asI64 x, decide (asI64 x = x)⟩

def i32 (x : ℤ) : Traced ℤ := ⟨asI32 x, decide (asI32 x = x)⟩

theorem i64_eq {x : ℤ} (h : -2 ^ 63 ≤ x) (h' : x < 2 ^ 63) : i64 x = ⟨x, true⟩ := by
  simp [i64, asI64_of_lt h h']

theorem i32_eq {x : ℤ} (h : -2 ^ 31 ≤ x) (h' : x < 2 ^ 31) : i32 x = ⟨x, true⟩ := by
  simp [i32, asI32_of_lt h h']

theorem asI32_lt (x : ℤ) : asI32 x < 2 ^ 31 := by
  unfold asI32
  omega

end Chunking
