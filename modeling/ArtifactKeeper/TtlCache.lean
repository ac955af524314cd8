import Mathlib.Logic.Function.Basic
import Mathlib.Data.Nat.Notation
import Mathlib.Order.Nat

/-! Read-through caches over a versioned source, with entries that expire. Nothing here is about a
particular program. -/

/-- A cached value, when it was stored and the version of the source it was read from. -/
structure TtlEntry (ν : Type*) where
  value : ν
  storedAt : ℕ
  readAt : ℕ
  deriving DecidableEq, Repr

structure TtlCache (κ ν : Type*) where
  entries : κ → Option (TtlEntry ν)

namespace TtlCache
variable {κ ν : Type*}

def empty : TtlCache κ ν := ⟨fun _ => none⟩

/-- The entry is older than the time to live. -/
def isExpired (ttl now : ℕ) (e : TtlEntry ν) : Bool := decide (ttl < now - e.storedAt)

def get (c : TtlCache κ ν) (ttl now : ℕ) (key : κ) : Option (TtlEntry ν) :=
  (c.entries key).filter fun e => !isExpired ttl now e

/-- Drop the expired entries and store a value. -/
def put [DecidableEq κ] (c : TtlCache κ ν) (ttl now : ℕ) (key : κ) (value : ν) (readAt : ℕ) :
    TtlCache κ ν :=
  ⟨Function.update (fun key => (c.entries key).filter fun e => !isExpired ttl now e) key
    (some ⟨value, now, readAt⟩)⟩

/-- Every entry is what the source answers at its version, which lies between the two bounds. -/
def ReadWithin (c : TtlCache κ ν) (read : ℕ → κ → ν → Prop) (low high : ℕ) : Prop :=
  ∀ key e, c.entries key = some e → (low ≤ e.readAt ∧ e.readAt ≤ high) ∧ read e.readAt key e.value

variable {c : TtlCache κ ν} {read read' : ℕ → κ → ν → Prop} {low high high' ttl now : ℕ}

theorem readWithin_empty : (empty : TtlCache κ ν).ReadWithin read low high :=
  fun _ _ h => (by cases h)

theorem ReadWithin.get (h : c.ReadWithin read low high) {key : κ} {e : TtlEntry ν}
    (hget : c.get ttl now key = some e) :
    (low ≤ e.readAt ∧ e.readAt ≤ high) ∧ read e.readAt key e.value :=
  h key e (Option.filter_eq_some_iff.mp hget).1

theorem ReadWithin.put [DecidableEq κ] (h : c.ReadWithin read low high) {key : κ} {value : ν}
    {version : ℕ} (hlow : low ≤ version) (hhigh : version ≤ high) (hread : read version key value) :
    (c.put ttl now key value version).ReadWithin read low high := by
  intro key' e he
  by_cases hkey : key' = key
  · subst hkey
    simp only [TtlCache.put, Function.update_self, Option.some.injEq] at he
    subst he
    exact ⟨⟨hlow, hhigh⟩, hread⟩
  · simp only [TtlCache.put, Function.update_of_ne hkey] at he
    exact h key' e (Option.filter_eq_some_iff.mp he).1

/-- The source may grow as long as it keeps its answers at the versions it has. -/
theorem ReadWithin.mono (h : c.ReadWithin read low high) (hle : high ≤ high')
    (hread : ∀ v ≤ high, ∀ key value, read v key value → read' v key value) :
    c.ReadWithin read' low high' := by
  intro key e he
  obtain ⟨⟨hlow, hhigh⟩, hval⟩ := h key e he
  exact ⟨⟨hlow, hhigh.trans hle⟩, hread _ hhigh _ _ hval⟩

end TtlCache
