import ArtifactKeeper.AgeGate.VersionOrder
import ArtifactKeeper.Text

/-! The version ranges of the curation rules and the comparison they rest on. -/

namespace ArtifactKeeper.Curation
open AgeGate PlaceOrder Text

/-- The segments of a version between its dots and hyphens. -/
def versionSegments (version : String) : List (List Char) :=
  version.toList.splitOnP fun c => c = '.' ∨ c = '-'

def versionCompare (a b : String) : Ordering :=
  compareSegments (versionSegments a) (versionSegments b)

inductive RangeOp where
  | ge | le | gt | lt | eq
  deriving DecidableEq, Repr

def RangeOp.holds : RangeOp → Ordering → Bool
  | .ge, cmp => cmp ≠ .lt
  | .le, cmp => cmp ≠ .gt
  | .gt, cmp => cmp = .gt
  | .lt, cmp => cmp = .lt
  | .eq, cmp => cmp = .eq

/-- The operator of a trimmed constraint and the version behind it. -/
def constraintParts : List Char → RangeOp × List Char
  | '>' :: '=' :: v => (.ge, trim v)
  | '<' :: '=' :: v => (.le, trim v)
  | '>' :: v => (.gt, trim v)
  | '<' :: v => (.lt, trim v)
  | '=' :: v => (.eq, trim v)
  | v => (.eq, v)

def versionMatches (constraint version : String) : Bool :=
  let constraint := trim constraint.toList
  if constraint = ['*'] then true
  else
    let (op, target) := constraintParts constraint
    op.holds (versionCompare version (String.ofList target))

/-- The segments of a version, place by place. -/
def segmentOf (version : String) (n : ℕ) : List Char := (versionSegments version).getD n ['0']

section Order

theorem decides_versionCompare (a b : String) :
    Decides compareSegment (segmentOf a) (segmentOf b) (versionCompare a b) :=
  decides_compareSegments _ _

theorem versionCompare_swap (a b : String) : versionCompare a b = (versionCompare b a).swap :=
  compareSegments_swap _ _

theorem ne_lt_iff_swap_ne_gt (a b : String) :
    versionCompare a b ≠ .lt ↔ versionCompare b a ≠ .gt := by
  rw [versionCompare_swap a b]
  cases versionCompare b a <;> decide

/-- A constraint with such an operator and one of these versions behind it. -/
def RangeOver (versions : List String) (constraint : String) (op : RangeOp) : Prop :=
  ∃ target, constraintParts (trim constraint.toList) = (op, target) ∧
    String.ofList target ∈ versions

/-- What the comparison owes to the ranges between these versions. -/
structure CurationOrdered (versions : List String) : Prop where
  swap : ∀ a ∈ versions, ∀ b ∈ versions, versionCompare a b = (versionCompare b a).swap
  trans : ∀ a ∈ versions, ∀ b ∈ versions, ∀ c ∈ versions,
    versionCompare a b ≠ .gt → versionCompare b c ≠ .gt → versionCompare a c ≠ .gt
  /-- `>=` and `>` select what is above a version they select. -/
  upward : ∀ constraint op, RangeOver versions constraint op → op = .ge ∨ op = .gt →
    ∀ u ∈ versions, ∀ v ∈ versions, versionMatches constraint u = true →
      versionCompare u v ≠ .gt → versionMatches constraint v = true
  /-- `<=` and `<` select what is below a version they select. -/
  downward : ∀ constraint op, RangeOver versions constraint op → op = .le ∨ op = .lt →
    ∀ u ∈ versions, ∀ v ∈ versions, versionMatches constraint u = true →
      versionCompare v u ≠ .gt → versionMatches constraint v = true

variable {versions : List String}

theorem versionMatches_of_parts {constraint : String} {op : RangeOp} {target : List Char}
    (h : constraintParts (trim constraint.toList) = (op, target)) (hop : op ≠ .eq)
    (version : String) :
    versionMatches constraint version =
      op.holds (versionCompare version (String.ofList target)) := by
  have hstar : trim constraint.toList ≠ ['*'] := by
    intro hstar
    rw [hstar] at h
    exact hop (congrArg Prod.fst h).symm
  rw [versionMatches, if_neg hstar, h]

theorem curationOrdered_iff : CurationOrdered versions ↔ ClashFree segmentOf versions := by
  rw [← trans_iff_clashFree decides_versionCompare]
  refine ⟨CurationOrdered.trans, fun h => ⟨fun a _ b _ => versionCompare_swap a b, h, ?_, ?_⟩⟩
  · rintro constraint op ⟨target, hparts, htarget⟩ hop u hu v hv hmatch huv
    have hne : op ≠ .eq := by rcases hop with rfl | rfl <;> decide
    rw [versionMatches_of_parts hparts hne] at hmatch ⊢
    rcases hop with rfl | rfl
    · simp only [RangeOp.holds, decide_eq_true_eq, ne_lt_iff_swap_ne_gt] at hmatch ⊢
      exact h _ htarget u hu v hv hmatch huv
    · simp only [RangeOp.holds, decide_eq_true_eq] at hmatch ⊢
      by_contra hnot
      exact h u hu v hv _ htarget huv hnot hmatch
  · rintro constraint op ⟨target, hparts, htarget⟩ hop u hu v hv hmatch hvu
    have hne : op ≠ .eq := by rcases hop with rfl | rfl <;> decide
    rw [versionMatches_of_parts hparts hne] at hmatch ⊢
    rcases hop with rfl | rfl
    · simp only [RangeOp.holds, decide_eq_true_eq] at hmatch ⊢
      exact h v hv u hu _ htarget hvu hmatch
    · simp only [RangeOp.holds, decide_eq_true_eq] at hmatch ⊢
      by_contra hnot
      have hle := h _ htarget v hv u hu ((ne_lt_iff_swap_ne_gt _ _).mp hnot) hvu
      exact (ne_lt_iff_swap_ne_gt _ _).mpr hle hmatch

end Order

/-- On a list of versions the two comparisons order, sort and select as they should exactly if no
three of its versions clash at a place up to which they are alike. -/
theorem comparators_ordered_iff (versions : List String) :
    (AgeOrdered versions ↔ ClashFree segmentAt versions) ∧
      (CurationOrdered versions ↔ ClashFree segmentOf versions) :=
  ⟨ageOrdered_iff, curationOrdered_iff⟩

theorem versionCompare_of_single {a b : String} (ha : versionSegments a = [a.toList])
    (hb : versionSegments b = [b.toList]) :
    versionCompare a b = compareSegment a.toList b.toList := by
  simp [versionCompare, ha, hb, compareSegments]

/-- `9` is below `10`, `10` below `1a` and `1a` below `9`. -/
theorem comparators_go_round :
    ¬ AgeOrdered ["9", "10", "1a"] ∧ ¬ CurationOrdered ["9", "10", "1a"] := by
  constructor
  · intro h
    obtain ⟨e, he, -, habove⟩ :=
      h.newest [("9", ""), ("10", ""), ("1a", "")] (by decide) (by decide)
    refine no_newest_of_cycle ⟨e.1, List.mem_map_of_mem (f := Prod.fst) he, fun u hu => ?_⟩
    obtain ⟨e', he', rfl⟩ := List.mem_map.mp
      (show u ∈ [("9", ""), ("10", ""), ("1a", "")].map Prod.fst from hu)
    exact habove e' he'
  · intro h
    have hsegments : versionSegments "9" = ["9".toList] ∧ versionSegments "10" = ["10".toList] ∧
      versionSegments "1a" = ["1a".toList] := by decide
    have hle := h.trans "9" (by decide) "10" (by decide) "1a" (by decide)
    rw [versionCompare_of_single hsegments.1 hsegments.2.1,
      versionCompare_of_single hsegments.2.1 hsegments.2.2,
      versionCompare_of_single hsegments.1 hsegments.2.2] at hle
    exact hle (by decide) (by decide) (by decide)

end ArtifactKeeper.Curation
