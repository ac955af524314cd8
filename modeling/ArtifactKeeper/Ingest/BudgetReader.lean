import ArtifactKeeper.ByteReader
import Mathlib.Algebra.Group.Nat.Defs

/-! The byte budget on a decoded archive, and the capped read of one of its entries. -/

namespace ArtifactKeeper.Ingest

open ByteReader

structure BudgetReader (R : Type) where
  inner : R
  remaining : ℕ

def bombSentinel : String := "ingest decompression budget exceeded"

def bombError : IoError := ⟨.invalidData, bombSentinel⟩

variable {R : Type}

def BudgetReader.new (inner : R) (budget : ℕ) : BudgetReader R := ⟨inner, budget⟩

/-- `BudgetReader::read`. -/
def budgetRead (read : Read R) : Read (BudgetReader R) := fun self len =>
  if self.remaining = 0 then
    -- the budget is spent: one more byte tells the end from more data
    match read self.inner 1 with
    | (.ok [], inner) => (.ok [], ⟨inner, 0⟩)
    | (.ok (_ :: _), inner) => (.error bombError, ⟨inner, 0⟩)
    | (.error e, inner) => (.error e, ⟨inner, 0⟩)
  else
    match read self.inner (min len self.remaining) with
    | (.ok bs, inner) => (.ok bs, ⟨inner, self.remaining - bs.length⟩)
    | (.error e, inner) => (.error e, ⟨inner, self.remaining⟩)

/-- The results of a sequence of reads, one for each length of a buffer. Nothing stops it after an
error. -/
def reads (read : Read R) : List ℕ → R → List ReadResult
  | [], _ => []
  | len :: lens, s => (read s len).1 :: reads read lens (read s len).2

/-- The bytes that a sequence of reads has delivered. -/
def delivered : List ReadResult → List UInt8
  | [] => []
  | .ok bs :: rest => bs ++ delivered rest
  | .error _ :: rest => delivered rest

/-- The result that ends a read to the end: no bytes, or an error. -/
def stops : ReadResult → Bool
  | .ok bs => bs.isEmpty
  | .error _ => true

section Step
variable (src : Source R) (self : BudgetReader R)

/-- All that one read with a buffer that is not empty can do. -/
theorem budgetRead_cases {len : ℕ} (hlen : 0 < len) :
    (∃ bs s', budgetRead src.read self len = (.ok bs, ⟨s', self.remaining - bs.length⟩) ∧
      src.content self.inner = bs ++ src.content s' ∧ bs.length ≤ self.remaining ∧
      (bs = [] → src.content self.inner = [])) ∨
    (∃ b s', budgetRead src.read self len = (.error bombError, ⟨s', 0⟩) ∧ self.remaining = 0 ∧
      src.content self.inner = b :: src.content s') ∨
    (∃ e s' l s, budgetRead src.read self len = (.error e, ⟨s', self.remaining⟩) ∧
      src.read s l = (.error e, s') ∧ src.content s' = src.content self.inner) := by
  by_cases hzero : self.remaining = 0
  · rcases hread : src.read self.inner 1 with ⟨_ | bs, s'⟩
    · next e =>
      refine .inr (.inr ⟨e, s', 1, self.inner, ?_, hread, src.read_error _ _ _ _ hread⟩)
      simp [budgetRead, hzero, hread]
    · obtain ⟨hcontent, hone, hend⟩ := src.read_ok _ _ _ _ hread
      cases bs with
      | nil =>
        refine .inl ⟨[], s', ?_, hcontent, by simp, fun _ => hend (by omega) rfl⟩
        simp [budgetRead, hzero, hread]
      | cons b bs =>
        obtain rfl : bs = [] := by simpa using hone
        refine .inr (.inl ⟨b, s', ?_, hzero, hcontent⟩)
        simp [budgetRead, hzero, hread]
  · rcases hread : src.read self.inner (min len self.remaining) with ⟨_ | bs, s'⟩
    · next e =>
      refine .inr (.inr ⟨e, s', _, _, ?_, hread, src.read_error _ _ _ _ hread⟩)
      simp [budgetRead, hzero, hread]
    · obtain ⟨hcontent, hle, hend⟩ := src.read_ok _ _ _ _ hread
      refine .inl ⟨bs, s', ?_, hcontent, by omega, hend (by omega)⟩
      simp [budgetRead, hzero, hread]

end Step

section Reads
variable {src : Source R}

/-- No sequence of reads delivers anything but the first bytes, and never more than the budget. -/
theorem delivered_reads (lens : List ℕ) (hlens : ∀ len ∈ lens, 0 < len) (self : BudgetReader R) :
    delivered (reads (budgetRead src.read) lens self) <+: src.content self.inner ∧
      (delivered (reads (budgetRead src.read) lens self)).length ≤ self.remaining := by
  induction lens generalizing self with
  | nil => simp [reads, delivered]
  | cons len lens ih =>
    have ih := ih fun l hl => hlens l (List.mem_cons_of_mem _ hl)
    rcases budgetRead_cases src self (hlens len List.mem_cons_self) with
      ⟨bs, s', hread, hcontent, hle, -⟩ | ⟨b, s', hread, hzero, -⟩ | ⟨e, s', -, -, hread, -, hsame⟩
    · obtain ⟨hpre, hlength⟩ := ih ⟨s', self.remaining - bs.length⟩
      rw [reads, hread, delivered, hcontent, List.length_append]
      refine ⟨(List.prefix_append_right_inj bs).mpr hpre, ?_⟩
      dsimp only at hlength ⊢
      omega
    · -- the budget is spent, so nothing is delivered after the error
      obtain ⟨-, hlength⟩ := ih ⟨s', 0⟩
      have hnone := List.length_eq_zero_iff.mp (Nat.le_zero.mp hlength)
      rw [reads, hread, delivered]
      simp [hnone]
    · obtain ⟨hpre, hlength⟩ := ih ⟨s', self.remaining⟩
      rw [reads, hread, delivered, ← hsame]
      exact ⟨hpre, hlength⟩

/-- A read returns no bytes only if all of the stream has been delivered, or one of the reads
before has failed for the budget. -/
theorem end_of_reads (lens : List ℕ) (hlens : ∀ len ∈ lens, 0 < len) (self : BudgetReader R)
    (i : ℕ) (hend : (reads (budgetRead src.read) lens self)[i]? = some (.ok []))
    (hloud : .error bombError ∉ (reads (budgetRead src.read) lens self).take i) :
    delivered ((reads (budgetRead src.read) lens self).take i) = src.content self.inner := by
  induction lens generalizing self i with
  | nil => simp [reads] at hend
  | cons len lens ih =>
    have ih := ih fun l hl => hlens l (List.mem_cons_of_mem _ hl)
    rw [reads] at hend hloud ⊢
    cases i with
    | zero =>
      rw [List.take_zero, delivered]
      rcases budgetRead_cases src self (hlens len List.mem_cons_self) with
        ⟨bs, s', hread, -, -, hnil⟩ | ⟨b, s', hread, -⟩ | ⟨e, s', -, -, hread, -⟩
      · rw [hread] at hend
        exact (hnil (by simpa using hend)).symm
      · simp [hread] at hend
      · simp [hread] at hend
    | succ i =>
      rw [List.getElem?_cons_succ] at hend
      rw [List.take_succ_cons, List.mem_cons, not_or] at hloud
      rw [List.take_succ_cons]
      rcases budgetRead_cases src self (hlens len List.mem_cons_self) with
        ⟨bs, s', hread, hcontent, -⟩ | ⟨b, s', hread, -⟩ | ⟨e, s', -, -, hread, -, hsame⟩
      · rw [hread] at hend hloud ⊢
        rw [delivered, ih _ _ hend hloud.2, hcontent]
      · simp [hread] at hloud
      · rw [hread] at hend hloud ⊢
        rw [delivered, ih _ _ hend hloud.2, hsame]

/-- Reads go on until one returns no bytes or fails. They end in the error of the budget if the
stream is longer than that, and else with all of the stream delivered. -/
theorem reads_to_end (herr : src.ErrorFree) (lens : List ℕ) (hlens : ∀ len ∈ lens, 0 < len)
    (self : BudgetReader R)
    (hmany : min (src.content self.inner).length self.remaining < lens.length) :
    (reads (budgetRead src.read) lens self).find? stops =
      some (if self.remaining < (src.content self.inner).length then .error bombError
        else .ok []) := by
  induction lens generalizing self with
  | nil => simp at hmany
  | cons len lens ih =>
    have ih := ih fun l hl => hlens l (List.mem_cons_of_mem _ hl)
    rw [List.length_cons] at hmany
    rw [reads]
    rcases budgetRead_cases src self (hlens len List.mem_cons_self) with
      ⟨bs, s', hread, hcontent, hle, hnil⟩ | ⟨b, s', hread, hzero, hcontent⟩ |
        ⟨e, s', l, s, -, hfail, -⟩
    · rw [hread]
      cases bs with
      | nil => simp [stops, hnil rfl]
      | cons b bs =>
        have hlength := congrArg List.length hcontent
        rw [List.length_append, List.length_cons] at hlength
        rw [List.length_cons] at hle
        have hgo : stops (.ok (b :: bs)) = false := rfl
        rw [List.find?_cons, hgo]
        show (reads _ lens _).find? stops = _
        rw [ih _ (by simp only [List.length_cons]; omega)]
        congr 1
        by_cases hlong : self.remaining < (src.content self.inner).length
        · rw [if_pos hlong, if_pos (by simp only [List.length_cons]; omega)]
        · rw [if_neg hlong, if_neg (by simp only [List.length_cons]; omega)]
    · rw [hread]
      simp [stops, hzero, hcontent]
    · obtain ⟨bs, s'', hok⟩ := herr s l
      cases hfail.symm.trans hok

end Reads

inductive AppError where
  | validation (message : String)
  deriving DecidableEq, Repr

/-- `read_capped`, with the length of the free buffer in each round of `read_to_end`. The addition
wraps around as in a release build. -/
def readCapped (read : Read R) (len : ℕ → ℕ) (fuel : ℕ) (reader : R) (cap : UInt64)
    (what : String) : Option (Except AppError (List UInt8)) :=
  (readToEnd (takeRead read) len fuel ⟨reader, (cap + 1).toNat⟩ []).map fun
    | .error e => .error (.validation ("Failed to read " ++ what ++ ": " ++ e.message))
    | .ok buf =>
      if cap.toNat < buf.length then
        .error (.validation (what ++ " exceeds the maximum allowed size of " ++
          toString cap.toNat ++ " bytes"))
      else .ok buf

theorem readCapped_eq {src : Source R} (herr : src.ErrorFree) {len : ℕ → ℕ}
    (hlen : ∀ i, 0 < len i) (reader : R) (cap : UInt64) (hcap : cap.toNat < 2 ^ 64 - 1)
    (what : String) (fuel : ℕ)
    (hfuel : min (src.content reader).length (cap.toNat + 1) < fuel) :
    readCapped src.read len fuel reader cap what =
      some (if cap.toNat < (src.content reader).length then
        .error (.validation (what ++ " exceeds the maximum allowed size of " ++
          toString cap.toNat ++ " bytes"))
      else .ok (src.content reader)) := by
  have hlimit : (cap + 1).toNat = cap.toNat + 1 := by
    rw [UInt64.toNat_add]
    exact Nat.mod_eq_of_lt (by simp; omega)
  have hread : readToEnd (takeRead src.read) len fuel ⟨reader, cap.toNat + 1⟩ [] =
      some (.ok ((src.content reader).take (cap.toNat + 1))) := by
    apply readToEnd_eq herr.take hlen fuel ⟨reader, cap.toNat + 1⟩ []
    simp only [Source.take, List.length_take]
    omega
  rw [readCapped, hlimit, hread, Option.map_some]
  dsimp only
  by_cases hlong : cap.toNat < (src.content reader).length
  · rw [if_pos hlong, if_pos (by rw [List.length_take]; omega)]
  · rw [if_neg hlong, List.take_of_length_le (by omega), if_neg hlong]

/-- Under a budget a stream is delivered unchanged or fails loudly, whatever the reads are; and a
capped read returns all of a stream that fits, and no other. -/
theorem budget_transparent_or_loud (src : Source R) (reader : R) (budget : ℕ) (lens : List ℕ)
    (hlens : ∀ len ∈ lens, 0 < len) (len : ℕ → ℕ) (hlen : ∀ i, 0 < len i) (cap : UInt64)
    (hcap : cap.toNat < 2 ^ 64 - 1) (what : String) :
    let results := reads (budgetRead src.read) lens (.new reader budget)
    (delivered results <+: src.content reader ∧ (delivered results).length ≤ budget) ∧
      (∀ i : ℕ, results[i]? = some (.ok []) → .error bombError ∉ results.take i →
        delivered (results.take i) = src.content reader) ∧
      (src.ErrorFree → budget < (src.content reader).length → budget < lens.length →
        results.find? stops = some (.error bombError)) ∧
      (src.ErrorFree → ∀ fuel, min (src.content reader).length (cap.toNat + 1) < fuel →
        ∃ result, readCapped src.read len fuel reader cap what = some result ∧
          ((∃ bytes, result = .ok bytes) ↔ (src.content reader).length ≤ cap.toNat) ∧
          ∀ bytes, result = .ok bytes → bytes = src.content reader) := by
  dsimp only
  refine ⟨delivered_reads lens hlens (.new reader budget),
    fun i => end_of_reads lens hlens (.new reader budget) i, fun herr hlong hmany => ?_,
    fun herr fuel hfuel => ⟨_, readCapped_eq herr hlen reader cap hcap what fuel hfuel, ?_, ?_⟩⟩
  · have hend := reads_to_end herr lens hlens (.new reader budget)
      (by simp only [BudgetReader.new]; omega)
    exact hend.trans (congrArg some (if_pos hlong))
  · by_cases hlong : cap.toNat < (src.content reader).length
    · simp [hlong]
    · simp [hlong]
      omega
  · intro bytes hbytes
    by_cases hlong : cap.toNat < (src.content reader).length
    · simp [hlong] at hbytes
    · rw [if_neg hlong] at hbytes
      exact (Except.ok.inj hbytes).symm

theorem budget_loud_abc :
    (reads (budgetRead (slice 0).read) [4, 4, 4] (.new [0x61, 0x62, 0x63] 2)).find? stops =
        some (.error bombError) ∧
      ∃ result, readCapped (slice 0).read (fun _ => 4) 4 [0x61, 0x62, 0x63] 3 "METADATA" =
        some result ∧ ∀ bytes, result = .ok bytes → bytes = [0x61, 0x62, 0x63] := by
  obtain ⟨-, -, hloud, hcapped⟩ := budget_transparent_or_loud (slice 0) [0x61, 0x62, 0x63] 2
    [4, 4, 4] (by decide) (fun _ => 4) (fun _ => by decide) 3 (by decide) "METADATA"
  obtain ⟨result, hresult, -, hwhole⟩ := hcapped (slice_errorFree 0) 4 (by decide)
  exact ⟨hloud (slice_errorFree 0) (by decide) (by decide), result, hresult, hwhole⟩

/-- A read after the error finds the end of a stream that has not been delivered. -/
theorem end_after_bombError :
    reads (budgetRead (slice 0).read) [1, 1] (.new [0x78] 0) = [.error bombError, .ok []] ∧
      delivered [.error bombError, .ok []] ≠ [0x78] := by
  decide

end ArtifactKeeper.Ingest
