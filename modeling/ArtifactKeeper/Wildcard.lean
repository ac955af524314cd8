import Mathlib.Data.List.Basic
import Mathlib.Data.List.Infix
import Mathlib.Tactic.Common

/-! Patterns with wildcards that stand for any text, and the parts between the wildcards searched
for from left to right. -/

namespace Wildcard
variable {α : Type*}

/-- The letters that meet `wild` stand for any text, the others for themselves. -/
def Matches (wild : α → Bool) : List α → List α → Prop
  | [], text => text = []
  | c :: pattern, text =>
    if wild c then ∃ skipped rest, text = skipped ++ rest ∧ Matches wild pattern rest
    else ∃ rest, text = c :: rest ∧ Matches wild pattern rest

variable {wild wild' : α → Bool} {pattern text : List α}

/-- A letter that is made a wildcard still stands for itself. -/
theorem Matches.mono (himp : ∀ c, wild c = true → wild' c = true) (h : Matches wild pattern text) :
    Matches wild' pattern text := by
  induction pattern generalizing text with
  | nil => exact h
  | cons c pattern ih =>
    rw [Matches] at h ⊢
    split at h
    · next hc =>
      obtain ⟨skipped, rest, rfl, h⟩ := h
      rw [if_pos (himp c hc)]
      exact ⟨skipped, rest, rfl, ih h⟩
    · obtain ⟨rest, rfl, h⟩ := h
      split
      · exact ⟨[c], rest, rfl, ih h⟩
      · exact ⟨rest, rfl, ih h⟩

theorem matches_map {f : α → α} (hwild : ∀ c, wild' (f c) = wild c)
    (hf : ∀ c, wild c = false → f c = c) :
    Matches wild' (pattern.map f) text ↔ Matches wild pattern text := by
  induction pattern generalizing text with
  | nil => rfl
  | cons c pattern ih =>
    rw [List.map_cons, Matches, Matches, hwild]
    split
    · simp only [ih]
    · next hc => simp only [ih, hf c (Bool.eq_false_iff.mpr hc)]

/-- The parts stand in the text one after the other, each behind some text, the last at the end. -/
def After : List (List α) → List α → Prop
  | [], text => text = []
  | part :: parts, text => ∃ skipped rest, text = skipped ++ part ++ rest ∧ After parts rest

def MatchesParts : List (List α) → List α → Prop
  | [], _ => False
  | part :: parts, text => ∃ rest, text = part ++ rest ∧ After parts rest

theorem matchesParts_nil_cons {parts : List (List α)} (hne : parts ≠ []) :
    MatchesParts ([] :: parts) text ↔
      ∃ skipped rest, text = skipped ++ rest ∧ MatchesParts parts rest := by
  cases parts with
  | nil => exact (hne rfl).elim
  | cons part parts =>
    constructor
    · rintro ⟨rest, rfl, skipped, rest', rfl, h⟩
      exact ⟨skipped, part ++ rest', by simp, rest', rfl, h⟩
    · rintro ⟨skipped, rest, rfl, rest', rfl, h⟩
      exact ⟨skipped ++ (part ++ rest'), rfl, skipped, rest', by simp, h⟩

theorem matchesParts_modifyHead {c : α} {parts : List (List α)} (hne : parts ≠ []) :
    MatchesParts (parts.modifyHead (c :: ·)) text ↔
      ∃ rest, text = c :: rest ∧ MatchesParts parts rest := by
  cases parts with
  | nil => exact (hne rfl).elim
  | cons part parts =>
    constructor
    · rintro ⟨rest, rfl, h⟩
      exact ⟨part ++ rest, rfl, rest, rfl, h⟩
    · rintro ⟨_, rfl, rest, rfl, h⟩
      exact ⟨rest, rfl, h⟩

/-- A pattern with one wildcard letter is matched part by part. -/
theorem matches_iff_matchesParts [DecidableEq α] {sep : α} :
    Matches (fun c => c == sep) pattern text ↔ MatchesParts (pattern.splitOn sep) text := by
  induction pattern generalizing text with
  | nil => simp [Matches, MatchesParts, After, List.splitOn_nil]
  | cons c pattern ih =>
    have hne := List.splitOn_ne_nil sep pattern
    rw [Matches, List.splitOn_cons_eq_if_modifyHead]
    split
    · rw [matchesParts_nil_cons hne]
      simp only [ih]
    · rw [matchesParts_modifyHead hne]
      simp only [ih]

/-- More text in front does not harm. -/
theorem After.append {parts : List (List α)} (hne : parts ≠ []) (h : After parts text)
    (before : List α) : After parts (before ++ text) := by
  cases parts with
  | nil => exact (hne rfl).elim
  | cons part parts =>
    obtain ⟨skipped, rest, rfl, h⟩ := h
    exact ⟨before ++ skipped, rest, by simp, h⟩

theorem after_singleton {part : List α} : After [part] text ↔ part <:+ text := by
  constructor
  · rintro ⟨skipped, rest, rfl, rfl⟩
    exact ⟨skipped, by simp⟩
  · rintro ⟨skipped, rfl⟩
    exact ⟨skipped, [], by simp, rfl⟩

theorem after_nil_cons {parts : List (List α)} (hne : parts ≠ []) :
    After ([] :: parts) text ↔ After parts text := by
  constructor
  · rintro ⟨skipped, rest, rfl, h⟩
    rw [List.append_nil]
    exact h.append hne skipped
  · intro h
    exact ⟨[], text, rfl, h⟩

/-- The parts with something, possibly nothing, between any two of them. -/
theorem matchesParts_iff_filled {parts : List (List α)} (hne : parts ≠ []) :
    MatchesParts parts text ↔ ∃ fillings : List (List α), fillings.length + 1 = parts.length ∧
      text = (List.zipWith (· ++ ·) parts (fillings ++ [[]])).flatten := by
  obtain ⟨part, parts, rfl⟩ := List.exists_cons_of_ne_nil hne
  clear hne
  induction parts generalizing part text with
  | nil => simp [MatchesParts, After]
  | cons part' parts ih =>
    constructor
    · rintro ⟨_, rfl, skipped, rest, rfl, h⟩
      obtain ⟨fillings, hlen, hrest⟩ := (ih part').mp ⟨rest, rfl, h⟩
      exact ⟨skipped :: fillings, by simpa using hlen, by simp [← hrest]⟩
    · rintro ⟨fillings, hlen, rfl⟩
      cases fillings with
      | nil => simp at hlen
      | cons skipped fillings =>
        obtain ⟨rest, hrest, h⟩ := (ih part').mpr ⟨fillings, by simpa using hlen, rfl⟩
        refine ⟨skipped ++ part' ++ rest, ?_, skipped, rest, rfl, h⟩
        rw [List.cons_append, List.zipWith_cons_cons, List.flatten_cons, hrest]
        simp

end Wildcard
