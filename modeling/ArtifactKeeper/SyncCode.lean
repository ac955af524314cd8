import Mathlib.Data.List.Basic
import Mathlib.Data.List.Infix
import ArtifactKeeper.Occurrence

/-! Codes that show where a word begins: a text in such a code can be cut and searched as it
stands. -/

/-- A code in which no word begins another one, and in which words begin with a start symbol and
have no other. -/
structure SyncCode {α β : Type*} (code : α → List β) (isStart : β → Prop) : Prop where
  starts : ∀ a, ∃ b bs, code a = b :: bs ∧ isStart b ∧ ∀ x ∈ bs, ¬ isStart x
  prefix_free : ∀ a a', code a <+: code a' → a = a'

namespace SyncCode
variable {α β : Type*} {code : α → List β} {isStart : β → Prop}
  (hcode : SyncCode code isStart) {xs ys part : List α}
include hcode

theorem head_flatMap (xs : List α) : ∀ b ∈ (xs.flatMap code).head?, isStart b := by
  cases xs with
  | nil => simp
  | cons a xs =>
    obtain ⟨b, bs, hbs, hb, -⟩ := hcode.starts a
    intro b' hb'
    rw [List.flatMap_cons, hbs] at hb'
    obtain rfl : b = b' := Option.some.inj hb'
    exact hb

theorem flatMap_eq_nil_iff : xs.flatMap code = [] ↔ xs = [] := by
  cases xs with
  | nil => simp
  | cons a xs =>
    obtain ⟨b, bs, hbs, -⟩ := hcode.starts a
    simp [hbs]

/-- A text can be cut where a start symbol follows. -/
theorem cut {u v : List β} (h : xs.flatMap code = u ++ v) (hv : ∀ b ∈ v.head?, isStart b) :
    ∃ before after, xs = before ++ after ∧ before.flatMap code = u ∧ after.flatMap code = v := by
  induction xs generalizing u with
  | nil =>
    obtain ⟨rfl, rfl⟩ := List.append_eq_nil_iff.mp h.symm
    exact ⟨[], [], rfl, rfl, rfl⟩
  | cons a xs ih =>
    obtain ⟨b, bs, hbs, hb, htail⟩ := hcode.starts a
    cases u with
    | nil => exact ⟨[], a :: xs, rfl, rfl, h⟩
    | cons b' u =>
      rw [List.flatMap_cons, hbs, List.cons_append, List.cons_append, List.cons.injEq] at h
      obtain ⟨rfl, h⟩ := h
      rcases List.append_eq_append_iff.mp h with ⟨m, rfl, hm⟩ | ⟨m, rfl, rfl⟩
      · obtain ⟨before, after, rfl, rfl, rfl⟩ := ih hm
        exact ⟨a :: before, after, rfl, by simp [hbs], rfl⟩
      · cases m with
        | nil => exact ⟨[a], xs, rfl, by simp [hbs], rfl⟩
        | cons c m => exact absurd (hv c rfl) (htail c (by simp))

theorem flatMap_prefix_iff : xs.flatMap code <+: ys.flatMap code ↔ xs <+: ys := by
  constructor
  · rintro ⟨v, hv⟩
    induction xs generalizing ys with
    | nil => exact List.nil_prefix
    | cons a xs ih =>
      obtain ⟨b, bs, hbs, -⟩ := hcode.starts a
      cases ys with
      | nil => simp [hbs] at hv
      | cons a' ys =>
        rw [List.flatMap_cons, List.flatMap_cons, List.append_assoc] at hv
        have hcomparable : code a <+: code a' ∨ code a' <+: code a :=
          List.prefix_or_prefix_of_prefix ⟨_, hv⟩ ⟨_, rfl⟩
        obtain rfl : a = a' := by
          rcases hcomparable with h | h
          · exact hcode.prefix_free a a' h
          · exact (hcode.prefix_free a' a h).symm
        exact (List.prefix_cons_inj a).mpr (ih (List.append_cancel_left hv))
  · rintro ⟨rest, rfl⟩
    exact ⟨rest.flatMap code, List.flatMap_append.symm⟩

theorem flatMap_injective (h : xs.flatMap code = ys.flatMap code) : xs = ys :=
  ((hcode.flatMap_prefix_iff.mp (h ▸ List.prefix_rfl)).eq_of_length_le
    (hcode.flatMap_prefix_iff.mp (h ▸ List.prefix_rfl)).length_le)

theorem flatMap_suffix_iff : xs.flatMap code <:+ ys.flatMap code ↔ xs <:+ ys := by
  constructor
  · rintro ⟨u, hu⟩
    obtain ⟨before, after, rfl, -, hafter⟩ := hcode.cut hu.symm (hcode.head_flatMap xs)
    rw [← hcode.flatMap_injective hafter]
    exact List.suffix_append _ _
  · rintro ⟨before, rfl⟩
    exact ⟨before.flatMap code, List.flatMap_append.symm⟩

/-- A coded part occurs in a coded text only where the part occurs in the text. -/
theorem occurrence {u : List β} (hne : part ≠ []) {w : List β}
    (h : xs.flatMap code = u ++ (part.flatMap code ++ w)) :
    ∃ before after, xs = before ++ (part ++ after) ∧ before.flatMap code = u := by
  have hhead : ∀ b ∈ (part.flatMap code ++ w).head?, isStart b := by
    obtain ⟨b, bs, hbs⟩ := List.exists_cons_of_ne_nil (mt hcode.flatMap_eq_nil_iff.mp hne)
    have hb := hcode.head_flatMap part
    rw [hbs] at hb ⊢
    exact hb
  obtain ⟨before, after, rfl, rfl, hafter⟩ := hcode.cut h hhead
  obtain ⟨rest, rfl⟩ := hcode.flatMap_prefix_iff.mp ⟨w, hafter.symm⟩
  exact ⟨before, rest, rfl, rfl⟩

open Occurrence in
/-- The first occurrence of the coded part is where the part occurs first. -/
theorem first_flatMap {n : ℕ} (hne : part ≠ []) (h : First part xs n) :
    First (part.flatMap code) (xs.flatMap code) ((xs.take n).flatMap code).length := by
  obtain ⟨after, hafter⟩ := h.here
  have hxs : xs.flatMap code =
      (xs.take n).flatMap code ++ (part.flatMap code ++ after.flatMap code) := by
    rw [← List.flatMap_append, ← List.flatMap_append, hafter, List.take_append_drop]
  refine ⟨?_, fun m hm hpre => ?_⟩
  · rw [hxs, List.drop_left]
    exact List.prefix_append _ _
  · obtain ⟨w, hw⟩ := hpre
    have hcut : xs.flatMap code = (xs.flatMap code).take m ++ (part.flatMap code ++ w) := by
      rw [hw, List.take_append_drop]
    obtain ⟨before, rest, hbefore, hlen⟩ := hcode.occurrence hne hcut
    refine h.before before.length ?_ ⟨rest, by rw [hbefore, List.drop_left]⟩
    -- an occurrence further on would be coded further on
    by_contra hle
    have hpre : xs.take n <+: before := by
      rw [hbefore, List.take_append_of_le_length (Nat.le_of_not_lt hle)]
      exact List.take_prefix _ _
    have hcoded := (hcode.flatMap_prefix_iff.mpr hpre).length_le
    rw [hlen, List.length_take] at hcoded
    omega

variable [DecidableEq α] [DecidableEq β]

open Occurrence in
theorem find_flatMap (hne : part ≠ []) : find (part.flatMap code) (xs.flatMap code) =
    (find part xs).map fun n => ((xs.take n).flatMap code).length := by
  cases hfind : find part xs with
  | some n =>
    exact find_eq_some_iff.mpr (hcode.first_flatMap hne (find_eq_some_iff.mp hfind))
  | none =>
    refine find_eq_none_iff.mpr fun n hn => ?_
    obtain ⟨w, hw⟩ := hn.here
    have hcut : xs.flatMap code = (xs.flatMap code).take n ++ (part.flatMap code ++ w) := by
      rw [hw, List.take_append_drop]
    obtain ⟨before, rest, hbefore, -⟩ := hcode.occurrence hne hcut
    have hdrop : part <+: xs.drop before.length := ⟨rest, by rw [hbefore, List.drop_left]⟩
    obtain ⟨m, hm⟩ := First.exists_of_prefix_drop hdrop
    exact find_eq_none_iff.mp hfind m hm

omit hcode [DecidableEq α] [DecidableEq β] in
/-- UTF-8 is such a code. -/
theorem utf8 : SyncCode String.utf8EncodeChar UInt8.IsUTF8FirstByte where
  starts := by
    intro c
    have hne : String.utf8EncodeChar c ≠ [] := by
      intro h
      have hlen := congrArg List.length h
      rw [String.length_utf8EncodeChar] at hlen
      exact absurd hlen (Nat.ne_of_gt c.utf8Size_pos)
    obtain ⟨b, bs, hbs⟩ := List.exists_cons_of_ne_nil hne
    have hfirst : ∀ i (hi : i < (b :: bs).length), (b :: bs)[i].IsUTF8FirstByte ↔ i = 0 := by
      rw [← hbs]
      exact fun i hi => UInt8.isUTF8FirstByte_getElem_utf8EncodeChar
    refine ⟨b, bs, hbs, (hfirst 0 (by simp)).mpr rfl, fun x hx hstart => ?_⟩
    obtain ⟨i, hi, rfl⟩ := List.getElem_of_mem hx
    have hzero := (hfirst (i + 1) (by simpa using hi)).mp (by simpa using hstart)
    exact Nat.succ_ne_zero i hzero
  prefix_free := by
    rintro c c' ⟨rest, hrest⟩
    have hc := @ByteArray.utf8DecodeChar?_utf8EncodeChar_append rest.toByteArray c
    have hc' := @ByteArray.utf8DecodeChar?_utf8EncodeChar_append ByteArray.empty c'
    rw [← hrest, List.toByteArray_append, ByteArray.append_empty, hc, Option.some.injEq] at hc'
    exact hc'

end SyncCode
