import Mathlib.Algebra.Group.Nat.Defs
import Mathlib.Data.List.Basic
import Mathlib.Data.Nat.Basic

/-! Byte strings: numbers of a fixed width in either byte order, UTF-8 text, and checked slices. -/

namespace ArtifactKeeper.Bytes

/-- The `width` low bytes of `n`, the least significant first. -/
def leBytes : ℕ → ℕ → List UInt8
  | 0, _ => []
  | width + 1, n => UInt8.ofNat n :: leBytes width (n / 256)

def ofLeBytes : List UInt8 → ℕ
  | [] => 0
  | b :: bs => b.toNat + 256 * ofLeBytes bs

/-- The `width` low bytes of `n`, the most significant first. -/
def beBytes (width n : ℕ) : List UInt8 := (leBytes width n).reverse

def ofBeBytes (bs : List UInt8) : ℕ := ofLeBytes bs.reverse

@[simp] theorem length_leBytes (width n : ℕ) : (leBytes width n).length = width := by
  induction width generalizing n with
  | zero => rfl
  | succ width ih => simp [leBytes, ih]

@[simp] theorem length_beBytes (width n : ℕ) : (beBytes width n).length = width := by
  simp [beBytes]

theorem ofLeBytes_lt (bs : List UInt8) : ofLeBytes bs < 256 ^ bs.length := by
  induction bs with
  | nil => simp [ofLeBytes]
  | cons b bs ih =>
    have hb : b.toNat < 256 := b.toNat_lt
    rw [ofLeBytes, List.length_cons, Nat.pow_succ]
    omega

theorem ofLeBytes_leBytes (width n : ℕ) (h : n < 256 ^ width) :
    ofLeBytes (leBytes width n) = n := by
  induction width generalizing n with
  | zero =>
    rw [Nat.pow_zero] at h
    rw [leBytes, ofLeBytes]
    omega
  | succ width ih =>
    have hdiv : n / 256 < 256 ^ width := by
      rw [Nat.pow_succ] at h
      exact Nat.div_lt_of_lt_mul (by rwa [Nat.mul_comm])
    rw [leBytes, ofLeBytes, ih _ hdiv, UInt8.toNat_ofNat']
    exact Nat.mod_add_div n 256

theorem leBytes_ofLeBytes (bs : List UInt8) : leBytes bs.length (ofLeBytes bs) = bs := by
  induction bs with
  | nil => rfl
  | cons b bs ih =>
    have hb : b.toNat < 256 := b.toNat_lt
    have hlow : UInt8.ofNat (b.toNat + 256 * ofLeBytes bs) = b := by
      apply UInt8.toNat_inj.mp
      rw [UInt8.toNat_ofNat']
      omega
    have hhigh : (b.toNat + 256 * ofLeBytes bs) / 256 = ofLeBytes bs := by omega
    rw [ofLeBytes, List.length_cons, leBytes, hlow, hhigh, ih]

theorem ofBeBytes_lt (bs : List UInt8) : ofBeBytes bs < 256 ^ bs.length := by
  simpa [ofBeBytes] using ofLeBytes_lt bs.reverse

theorem ofBeBytes_beBytes (width n : ℕ) (h : n < 256 ^ width) :
    ofBeBytes (beBytes width n) = n := by
  rw [ofBeBytes, beBytes, List.reverse_reverse, ofLeBytes_leBytes width n h]

theorem beBytes_ofBeBytes (bs : List UInt8) : beBytes bs.length (ofBeBytes bs) = bs := by
  have h := leBytes_ofLeBytes bs.reverse
  rw [List.length_reverse] at h
  rw [beBytes, ofBeBytes, h, List.reverse_reverse]

/-- The UTF-8 bytes of a text. -/
def utf8 (s : String) : List UInt8 := s.toByteArray.data.toList

/-- The text of a byte string, when that is valid UTF-8. -/
def ofUtf8 (bs : List UInt8) : Option String := String.fromUTF8? ⟨bs.toArray⟩

theorem ofUtf8_eq_some_iff {bs : List UInt8} {s : String} : ofUtf8 bs = some s ↔ utf8 s = bs := by
  rw [ofUtf8, String.fromUTF8?]
  constructor
  · intro h
    split at h
    · obtain rfl := Option.some.inj h
      simp [utf8, String.fromUTF8]
    · contradiction
  · rintro rfl
    have hs : (⟨(utf8 s).toArray⟩ : ByteArray) = s.toByteArray := by simp [utf8]
    rw [dif_pos (hs ▸ s.isValidUTF8)]
    simp [utf8, String.fromUTF8]

theorem ofUtf8_utf8 (s : String) : ofUtf8 (utf8 s) = some s := ofUtf8_eq_some_iff.mpr rfl

theorem utf8_ofList (cs : List Char) :
    utf8 (String.ofList cs) = cs.flatMap String.utf8EncodeChar := by
  rw [utf8, String.toByteArray_ofList, List.utf8Encode]
  simp

theorem utf8EncodeChar_of_lt {c : Char} (hc : c.toNat < 128) :
    String.utf8EncodeChar c = [UInt8.ofNat c.toNat] := by
  have hle : c.val.toNat ≤ 127 := Nat.le_of_lt_succ hc
  rw [String.utf8EncodeChar, if_pos hle]
  rfl

theorem le_of_mem_utf8EncodeChar {c : Char} (hc : 128 ≤ c.toNat) {b : UInt8}
    (hb : b ∈ String.utf8EncodeChar c) : 128 ≤ b.toNat := by
  have hnot : ¬ c.val.toNat ≤ 127 := Nat.not_le.mpr hc
  have hbyte : ∀ n, 128 ≤ n → n < 256 → 128 ≤ (UInt8.ofNat n).toNat := by
    intro n hlow hhigh
    rwa [UInt8.toNat_ofNat', Nat.mod_eq_of_lt hhigh]
  unfold String.utf8EncodeChar at hb
  dsimp only at hb
  rw [if_neg hnot] at hb
  split_ifs at hb
  all_goals
    simp only [List.mem_cons, List.not_mem_nil, or_false] at hb
  · rcases hb with rfl | rfl <;> exact hbyte _ (by omega) (by omega)
  · rcases hb with rfl | rfl | rfl <;> exact hbyte _ (by omega) (by omega)
  · rcases hb with rfl | rfl | rfl | rfl <;> exact hbyte _ (by omega) (by omega)

/-- A byte below 128 is a character of the text. -/
theorem mem_of_mem_utf8 {cs : List Char} {b : UInt8} (hb : b.toNat < 128)
    (h : b ∈ utf8 (String.ofList cs)) : Char.ofNat b.toNat ∈ cs := by
  rw [utf8_ofList, List.mem_flatMap] at h
  obtain ⟨c, hc, hmem⟩ := h
  by_cases hlt : c.toNat < 128
  · rw [utf8EncodeChar_of_lt hlt, List.mem_singleton] at hmem
    rw [hmem, UInt8.toNat_ofNat', Nat.mod_eq_of_lt (by omega), Char.ofNat_toNat]
    exact hc
  · exact absurd (le_of_mem_utf8EncodeChar (Nat.le_of_not_lt hlt) hmem) (Nat.not_le.mpr hb)

theorem utf8_injective {a b : List Char}
    (h : utf8 (String.ofList a) = utf8 (String.ofList b)) : a = b := by
  have hs := ofUtf8_utf8 (String.ofList a)
  rw [h, ofUtf8_utf8, Option.some.injEq] at hs
  exact (String.ofList_injective hs).symm

theorem ascii_of_all {e : List Char} (h : e.all (fun c => decide (c.toNat < 128)) = true) :
    ∀ c ∈ e, c.toNat < 128 := by simpa using h

theorem ascii_isPrefix {e cs : List Char} (he : ∀ c ∈ e, c.toNat < 128)
    (h : utf8 (String.ofList e) <+: utf8 (String.ofList cs)) : e <+: cs := by
  rw [utf8_ofList, utf8_ofList] at h
  induction e generalizing cs with
  | nil => exact List.nil_prefix
  | cons x e ih =>
    have hx := he x List.mem_cons_self
    rw [List.flatMap_cons, utf8EncodeChar_of_lt hx, List.singleton_append] at h
    cases cs with
    | nil => simp at h
    | cons c cs =>
      rw [List.flatMap_cons] at h
      by_cases hc : c.toNat < 128
      · rw [utf8EncodeChar_of_lt hc, List.singleton_append, List.cons_prefix_cons] at h
        have hxc : x = c := by
          have hnat := congrArg UInt8.toNat h.1
          rw [UInt8.toNat_ofNat', UInt8.toNat_ofNat', Nat.mod_eq_of_lt (by omega),
            Nat.mod_eq_of_lt (by omega)] at hnat
          rw [← Char.ofNat_toNat x, hnat, Char.ofNat_toNat]
        rw [hxc, List.cons_prefix_cons]
        exact ⟨rfl, ih (fun d hd => he d (List.mem_cons_of_mem _ hd)) h.2⟩
      · exfalso
        have hne : String.utf8EncodeChar c ≠ [] := by
          intro hnil
          have hlen := String.length_utf8EncodeChar c
          rw [hnil] at hlen
          have hpos := c.utf8Size_pos
          simp at hlen
          omega
        obtain ⟨b, tail, htail⟩ := List.exists_cons_of_ne_nil hne
        have hb := le_of_mem_utf8EncodeChar (Nat.le_of_not_lt hc)
          (show b ∈ String.utf8EncodeChar c by rw [htail]; exact List.mem_cons_self)
        rw [htail, List.cons_append, List.cons_prefix_cons] at h
        rw [← h.1, UInt8.toNat_ofNat', Nat.mod_eq_of_lt (by omega)] at hb
        omega

/-- ASCII characters are found in the bytes exactly where they are in the text. -/
theorem ascii_infix_iff {e cs : List Char} (he : ∀ c ∈ e, c.toNat < 128) :
    utf8 (String.ofList e) <:+: utf8 (String.ofList cs) ↔ e <:+: cs := by
  constructor
  · intro h
    cases e with
    | nil => exact List.nil_infix
    | cons x e =>
    have hx := he x List.mem_cons_self
    have hhead : utf8 (String.ofList (x :: e)) =
        UInt8.ofNat x.toNat :: utf8 (String.ofList e) := by
      rw [utf8_ofList, List.flatMap_cons, utf8EncodeChar_of_lt hx, utf8_ofList]
      rfl
    induction cs with
    | nil =>
      rw [hhead, utf8_ofList [], List.flatMap_nil] at h
      exact absurd (List.eq_nil_of_infix_nil h) (List.cons_ne_nil _ _)
    | cons c cs ih =>
      by_cases hpre : utf8 (String.ofList (x :: e)) <+: utf8 (String.ofList (c :: cs))
      · exact (ascii_isPrefix he hpre).isInfix
      · apply (ih ?_).trans (List.suffix_cons c cs).isInfix
        by_cases hc : c.toNat < 128
        · have hcons : utf8 (String.ofList (c :: cs)) =
              UInt8.ofNat c.toNat :: utf8 (String.ofList cs) := by
            rw [utf8_ofList, List.flatMap_cons, utf8EncodeChar_of_lt hc, utf8_ofList]
            rfl
          rw [hcons] at h hpre
          exact (List.infix_cons_iff.mp h).resolve_left hpre
        · have hcons : utf8 (String.ofList (c :: cs)) =
              String.utf8EncodeChar c ++ utf8 (String.ofList cs) := by
            rw [utf8_ofList, List.flatMap_cons, utf8_ofList]
          rw [hcons] at h
          have hhigh : UInt8.ofNat x.toNat ∉ String.utf8EncodeChar c := by
            intro hmem
            have hb := le_of_mem_utf8EncodeChar (Nat.le_of_not_lt hc) hmem
            rw [UInt8.toNat_ofNat', Nat.mod_eq_of_lt (by omega)] at hb
            omega
          rw [hhead] at h ⊢
          generalize String.utf8EncodeChar c = enc at h hhigh
          induction enc with
          | nil => exact h
          | cons b enc ihenc =>
            obtain ⟨hb, hrest⟩ := not_or.mp (mt List.mem_cons.mpr hhigh)
            rw [List.cons_append, List.infix_cons_iff, List.cons_prefix_cons] at h
            rcases h with ⟨heq, -⟩ | h
            · exact absurd heq hb
            · exact ihenc h hrest
  · rintro ⟨pre, post, rfl⟩
    exact ⟨utf8 (String.ofList pre), utf8 (String.ofList post),
      by simp only [utf8_ofList, List.flatMap_append]⟩

/-- `bs.get(start..stop)`: the slice, when it lies within the bounds. -/
def getSlice (bs : List UInt8) (start stop : ℕ) : Option (List UInt8) :=
  if start ≤ stop ∧ stop ≤ bs.length then some ((bs.take stop).drop start) else none

theorem getSlice_of_eq_append (pre mid post : List UInt8) {bs : List UInt8} {start stop : ℕ}
    (hbs : bs = pre ++ mid ++ post) (hstart : pre.length = start)
    (hstop : start + mid.length = stop) : getSlice bs start stop = some mid := by
  subst hbs hstart hstop
  rw [getSlice, if_pos (by simp), List.take_left' (by simp), List.drop_left]

theorem take_of_getSlice {bs slice : List UInt8} {start stop : ℕ}
    (h : getSlice bs start stop = some slice) : bs.take stop = bs.take start ++ slice := by
  rw [getSlice] at h
  split at h
  · rename_i hbounds
    obtain rfl := Option.some.inj h
    have hpre : bs.take start = (bs.take stop).take start := by
      rw [List.take_take, Nat.min_eq_left hbounds.1]
    rw [hpre, List.take_append_drop]
  · contradiction

theorem length_of_getSlice {bs slice : List UInt8} {start stop : ℕ}
    (h : getSlice bs start stop = some slice) :
    start + slice.length = stop ∧ stop ≤ bs.length := by
  rw [getSlice] at h
  split at h
  · obtain rfl := Option.some.inj h
    simp only [List.length_drop, List.length_take]
    omega
  · contradiction

end ArtifactKeeper.Bytes
