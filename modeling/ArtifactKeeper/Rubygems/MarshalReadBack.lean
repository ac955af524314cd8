import ArtifactKeeper.Rubygems.MarshalWriter
import Mathlib.Data.List.Perm.Subperm

/-! The documents of the writer are read back as the values they were written for, up to the size
at which a length no longer fits into the format. -/

namespace ArtifactKeeper.Rubygems

open Bytes Marshal

section Numbers

variable {t : List (List UInt8)}

theorem shiftRight_eight (x : ℤ) : x >>> (8 : ℕ) = x / 256 := by
  rw [Int.shiftRight_eq_div_pow]
  norm_num

theorem toNat_lowByte (x : ℤ) : ((lowByte x).toNat : ℤ) = x % 256 := by
  have hlow : 0 ≤ x % 256 ∧ x % 256 < 256 := by omega
  rw [lowByte, UInt8.toNat_ofNat', Nat.mod_eq_of_lt (by omega), Int.toNat_of_nonneg hlow.1]

theorem signed_lowByte {m : ℤ} (hlow : -128 ≤ m) (hhigh : m < 128) : signed (lowByte m) = m := by
  have hm := toNat_lowByte m
  rw [signed]
  split_ifs <;> omega

/-- The bytes of the loop are the number, from which a negative one takes what they overshoot. -/
theorem longLoop_value {left : ℕ} {x : ℤ} {negative : Bool} {bytes : List UInt8}
    (h : longLoop left x = (negative, bytes)) (hlow : -256 ^ (left + 1) ≤ x)
    (hhigh : x < 256 ^ (left + 1)) :
    (ofLeBytes bytes : ℤ) - (if negative then 256 ^ bytes.length else 0) = x := by
  have hlast : ∀ y : ℤ, (ofLeBytes [lowByte y] : ℤ) = y % 256 := by
    intro y
    rw [ofLeBytes, ofLeBytes, Nat.mul_zero, Nat.add_zero, toNat_lowByte]
  induction left generalizing x negative bytes with
  | zero =>
    rw [zero_add, pow_one] at hlow hhigh
    rw [longLoop, shiftRight_eight] at h
    obtain ⟨rfl, rfl⟩ := Prod.mk.inj h
    rw [hlast, List.length_singleton, pow_one]
    simp only [beq_iff_eq]
    split_ifs <;> omega
  | succ left ih =>
    rw [longLoop, shiftRight_eight] at h
    split_ifs at h with hzero hneg
    · obtain ⟨rfl, rfl⟩ := Prod.mk.inj h
      rw [hlast, if_neg Bool.false_ne_true]
      omega
    · obtain ⟨rfl, rfl⟩ := Prod.mk.inj h
      rw [hlast, if_pos rfl, List.length_singleton, pow_one]
      omega
    · rw [pow_succ] at hlow hhigh
      rcases hrest : longLoop left (x / 256) with ⟨negative', bytes'⟩
      rw [hrest] at h
      obtain ⟨rfl, rfl⟩ := Prod.mk.inj h
      have hvalue := ih hrest (by omega) (by omega)
      have hbyte := toNat_lowByte x
      rw [ofLeBytes, List.length_cons, pow_succ]
      push_cast
      split_ifs at hvalue ⊢ <;> omega

theorem longLoop_length_pos (left : ℕ) (x : ℤ) : 0 < (longLoop left x).2.length := by
  cases left with
  | zero => simp [longLoop]
  | succ left =>
    rw [longLoop]
    split_ifs <;> simp

theorem longLoop_length_le (left k : ℕ) {x : ℤ} (hlow : -256 ^ (k + 1) ≤ x)
    (hhigh : x < 256 ^ (k + 1)) : (longLoop left x).2.length ≤ k + 1 := by
  induction left generalizing x k with
  | zero => simp [longLoop]
  | succ left ih =>
    rw [longLoop, shiftRight_eight]
    split_ifs with hzero hneg
    · simp
    · simp
    · cases k with
      | zero =>
        rw [zero_add, pow_one] at hlow hhigh
        omega
      | succ k =>
        rw [pow_succ] at hlow hhigh
        have hrest := ih k (x := x / 256) (by omega) (by omega)
        simp only [List.length_cons]
        omega

theorem longLoop_length_le_left (left : ℕ) (x : ℤ) :
    (longLoop left x).2.length ≤ left + 1 := by
  induction left generalizing x with
  | zero => simp [longLoop]
  | succ left ih =>
    rw [longLoop]
    split_ifs
    · simp
    · simp
    · simpa using ih (x >>> (8 : ℕ))

/-- The reader takes back every number that fits into four bytes and a sign. -/
theorem reads_longBytes {n : ℤ} (hlow : -2 ^ 32 ≤ n) (hhigh : n < 2 ^ 32) :
    Reads t readLong (longBytes n) t n := by
  rw [longBytes]
  split_ifs with hzero hsmall hneg
  · exact Reads.long_small (.inl ⟨rfl, hzero⟩)
  · have hb : signed (lowByte (n + 5)) = n + 5 := signed_lowByte (by omega) (by omega)
    exact Reads.long_small (.inr (.inl ⟨by omega, by omega⟩))
  · have hb : signed (lowByte (n - 5)) = n - 5 := signed_lowByte (by omega) (by omega)
    exact Reads.long_small (.inr (.inr ⟨by omega, by omega⟩))
  · have hpos := longLoop_length_pos 7 n
    have hle := longLoop_length_le 7 3 (x := n) (by norm_num; omega) (by norm_num; omega)
    rcases hloop : longLoop 7 n with ⟨negative, bytes⟩
    have hvalue := longLoop_value hloop (by norm_num; omega) (by norm_num; omega)
    rw [hloop] at hpos hle
    dsimp only at hpos hle
    cases negative with
    | false =>
      rw [if_neg Bool.false_ne_true, sub_zero] at hvalue
      rw [← hvalue]
      exact Reads.long_positive (signed_lowByte (by omega) (by omega)) hpos hle
    | true =>
      rw [if_pos rfl] at hvalue
      rw [← hvalue]
      exact Reads.long_negative (signed_lowByte (by omega) (by omega)) hpos hle

theorem longLoop_nonneg (left : ℕ) {x : ℤ} (h : 0 ≤ x) : (longLoop left x).1 = false := by
  induction left generalizing x with
  | zero =>
    rw [longLoop, shiftRight_eight, beq_eq_false_iff_ne]
    omega
  | succ left ih =>
    rw [longLoop, shiftRight_eight]
    split_ifs with hzero hneg
    · rfl
    · omega
    · exact ih (by omega)

theorem lt_longLoop_length (left k : ℕ) {x : ℤ} (hk : k ≤ left) (h : 256 ^ k ≤ x) :
    k < (longLoop left x).2.length := by
  induction left generalizing x k with
  | zero =>
    rw [Nat.le_zero.mp hk]
    exact longLoop_length_pos 0 x
  | succ left ih =>
    cases k with
    | zero => exact longLoop_length_pos (left + 1) x
    | succ k =>
      have hpos : (0 : ℤ) < 256 ^ k := by positivity
      rw [pow_succ] at h
      have hrest := ih k (x := x / 256) (by omega) (by omega)
      rw [longLoop, shiftRight_eight, if_neg (by omega), if_neg (by omega), List.length_cons]
      omega

/-- A number that does not fit is written with a count that reads as a number by itself. -/
theorem reads_longBytes_big {n : ℤ} (h : 2 ^ 32 ≤ n) :
    ∃ b bs, longBytes n = b :: bs ∧ ∃ k : ℕ, k < 4 ∧ Reads t readLong [b] t k := by
  have hgt := lt_longLoop_length 7 4 (x := n) (by norm_num) (by norm_num; omega)
  have hle := longLoop_length_le_left 7 n
  have hsign : (longLoop 7 n).1 = false := longLoop_nonneg 7 (by omega)
  rw [longBytes, if_neg (by omega), if_neg (by omega), if_neg (by omega)]
  dsimp only
  rw [hsign, if_neg Bool.false_ne_true]
  refine ⟨_, _, rfl, (longLoop 7 n).2.length - 5, by omega, Reads.long_small (.inr (.inl ?_))⟩
  rw [signed_lowByte (by omega) (by omega)]
  omega

end Numbers

section Emission

variable {α β : Type} {w w₁ w₂ : MarshalWriter}

/-- The symbols that the writer is used with. -/
def symbolNames : List String :=
  ["E", "Gem::Version", "Gem::Requirement", "Gem::Dependency", "Gem::Specification", "@name",
    "@requirement", "@type", "@prerelease", "@version_requirements", "development", "runtime"]

def MarshalWriter.Known (w : MarshalWriter) : Prop := w.symbols ⊆ symbolNames

/-- The table that a reader has where the writer stands. -/
def MarshalWriter.table (w : MarshalWriter) : List (List UInt8) := w.symbols.map utf8

theorem MarshalWriter.Known.length_le (h : w.Known) : w.symbols.length ≤ 12 :=
  (List.subperm_of_subset w.nodup h).length_le

/-- Between two states the writer adds bytes that `read` takes back as `a`. -/
def Emits (w : MarshalWriter) (read : Reader α) (a : α) (w' : MarshalWriter) : Prop :=
  w.Known → w'.Known ∧ ∃ bs, w'.out = w.out ++ bs ∧ Reads w.table read bs w'.table a

theorem Emits.pure (a : α) : Emits w (pure a) a w := fun hw =>
  ⟨hw, [], (List.append_nil _).symm, Reads.pure a⟩

theorem Emits.bind {read : Reader α} {next : α → Reader β} {a : α} {b : β}
    (h : Emits w read a w₁) (h' : Emits w₁ (next a) b w₂) : Emits w (read >>= next) b w₂ := by
  intro hw
  obtain ⟨hw₁, bs, hout, hreads⟩ := h hw
  obtain ⟨hw₂, bs', hout', hreads'⟩ := h' hw₁
  exact ⟨hw₂, bs ++ bs', by rw [hout', hout, List.append_assoc], hreads.bind hreads'⟩

theorem Emits.map {read : Reader α} {a : α} (f : α → β) (h : Emits w read a w₁) :
    Emits w (f <$> read) (f a) w₁ := by
  intro hw
  obtain ⟨hw₁, bs, hout, hreads⟩ := h hw
  exact ⟨hw₁, bs, hout, hreads.map f⟩

theorem Emits.nil {read : Reader α} : Emits w (readMany read 0) [] w := Emits.pure []

theorem Emits.cons {read : Reader α} {n : ℕ} {x : α} {xs : List α} (h : Emits w read x w₁)
    (h' : Emits w₁ (readMany read n) xs w₂) : Emits w (readMany read (n + 1)) (x :: xs) w₂ :=
  h.bind (h'.map _)

/-- A loop of the writer over a list is read back by a loop of as many rounds. -/
theorem Emits.foldl {γ : Type} {read : Reader α} {value : γ → α}
    {write : MarshalWriter → γ → MarshalWriter} {xs : List γ}
    (h : ∀ x ∈ xs, ∀ w, Emits w read (value x) (write w x)) (w : MarshalWriter) :
    Emits w (readMany read xs.length) (xs.map value) (xs.foldl write w) := by
  induction xs generalizing w with
  | nil => exact Emits.nil
  | cons x xs ih =>
    obtain ⟨hx, hxs⟩ := List.forall_mem_cons.mp h
    exact (hx w).cons (ih hxs (write w x))

theorem emits_extend {read : Reader α} {bs : List UInt8} {a : α}
    (h : ∀ t, Reads t read bs t a) (w : MarshalWriter) : Emits w read a (w.extend bs) := fun hw =>
  ⟨hw, bs, rfl, h w.table⟩

theorem emits_tag (b : UInt8) (tag : Tag) (h : Tag.ofByte b = some tag) (w : MarshalWriter) :
    Emits w readTag tag (w.push b) :=
  emits_extend (fun _ => Reads.tag h) w

theorem emits_count {n : ℕ} (h : n < 2 ^ 32) (w : MarshalWriter) :
    Emits w readCount n (w.writeLong n) :=
  emits_extend (fun _ => (reads_longBytes (by omega) (by exact_mod_cast h)).count) w

theorem emits_blob {bs : List UInt8} (h : bs.length < 2 ^ 32) (w : MarshalWriter) :
    Emits w readBlob bs ((w.writeLong bs.length).extend bs) :=
  (emits_count h w).bind (emits_extend (fun _ => Reads.bytes bs) _)

theorem emits_symlink {sym : String} (h : sym ∈ w.symbols) :
    Emits w readSymlink (utf8 sym) (w.writeLong (w.symbols.idxOf sym)) := by
  intro hw
  have hidx : w.symbols.idxOf sym < w.symbols.length := List.idxOf_lt_length_of_mem h
  have hlength := hw.length_le
  obtain ⟨-, bs, hout, hreads⟩ := emits_count (n := w.symbols.idxOf sym) (by omega) w hw
  refine ⟨hw, bs, hout, hreads.symlink ?_⟩
  rw [MarshalWriter.table, List.getElem?_map, List.getElem?_idxOf h]
  rfl

theorem length_utf8_symbolNames {sym : String} (h : sym ∈ symbolNames) :
    (utf8 sym).length < 123 := by
  have hall : symbolNames.all fun sym => (utf8 sym).length < 123 := by decide
  exact of_decide_eq_true (List.all_eq_true.mp hall sym h)

/-- A symbol is read back as itself, and the two tables grow alike. -/
theorem emits_symbol {sym : String} (hsym : sym ∈ symbolNames) (w : MarshalWriter) :
    Emits (w.push 0x3a) readSymbolName (utf8 sym) (w.writeSymbol sym) ∨
      Emits (w.push 0x3b) readSymlink (utf8 sym) (w.writeSymbol sym) := by
  rw [MarshalWriter.writeSymbol]
  split_ifs with h
  · exact .inr (emits_symlink h)
  · left
    intro hw
    have hlength := length_utf8_symbolNames hsym
    obtain ⟨-, bs, hout, hreads⟩ := emits_count (n := (utf8 sym).length) (by omega)
      (w.push 0x3a) hw
    refine ⟨?_, bs ++ utf8 sym, ?_, ?_⟩
    · exact List.append_subset.mpr ⟨hw, List.cons_subset.mpr ⟨hsym, List.nil_subset _⟩⟩
    · show ((w.push 0x3a).writeLong (utf8 sym).length).out ++ utf8 sym = _
      rw [hout, List.append_assoc]
    · have htable : (w.symbols ++ [sym]).map utf8 = (w.push 0x3a).table ++ [utf8 sym] := by
        rw [List.map_append]
        rfl
      show Reads (w.push 0x3a).table readSymbolName (bs ++ utf8 sym)
        ((w.symbols ++ [sym]).map utf8) (utf8 sym)
      rw [htable]
      exact hreads.symbolName

theorem emits_writeSymbol (sym : String) (hsym : sym ∈ symbolNames) (w : MarshalWriter) :
    Emits w readSymbol (utf8 sym) (w.writeSymbol sym) := by
  cases emits_symbol hsym w with
  | inl hname => exact (emits_tag 0x3a .symbol rfl w).bind hname
  | inr hlink => exact (emits_tag 0x3b .symlink rfl w).bind hlink

theorem emits_object (b : UInt8) (tag : Tag) (htag : Tag.ofByte b = some tag) {depth : ℕ}
    {v : Value} (h : Emits (w.push b) (readTagged (readObject depth) tag) v w₁) :
    Emits w (readObject (depth + 1)) v w₁ :=
  (emits_tag b tag htag w).bind h

theorem emits_symbolValue (sym : String) (hsym : sym ∈ symbolNames) (depth : ℕ)
    (w : MarshalWriter) :
    Emits w (readObject (depth + 1)) (.symbol (utf8 sym)) (w.writeSymbol sym) := by
  cases emits_symbol hsym w with
  | inl hname => exact emits_object 0x3a .symbol rfl (hname.map _)
  | inr hlink => exact emits_object 0x3b .symlink rfl (hlink.map _)

theorem emits_writeNil (depth : ℕ) (w : MarshalWriter) :
    Emits w (readObject (depth + 1)) .nil w.writeNil :=
  emits_object 0x30 .nil rfl (Emits.pure _)

theorem emits_writeBool (b : Bool) (depth : ℕ) (w : MarshalWriter) :
    Emits w (readObject (depth + 1)) (.bool b) (w.writeBool b) := by
  cases b with
  | false => exact emits_object 0x46 .false rfl (Emits.pure _)
  | true => exact emits_object 0x54 .true rfl (Emits.pure _)

theorem emits_writeFixnum {n : ℤ} (hlow : -2 ^ 32 ≤ n) (hhigh : n < 2 ^ 32) (depth : ℕ)
    (w : MarshalWriter) : Emits w (readObject (depth + 1)) (.fixnum n) (w.writeFixnum n) :=
  emits_object 0x69 .fixnum rfl ((emits_extend (fun _ => reads_longBytes hlow hhigh) _).map _)

theorem emits_writeEmptyHash (depth : ℕ) (w : MarshalWriter) :
    Emits w (readObject (depth + 1)) (.hash []) w.writeEmptyHash :=
  emits_object 0x7b .hash rfl
    ((emits_count (n := 0) (by norm_num) (w.push 0x7b)).bind (Emits.nil.map _))

theorem emits_array {depth : ℕ} {n : ℕ} {vs : List Value} (hn : n < 2 ^ 32)
    (h : Emits (w.writeArrayHeader n) (readMany (readObject depth) n) vs w₁) :
    Emits w (readObject (depth + 1)) (.array vs) w₁ :=
  emits_object 0x5b .array rfl ((emits_count hn (w.push 0x5b)).bind (h.map _))

/-- An array whose items a loop of the writer adds behind its header. -/
theorem emits_list {α : Type} {depth : ℕ} {value : α → Value}
    {write : MarshalWriter → α → MarshalWriter} {xs : List α} (hlength : xs.length < 2 ^ 32)
    (h : ∀ x ∈ xs, ∀ w, Emits w (readObject depth) (value x) (write w x)) (w : MarshalWriter) :
    Emits w (readObject (depth + 1)) (.array (xs.map value))
      (xs.foldl write (w.writeArrayHeader xs.length)) :=
  emits_array hlength (Emits.foldl h _)

theorem emits_ivar (sym : String) {depth : ℕ} {v : Value} (hsym : sym ∈ symbolNames)
    (h : Emits (w.writeSymbol sym) (readObject depth) v w₁) :
    Emits w (readIvar (readObject depth)) (utf8 sym, v) w₁ :=
  (emits_writeSymbol sym hsym w).bind (h.bind (Emits.pure _))

end Emission

end ArtifactKeeper.Rubygems
