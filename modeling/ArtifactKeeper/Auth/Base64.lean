import ArtifactKeeper.BitGroups
import ArtifactKeeper.Result

/-! The base64 texts of SAML messages and of the segments of a JWT, as bytes. -/

namespace ArtifactKeeper.Auth
open BitGroups

def alphabet : List UInt8 :=
  "ABCDEFGHIJKLMNOPQRSTUVWXYZabcdefghijklmnopqrstuvwxyz0123456789+/".toList.map
    fun c => UInt8.ofNat c.toNat

/-- `=` -/
def padding : UInt8 := 61

/-- The inner loop of `base64_encode`: the sextets in front, and how many bits are left. -/
def emitSextets (buffer : ℕ) : ℕ → List ℕ × ℕ
  | collected + 6 =>
    let r := emitSextets buffer collected
    (((buffer >>> collected) &&& 0x3F) :: r.1, r.2)
  | collected => ([], collected)

def encodeBytes : List UInt8 → ℕ → ℕ → List ℕ × ℕ × ℕ
  | [], buffer, collected => ([], buffer, collected)
  | byte :: rest, buffer, collected =>
    let buffer := push 8 buffer byte.toNat
    let emitted := emitSextets buffer (collected + 8)
    let r := encodeBytes rest buffer emitted.2
    (emitted.1 ++ r.1, r.2)

def base64Sextets (input : List UInt8) : List ℕ :=
  let (sextets, buffer, collected) := encodeBytes input 0 0
  if 0 < collected then sextets ++ [((buffer <<< (6 - collected)) % 2 ^ 32) &&& 0x3F] else sextets

/-- `base64_encode` without the padding. -/
def base64Unpadded (input : List UInt8) : List UInt8 :=
  (base64Sextets input).map fun index => alphabet.getD index 0

def base64Encode (input : List UInt8) : List UInt8 :=
  let output := base64Unpadded input
  output ++ List.replicate ((4 - output.length % 4) % 4) padding

def invalidCharacter (byte : UInt8) : String :=
  "Invalid base64 character: " ++ String.singleton (Char.ofNat byte.toNat)

/-- The loop of both decoders, which differ in the bytes they skip. -/
def decodeBytes (skip : UInt8 → Bool) : List UInt8 → ℕ → ℕ → Except String (List UInt8)
  | [], _, _ => .ok []
  | byte :: rest, buffer, collected =>
    if byte = padding then .ok []
    else if skip byte then decodeBytes skip rest buffer collected
    else
      match alphabet.idxOf? byte with
      | none => .error (invalidCharacter byte)
      | some value =>
        let buffer := push 6 buffer value
        let collected := collected + 6
        if 8 ≤ collected then
          let octet := UInt8.ofNat ((buffer >>> (collected - 8)) &&& 0xFF)
          (octet :: ·) <$> decodeBytes skip rest buffer (collected - 8)
        else decodeBytes skip rest buffer collected

/-- `is_ascii_whitespace`. -/
def isAsciiWhitespace (b : UInt8) : Bool := b = 9 || b = 10 || b = 12 || b = 13 || b = 32

def base64Decode (input : List UInt8) : Except String (List UInt8) :=
  decodeBytes isAsciiWhitespace input 0 0

/-- `-` and `_` are read as `+` and `/`. -/
def toStandard (b : UInt8) : UInt8 := if b = 45 then 43 else if b = 95 then 47 else b

def base64DecodeUrlSafe (input : List UInt8) : Except String (List UInt8) :=
  decodeBytes (fun _ => false) (input.map toStandard) 0 0

/-- The bytes of a text that are decoded: those before the padding that are not skipped. -/
def significant (skip : UInt8 → Bool) (text : List UInt8) : List UInt8 :=
  (text.takeWhile (· ≠ padding)).filter fun b => !skip b

variable {skip : UInt8 → Bool} {bytes text : List UInt8} {buffer collected : ℕ}

/-- The bits of bytes. -/
def octets (bytes : List UInt8) : List Bool := bitStream 8 (bytes.map (·.toNat))

@[simp] theorem octets_cons (b : UInt8) (bytes : List UInt8) :
    octets (b :: bytes) = bitsOf 8 b.toNat ++ octets bytes := rfl

theorem emitSextets_spec (buffer collected : ℕ) :
    (emitSextets buffer collected).2 < 6 ∧ (∀ n ∈ (emitSextets buffer collected).1, n < 2 ^ 6) ∧
      bitsOf collected buffer = bitStream 6 (emitSextets buffer collected).1 ++
        bitsOf (emitSextets buffer collected).2 buffer := by
  fun_induction emitSextets buffer collected with
  | case1 collected r ih =>
    obtain ⟨hlt, hsmall, hbits⟩ := ih
    refine ⟨hlt, fun n hn => ?_, ?_⟩
    · rcases List.mem_cons.mp hn with rfl | hn
      · exact front_lt 6 buffer collected
      · exact hsmall n hn
    · have hfront : bitsOf (collected + 6) buffer =
          bitsOf 6 (front 6 buffer collected) ++ bitsOf collected buffer := by
        rw [Nat.add_comm, bitsOf_front]
      rw [hbits, ← List.append_assoc] at hfront
      exact hfront
  | case2 collected hsmall =>
    refine ⟨?_, by simp, rfl⟩
    by_contra hge
    exact hsmall (collected - 6) (by omega)

/-- What the loop of `base64_encode` keeps: the sextets and the bits that are left are the bits
read. -/
theorem encodeBytes_spec (hcollected : collected < 6) :
    (encodeBytes bytes buffer collected).2.2 < 6 ∧
      (∀ n ∈ (encodeBytes bytes buffer collected).1, n < 2 ^ 6) ∧
      bitsOf collected buffer ++ octets bytes =
        bitStream 6 (encodeBytes bytes buffer collected).1 ++
          bitsOf (encodeBytes bytes buffer collected).2.2
            (encodeBytes bytes buffer collected).2.1 := by
  induction bytes generalizing buffer collected with
  | nil => exact ⟨hcollected, by simp [encodeBytes], by simp [encodeBytes, octets]⟩
  | cons byte rest ih =>
    obtain ⟨hlt, hsmall, hbits⟩ := emitSextets_spec (push 8 buffer byte.toNat) (collected + 8)
    obtain ⟨hlt', hsmall', hbits'⟩ := @ih (push 8 buffer byte.toNat) _ hlt
    refine ⟨hlt', fun n hn => (List.mem_append.mp hn).elim (hsmall n) (hsmall' n), ?_⟩
    have hpush : bitsOf (collected + 8) (push 8 buffer byte.toNat) =
        bitsOf collected buffer ++ bitsOf 8 byte.toNat := bitsOf_push (by omega) byte.toNat_lt
    rw [octets_cons, ← List.append_assoc, ← hpush, hbits, List.append_assoc, hbits',
      ← List.append_assoc, ← bitStream_append]
    rfl

/-- The sextets of a text are its bits with less than six zeros. -/
theorem base64Sextets_spec (bytes : List UInt8) :
    (∀ n ∈ base64Sextets bytes, n < 2 ^ 6) ∧
      ∃ zeros, zeros.length < 6 ∧ bitStream 6 (base64Sextets bytes) = octets bytes ++ zeros := by
  obtain ⟨hlt, hsmall, hbits⟩ := @encodeBytes_spec bytes 0 0 (by decide)
  unfold base64Sextets
  generalize encodeBytes bytes 0 0 = r at hlt hsmall hbits ⊢
  obtain ⟨sextets, buffer, collected⟩ := r
  dsimp only at hlt hsmall hbits ⊢
  have hzero : bitsOf 0 0 ++ octets bytes = octets bytes := rfl
  rw [hzero] at hbits
  split
  · next hpos =>
    have hpush : push (6 - collected) buffer 0 = (buffer <<< (6 - collected)) % 2 ^ 32 :=
      Nat.or_zero _
    have hlast : bitsOf 6 (((buffer <<< (6 - collected)) % 2 ^ 32) &&& 0x3F) =
        bitsOf collected buffer ++ bitsOf (6 - collected) 0 := by
      rw [← @bitsOf_push (6 - collected) collected 0 buffer (by omega) (Nat.two_pow_pos _), hpush,
        Nat.add_sub_cancel' hlt.le]
      refine bitsOf_congr fun i hi => ?_
      rw [show (0x3F : ℕ) = 2 ^ 6 - 1 from rfl, Nat.and_two_pow_sub_one_eq_mod,
        Nat.testBit_mod_two_pow, decide_eq_true hi, Bool.true_and]
    refine ⟨fun n hn => ?_, bitsOf (6 - collected) 0, by rw [length_bitsOf]; omega, ?_⟩
    · rcases List.mem_append.mp hn with hn | hn
      · exact hsmall n hn
      · rw [List.mem_singleton.mp hn]
        exact front_lt 6 _ 0
    · rw [bitStream_append, bitStream_cons, bitStream_nil, List.append_nil, hlast, hbits,
        List.append_assoc]
  · next hpos =>
    obtain rfl : collected = 0 := by omega
    refine ⟨hsmall, [], by decide, ?_⟩
    rw [hbits, List.append_nil]
    exact (List.append_nil _).symm

theorem idxOf?_getD {n : ℕ} (h : n < 64) : alphabet.idxOf? (alphabet.getD n 0) = some n := by
  have hall : ∀ n < 64, alphabet.idxOf? (alphabet.getD n 0) = some n := by decide +kernel
  exact hall n h

theorem lt_of_idxOf? {b : UInt8} {n : ℕ} (h : alphabet.idxOf? b = some n) : n < 2 ^ 6 :=
  (List.idxOf?_eq_some_iff.mp h).1

theorem significant_padding (rest : List UInt8) : significant skip (padding :: rest) = [] := by
  simp [significant]

theorem significant_skip {b : UInt8} (hb : b ≠ padding) (hskip : skip b = true)
    (rest : List UInt8) : significant skip (b :: rest) = significant skip rest := by
  simp [significant, hb, hskip]

theorem significant_cons {b : UInt8} (hb : b ≠ padding) (hskip : ¬ skip b = true)
    (rest : List UInt8) : significant skip (b :: rest) = b :: significant skip rest := by
  simp [significant, hb, hskip]

/-- The bits behind the next sextet, with an octet in front if there are enough. -/
theorem bitsOf_push_octet {value : ℕ} (hcollected : collected < 8) (hvalue : value < 2 ^ 6)
    (henough : 8 ≤ collected + 6) :
    bitsOf collected buffer ++ bitsOf 6 value =
      bitsOf 8 (front 8 (push 6 buffer value) (collected + 6 - 8)) ++
        bitsOf (collected + 6 - 8) (push 6 buffer value) := by
  rw [← bitsOf_push (by omega) hvalue, ← bitsOf_front, Nat.add_sub_cancel' henough]

/-- What a decoded text gives: its octets are its bits, but for less than eight at the end. -/
theorem decodeBytes_spec {out : List UInt8} (hcollected : collected < 8)
    (h : decodeBytes skip text buffer collected = .ok out) :
    ∃ values rest, (significant skip text).map alphabet.idxOf? = values.map some ∧
      rest.length < 8 ∧ bitsOf collected buffer ++ bitStream 6 values = octets out ++ rest := by
  induction text generalizing buffer collected out with
  | nil =>
    cases h
    exact ⟨[], bitsOf collected buffer, rfl, by rwa [length_bitsOf], by simp [octets]⟩
  | cons byte text ih =>
    rw [decodeBytes] at h
    split at h
    · next hpad =>
      subst hpad
      cases h
      refine ⟨[], bitsOf collected buffer, ?_, by rwa [length_bitsOf], by simp [octets]⟩
      rw [significant_padding]
      rfl
    · next hpad =>
      split at h
      · next hskip =>
        rw [significant_skip hpad hskip]
        exact ih hcollected h
      · next hskip =>
        rw [significant_cons hpad hskip]
        split at h
        · cases h
        · next value hvalue =>
          dsimp only at h
          have hlt := lt_of_idxOf? hvalue
          split at h
          · next henough =>
            obtain ⟨out', hout', rfl⟩ := Except.map_eq_ok_iff.mp h
            obtain ⟨values, rest, hvalues, hrest, hbits⟩ := ih (by omega) hout'
            refine ⟨value :: values, rest, by rw [List.map_cons, hvalue, hvalues]; rfl, hrest, ?_⟩
            have hoctet : (UInt8.ofNat (front 8 (push 6 buffer value) (collected + 6 - 8))).toNat =
                front 8 (push 6 buffer value) (collected + 6 - 8) :=
              UInt8.toNat_ofNat_of_lt' (front_lt 8 _ _)
            rw [bitStream_cons, ← List.append_assoc, bitsOf_push_octet hcollected hlt henough,
              List.append_assoc, hbits, ← List.append_assoc, ← hoctet]
            rfl
          · next hfew =>
            obtain ⟨values, rest, hvalues, hrest, hbits⟩ := ih (by omega) h
            refine ⟨value :: values, rest, by rw [List.map_cons, hvalue, hvalues]; rfl, hrest, ?_⟩
            rw [bitStream_cons, ← List.append_assoc, ← bitsOf_push (by omega) hlt, hbits]

/-- The first byte that stands for nothing ends in its error. -/
theorem decodeBytes_error {e : String}
    (h : decodeBytes skip text buffer collected = .error e) :
    ∃ before byte after, significant skip text = before ++ byte :: after ∧
      before ⊆ alphabet ∧ byte ∉ alphabet ∧ e = invalidCharacter byte := by
  induction text generalizing buffer collected with
  | nil => cases h
  | cons byte text ih =>
    rw [decodeBytes] at h
    split at h
    · cases h
    · next hpad =>
      split at h
      · next hskip =>
        rw [significant_skip hpad hskip]
        exact ih h
      · next hskip =>
        rw [significant_cons hpad hskip]
        split at h
        · next hnone =>
          cases h
          exact ⟨[], byte, _, rfl, List.nil_subset _, List.idxOf?_eq_none_iff.mp hnone, rfl⟩
        · next value hvalue =>
          have hmem : byte ∈ alphabet := by
            by_contra hnot
            rw [List.idxOf?_eq_none_iff.mpr hnot] at hvalue
            cases hvalue
          have hrest : ∃ collected', decodeBytes skip text (push 6 buffer value) collected' =
              .error e := by
            dsimp only at h
            split at h
            · cases hd : decodeBytes skip text (push 6 buffer value) (collected + 6 - 8) with
              | ok out => rw [hd] at h; cases h
              | error e' => rw [hd] at h; cases h; exact ⟨_, hd⟩
            · exact ⟨_, h⟩
          obtain ⟨collected', hrest⟩ := hrest
          obtain ⟨before, bad, after, heq, hbefore, hbad⟩ := ih hrest
          exact ⟨byte :: before, bad, after, by rw [heq]; rfl,
            List.cons_subset.mpr ⟨hmem, hbefore⟩, hbad⟩

theorem octets_injective {xs ys : List UInt8} {rest rest' : List Bool} (hrest : rest.length < 8)
    (hrest' : rest'.length < 8) (h : octets xs ++ rest = octets ys ++ rest') : xs = ys := by
  have hsmall : ∀ (bs : List UInt8), ∀ n ∈ bs.map (·.toNat), n < 2 ^ 8 := by
    intro bs n hn
    obtain ⟨b, -, rfl⟩ := List.mem_map.mp hn
    exact b.toNat_lt
  have heq := (bitStream_unique (hsmall xs) (hsmall ys) hrest hrest' h).1
  exact List.map_injective_iff.mpr (fun a b hab => UInt8.toNat_inj.mp hab) heq

/-- Each character stands for a sextet, and their bits are those of the octets but for less than
eight at the end. -/
def Spells (characters octetsOut : List UInt8) : Prop :=
  ∃ values rest, characters.map alphabet.idxOf? = values.map some ∧
    rest.length < 8 ∧ bitStream 6 values = octets octetsOut ++ rest

theorem decodeBytes_ok_iff {out : List UInt8} :
    decodeBytes skip text 0 0 = .ok out ↔ Spells (significant skip text) out := by
  constructor
  · exact fun h => @decodeBytes_spec skip text 0 0 out (by decide) h
  · rintro ⟨values, rest, hvalues, hrest, hbits⟩
    cases hd : decodeBytes skip text 0 0 with
    | error e =>
      obtain ⟨before, byte, after, heq, -, hbad, -⟩ := decodeBytes_error hd
      have hmem : alphabet.idxOf? byte ∈ (significant skip text).map alphabet.idxOf? :=
        List.mem_map_of_mem (by rw [heq]; simp)
      rw [hvalues, List.idxOf?_eq_none_iff.mpr hbad] at hmem
      obtain ⟨value, -, hvalue⟩ := List.mem_map.mp hmem
      cases hvalue
    | ok out' =>
      obtain ⟨values', rest', hvalues', hrest', hbits'⟩ := decodeBytes_spec (by decide) hd
      have hsame : values' = values :=
        List.map_injective_iff.mpr (Option.some_injective ℕ) (hvalues'.symm.trans hvalues)
      have hbits'' : bitStream 6 values' = octets out' ++ rest' := hbits'
      rw [hsame, hbits] at hbits''
      rw [octets_injective hrest hrest' hbits'']

/-- Every text with the characters of an encoding is decoded to what was encoded. -/
theorem decodeBytes_unpadded (h : significant skip text = base64Unpadded bytes) :
    decodeBytes skip text 0 0 = .ok bytes := by
  obtain ⟨hsmall, zeros, hzeros, hbits⟩ := base64Sextets_spec bytes
  refine decodeBytes_ok_iff.mpr ⟨base64Sextets bytes, zeros, ?_, by omega, hbits⟩
  rw [h, base64Unpadded, List.map_map]
  exact List.map_congr_left fun n hn => idxOf?_getD (hsmall n hn)

theorem mem_base64Unpadded {b : UInt8} (h : b ∈ base64Unpadded bytes) : b ∈ alphabet := by
  obtain ⟨n, hn, rfl⟩ := List.mem_map.mp h
  have hlt : n < alphabet.length := (base64Sextets_spec bytes).1 n hn
  rw [List.getD_eq_getElem _ _ hlt]
  exact List.getElem_mem hlt

theorem plain_of_mem_alphabet {b : UInt8} (h : b ∈ alphabet) :
    b ≠ padding ∧ isAsciiWhitespace b = false := by
  have hall : ∀ b ∈ alphabet, b ≠ padding ∧ isAsciiWhitespace b = false := by decide +kernel
  exact hall b h

/-- Nothing of an encoding is skipped, and nothing that follows it is read. -/
theorem significant_encode (hskip : ∀ b ∈ alphabet, skip b = false) (bytes after : List UInt8)
    (hafter : after.head? = none ∨ after.head? = some padding) :
    significant skip (base64Unpadded bytes ++ after) = base64Unpadded bytes := by
  have hplain : ∀ b ∈ base64Unpadded bytes, (b ≠ padding : Bool) = true := fun b hb =>
    decide_eq_true (plain_of_mem_alphabet (mem_base64Unpadded hb)).1
  have hstop : after.takeWhile (· ≠ padding) = [] := by
    cases after with
    | nil => rfl
    | cons b rest =>
      have hb : b = padding := by simpa using hafter
      simp [hb]
  rw [significant, List.takeWhile_append_of_pos hplain, hstop, List.append_nil]
  exact List.filter_eq_self.mpr fun b hb => by rw [hskip b (mem_base64Unpadded hb)]; rfl

theorem significant_base64Encode (bytes : List UInt8) :
    significant isAsciiWhitespace (base64Encode bytes) = base64Unpadded bytes := by
  refine significant_encode (fun b hb => (plain_of_mem_alphabet hb).2) bytes _ ?_
  cases (4 - (base64Unpadded bytes).length % 4) % 4 with
  | zero => exact .inl rfl
  | succ n => exact .inr rfl

/-- A text that is an encoding but for white space and for what is behind the first padding is
decoded to what was encoded. -/
theorem base64Decode_of_significant_eq (h : significant isAsciiWhitespace text =
    significant isAsciiWhitespace (base64Encode bytes)) : base64Decode text = .ok bytes :=
  decodeBytes_unpadded (h.trans (significant_base64Encode bytes))

/-- `SGVsbG8=` in two lines. -/
theorem base64Decode_hello :
    base64Encode [72, 101, 108, 108, 111] = [83, 71, 86, 115, 98, 71, 56, 61] ∧
      base64Decode [83, 71, 86, 115, 10, 98, 71, 56, 61, 61] = .ok [72, 101, 108, 108, 111] :=
  ⟨by decide +kernel, base64Decode_of_significant_eq (by decide +kernel)⟩

/-- A text is decoded exactly if its characters spell the octets; a segment of a JWT has no white
space and two other characters. -/
theorem base64_ok_iff {out : List UInt8} :
    (base64Decode text = .ok out ↔ Spells (significant isAsciiWhitespace text) out) ∧
      (base64DecodeUrlSafe text = .ok out ↔
        Spells (significant (fun _ => false) (text.map toStandard)) out) :=
  ⟨decodeBytes_ok_iff, decodeBytes_ok_iff⟩

/-- A segment of a JWT is encoded without padding and with two other characters. -/
theorem base64DecodeUrlSafe_of_map_eq (h : text.map toStandard = base64Unpadded bytes) :
    base64DecodeUrlSafe text = .ok bytes := by
  refine decodeBytes_unpadded ?_
  rw [h, ← List.append_nil (base64Unpadded bytes)]
  exact (significant_encode (fun _ _ => rfl) bytes [] (.inl rfl)).trans (List.append_nil _).symm

end ArtifactKeeper.Auth
