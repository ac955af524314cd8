import Mathlib.Algebra.Group.Nat.Defs
import Mathlib.Data.List.Basic
import Mathlib.Data.Nat.Notation

/-! IP addresses: the two families, the classes of addresses, IPv4 inside IPv6, address prefixes and
the textual forms. -/

namespace ArtifactKeeper

structure Ipv4Addr where
  a : UInt8
  b : UInt8
  c : UInt8
  d : UInt8
  deriving DecidableEq, Repr

/-- An address by its eight segments. -/
structure Ipv6Addr where
  s0 : UInt16
  s1 : UInt16
  s2 : UInt16
  s3 : UInt16
  s4 : UInt16
  s5 : UInt16
  s6 : UInt16
  s7 : UInt16
  deriving DecidableEq, Repr

inductive IpAddr where
  | v4 (addr : Ipv4Addr)
  | v6 (addr : Ipv6Addr)
  deriving DecidableEq, Repr

namespace Ipv4Addr
variable (addr : Ipv4Addr)

def toBits : BitVec 32 :=
  BitVec.ofNat 32 (((addr.a.toNat * 256 + addr.b.toNat) * 256 + addr.c.toNat) * 256 + addr.d.toNat)

def isLoopback : Bool := addr.a == 127

def isLinkLocal : Bool := addr.a == 169 && addr.b == 254

def isUnspecified : Bool := addr == ⟨0, 0, 0, 0⟩

def isBroadcast : Bool := addr == ⟨255, 255, 255, 255⟩

def isPrivate : Bool :=
  addr.a == 10 || (addr.a == 172 && 16 ≤ addr.b && addr.b ≤ 31) || (addr.a == 192 && addr.b == 168)

/-- The segment of two octets. -/
def segment (hi lo : UInt8) : UInt16 := UInt16.ofNat (hi.toNat * 256 + lo.toNat)

/-- `::ffff:a.b.c.d`. -/
def toIpv6Mapped : Ipv6Addr :=
  ⟨0, 0, 0, 0, 0, 0xffff, segment addr.a addr.b, segment addr.c addr.d⟩

/-- `::a.b.c.d`. -/
def toIpv6Compatible : Ipv6Addr :=
  ⟨0, 0, 0, 0, 0, 0, segment addr.a addr.b, segment addr.c addr.d⟩

end Ipv4Addr

namespace Ipv6Addr
variable (addr : Ipv6Addr)

def toBits : BitVec 128 :=
  BitVec.ofNat 128 ([addr.s0, addr.s1, addr.s2, addr.s3, addr.s4, addr.s5, addr.s6, addr.s7].foldl
    (fun n s => n * 65536 + s.toNat) 0)

def isLoopback : Bool := addr == ⟨0, 0, 0, 0, 0, 0, 0, 1⟩

def isUnspecified : Bool := addr == ⟨0, 0, 0, 0, 0, 0, 0, 0⟩

/-- The IPv4 address of the last two segments. -/
def lowIpv4 : Ipv4Addr :=
  ⟨UInt8.ofNat (addr.s6.toNat / 256), UInt8.ofNat addr.s6.toNat,
    UInt8.ofNat (addr.s7.toNat / 256), UInt8.ofNat addr.s7.toNat⟩

/-- `to_ipv4_mapped`: of `::ffff:a.b.c.d`. -/
def toIpv4Mapped : Option Ipv4Addr :=
  if addr.s0 = 0 ∧ addr.s1 = 0 ∧ addr.s2 = 0 ∧ addr.s3 = 0 ∧ addr.s4 = 0 ∧ addr.s5 = 0xffff then
    some addr.lowIpv4
  else none

/-- `to_ipv4`: of `::ffff:a.b.c.d` and of `::a.b.c.d`. -/
def toIpv4 : Option Ipv4Addr :=
  if addr.s0 = 0 ∧ addr.s1 = 0 ∧ addr.s2 = 0 ∧ addr.s3 = 0 ∧ addr.s4 = 0 ∧
      (addr.s5 = 0 ∨ addr.s5 = 0xffff) then
    some addr.lowIpv4
  else none

end Ipv6Addr

section Embedding

theorem octets_segment (hi lo : UInt8) :
    UInt8.ofNat ((Ipv4Addr.segment hi lo).toNat / 256) = hi ∧
      UInt8.ofNat (Ipv4Addr.segment hi lo).toNat = lo := by
  have hhi : hi.toNat < 256 := hi.toNat_lt
  have hlo : lo.toNat < 256 := lo.toNat_lt
  have hsegment : (Ipv4Addr.segment hi lo).toNat = hi.toNat * 256 + lo.toNat := by
    rw [Ipv4Addr.segment, UInt16.toNat_ofNat']
    omega
  rw [hsegment]
  constructor
  · apply UInt8.toNat_inj.mp
    rw [UInt8.toNat_ofNat']
    omega
  · apply UInt8.toNat_inj.mp
    rw [UInt8.toNat_ofNat']
    omega

theorem lowIpv4_segments (addr : Ipv4Addr) (s0 s1 s2 s3 s4 s5 : UInt16) :
    (⟨s0, s1, s2, s3, s4, s5, Ipv4Addr.segment addr.a addr.b, Ipv4Addr.segment addr.c addr.d⟩ :
      Ipv6Addr).lowIpv4 = addr := by
  obtain ⟨ha, hb⟩ := octets_segment addr.a addr.b
  obtain ⟨hc, hd⟩ := octets_segment addr.c addr.d
  simp only [Ipv6Addr.lowIpv4, ha, hb, hc, hd]

theorem toIpv4_toIpv6Mapped (addr : Ipv4Addr) : addr.toIpv6Mapped.toIpv4 = some addr := by
  simp [Ipv6Addr.toIpv4, Ipv4Addr.toIpv6Mapped, lowIpv4_segments]

theorem toIpv4_toIpv6Compatible (addr : Ipv4Addr) :
    addr.toIpv6Compatible.toIpv4 = some addr := by
  simp [Ipv6Addr.toIpv4, Ipv4Addr.toIpv6Compatible, lowIpv4_segments]

theorem toIpv4_of_toIpv4Mapped {addr : Ipv6Addr} {v4 : Ipv4Addr}
    (h : addr.toIpv4Mapped = some v4) : addr.toIpv4 = some v4 := by
  rw [Ipv6Addr.toIpv4Mapped] at h
  split at h
  · rename_i hzero
    obtain ⟨h0, h1, h2, h3, h4, h5⟩ := hzero
    rw [Ipv6Addr.toIpv4, if_pos ⟨h0, h1, h2, h3, h4, .inr h5⟩]
    exact h
  · cases h

theorem segment_octets (s : UInt16) :
    Ipv4Addr.segment (UInt8.ofNat (s.toNat / 256)) (UInt8.ofNat s.toNat) = s := by
  have hs : s.toNat < 65536 := s.toNat_lt
  apply UInt16.toNat_inj.mp
  rw [Ipv4Addr.segment, UInt16.toNat_ofNat', UInt8.toNat_ofNat', UInt8.toNat_ofNat']
  omega

/-- The two forms are the only ones that `toIpv4` unwraps. -/
theorem embedded_of_toIpv4 {addr : Ipv6Addr} {v4 : Ipv4Addr} (h : addr.toIpv4 = some v4) :
    addr = v4.toIpv6Mapped ∨ addr = v4.toIpv6Compatible := by
  rw [Ipv6Addr.toIpv4] at h
  split at h
  · rename_i hzero
    obtain ⟨h0, h1, h2, h3, h4, h5⟩ := hzero
    cases h
    cases addr
    simp only [Ipv4Addr.toIpv6Mapped, Ipv4Addr.toIpv6Compatible, Ipv6Addr.lowIpv4, segment_octets,
      Ipv6Addr.mk.injEq, and_true]
    rcases h5 with h5 | h5
    · exact .inr ⟨h0, h1, h2, h3, h4, h5⟩
    · exact .inl ⟨h0, h1, h2, h3, h4, h5⟩
  · cases h

end Embedding

section Bits

/-- Digits to a base are read off a number from its end. -/
theorem mul_add_inj {n n' d d' base : ℕ} (hd : d < base) (hd' : d' < base)
    (h : n * base + d = n' * base + d') : n = n' ∧ d = d' := by
  have hpos : 0 < base := by omega
  have hdiv := congrArg (· / base) h
  have hmod := congrArg (· % base) h
  simp only [Nat.mul_add_div hpos, Nat.mul_comm _ base, Nat.div_eq_of_lt, hd, hd', Nat.add_zero,
    Nat.mul_add_mod, Nat.mod_eq_of_lt] at hdiv hmod
  exact ⟨hdiv, hmod⟩

theorem Ipv4Addr.toBits_inj {addr addr' : Ipv4Addr} (h : addr.toBits = addr'.toBits) :
    addr = addr' := by
  have hvalue : ∀ addr : Ipv4Addr, addr.toBits.toNat =
      ((addr.a.toNat * 256 + addr.b.toNat) * 256 + addr.c.toNat) * 256 + addr.d.toNat := by
    intro addr
    have ha := addr.a.toNat_lt
    have hb := addr.b.toNat_lt
    have hc := addr.c.toNat_lt
    have hd := addr.d.toNat_lt
    rw [Ipv4Addr.toBits, BitVec.toNat_ofNat]
    omega
  have hlt : ∀ x : UInt8, x.toNat < 256 := fun x => x.toNat_lt
  have hnat := congrArg BitVec.toNat h
  rw [hvalue, hvalue] at hnat
  obtain ⟨hnat, hd⟩ := mul_add_inj (hlt _) (hlt _) hnat
  obtain ⟨hnat, hc⟩ := mul_add_inj (hlt _) (hlt _) hnat
  obtain ⟨ha, hb⟩ := mul_add_inj (hlt _) (hlt _) hnat
  cases addr
  cases addr'
  simp only [Ipv4Addr.mk.injEq, ← UInt8.toNat_inj]
  exact ⟨ha, hb, hc, hd⟩

theorem foldl_segments_lt (segments : List UInt16) (n : ℕ) :
    segments.foldl (fun n s => n * 65536 + s.toNat) n < (n + 1) * 65536 ^ segments.length := by
  induction segments generalizing n with
  | nil => simp
  | cons s segments ih =>
    have hs : s.toNat < 65536 := s.toNat_lt
    apply Nat.lt_of_lt_of_le (ih _)
    rw [List.length_cons, Nat.pow_succ', ← Nat.mul_assoc]
    have hstep : n * 65536 + s.toNat + 1 ≤ (n + 1) * 65536 := by omega
    exact Nat.mul_le_mul_right _ hstep

theorem Ipv6Addr.toBits_inj {addr addr' : Ipv6Addr} (h : addr.toBits = addr'.toBits) :
    addr = addr' := by
  have hvalue : ∀ addr : Ipv6Addr, addr.toBits.toNat =
      [addr.s0, addr.s1, addr.s2, addr.s3, addr.s4, addr.s5, addr.s6, addr.s7].foldl
        (fun n s => n * 65536 + s.toNat) 0 := by
    intro addr
    rw [Ipv6Addr.toBits, BitVec.toNat_ofNat]
    have hbound := foldl_segments_lt
      [addr.s0, addr.s1, addr.s2, addr.s3, addr.s4, addr.s5, addr.s6, addr.s7] 0
    have hpow : (0 + 1) * 65536 ^ 8 = 2 ^ 128 := by decide
    rw [show ([addr.s0, addr.s1, addr.s2, addr.s3, addr.s4, addr.s5, addr.s6, addr.s7] :
      List UInt16).length = 8 from rfl, hpow] at hbound
    exact Nat.mod_eq_of_lt hbound
  have hlt : ∀ x : UInt16, x.toNat < 65536 := fun x => x.toNat_lt
  have hnat := congrArg BitVec.toNat h
  rw [hvalue, hvalue] at hnat
  simp only [List.foldl_cons, List.foldl_nil] at hnat
  obtain ⟨hnat, h7⟩ := mul_add_inj (hlt _) (hlt _) hnat
  obtain ⟨hnat, h6⟩ := mul_add_inj (hlt _) (hlt _) hnat
  obtain ⟨hnat, h5⟩ := mul_add_inj (hlt _) (hlt _) hnat
  obtain ⟨hnat, h4⟩ := mul_add_inj (hlt _) (hlt _) hnat
  obtain ⟨hnat, h3⟩ := mul_add_inj (hlt _) (hlt _) hnat
  obtain ⟨hnat, h2⟩ := mul_add_inj (hlt _) (hlt _) hnat
  obtain ⟨hnat, h1⟩ := mul_add_inj (hlt _) (hlt _) hnat
  obtain ⟨-, h0⟩ := mul_add_inj (hlt _) (hlt _) hnat
  cases addr
  cases addr'
  simp only [Ipv6Addr.mk.injEq, ← UInt16.toNat_inj]
  exact ⟨h0, h1, h2, h3, h4, h5, h6, h7⟩

end Bits

section Prefix

/-- The first `len` bits agree. -/
def SamePrefix {w : ℕ} (net ip : BitVec w) (len : ℕ) : Prop :=
  ∀ i < len, net.getMsbD i = ip.getMsbD i

/-- The comparison under a mask of `len` leading ones, for a shift within the width. -/
def maskedEq {w : ℕ} (net ip : BitVec w) (len : ℕ) : Bool :=
  let mask := if w - len < w then BitVec.allOnes w <<< (w - len) else 0
  (net &&& mask) == (ip &&& mask)

theorem maskedEq_iff {w : ℕ} {net ip : BitVec w} {len : ℕ} (hpos : 0 < len) (hle : len ≤ w) :
    maskedEq net ip len = true ↔ SamePrefix net ip len := by
  have hlt : w - len < w := by omega
  have hmask : ∀ i, (BitVec.allOnes w <<< (w - len)).getMsbD i = decide (i < len) := by
    intro i
    rw [BitVec.getMsbD_shiftLeft, BitVec.getMsbD_allOnes]
    exact decide_eq_decide.mpr (by omega)
  simp only [maskedEq, if_pos hlt, beq_iff_eq, SamePrefix]
  constructor
  · intro h i hi
    have hbit := congrArg (·.getMsbD i) h
    simpa [hmask, hi] using hbit
  · intro h
    apply BitVec.eq_of_getMsbD_eq
    intro i _
    rw [BitVec.getMsbD_and, BitVec.getMsbD_and, hmask]
    by_cases hi : i < len
    · rw [h i hi]
    · simp [hi]

theorem eq_of_samePrefix {w : ℕ} {net ip : BitVec w} : SamePrefix net ip w ↔ net = ip := by
  constructor
  · exact BitVec.eq_of_getMsbD_eq
  · rintro rfl i _
    rfl

end Prefix

namespace IpAddr

/-- `char::to_digit`. -/
def toDigit (radix : ℕ) (c : Char) : Option ℕ :=
  let value :=
    if c.isDigit then some (c.toNat - '0'.toNat)
    else if 'a' ≤ c ∧ c ≤ 'z' then some (c.toNat - 'a'.toNat + 10)
    else if 'A' ≤ c ∧ c ≤ 'Z' then some (c.toNat - 'A'.toNat + 10)
    else none
  value.filter (· < radix)

/-- `read_number`: at most `maxDigits` digits, all that there are, with a value below `bound`. -/
def readNumber (radix maxDigits bound : ℕ) (allowZeroPrefix : Bool) (cs : List Char) :
    Option (ℕ × List Char) :=
  let digits := cs.takeWhile fun c => (toDigit radix c).isSome
  let value := (digits.filterMap (toDigit radix)).foldl (fun n d => n * radix + d) 0
  if maxDigits < digits.length ∨ digits = [] then none
  else if allowZeroPrefix = false ∧ digits.head? = some '0' ∧ 1 < digits.length then none
  else if value < bound then some (value, cs.dropWhile fun c => (toDigit radix c).isSome)
  else none

/-- `read_given_char`. -/
def readGivenChar (c : Char) : List Char → Option (List Char)
  | [] => none
  | c' :: rest => if c' = c then some rest else none

/-- `read_separator`: nothing before the first part. -/
def readSeparator (sep : Char) (first : Bool) (cs : List Char) : Option (List Char) :=
  if first then some cs else readGivenChar sep cs

def readOctet (first : Bool) (cs : List Char) : Option (UInt8 × List Char) := do
  let rest ← readSeparator '.' first cs
  let (n, rest) ← readNumber 10 3 256 false rest
  return (UInt8.ofNat n, rest)

def readIpv4Addr (cs : List Char) : Option (Ipv4Addr × List Char) := do
  let (a, rest) ← readOctet true cs
  let (b, rest) ← readOctet false rest
  let (c, rest) ← readOctet false rest
  let (d, rest) ← readOctet false rest
  return (⟨a, b, c, d⟩, rest)

def readGroup (first : Bool) (cs : List Char) : Option (UInt16 × List Char) := do
  let rest ← readSeparator ':' first cs
  let (n, rest) ← readNumber 16 4 65536 true rest
  return (UInt16.ofNat n, rest)

/-- `read_groups` with room for `left` groups: the groups, whether an IPv4 address ends them, and
the rest of the text. -/
def readGroups : (left : ℕ) → (first : Bool) → List Char → List UInt16 × Bool × List Char
  | 0, _, cs => ([], false, cs)
  | left + 1, first, cs =>
    let ipv4 := if 1 ≤ left then (readSeparator ':' first cs).bind readIpv4Addr else none
    match ipv4 with
    | some (addr, rest) =>
      ([Ipv4Addr.segment addr.a addr.b, Ipv4Addr.segment addr.c addr.d], true, rest)
    | none =>
      match readGroup first cs with
      | none => ([], false, cs)
      | some (group, rest) =>
        let (groups, ipv4, rest) := readGroups left false rest
        (group :: groups, ipv4, rest)

def ofGroups (groups : List UInt16) : Ipv6Addr :=
  let g := fun i => groups.getD i 0
  ⟨g 0, g 1, g 2, g 3, g 4, g 5, g 6, g 7⟩

/-- `read_ipv6_addr`: eight groups, or a `::` that stands for the missing ones. -/
def readIpv6Addr (cs : List Char) : Option (Ipv6Addr × List Char) :=
  let (head, headIpv4, rest) := readGroups 8 true cs
  if head.length = 8 then some (ofGroups head, rest)
  else if headIpv4 then none
  else do
    let rest ← readGivenChar ':' rest
    let rest ← readGivenChar ':' rest
    let (tail, _, rest) := readGroups (8 - (head.length + 1)) true rest
    return (ofGroups (head ++ List.replicate (8 - head.length - tail.length) 0 ++ tail), rest)

def readIpAddr (cs : List Char) : Option (IpAddr × List Char) :=
  match readIpv4Addr cs with
  | some (addr, rest) => some (.v4 addr, rest)
  | none => (readIpv6Addr cs).map fun r => (.v6 r.1, r.2)

/-- `str::parse::<IpAddr>`: an address and nothing behind it. -/
def parse (cs : List Char) : Option IpAddr :=
  match readIpAddr cs with
  | some (addr, []) => some addr
  | _ => none

section Characters

/-- The characters of which addresses are written. -/
def isAddrChar (c : Char) : Bool := (toDigit 16 c).isSome || c == '.' || c == ':'

/-- `rest` is left of `cs` behind characters of addresses. -/
def Leaves (cs rest : List Char) : Prop := ∃ used, cs = used ++ rest ∧ ∀ c ∈ used, isAddrChar c

theorem Leaves.refl (cs : List Char) : Leaves cs cs := ⟨[], rfl, by simp⟩

theorem Leaves.trans {cs cs' cs'' : List Char} (h : Leaves cs cs') (h' : Leaves cs' cs'') :
    Leaves cs cs'' := by
  obtain ⟨used, rfl, hused⟩ := h
  obtain ⟨used', rfl, hused'⟩ := h'
  refine ⟨used ++ used', (List.append_assoc _ _ _).symm, fun c hc => ?_⟩
  rcases List.mem_append.mp hc with hc | hc
  · exact hused c hc
  · exact hused' c hc

theorem isAddrChar_of_toDigit {radix : ℕ} {c : Char} (hradix : radix ≤ 16)
    (h : (toDigit radix c).isSome) : isAddrChar c := by
  have hmono : (toDigit 16 c).isSome := by
    obtain ⟨d, hd⟩ := Option.isSome_iff_exists.mp h
    obtain ⟨hvalue, hlt⟩ := Option.filter_eq_some_iff.mp hd
    have hlt' : d < 16 := Nat.lt_of_lt_of_le (of_decide_eq_true hlt) hradix
    rw [Option.isSome_iff_exists]
    exact ⟨d, Option.filter_eq_some_iff.mpr ⟨hvalue, decide_eq_true hlt'⟩⟩
  rw [isAddrChar, hmono]
  rfl

theorem leaves_readNumber {radix maxDigits bound n : ℕ} {zero : Bool} {cs rest : List Char}
    (hradix : radix ≤ 16) (h : readNumber radix maxDigits bound zero cs = some (n, rest)) :
    Leaves cs rest := by
  unfold readNumber at h
  dsimp only at h
  split at h
  · cases h
  · split at h
    · cases h
    · split at h
      · cases h
        refine ⟨_, List.takeWhile_append_dropWhile.symm, fun c hc => ?_⟩
        exact isAddrChar_of_toDigit hradix (List.all_eq_true.mp (List.all_takeWhile) c hc)
      · cases h

theorem leaves_readGivenChar {c : Char} {cs rest : List Char} (hc : isAddrChar c)
    (h : readGivenChar c cs = some rest) : Leaves cs rest := by
  cases cs with
  | nil => cases h
  | cons c' cs =>
    rw [readGivenChar] at h
    split at h
    · rename_i hcc
      cases h
      exact ⟨[c'], rfl, by simpa [hcc] using hc⟩
    · cases h

theorem leaves_readSeparator {sep : Char} {first : Bool} {cs rest : List Char}
    (hsep : isAddrChar sep) (h : readSeparator sep first cs = some rest) : Leaves cs rest := by
  rw [readSeparator] at h
  split at h
  · cases h
    exact .refl cs
  · exact leaves_readGivenChar hsep h

theorem leaves_readOctet {first : Bool} {cs rest : List Char} {o : UInt8}
    (h : readOctet first cs = some (o, rest)) : Leaves cs rest := by
  simp only [readOctet, Option.bind_eq_bind, Option.bind_eq_some_iff] at h
  obtain ⟨rest', hsep, ⟨n, rest''⟩, hnumber, hret⟩ := h
  cases hret
  exact (leaves_readSeparator (by decide) hsep).trans (leaves_readNumber (by decide) hnumber)

theorem leaves_readIpv4Addr {cs rest : List Char} {addr : Ipv4Addr}
    (h : readIpv4Addr cs = some (addr, rest)) : Leaves cs rest := by
  simp only [readIpv4Addr, Option.bind_eq_bind, Option.bind_eq_some_iff] at h
  obtain ⟨⟨a, r1⟩, ha, ⟨b, r2⟩, hb, ⟨c, r3⟩, hc, ⟨d, r4⟩, hd, hret⟩ := h
  cases hret
  exact (((leaves_readOctet ha).trans (leaves_readOctet hb)).trans (leaves_readOctet hc)).trans
    (leaves_readOctet hd)

theorem leaves_readGroup {first : Bool} {cs rest : List Char} {g : UInt16}
    (h : readGroup first cs = some (g, rest)) : Leaves cs rest := by
  simp only [readGroup, Option.bind_eq_bind, Option.bind_eq_some_iff] at h
  obtain ⟨rest', hsep, ⟨n, rest''⟩, hnumber, hret⟩ := h
  cases hret
  exact (leaves_readSeparator (by decide) hsep).trans (leaves_readNumber (by decide) hnumber)

theorem leaves_readGroups (left : ℕ) (first : Bool) (cs : List Char) :
    Leaves cs (readGroups left first cs).2.2 := by
  induction left generalizing first cs with
  | zero => exact .refl cs
  | succ left ih =>
    rw [readGroups]
    split
    · rename_i addr rest hipv4
      split at hipv4
      · obtain ⟨rest', hsep, haddr⟩ := Option.bind_eq_some_iff.mp hipv4
        exact (leaves_readSeparator (by decide) hsep).trans (leaves_readIpv4Addr haddr)
      · cases hipv4
    · split
      · exact .refl cs
      · rename_i group rest hgroup
        exact (leaves_readGroup hgroup).trans (ih false rest)

theorem leaves_readIpv6Addr {cs rest : List Char} {addr : Ipv6Addr}
    (h : readIpv6Addr cs = some (addr, rest)) : Leaves cs rest := by
  have hhead := leaves_readGroups 8 true cs
  rw [readIpv6Addr] at h
  dsimp only at h
  split at h
  · cases h
    exact hhead
  · split at h
    · cases h
    · simp only [Option.bind_eq_bind, Option.bind_eq_some_iff] at h
      obtain ⟨r1, h1, r2, h2, hret⟩ := h
      cases hret
      exact ((hhead.trans (leaves_readGivenChar (by decide) h1)).trans
        (leaves_readGivenChar (by decide) h2)).trans (leaves_readGroups _ _ _)

/-- A text that parses as an address is written with digits, dots and colons only. -/
theorem isAddrChar_of_parse {cs : List Char} {addr : IpAddr} (h : parse cs = some addr) :
    ∀ c ∈ cs, isAddrChar c := by
  have hleaves : Leaves cs [] := by
    rw [parse] at h
    split at h
    · rename_i addr' hread
      rw [readIpAddr] at hread
      split at hread
      · rename_i v4 rest hv4
        obtain ⟨-, rfl⟩ := Prod.mk.inj (Option.some.inj hread)
        exact leaves_readIpv4Addr hv4
      · obtain ⟨⟨v6, rest⟩, hv6, hpair⟩ := Option.map_eq_some_iff.mp hread
        obtain ⟨-, rfl⟩ := Prod.mk.inj hpair
        exact leaves_readIpv6Addr hv6
    · cases h
  obtain ⟨used, rfl, hused⟩ := hleaves
  simpa using hused

end Characters

end IpAddr

end ArtifactKeeper
