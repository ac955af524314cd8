import Mathlib.Data.List.DropRight
import Mathlib.Data.Nat.Notation

/-! Texts as lists of characters, with the string functions of the Rust standard library. -/

namespace ArtifactKeeper.Text

/-- `char::is_whitespace`. -/
def isWhitespace (c : Char) : Bool :=
  let n := c.toNat
  (9 ≤ n && n ≤ 13) || n == 0x20 || n == 0x85 || n == 0xA0 || n == 0x1680 ||
    (0x2000 ≤ n && n ≤ 0x200A) || n == 0x2028 || n == 0x2029 || n == 0x202F || n == 0x205F ||
    n == 0x3000

def trimStart (cs : List Char) : List Char := cs.dropWhile isWhitespace

def trimEnd (cs : List Char) : List Char := (cs.reverse.dropWhile isWhitespace).reverse

def trim (cs : List Char) : List Char := trimEnd (trimStart cs)

theorem isUpper_eq (c : Char) :
    c.isUpper = decide (c.val ≥ 'A'.val ∧ c.val ≤ 'Z'.val) := rfl

theorem isLower_eq (c : Char) : c.isLower = (c.val ≥ 'a'.val && c.val ≤ 'z'.val) := rfl

theorem isAlpha_eq (c : Char) : c.isAlpha = (c.isUpper || c.isLower) := rfl

theorem isWhitespace_of_isAlphanum {c : Char} (h : c.isAlphanum = true) :
    isWhitespace c = false := by
  have hrange : (48 ≤ c.toNat ∧ c.toNat ≤ 57) ∨ (65 ≤ c.toNat ∧ c.toNat ≤ 90) ∨
      (97 ≤ c.toNat ∧ c.toNat ≤ 122) := by
    simp only [Char.isAlphanum, isAlpha_eq, isUpper_eq, isLower_eq, Char.isDigit,
      Bool.or_eq_true, Bool.and_eq_true, decide_eq_true_eq, ge_iff_le, UInt32.le_iff_toNat_le] at h
    rcases h with (h | h) | h
    · exact .inr (.inl h)
    · exact .inr (.inr h)
    · exact .inl h
  simp only [isWhitespace, Bool.or_eq_false_iff, Bool.and_eq_false_iff, decide_eq_false_iff_not,
    beq_eq_false_iff_ne]
  omega

theorem trimEnd_append_cons {c : Char} (h : isWhitespace c = false) (cs rest : List Char) :
    trimEnd (cs ++ c :: rest) = cs ++ c :: trimEnd rest := by
  rw [trimEnd, trimEnd, List.reverse_append, List.reverse_cons, List.append_assoc,
    List.dropWhile_append]
  split
  · rename_i hnil
    simp [h, List.isEmpty_iff.mp hnil]
  · simp

theorem trimEnd_isPrefix (cs : List Char) : trimEnd cs <+: cs := by
  rw [trimEnd, ← List.reverse_suffix, List.reverse_reverse]
  exact List.dropWhile_suffix _

theorem trimEnd_eq_nil {cs : List Char} : trimEnd cs = [] ↔ ∀ c ∈ cs, isWhitespace c = true := by
  simp [trimEnd, List.dropWhile_eq_nil_iff]

/-- A line of which nothing is left when it is trimmed. -/
def isBlank (line : List Char) : Bool := (trim line).isEmpty

theorem isBlank_iff {line : List Char} :
    isBlank line = true ↔ ∀ c ∈ line, isWhitespace c = true := by
  rw [isBlank, List.isEmpty_iff, trim, trimEnd_eq_nil]
  constructor
  · intro h
    by_contra hnot
    have hne : trimStart line ≠ [] := mt List.dropWhile_eq_nil_iff.mp hnot
    have hhead : isWhitespace ((trimStart line).head hne) = false :=
      List.head_dropWhile_not isWhitespace hne
    rw [h _ (List.head_mem hne)] at hhead
    cases hhead
  · intro h
    rw [trimStart, List.dropWhile_eq_nil_iff.mpr h]
    simp

theorem isBlank_eq_false {line : List Char} {c : Char} (hmem : c ∈ line)
    (hc : isWhitespace c = false) : isBlank line = false := by
  rw [← Bool.not_eq_true]
  intro hblank
  rw [isBlank_iff.mp hblank c hmem] at hc
  cases hc

theorem trim_subset (cs : List Char) : trim cs ⊆ cs := fun _ hc =>
  (List.dropWhile_suffix _).subset ((trimEnd_isPrefix _).subset hc)

theorem trimEnd_trimEnd (cs : List Char) : trimEnd (trimEnd cs) = trimEnd cs := by
  rw [trimEnd, trimEnd, List.reverse_reverse, List.dropWhile_idempotent]

theorem trim_trim (cs : List Char) : trim (trim cs) = trim cs := by
  have hstart : trimStart (trim cs) = trim cs := by
    cases htrim : trim cs with
    | nil => rfl
    | cons c rest =>
      have hpre := trimEnd_isPrefix (trimStart cs)
      rw [← trim, htrim] at hpre
      obtain ⟨tail, htail⟩ := hpre
      have hne : trimStart cs ≠ [] := by simp [← htail]
      have hhead : isWhitespace ((trimStart cs).head hne) = false :=
        List.head_dropWhile_not isWhitespace hne
      simp only [← htail, List.cons_append, List.head_cons] at hhead
      rw [trimStart, List.dropWhile_cons, hhead, if_neg (by decide)]
  rw [trim, hstart, trim, trimEnd_trimEnd]

theorem trim_of_not_whitespace {cs : List Char} (h : ∀ c ∈ cs, isWhitespace c = false) :
    trim cs = cs := by
  have hdrop : ∀ cs : List Char, (∀ c ∈ cs, isWhitespace c = false) →
      cs.dropWhile isWhitespace = cs := by
    intro cs hcs
    cases cs with
    | nil => rfl
    | cons c cs => rw [List.dropWhile_cons, hcs c List.mem_cons_self, if_neg (by decide)]
  rw [trim, trimStart, hdrop cs h, trimEnd, hdrop cs.reverse fun c hc => h c (by simpa using hc),
    List.reverse_reverse]

/-- `str::split_once`: around the first occurrence. -/
def splitOnce (c : Char) (cs : List Char) : Option (List Char × List Char) :=
  if c ∈ cs then some (cs.takeWhile (· != c), (cs.dropWhile (· != c)).tail) else none

theorem splitOnce_of_not_mem {c : Char} {before : List Char} (after : List Char)
    (hnot : c ∉ before) : splitOnce c (before ++ c :: after) = some (before, after) := by
  have hbefore : ∀ x ∈ before, (x != c) = true := by
    intro x hx
    simpa using fun hxc : x = c => hnot (hxc ▸ hx)
  rw [splitOnce, if_pos (by simp), List.takeWhile_append_of_pos hbefore,
    List.dropWhile_append_of_pos hbefore]
  simp

theorem splitOnce_eq_none_iff {c : Char} {cs : List Char} : splitOnce c cs = none ↔ c ∉ cs := by
  rw [splitOnce]
  split <;> simp_all

theorem splitOnce_eq_some_iff {c : Char} {cs before after : List Char} :
    splitOnce c cs = some (before, after) ↔ c ∉ before ∧ cs = before ++ c :: after := by
  constructor
  · intro h
    have hmem : c ∈ cs := by
      by_contra hnot
      rw [splitOnce_eq_none_iff.mpr hnot] at h
      cases h
    obtain ⟨before', after', rfl, hnot⟩ := List.eq_append_cons_of_mem hmem
    rw [splitOnce_of_not_mem after' hnot] at h
    obtain ⟨rfl, rfl⟩ := Prod.mk.inj (Option.some.inj h)
    exact ⟨hnot, rfl⟩
  · rintro ⟨hnot, rfl⟩
    exact splitOnce_of_not_mem after hnot

/-- `str::rsplit_once`: around the last occurrence. -/
def rsplitOnce (c : Char) (cs : List Char) : Option (List Char × List Char) :=
  (splitOnce c cs.reverse).map fun halves => (halves.2.reverse, halves.1.reverse)

theorem toLower_cases (c : Char) : c.toLower = c ∨ ∃ n < 26, c = Char.ofNat (65 + n) := by
  unfold Char.toLower
  split
  · next h =>
    right
    have hlo : 65 ≤ c.toNat := UInt32.le_iff_toNat_le.mp h.1
    have hhi : c.toNat ≤ 90 := UInt32.le_iff_toNat_le.mp h.2
    refine ⟨c.toNat - 65, by omega, ?_⟩
    rw [Nat.add_sub_cancel' hlo, Char.ofNat_toNat]
  · exact .inl rfl

theorem toLower_toLower (c : Char) : c.toLower.toLower = c.toLower := by
  rcases toLower_cases c with h | ⟨n, hn, rfl⟩
  · rw [h, h]
  · revert n
    decide

theorem toLower_of_not_isUpper {c : Char} (h : ¬ c.isUpper = true) : c.toLower = c := by
  rcases toLower_cases c with hc | ⟨n, hn, rfl⟩
  · exact hc
  · revert n
    decide

theorem toLower_eq_iff {x : Char} (hx : x.isAlpha = false) (c : Char) : c.toLower = x ↔ c = x := by
  rcases toLower_cases c with hc | ⟨n, hn, rfl⟩
  · rw [hc]
  · have halpha : ∀ n < 26, (Char.ofNat (65 + n)).toLower.isAlpha = true ∧
        (Char.ofNat (65 + n)).isAlpha = true := by decide
    obtain ⟨hlower, hupper⟩ := halpha n hn
    constructor
    · rintro rfl
      exact absurd hlower (by simp [hx])
    · rintro rfl
      exact absurd hupper (by simp [hx])

theorem isWhitespace_toLower (c : Char) : isWhitespace c.toLower = isWhitespace c := by
  rcases toLower_cases c with h | ⟨n, hn, rfl⟩
  · rw [h]
  · revert n
    decide

theorem isAlphanum_toLower (c : Char) : c.toLower.isAlphanum = c.isAlphanum := by
  rcases toLower_cases c with h | ⟨n, hn, rfl⟩
  · rw [h]
  · revert n
    decide

/-- `str::to_ascii_lowercase`. -/
def toAsciiLowercase (s : String) : String := s.map Char.toLower

/-- `str::parse` for an unsigned type with values below `bound`. -/
def parseUnsigned (bound : ℕ) (cs : List Char) : Option ℕ :=
  let digits := match cs with
    | '+' :: rest => rest
    | _ => cs
  if digits.isEmpty || !digits.all Char.isDigit then none
  else
    let n := Nat.ofDigitChars 10 digits 0
    if n < bound then some n else none

/-- `usize::to_string`. -/
def decimal (n : ℕ) : List Char := Nat.toDigits 10 n

theorem isDigit_of_mem_decimal {n : ℕ} {c : Char} (h : c ∈ decimal n) : c.isDigit = true :=
  Nat.isDigit_of_mem_toDigits (by omega) (by omega) h

theorem decimal_ne_nil (n : ℕ) : decimal n ≠ [] := Nat.toDigits_ne_nil

theorem parseUnsigned_decimal {n bound : ℕ} (h : n < bound) :
    parseUnsigned bound (decimal n) = some n := by
  have hdigits : (decimal n).all Char.isDigit = true :=
    List.all_eq_true.mpr fun c hc => isDigit_of_mem_decimal hc
  have hvalue : Nat.ofDigitChars 10 (decimal n) 0 = n := Nat.ofDigitChars_ten_toDigits
  unfold parseUnsigned
  split
  · rename_i rest heq
    have hplus : '+'.isDigit = true := isDigit_of_mem_decimal (heq ▸ List.mem_cons_self)
    exact absurd hplus (by decide)
  · simp [decimal_ne_nil, hdigits, hvalue, h]

theorem decimal_injective : Function.Injective decimal := fun m n h => by
  rw [← Nat.ofDigitChars_ten_toDigits (n := m), ← Nat.ofDigitChars_ten_toDigits (n := n)]
  exact congrArg (Nat.ofDigitChars 10 · 0) h

theorem digitChar_of_isDigit {c : Char} (h : c.isDigit = true) :
    c.toNat - '0'.toNat < 10 ∧ (c.toNat - '0'.toNat).digitChar = c := by
  simp only [Char.isDigit, Bool.and_eq_true, decide_eq_true_eq, ge_iff_le,
    UInt32.le_iff_toNat_le] at h
  have hlo : 48 ≤ c.toNat := h.1
  have hhi : c.toNat ≤ 57 := h.2
  have hzero : '0'.toNat = 48 := rfl
  obtain ⟨n, hn⟩ := Nat.exists_eq_add_of_le hlo
  have hlt : n < 10 := by omega
  refine ⟨by omega, ?_⟩
  rw [← Char.ofNat_toNat c, hn]
  clear hn hlo hhi h
  revert n
  decide

/-- Digits without a leading zero are the decimal of their value. -/
theorem decimal_ofDigitChars {cs : List Char} (hne : cs ≠ []) (hdigits : ∀ c ∈ cs, c.isDigit = true)
    (hzero : cs.head? ≠ some '0') : decimal (Nat.ofDigitChars 10 cs 0) = cs := by
  induction cs using List.reverseRecOn with
  | nil => exact absurd rfl hne
  | append_singleton init c ih =>
    obtain ⟨hlt, hchar⟩ := digitChar_of_isDigit (hdigits c (by simp))
    have hlast : decimal (c.toNat - '0'.toNat) = [c] := by
      rw [decimal, Nat.toDigits_of_lt_base hlt, hchar]
    cases init with
    | nil => simpa [Nat.ofDigitChars_cons] using hlast
    | cons d init =>
      have hinit := ih (by simp) (fun x hx => hdigits x (List.mem_append_left _ hx)) hzero
      have hpos : 0 < Nat.ofDigitChars 10 (d :: init) 0 := by
        refine Nat.pos_of_ne_zero fun h => hzero ?_
        rw [h, decimal, Nat.toDigits_zero] at hinit
        rw [List.cons_append, ← (List.cons.inj hinit).1, List.head?_cons]
      rw [Nat.ofDigitChars_append, Nat.ofDigitChars_cons, Nat.ofDigitChars_nil, decimal,
        ← Nat.toDigits_append_toDigits (by decide) hpos hlt]
      exact congrArg₂ (· ++ ·) hinit hlast

/-- `str::to_lowercase` as it is on ASCII text. -/
def LowersAscii (toLowercase : List Char → List Char) : Prop :=
  ∀ cs : List Char, (∀ c ∈ cs, c.toNat < 128) → toLowercase cs = cs.map Char.toLower

/-- `str::strip_prefix`. -/
def stripPrefix (pre cs : List Char) : Option (List Char) :=
  if pre.isPrefixOf cs then some (cs.drop pre.length) else none

/-- What follows the first occurrence of `pat`, as `str::find` finds it. -/
def afterFirst (pat : List Char) : List Char → Option (List Char)
  | [] => if pat.isEmpty then some [] else none
  | c :: cs =>
    if pat.isPrefixOf (c :: cs) then some ((c :: cs).drop pat.length) else afterFirst pat cs

/-- A prefix up to the first colon decides on the name before it. -/
theorem stripPrefix_name {name key : List Char} (rest : List Char) (hname : ':' ∉ name)
    (hkey : ':' ∉ key) :
    stripPrefix (name ++ [':']) (key ++ ':' :: rest) = if name = key then some rest else none := by
  rw [stripPrefix]
  by_cases heq : name = key
  · subst heq
    have hpre : (name ++ [':']) <+: name ++ ':' :: rest := ⟨rest, by simp⟩
    rw [if_pos (List.isPrefixOf_iff_prefix.mpr hpre), if_pos rfl]
    simp
  · rw [if_neg heq, if_neg]
    intro hpre
    obtain ⟨tail, htail⟩ := List.isPrefixOf_iff_prefix.mp hpre
    rw [List.append_assoc, List.singleton_append] at htail
    have hsplit := splitOnce_of_not_mem tail hname
    rw [htail, splitOnce_of_not_mem rest hkey] at hsplit
    exact heq (Prod.mk.inj (Option.some.inj hsplit)).1.symm

/-- `str::eq_ignore_ascii_case`. -/
def eqIgnoreAsciiCase (a b : List Char) : Bool := a.map Char.toLower == b.map Char.toLower

section Lines

/-- A line less the `\r` of a `\r\n` behind it. -/
def stripCarriage (line : List Char) : List Char :=
  if line.getLast? = some '\r' then line.dropLast else line

/-- The lines of a text of which `acc` is read already, the last character first. -/
def linesFrom (acc : List Char) : List Char → List (List Char)
  | [] => if acc = [] then [] else [acc.reverse]
  | c :: cs =>
    if c = '\n' then stripCarriage acc.reverse :: linesFrom [] cs else linesFrom (c :: acc) cs

/-- `str::lines`. -/
def lines (cs : List Char) : List (List Char) := linesFrom [] cs

theorem linesFrom_line {line : List Char} (acc rest : List Char) (h : '\n' ∉ line) :
    linesFrom acc (line ++ '\n' :: rest) = stripCarriage (acc.reverse ++ line) :: lines rest := by
  induction line generalizing acc with
  | nil => simp [linesFrom, lines]
  | cons c line ih =>
    obtain ⟨hc, hline⟩ := not_or.mp (mt List.mem_cons.mpr h)
    rw [List.cons_append, linesFrom, if_neg (Ne.symm hc), ih _ hline]
    simp

theorem lines_line {line : List Char} (rest : List Char) (h : '\n' ∉ line) :
    lines (line ++ '\n' :: rest) = stripCarriage line :: lines rest :=
  linesFrom_line [] rest h

theorem lines_of_not_mem {cs : List Char} (hne : cs ≠ []) (h : '\n' ∉ cs) : lines cs = [cs] := by
  suffices hfrom : ∀ acc, acc.reverse ++ cs ≠ [] → linesFrom acc cs = [acc.reverse ++ cs] from
    hfrom [] hne
  clear hne
  induction cs with
  | nil =>
    intro acc hacc
    rw [List.append_nil] at hacc ⊢
    rw [linesFrom, if_neg fun heq => hacc (by simp [heq])]
  | cons c cs ih =>
    obtain ⟨hc, hcs⟩ := not_or.mp (mt List.mem_cons.mpr h)
    intro acc _
    rw [linesFrom, if_neg (Ne.symm hc), ih hcs _ (by simp)]
    simp

theorem lines_append_newline (cs rest : List Char) :
    lines (cs ++ '\n' :: rest) = lines (cs ++ ['\n']) ++ lines rest := by
  suffices hfrom : ∀ acc, linesFrom acc (cs ++ '\n' :: rest) =
      linesFrom acc (cs ++ ['\n']) ++ lines rest from hfrom []
  induction cs with
  | nil =>
    intro acc
    simp [linesFrom, lines]
  | cons c cs ih =>
    intro acc
    rw [List.cons_append, List.cons_append, linesFrom, linesFrom]
    split
    · simp [ih []]
    · exact ih _

/-- A text in front of the first line, without a line end of its own, stays in front of it. -/
theorem lines_prepend {pre : List Char} (cs : List Char) (hnl : '\n' ∉ pre)
    (hcr : pre.getLast? ≠ some '\r') :
    ∃ first rest, lines (cs ++ ['\n']) = first :: rest ∧
      lines (pre ++ (cs ++ ['\n'])) = (pre ++ first) :: rest := by
  have hmem : '\n' ∈ cs ++ ['\n'] := by simp
  obtain ⟨raw, after, heq, hraw⟩ := List.eq_append_cons_of_mem hmem
  refine ⟨stripCarriage raw, lines after, ?_, ?_⟩
  · rw [heq, lines_line after hraw]
  · have hpre : '\n' ∉ pre ++ raw := by simp [hnl, hraw]
    have hstrip : stripCarriage (pre ++ raw) = pre ++ stripCarriage raw := by
      rcases List.eq_nil_or_concat raw with rfl | ⟨init, last, rfl⟩
      · simp [stripCarriage, hcr]
      · simp only [List.concat_eq_append, stripCarriage, ← List.append_assoc,
          List.getLast?_concat, List.dropLast_concat]
        split <;> simp
    rw [heq, ← List.append_assoc, lines_line after hpre, hstrip]

/-- Texts that end with a line end, if they are not empty. -/
def EndsLine (cs : List Char) : Prop := cs = [] ∨ ∃ init, cs = init ++ ['\n']

theorem EndsLine.append {cs cs' : List Char} (h : EndsLine cs) (h' : EndsLine cs') :
    EndsLine (cs ++ cs') := by
  rcases h' with rfl | ⟨init, rfl⟩
  · rwa [List.append_nil]
  · exact .inr ⟨cs ++ init, (List.append_assoc _ _ _).symm⟩

theorem EndsLine.flatMap {α : Type} {xs : List α} {text : α → List Char}
    (h : ∀ x ∈ xs, EndsLine (text x)) : EndsLine (xs.flatMap text) := by
  induction xs with
  | nil => exact .inl rfl
  | cons x xs ih =>
    obtain ⟨hx, hxs⟩ := List.forall_mem_cons.mp h
    exact hx.append (ih hxs)

theorem lines_append {cs : List Char} (h : EndsLine cs) (rest : List Char) :
    lines (cs ++ rest) = lines cs ++ lines rest := by
  rcases h with rfl | ⟨init, rfl⟩
  · rfl
  · rw [List.append_assoc, List.singleton_append, lines_append_newline]

theorem lines_flatMap {α : Type} {xs : List α} {text : α → List Char}
    (h : ∀ x ∈ xs, EndsLine (text x)) :
    lines (xs.flatMap text) = xs.flatMap fun x => lines (text x) := by
  induction xs with
  | nil => rfl
  | cons x xs ih =>
    obtain ⟨hx, hxs⟩ := List.forall_mem_cons.mp h
    rw [List.flatMap_cons, List.flatMap_cons, lines_append hx, ih hxs]

theorem stripCarriage_subset (line : List Char) : stripCarriage line ⊆ line := by
  rw [stripCarriage]
  split
  · exact List.dropLast_subset line
  · exact List.Subset.refl line

theorem stripCarriage_of_not_mem {line : List Char} (h : '\r' ∉ line) :
    stripCarriage line = line := by
  rw [stripCarriage, if_neg fun hlast => h (List.mem_of_getLast? hlast)]

/-- Lines have only characters of the text. -/
theorem mem_of_mem_lines {cs line : List Char} {c : Char} (h : line ∈ lines cs) (hc : c ∈ line) :
    c ∈ cs := by
  suffices hfrom : ∀ acc, line ∈ linesFrom acc cs → c ∈ acc ∨ c ∈ cs from
    (hfrom [] h).resolve_left (by simp)
  clear h
  induction cs with
  | nil =>
    intro acc hline
    rw [linesFrom] at hline
    split at hline
    · cases hline
    · rw [List.mem_singleton.mp hline] at hc
      exact .inl (List.mem_reverse.mp hc)
  | cons d cs ih =>
    intro acc hline
    rw [linesFrom] at hline
    split at hline
    · rcases List.mem_cons.mp hline with rfl | hline
      · exact .inl (List.mem_reverse.mp (stripCarriage_subset _ hc))
      · exact .inr (List.mem_cons_of_mem _ ((ih [] hline).resolve_left (by simp)))
    · rcases ih _ hline with hmem | hmem
      · rcases List.mem_cons.mp hmem with rfl | hmem
        · exact .inr List.mem_cons_self
        · exact .inl hmem
      · exact .inr (List.mem_cons_of_mem _ hmem)

theorem lines_eq_nil_iff {cs : List Char} : lines cs = [] ↔ cs = [] := by
  suffices hfrom : ∀ acc, linesFrom acc cs = [] ↔ acc = [] ∧ cs = [] by
    rw [lines, hfrom, and_iff_right rfl]
  induction cs with
  | nil =>
    intro acc
    rw [linesFrom]
    split <;> simp_all
  | cons c cs ih =>
    intro acc
    rw [linesFrom]
    split
    · simp
    · simp [ih]

theorem not_newline_of_mem_lines {cs line : List Char} (h : line ∈ lines cs) : '\n' ∉ line := by
  suffices hfrom : ∀ acc, '\n' ∉ acc → ∀ line ∈ linesFrom acc cs, '\n' ∉ line from
    hfrom [] (by simp) line h
  clear h line
  induction cs with
  | nil =>
    intro acc hacc line hline
    rw [linesFrom] at hline
    split at hline
    · cases hline
    · rw [List.mem_singleton.mp hline]
      simpa using hacc
  | cons c cs ih =>
    intro acc hacc line hline
    rw [linesFrom] at hline
    split at hline
    · rcases List.mem_cons.mp hline with rfl | hline
      · intro hmem
        exact hacc (List.mem_reverse.mp (stripCarriage_subset _ hmem))
      · exact ih [] (by simp) line hline
    · rename_i hc
      exact ih (c :: acc) (by simp [hacc, Ne.symm hc]) line hline

end Lines

section Words

/-- `str::split_whitespace`. -/
def splitWhitespace (cs : List Char) : List (List Char) :=
  (cs.splitOnP isWhitespace).filter (!·.isEmpty)

theorem splitWhitespace_cons {c : Char} (rest : List Char) (h : isWhitespace c = true) :
    splitWhitespace (c :: rest) = splitWhitespace rest := by
  simp [splitWhitespace, List.splitOnP_cons_eq_if_modifyHead, h]

theorem splitWhitespace_word {word : List Char} (hne : word ≠ [])
    (hword : ∀ c ∈ word, isWhitespace c = false) : splitWhitespace word = [word] := by
  simp [splitWhitespace, List.splitOnP_eq_singleton hword, hne]

theorem splitWhitespace_word_cons {word : List Char} {c : Char} (rest : List Char) (hne : word ≠ [])
    (hword : ∀ c ∈ word, isWhitespace c = false) (hc : isWhitespace c = true) :
    splitWhitespace (word ++ c :: rest) = word :: splitWhitespace rest := by
  simp [splitWhitespace, List.splitOnP_append_cons_of_forall_mem hword c hc, hne]

theorem isWhitespace_of_mem_splitWhitespace {cs word : List Char} (h : word ∈ splitWhitespace cs) :
    word ≠ [] ∧ ∀ c ∈ word, isWhitespace c = false := by
  obtain ⟨hmem, hne⟩ := List.mem_filter.mp h
  refine ⟨by simpa using hne, ?_⟩
  clear h hne
  induction cs generalizing word with
  | nil =>
    rw [List.splitOnP_nil, List.mem_singleton] at hmem
    simp [hmem]
  | cons c cs ih =>
    rw [List.splitOnP_cons_eq_if_modifyHead] at hmem
    split at hmem
    · rcases List.mem_cons.mp hmem with rfl | hmem
      · simp
      · exact ih hmem
    · rename_i hc
      obtain ⟨first, tail, htail⟩ :=
        List.exists_cons_of_ne_nil (List.splitOnP_ne_nil isWhitespace cs)
      rw [htail, List.modifyHead_cons] at hmem
      rw [htail] at ih
      rcases List.mem_cons.mp hmem with rfl | hmem
      · intro x hx
        rcases List.mem_cons.mp hx with rfl | hx
        · simpa using hc
        · exact ih List.mem_cons_self x hx
      · exact ih (List.mem_cons_of_mem _ hmem)

end Words

end ArtifactKeeper.Text
