import ArtifactKeeper.Pypi.VersionTokens
import ArtifactKeeper.Segments
import Mathlib.Algebra.Group.Nat.Defs

/-! Which versions of PEP 440 the canonical text tells apart. -/

namespace ArtifactKeeper.Pypi
open Text Segments

section Numbers

def Numeral.ofNat (n : ℕ) : Numeral :=
  ⟨decimal n, decimal_ne_nil n, List.all_eq_true.mpr fun _ => isDigit_of_mem_decimal⟩

@[simp] theorem Numeral.value_ofNat (n : ℕ) : (Numeral.ofNat n).value = n :=
  Nat.ofDigitChars_ten_toDigits

/-- A number of the release as it counts. -/
def fitted (n : ℕ) : ℕ := if n < 2 ^ 64 then n else 0

theorem fitted_lt (n : ℕ) : fitted n < 2 ^ 64 := by
  rw [fitted]
  split
  · assumption
  · decide

theorem fitted_of_lt {n : ℕ} (h : n < 2 ^ 64) : fitted n = n := if_pos h

theorem releaseNumber_digits (n : Numeral) : releaseNumber n.digits = fitted n.value := by
  rw [releaseNumber, parseUnsigned_digits, fitted]
  split <;> rfl

/-- Leading zeros do not count. -/
theorem ofDigitChars_dropWhile_zero (cs : List Char) :
    Nat.ofDigitChars 10 (cs.dropWhile (· = '0')) 0 = Nat.ofDigitChars 10 cs 0 := by
  induction cs with
  | nil => rfl
  | cons c cs ih =>
    by_cases hc : c = '0'
    · subst hc
      rw [List.dropWhile_cons_of_pos (by simp), ih, Nat.ofDigitChars_cons]
      rfl
    · rw [List.dropWhile_cons_of_neg (by simpa using hc)]

theorem epoch_decimal (n : Numeral) :
    (if n.digits.dropWhile (· = '0') = [] then ['0'] else n.digits.dropWhile (· = '0')) =
      decimal n.value := by
  have hvalue : n.value = Nat.ofDigitChars 10 (n.digits.dropWhile (· = '0')) 0 :=
    (ofDigitChars_dropWhile_zero n.digits).symm
  split
  · next hnil => rw [hvalue, hnil]; rfl
  · next hne =>
    rw [hvalue]
    refine (decimal_ofDigitChars hne (fun c hc => ?_) fun hzero => ?_).symm
    · exact List.all_eq_true.mp n.all_digits c ((List.dropWhile_sublist _).subset hc)
    · have h := List.head?_dropWhile_not (· = '0') n.digits
      rw [hzero] at h
      simp at h

end Numbers

section Release

theorem scanRelease_digits {run : List Char} (hrun : ∀ c ∈ run, c.isDigit = true)
    (hne : run ≠ []) (expectDigit : Bool) (rest : List Char) :
    scanRelease expectDigit (run ++ rest) =
      (run ++ (scanRelease false rest).1, (scanRelease false rest).2) := by
  induction run generalizing expectDigit with
  | nil => exact absurd rfl hne
  | cons c run ih =>
    rw [List.cons_append, scanRelease, if_pos (hrun c List.mem_cons_self)]
    cases run with
    | nil => rfl
    | cons d run => rw [ih (fun x hx => hrun x (List.mem_cons_of_mem c hx)) (by simp)]; rfl

/-- What cannot go on with a release. -/
def EndsRelease (rest : List Char) : Prop :=
  ∀ c ∈ rest.head?, c.isDigit = false ∧ (c = '.' → ∀ d ∈ rest.tail.head?, d.isDigit = false)

theorem scanRelease_endsRelease {rest : List Char} (h : EndsRelease rest) :
    scanRelease false rest = ([], rest) := by
  cases rest with
  | nil => rfl
  | cons c rest =>
    obtain ⟨hdigit, hdot⟩ := h c rfl
    rw [scanRelease, if_neg (by simp [hdigit]), if_neg]
    rintro ⟨hc, -, hnext⟩
    obtain ⟨d, hd, hdigit'⟩ := (Option.any_eq_true _ _).mp hnext
    rw [hdot hc d hd] at hdigit'
    cases hdigit'

theorem scanRelease_minor (minor : List Numeral) {rest : List Char} (h : EndsRelease rest) :
    scanRelease false ((minor.flatMap fun n => '.' :: n.digits) ++ rest) =
      (minor.flatMap fun n => '.' :: n.digits, rest) := by
  induction minor with
  | nil => exact scanRelease_endsRelease h
  | cons n minor ih =>
    have hdigits : ∀ c ∈ n.digits, c.isDigit = true := List.all_eq_true.mp n.all_digits
    have hnext : ((n.digits ++ ((minor.flatMap fun n => '.' :: n.digits) ++ rest)).head?.any
        Char.isDigit) = true := by
      obtain ⟨c, cs, hcs⟩ := List.exists_cons_of_ne_nil n.ne_nil
      have hc : c.isDigit = true := hdigits c (by rw [hcs]; exact List.mem_cons_self)
      simp [hcs, hc]
    rw [List.flatMap_cons, List.append_assoc, List.cons_append, scanRelease, if_neg (by decide),
      if_pos ⟨rfl, rfl, hnext⟩, scanRelease_digits hdigits n.ne_nil, ih]
    rfl

theorem splitRelease_releaseText (major : Numeral) (minor : List Numeral) {rest : List Char}
    (h : EndsRelease rest) :
    splitRelease (releaseText major minor ++ rest) = some (releaseText major minor, rest) := by
  have hdigits : ∀ c ∈ major.digits, c.isDigit = true := List.all_eq_true.mp major.all_digits
  obtain ⟨c, cs, hcs⟩ := List.exists_cons_of_ne_nil major.ne_nil
  have hhead : ((releaseText major minor ++ rest).head?.any Char.isDigit) = true := by
    simp [releaseText, hcs, hdigits c (by rw [hcs]; exact List.mem_cons_self)]
  rw [splitRelease, if_pos hhead, releaseText, List.append_assoc,
    scanRelease_digits hdigits major.ne_nil, scanRelease_minor minor h]

theorem splitOn_releaseText (major : Numeral) (minor : List Numeral) :
    (releaseText major minor).splitOn '.' = (major :: minor).map Numeral.digits := by
  have hdot : ∀ n : Numeral, ∀ c ∈ n.digits, (c == '.') = false := by
    intro n c hc
    have hdigit : c.isDigit = true := List.all_eq_true.mp n.all_digits c hc
    rw [beq_eq_false_iff_ne]
    rintro rfl
    exact absurd hdigit (by decide)
  have h := splitOnP_flatMap (minor.map fun n => ('.', n.digits)) (hdot major)
    (by simpa using fun n _ => hdot n)
  rw [List.splitOn_eq_splitOnP, releaseText]
  simpa [List.flatMap_map, Function.comp_def] using h

theorem canonRelease_releaseText (major : Numeral) (minor : List Numeral) :
    canonRelease (releaseText major minor) = ['.'].intercalate
      ((popZeros ((major :: minor).map fun n => fitted n.value)).map decimal) := by
  rw [canonRelease, splitOn_releaseText, List.map_map]
  simp only [Function.comp_def, releaseNumber_digits]

end Release

section Case

theorem splitOnce_map {f : Char → Char} {c : Char} (hf : ∀ x, f x = c ↔ x = c) (cs : List Char) :
    splitOnce c (cs.map f) = (splitOnce c cs).map (Prod.map (List.map f) (List.map f)) := by
  cases h : splitOnce c cs with
  | none =>
    rw [splitOnce_eq_none_iff] at h
    rw [Option.map_none, splitOnce_eq_none_iff]
    intro hmem
    obtain ⟨x, hx, hxc⟩ := List.mem_map.mp hmem
    exact h ((hf x).mp hxc ▸ hx)
  | some halves =>
    obtain ⟨hnot, rfl⟩ := splitOnce_eq_some_iff.mp h
    rw [Option.map_some, splitOnce_eq_some_iff]
    refine ⟨fun hmem => ?_, by simp [(hf c).mpr rfl]⟩
    obtain ⟨x, hx, hxc⟩ := List.mem_map.mp hmem
    exact hnot ((hf x).mp hxc ▸ hx)

theorem splitOnP_map_toLower {p : Char → Bool} (hp : ∀ c, p c.toLower = p c) (cs : List Char) :
    (cs.map Char.toLower).splitOnP p = (cs.splitOnP p).map (·.map Char.toLower) := by
  induction cs with
  | nil => rfl
  | cons c cs ih =>
    rw [List.map_cons, List.splitOnP_cons_eq_if_modifyHead, List.splitOnP_cons_eq_if_modifyHead, ih,
      hp]
    split
    · rfl
    · cases cs.splitOnP p <;> rfl

theorem isVersionSeparator_toLower (c : Char) :
    isVersionSeparator c.toLower = isVersionSeparator c := by
  rw [isVersionSeparator, isVersionSeparator]
  simp only [toLower_eq_iff (show '.'.isAlpha = false by decide),
    toLower_eq_iff (show '-'.isAlpha = false by decide),
    toLower_eq_iff (show '_'.isAlpha = false by decide)]

theorem toLower_comp_toLower : Char.toLower ∘ Char.toLower = Char.toLower :=
  funext toLower_toLower

theorem map_intercalate {f : Char → Char} (sep : List Char) (parts : List (List Char)) :
    (sep.intercalate parts).map f = (sep.map f).intercalate (parts.map (·.map f)) := by
  induction parts with
  | nil => rfl
  | cons part parts ih =>
    cases parts with
    | nil => simp
    | cons next parts =>
      rw [List.intercalate_cons_cons, List.map_append, List.map_append, ih]
      simp

theorem canonLocal_toLower (cs : List Char) : canonLocal (cs.map Char.toLower) = canonLocal cs := by
  have hparts : ((cs.map Char.toLower).splitOnP isVersionSeparator).filter (· ≠ []) =
      ((cs.splitOnP isVersionSeparator).filter (· ≠ [])).map (·.map Char.toLower) := by
    rw [splitOnP_map_toLower isVersionSeparator_toLower, List.filter_map]
    simp [Function.comp_def]
  rw [canonLocal, canonLocal, hparts]
  simp only [List.map_eq_nil_iff, map_intercalate, List.map_cons, List.map_nil, List.map_map,
    Function.comp_def, toLower_toLower, Char.reduceToLower]

theorem trim_toLower (cs : List Char) :
    trim (cs.map Char.toLower) = (trim cs).map Char.toLower := by
  have hspace : isWhitespace ∘ Char.toLower = isWhitespace := funext isWhitespace_toLower
  rw [trim, trimStart, List.dropWhile_map, hspace, trimEnd, ← List.map_reverse, List.dropWhile_map,
    hspace, ← List.map_reverse]
  rfl

/-- In whatever case a version is written, it is read in the same way. -/
theorem canonicalVersion_toLower (cs : List Char) :
    canonicalVersion (cs.map Char.toLower) = canonicalVersion cs := by
  have hv : (fun c : Char => decide (c = 'v' ∨ c = 'V')) ∘ Char.toLower =
      fun c => decide (c = 'v' ∨ c = 'V') := by
    funext c
    rcases toLower_cases c with h | ⟨n, hn, rfl⟩
    · simp [h]
    · revert n
      decide
  unfold canonicalVersion
  rw [trim_toLower, List.dropWhile_map, hv]
  generalize (trim cs).dropWhile (fun c => decide (c = 'v' ∨ c = 'V')) = v
  simp only [List.map_eq_nil_iff,
    splitOnce_map (toLower_eq_iff (show '+'.isAlpha = false by decide))]
  cases splitOnce '+' v with
  | none => simp [toLower_comp_toLower]
  | some halves => simp [toLower_comp_toLower, canonLocal_toLower]

end Case

section Spellings

/-- The characters of releases, suffixes and local versions. -/
def IsPlain (c : Char) : Prop := c.isDigit = true ∨ c.isLower = true ∨ isVersionSeparator c = true

theorem IsPlain.ne {c x : Char} (h : IsPlain c) (hx : ¬ IsPlain x) : c ≠ x := fun hc => hx (hc ▸ h)

theorem IsPlain.toLower {c : Char} (h : IsPlain c) : c.toLower = c := by
  rcases toLower_cases c with hc | ⟨n, hn, rfl⟩
  · exact hc
  · exfalso
    unfold IsPlain at h
    revert n
    decide

theorem IsPlain.not_whitespace {c : Char} (h : IsPlain c) : isWhitespace c = false := by
  rcases h with h | h | h
  · exact isWhitespace_of_isAlphanum (by simp [Char.isAlphanum, h])
  · exact isWhitespace_of_isAlphanum (by simp [Char.isAlphanum, isAlpha_eq, h])
  · simp only [isVersionSeparator, decide_eq_true_eq] at h
    rcases h with rfl | rfl | rfl <;> rfl

theorem isPlain_digits (n : Numeral) : ∀ c ∈ n.digits, IsPlain c := fun c hc =>
  .inl (List.all_eq_true.mp n.all_digits c hc)

theorem isPlain_separatorText (s : Option Separator) : ∀ c ∈ separatorText s, IsPlain c := by
  intro c hc
  cases s with
  | none => cases hc
  | some s =>
    obtain rfl := List.mem_singleton.mp hc
    exact .inr (.inr (separatorChar_isVersionSeparator s))

theorem isPlain_text {L : Type} {labelText : L → List Char}
    (hlabel : ∀ l, ∀ c ∈ labelText l, IsPlain c) (q : Qualifier L) :
    ∀ c ∈ q.text labelText, IsPlain c := by
  intro c hc
  simp only [Qualifier.text, List.mem_append] at hc
  rcases hc with hc | hc | hc | hc
  · exact isPlain_separatorText _ c hc
  · exact hlabel _ c hc
  · exact isPlain_separatorText _ c hc
  · cases hn : q.number with
    | none => rw [hn] at hc; cases hc
    | some n => rw [hn] at hc; exact isPlain_digits n c hc

theorem isPlain_preLabel (l : PreLabel) : ∀ c ∈ l.text, IsPlain c := by
  unfold IsPlain
  cases l <;> exact List.all_iff_forall_prop.mp rfl

theorem isPlain_postLabel (l : PostLabel) : ∀ c ∈ l.text, IsPlain c := by
  unfold IsPlain
  cases l <;> exact List.all_iff_forall_prop.mp rfl

theorem isPlain_devLabel (l : DevLabel) : ∀ c ∈ l.text, IsPlain c := by
  unfold IsPlain
  cases l
  exact List.all_iff_forall_prop.mp rfl

theorem isPlain_suffix (x : Suffix) : ∀ c ∈ x.text, IsPlain c := by
  intro c hc
  simp only [Suffix.text, List.mem_append] at hc
  rcases hc with hc | hc | hc
  · cases hpre : x.pre with
    | none => rw [hpre] at hc; cases hc
    | some q => rw [hpre] at hc; exact isPlain_text isPlain_preLabel q c hc
  · rcases hpost : x.post with _ | n | p
    · rw [hpost] at hc; cases hc
    · rw [hpost] at hc
      rcases List.mem_cons.mp hc with rfl | hc
      · exact .inr (.inr rfl)
      · exact isPlain_digits n c hc
    · rw [hpost] at hc; exact isPlain_text isPlain_postLabel p c hc
  · cases hdev : x.dev with
    | none => rw [hdev] at hc; cases hc
    | some d => rw [hdev] at hc; exact isPlain_text isPlain_devLabel d c hc

theorem isPlain_releaseText (major : Numeral) (minor : List Numeral) :
    ∀ c ∈ releaseText major minor, IsPlain c := by
  intro c hc
  rcases List.mem_append.mp hc with hc | hc
  · exact isPlain_digits major c hc
  · obtain ⟨n, -, hc⟩ := List.mem_flatMap.mp hc
    rcases List.mem_cons.mp hc with rfl | hc
    · exact .inr (.inr rfl)
    · exact isPlain_digits n c hc

theorem Segment.isPlain (s : Segment) : ∀ c ∈ s.chars, IsPlain c := fun c hc =>
  (s.alphanum c hc).imp_right .inl

theorem Segment.not_separator (s : Segment) : ∀ c ∈ s.chars, isVersionSeparator c = false := by
  intro c hc
  rw [isVersionSeparator, decide_eq_false_iff_not]
  have h := s.alphanum c hc
  rintro (rfl | rfl | rfl) <;> revert h <;> decide

theorem splitOnP_segments (first : Segment) (rest : List (Separator × Segment)) :
    (first.chars ++ rest.flatMap fun part => part.1.char :: part.2.chars).splitOnP
      isVersionSeparator = (segmentsOf (first, rest)).map Segment.chars := by
  have hparts : ∀ part ∈ rest.map fun part => (part.1.char, part.2.chars),
      isVersionSeparator part.1 = true ∧ ∀ c ∈ part.2, isVersionSeparator c = false := by
    intro part hpart
    obtain ⟨x, -, rfl⟩ := List.mem_map.mp hpart
    exact ⟨separatorChar_isVersionSeparator x.1, x.2.not_separator⟩
  have hsplit := splitOnP_flatMap _ first.not_separator hparts
  simpa [List.flatMap_map, segmentsOf, Function.comp_def] using hsplit

theorem canonLocal_segments (first : Segment) (rest : List (Separator × Segment)) :
    canonLocal (first.chars ++ rest.flatMap fun part => part.1.char :: part.2.chars) =
      '+' :: ['.'].intercalate ((segmentsOf (first, rest)).map Segment.chars) := by
  have hfilter : ((segmentsOf (first, rest)).map Segment.chars).filter (· ≠ []) =
      (segmentsOf (first, rest)).map Segment.chars := by
    refine List.filter_eq_self.mpr fun part hpart => ?_
    obtain ⟨s, -, rfl⟩ := List.mem_map.mp hpart
    simpa using s.ne_nil
  have hlower : ((segmentsOf (first, rest)).map Segment.chars).map (·.map Char.toLower) =
      (segmentsOf (first, rest)).map Segment.chars := by
    rw [List.map_map]
    refine List.map_congr_left fun s _ => ?_
    exact (List.map_congr_left fun c hc => (s.isPlain c hc).toLower).trans (List.map_id _)
  rw [canonLocal, splitOnP_segments, hfilter, map_intercalate, hlower]
  rfl

theorem splitEpoch_epochText (epoch : Option Numeral) {rest : List Char}
    (hrest : ∀ c ∈ rest, IsPlain c) :
    splitEpoch (epochText epoch ++ rest) =
      some (decimal ((epoch.map Numeral.value).getD 0), rest) := by
  have hbang : ¬ IsPlain '!' := by unfold IsPlain; decide
  cases epoch with
  | none =>
    have hnone : splitOnce '!' rest = none :=
      splitOnce_eq_none_iff.mpr fun h => (hrest _ h).ne hbang rfl
    rw [splitEpoch, epochText, List.nil_append, hnone]
    rfl
  | some n =>
    have hsome : splitOnce '!' (epochText (some n) ++ rest) = some (n.digits, rest) := by
      rw [epochText, List.append_assoc, List.singleton_append]
      exact splitOnce_of_not_mem rest fun h => (isPlain_digits n _ h).ne hbang rfl
    rw [splitEpoch, hsome]
    dsimp only
    rw [if_neg (by simp [n.ne_nil, n.all_digits]), epoch_decimal]
    rfl

theorem AtLabel.endsRelease {rest : List Char} (h : AtLabel rest) : EndsRelease rest := by
  rcases h with rfl | ⟨s, label, hlabel, more, rfl⟩
  · simp [EndsRelease]
  · obtain ⟨hne, hrun⟩ := isRun_of_mem_labels label hlabel
    obtain ⟨d, label, rfl⟩ := List.exists_cons_of_ne_nil hne
    obtain ⟨hdigit, halpha⟩ := hrun d List.mem_cons_self
    have hdot : d ≠ '.' := by
      rintro rfl
      exact absurd halpha (by decide)
    cases s with
    | none => simp [EndsRelease, separatorText, hdigit, hdot]
    | some s => cases s <;> simp [EndsRelease, separatorText, Separator.char, hdigit]

theorem Suffix.endsRelease (x : Suffix) : EndsRelease x.text := by
  obtain ⟨pre, post, dev, hpre⟩ := x
  rcases pre with _ | q
  · rcases post with _ | n | p
    · cases dev with
      | none => simp [EndsRelease, text]
      | some d =>
        have h := atLabel_text (mem_labels (kindOf_devLabel d.label)) []
        rw [List.append_nil] at h
        exact h.endsRelease
    · simp [EndsRelease, text, Post.text]
    · exact (atLabel_text (mem_labels (kindOf_postLabel p.label)) _).endsRelease
  · exact (atLabel_text (mem_labels (kindOf_preLabel q.label)) _).endsRelease

theorem trim_between {before cs after : List Char} (hne : cs ≠ [])
    (hbefore : ∀ c ∈ before, isWhitespace c = true) (hafter : ∀ c ∈ after, isWhitespace c = true)
    (hcs : ∀ c ∈ cs, isWhitespace c = false) : trim (before ++ (cs ++ after)) = cs := by
  have hstart : trimStart (before ++ (cs ++ after)) = cs ++ after := by
    obtain ⟨c, rest, rfl⟩ := List.exists_cons_of_ne_nil hne
    rw [trimStart, List.dropWhile_append_of_pos hbefore, List.cons_append,
      List.dropWhile_cons_of_neg (by simp [hcs c List.mem_cons_self])]
  obtain ⟨init, c, rfl⟩ : ∃ init c, cs = init ++ [c] :=
    ⟨cs.dropLast, cs.getLast hne, (List.dropLast_append_getLast hne).symm⟩
  rw [trim, hstart, List.append_assoc, List.singleton_append,
    trimEnd_append_cons (hcs c (by simp)), trimEnd_eq_nil.mpr hafter]

/-- What is left of a version when it is read. -/
@[ext]
structure Taken where
  epoch : ℕ
  release : List ℕ
  qualifiers : Qualifiers
  localTexts : Option (List (List Char))
  deriving DecidableEq, Repr

def localTextsText : Option (List (List Char)) → List Char
  | none => []
  | some parts => '+' :: ['.'].intercalate parts

def Taken.text (t : Taken) : List Char :=
  decimal t.epoch ++ ('!' :: (['.'].intercalate (t.release.map decimal) ++
    (qualifiersText t.qualifiers ++ localTextsText t.localTexts)))

namespace Spelling
variable (a : Spelling)

/-- Numbers of the release that do not fit are taken as `0`, and the segments of the local version
as they are written. -/
def taken : Taken where
  epoch := (a.epoch.map Numeral.value).getD 0
  release := popZeros (a.numbers.map fitted)
  qualifiers := a.suffix.heard
  localTexts := a.localSegments.map fun parts => (segmentsOf parts).map Segment.chars

theorem isPlain_body : ∀ c ∈ releaseText a.major a.minor ++ a.suffix.text, IsPlain c := by
  intro c hc
  rcases List.mem_append.mp hc with hc | hc
  · exact isPlain_releaseText _ _ c hc
  · exact isPlain_suffix _ c hc

theorem isPlain_publicText : ∀ c ∈ a.publicText, IsPlain c ∨ c = '!' := by
  intro c hc
  rcases List.mem_append.mp hc with hc | hc
  · cases hepoch : a.epoch with
    | none => rw [hepoch] at hc; cases hc
    | some n =>
      rw [hepoch] at hc
      rcases List.mem_append.mp hc with hc | hc
      · exact .inl (isPlain_digits n c hc)
      · exact .inr (List.mem_singleton.mp hc)
  · exact .inl (a.isPlain_body c hc)

theorem isPlain_core : ∀ c ∈ a.core, IsPlain c ∨ c = '!' ∨ c = '+' := by
  intro c hc
  rw [core] at hc
  rcases List.mem_append.mp hc with hc | hc
  · have hv : IsPlain 'v' := .inr (.inl rfl)
    split at hc
    · rw [List.mem_singleton.mp hc]; exact .inl hv
    · cases hc
  · rcases List.mem_append.mp hc with hc | hc
    · exact (a.isPlain_publicText c hc).imp_right .inl
    · rcases hlocal : a.localSegments with _ | ⟨first, rest⟩
      · rw [hlocal] at hc; cases hc
      · rw [hlocal] at hc
        rcases List.mem_cons.mp hc with rfl | hc
        · exact .inr (.inr rfl)
        rcases List.mem_append.mp hc with hc | hc
        · exact .inl (first.isPlain c hc)
        · obtain ⟨part, -, hc⟩ := List.mem_flatMap.mp hc
          rcases List.mem_cons.mp hc with rfl | hc
          · exact .inl (.inr (.inr (separatorChar_isVersionSeparator part.1)))
          · exact .inl (part.2.isPlain c hc)

theorem trim_text : trim a.text = a.core := by
  have hspace : ∀ c ∈ [' ', '\t', '\n', '\r', '\x0b', '\x0c'], isWhitespace c = true :=
    List.all_eq_true.mp rfl
  refine trim_between ?_ (fun c hc => hspace c (a.before_space c hc))
    (fun c hc => hspace c (a.after_space c hc)) fun c hc => ?_
  · have hne := a.major.ne_nil
    simp [core, publicText, releaseText, hne]
  · rcases a.isPlain_core c hc with h | rfl | rfl
    · exact h.not_whitespace
    · rfl
    · rfl

/-- The version begins with a digit, the `v` apart. -/
theorem dropWhile_core :
    (a.core.dropWhile fun c => c = 'v' ∨ c = 'V') = a.publicText ++ localText a.localSegments := by
  obtain ⟨c, cs, hcs, hdigit⟩ : ∃ c cs, a.publicText ++ localText a.localSegments = c :: cs ∧
      c.isDigit = true := by
    have hhead : ∀ (n : Numeral) (rest : List Char), ∃ c cs, n.digits ++ rest = c :: cs ∧
        c.isDigit = true := by
      intro n rest
      obtain ⟨c, cs, hcs⟩ := List.exists_cons_of_ne_nil n.ne_nil
      exact ⟨c, cs ++ rest, by rw [hcs, List.cons_append],
        List.all_eq_true.mp n.all_digits c (by rw [hcs]; exact List.mem_cons_self)⟩
    cases hepoch : a.epoch with
    | none =>
      rw [publicText, hepoch, epochText, releaseText, List.nil_append, List.append_assoc,
        List.append_assoc]
      exact hhead _ _
    | some n =>
      rw [publicText, hepoch, epochText, List.append_assoc, List.append_assoc]
      exact hhead _ _
  have hnot : ¬ (c = 'v' ∨ c = 'V') := by
    rintro (rfl | rfl) <;> exact absurd hdigit (by decide)
  rw [core, hcs]
  cases a.v <;> simp [hnot]

theorem splitOnce_plus : splitOnce '+' (a.publicText ++ localText a.localSegments) =
    a.localSegments.map fun parts => (a.publicText, (localText (some parts)).tail) := by
  have hnot : '+' ∉ a.publicText := by
    intro h
    have hplus : ¬ (IsPlain '+' ∨ '+' = '!') := by unfold IsPlain; decide
    exact hplus (a.isPlain_publicText _ h)
  rcases hlocal : a.localSegments with _ | ⟨first, rest⟩
  · rw [localText, List.append_nil]
    exact splitOnce_eq_none_iff.mpr hnot
  · exact splitOnce_of_not_mem _ hnot

theorem map_toLower_publicText : a.publicText.map Char.toLower = a.publicText := by
  refine (List.map_congr_left fun c hc => ?_).trans (List.map_id _)
  rcases a.isPlain_publicText c hc with h | rfl
  · exact h.toLower
  · rfl

/-- The qualifiers decide whether a version is read. -/
theorem canonicalVersion_text : canonicalVersion a.text =
    (read a.suffix.text ⟨none, none, none⟩).map fun q => { a.taken with qualifiers := q }.text := by
  have hne : a.publicText ++ localText a.localSegments ≠ [] := by
    have hne := a.major.ne_nil
    simp [publicText, releaseText, hne]
  have hlocal : ((a.localSegments.map fun parts => (localText (some parts)).tail).map
      canonLocal).getD [] = localTextsText a.taken.localTexts := by
    rw [taken]
    rcases a.localSegments with _ | ⟨first, rest⟩
    · rfl
    · exact canonLocal_segments first rest
  have hread : ∀ localPart : Option (List Char),
      (localPart.map canonLocal).getD [] = localTextsText a.taken.localTexts →
      ((splitEpoch (a.publicText.map Char.toLower)).bind fun epoch =>
        (splitRelease epoch.2).bind fun release =>
          (tokenizeVersion release.2).bind fun tokens =>
            (readQualifiers tokens ⟨none, none, none⟩).bind fun q =>
              some (epoch.1 ++ ('!' :: canonRelease release.1) ++ qualifiersText q ++
                (localPart.map canonLocal).getD [])) =
      (read a.suffix.text ⟨none, none, none⟩).map fun q =>
        { a.taken with qualifiers := q }.text := by
    intro localPart hpart
    rw [map_toLower_publicText, publicText, splitEpoch_epochText a.epoch a.isPlain_body,
      Option.bind_some]
    dsimp only
    rw [splitRelease_releaseText a.major a.minor a.suffix.endsRelease, Option.bind_some]
    dsimp only
    rw [canonRelease_releaseText, hpart, read]
    cases tokenizeVersion a.suffix.text with
    | none => rfl
    | some tokens =>
      rw [Option.bind_some, Option.bind_some]
      cases readQualifiers tokens ⟨none, none, none⟩ with
      | none => rfl
      | some q =>
        simp [Taken.text, taken, numbers, Function.comp_def]
  unfold canonicalVersion
  rw [trim_text, dropWhile_core, if_neg hne, splitOnce_plus]
  rcases hparts : a.localSegments with _ | parts
  · rw [show localText none = [] from rfl, List.append_nil]
    exact hread none (by rw [← hlocal, hparts]; rfl)
  · exact hread (some (localText (some parts)).tail) (by rw [← hlocal, hparts]; rfl)

theorem canonicalVersion_text_iff (out : List Char) :
    canonicalVersion a.text = some out ↔ a.suffix.Readable ∧ out = a.taken.text := by
  rw [canonicalVersion_text, Option.map_eq_some_iff]
  simp only [Suffix.read_iff]
  constructor
  · rintro ⟨q, ⟨hreadable, rfl⟩, rfl⟩
    exact ⟨hreadable, rfl⟩
  · rintro ⟨hreadable, rfl⟩
    exact ⟨a.suffix.heard, ⟨hreadable, rfl⟩, rfl⟩

end Spelling

theorem canonicalVersion_iff (w : Written) (out : List Char) :
    canonicalVersion w.text = some out ↔
      w.spelling.suffix.Readable ∧ out = w.spelling.taken.text := by
  rw [← canonicalVersion_toLower, w.spelled, Spelling.canonicalVersion_text_iff]

end Spellings

end ArtifactKeeper.Pypi
