import ArtifactKeeper.Pypi.CanonicalVersion
import Mathlib.Algebra.Group.Nat.Defs
import Mathlib.Data.Bool.AllAny

/-! What the loop over the tokens makes of a suffix that PEP 440 accepts. -/

namespace ArtifactKeeper.Pypi
open Text

section Tokens

/-- A run of letters, or a run of digits. -/
def IsRun (digit : Bool) (cs : List Char) : Prop :=
  cs ≠ [] ∧ ∀ c ∈ cs, c.isDigit = digit ∧ c.isAlpha = !digit

/-- Where such a run ends: the text goes on with a separator or with a run of the other kind. -/
def EndsRun (digit : Bool) (rest : List Char) : Prop :=
  ∀ c ∈ rest.head?, isVersionSeparator c = true ∨ (c.isDigit = !digit ∧ c.isAlpha = digit)

theorem separatorChar_isVersionSeparator (s : Separator) : isVersionSeparator s.char = true := by
  cases s <;> rfl

theorem not_isVersionSeparator {c : Char} {digit : Bool}
    (h : c.isDigit = digit ∧ c.isAlpha = !digit) : isVersionSeparator c = false := by
  rw [isVersionSeparator, decide_eq_false_iff_not]
  rintro (rfl | rfl | rfl) <;> cases digit <;> revert h <;> decide

theorem isRun_numeral (n : Numeral) : IsRun true n.digits := by
  refine ⟨n.ne_nil, fun c hc => ?_⟩
  have hdigit : c.isDigit = true := List.all_eq_true.mp n.all_digits c hc
  refine ⟨hdigit, ?_⟩
  have h0 : '0'.val.toNat = 48 := rfl
  have h9 : '9'.val.toNat = 57 := rfl
  have hA : 'A'.val.toNat = 65 := rfl
  have ha : 'a'.val.toNat = 97 := rfl
  simp only [Char.isDigit, Bool.and_eq_true, decide_eq_true_eq, ge_iff_le,
    UInt32.le_iff_toNat_le] at hdigit
  simp only [isAlpha_eq, isUpper_eq, isLower_eq, Bool.not_true, Bool.or_eq_false_iff,
    Bool.and_eq_false_iff, decide_eq_false_iff_not, ge_iff_le, UInt32.le_iff_toNat_le]
  omega

/-- Without a token begun it does not matter of which kind the last one was. -/
theorem tokenizeFrom_nil (d : Bool) (cs : List Char) :
    tokenizeFrom [] d cs = tokenizeVersion cs := by
  rw [tokenizeVersion]
  induction cs with
  | nil => rfl
  | cons c cs ih =>
    rw [tokenizeFrom, tokenizeFrom, ih]
    simp

theorem tokenizeVersion_separator (s : Separator) (cs : List Char) :
    tokenizeVersion (s.char :: cs) = tokenizeVersion cs := by
  rw [tokenizeVersion, tokenizeFrom, if_pos (separatorChar_isVersionSeparator s),
    tokenizeFrom_nil]
  cases tokenizeVersion cs <;> rfl

theorem tokenizeVersion_separatorText (s : Option Separator) (cs : List Char) :
    tokenizeVersion (separatorText s ++ cs) = tokenizeVersion cs := by
  cases s with
  | none => rfl
  | some s => exact tokenizeVersion_separator s cs

/-- The characters of a run go to the token that is begun, if that is of the same kind. -/
theorem tokenizeFrom_run {digit : Bool} {run : List Char}
    (hrun : ∀ c ∈ run, c.isDigit = digit ∧ c.isAlpha = !digit) (cur rest : List Char) :
    tokenizeFrom cur digit (run ++ rest) = tokenizeFrom (cur ++ run) digit rest := by
  induction run generalizing cur with
  | nil => rw [List.nil_append, List.append_nil]
  | cons c run ih =>
    have hc := hrun c List.mem_cons_self
    have hsep := not_isVersionSeparator hc
    have hstep : tokenizeFrom cur digit (c :: (run ++ rest)) =
        tokenizeFrom (cur ++ [c]) digit (run ++ rest) := by
      rw [tokenizeFrom]
      cases digit <;> simp [hsep, hc.1, hc.2]
    rw [List.cons_append, hstep, ih fun x hx => hrun x (List.mem_cons_of_mem c hx),
      List.append_assoc, List.singleton_append]

theorem tokenizeFrom_endsRun {digit : Bool} {cur rest : List Char} (hcur : cur ≠ [])
    (hrest : EndsRun digit rest) :
    tokenizeFrom cur digit rest = (tokenizeVersion rest).map (cur :: ·) := by
  have hflush : flush cur = (cur :: ·) := funext fun tokens => if_neg hcur
  cases rest with
  | nil => rw [tokenizeFrom, hflush]; rfl
  | cons c rest =>
    rcases hrest c rfl with hsep | ⟨hdigit, halpha⟩
    · rw [tokenizeVersion, tokenizeFrom, tokenizeFrom, if_pos hsep, if_pos hsep, hflush,
        tokenizeFrom_nil, tokenizeFrom_nil, Option.map_map]
      rfl
    · have hsep : isVersionSeparator c = false :=
        @not_isVersionSeparator _ (!digit) ⟨hdigit, by rw [halpha, Bool.not_not]⟩
      rw [tokenizeVersion, tokenizeFrom, tokenizeFrom]
      cases digit <;> simp_all

/-- A whole run is a token. -/
theorem tokenizeVersion_run {digit : Bool} {run rest : List Char} (hrun : IsRun digit run)
    (hrest : EndsRun digit rest) :
    tokenizeVersion (run ++ rest) = (tokenizeVersion rest).map (run :: ·) := by
  rw [← tokenizeFrom_nil digit (run ++ rest), tokenizeFrom_run hrun.2, List.nil_append,
    tokenizeFrom_endsRun hrun.1 hrest]

/-- What has been begun stays at the front of the first token. -/
theorem head_of_tokenizeFrom {cur cs : List Char} {digit : Bool} {tokens : List (List Char)}
    (hcur : cur ≠ []) (h : tokenizeFrom cur digit cs = some tokens) :
    ∃ more rest, tokens = (cur ++ more) :: rest := by
  have hflush : flush cur = (cur :: ·) := funext fun tokens => if_neg hcur
  induction cs generalizing cur digit with
  | nil =>
    rw [tokenizeFrom, hflush, Option.some.injEq] at h
    exact ⟨[], [], by rw [← h, List.append_nil]⟩
  | cons c cs ih =>
    have hnext : ∀ d, tokenizeFrom (cur ++ [c]) d cs = some tokens →
        ∃ more rest, tokens = (cur ++ more) :: rest := by
      intro d hd
      obtain ⟨more, rest, htokens⟩ := ih (by simp) hd (funext fun _ => if_neg (by simp))
      exact ⟨c :: more, rest, by rw [htokens, List.append_assoc, List.singleton_append]⟩
    have hdone : ∀ o : Option (List (List Char)), o.map (flush cur) = some tokens →
        ∃ more rest, tokens = (cur ++ more) :: rest := by
      intro o ho
      obtain ⟨rest, -, hrest⟩ := Option.map_eq_some_iff.mp ho
      rw [hflush] at hrest
      exact ⟨[], rest, by rw [← hrest, List.append_nil]⟩
    rw [tokenizeFrom] at h
    split at h
    · exact hdone _ h
    · split at h <;> split at h
      · exact hdone _ h
      · exact hnext _ h
      · split at h
        · exact hdone _ h
        · exact hnext _ h
      · cases h

end Tokens

section Reading

def read (cs : List Char) (q : Qualifiers) : Option Qualifiers :=
  (tokenizeVersion cs).bind fun tokens => readQualifiers tokens q

theorem read_nil (q : Qualifiers) : read [] q = some q := rfl

theorem read_separatorText (s : Option Separator) (cs : List Char) (q : Qualifiers) :
    read (separatorText s ++ cs) q = read cs q := by
  rw [read, tokenizeVersion_separatorText, read]

theorem parseUnsigned_digits (bound : ℕ) (n : Numeral) :
    parseUnsigned bound n.digits = if n.value < bound then some n.value else none := by
  have hplus : ∀ rest, n.digits ≠ '+' :: rest := by
    intro rest h
    have hmem : '+' ∈ n.digits := h ▸ List.mem_cons_self
    exact absurd (List.all_eq_true.mp n.all_digits _ hmem) (by decide)
  unfold parseUnsigned
  split
  · next rest heq => exact absurd heq (hplus rest)
  · rw [if_neg (by simp [n.ne_nil, n.all_digits])]
    rfl

def labels : List (List Char) :=
  ["a", "alpha", "b", "beta", "c", "rc", "pre", "preview", "post", "rev", "r", "dev"].map
    String.toList

theorem mem_labels_of_kindOf {tok : List Char} (h : kindOf tok ≠ none) : tok ∈ labels := by
  unfold kindOf at h
  unfold labels
  split_ifs at h <;> simp_all
  all_goals aesop

theorem isRun_of_mem_labels : ∀ label ∈ labels, IsRun false label := by
  have hall : (labels.all fun label => label ≠ [] && label.all fun c =>
      c.isDigit = false ∧ c.isAlpha = !false) = true := by decide
  intro label hlabel
  have h := List.all_eq_true.mp hall label hlabel
  rw [Bool.and_eq_true] at h
  exact ⟨of_decide_eq_true h.1, List.all_iff_forall_prop.mp h.2⟩

/-- The labels that may stand behind another one. -/
def laterLabels : List (List Char) := ["post", "rev", "r", "dev"].map String.toList

theorem mem_labels_of_mem_laterLabels : ∀ label ∈ laterLabels, label ∈ labels := by decide

/-- No label begins with two labels. -/
theorem kindOf_glued {label next : List Char} (hlabel : label ∈ labels)
    (hnext : next ∈ laterLabels) (more : List Char) : kindOf (label ++ next ++ more) = none := by
  have hprefix : ∀ label ∈ labels, ∀ next ∈ laterLabels, ∀ word ∈ labels,
      ¬ (label ++ next) <+: word := by decide
  by_contra h
  exact hprefix label hlabel next hnext _ (mem_labels_of_kindOf h) (List.prefix_append _ _)

/-- Nothing, or a label. -/
def AtLabel (rest : List Char) : Prop :=
  rest = [] ∨ ∃ s, ∃ label ∈ labels, ∃ more, rest = separatorText s ++ (label ++ more)

theorem isDigit_label {label : List Char} (hlabel : label ∈ labels) (more : List Char) :
    (label ++ more).all Char.isDigit = false := by
  obtain ⟨hne, hrun⟩ := isRun_of_mem_labels label hlabel
  obtain ⟨c, cs, rfl⟩ := List.exists_cons_of_ne_nil hne
  simp [(hrun c List.mem_cons_self).1]

theorem tokenizeVersion_label {label : List Char} (hlabel : label ∈ labels) (more : List Char) :
    tokenizeVersion (label ++ more) = tokenizeFrom label false more := by
  rw [tokenizeVersion, tokenizeFrom_run (isRun_of_mem_labels label hlabel).2, List.nil_append]

theorem AtLabel.head_tokens {rest : List Char} (h : AtLabel rest) {tokens : List (List Char)}
    (htokens : tokenizeVersion rest = some tokens) :
    ∀ tok ∈ tokens.head?, tok.all Char.isDigit = false := by
  rcases h with rfl | ⟨s, label, hlabel, more, rfl⟩
  · obtain rfl : [] = tokens := Option.some.inj htokens
    simp
  · rw [tokenizeVersion_separatorText, tokenizeVersion_label hlabel] at htokens
    obtain ⟨more', rest, rfl⟩ :=
      head_of_tokenizeFrom (isRun_of_mem_labels label hlabel).1 htokens
    intro tok htok
    obtain rfl : label ++ more' = tok := Option.some.inj htok
    exact isDigit_label hlabel more'

theorem AtLabel.endsRun {rest : List Char} (h : AtLabel rest) : EndsRun true rest := by
  rcases h with rfl | ⟨s, label, hlabel, more, rfl⟩
  · simp [EndsRun]
  · intro c hc
    cases s with
    | some s =>
      obtain rfl : s.char = c := Option.some.inj hc
      exact .inl (separatorChar_isVersionSeparator s)
    | none =>
      obtain ⟨hne, hrun⟩ := isRun_of_mem_labels label hlabel
      obtain ⟨c', label, rfl⟩ := List.exists_cons_of_ne_nil hne
      obtain rfl : c' = c := Option.some.inj hc
      exact .inr (hrun c' List.mem_cons_self)

section Labels
variable {label : List Char} {kind : Kind} (hkind : kindOf label = some kind)
include hkind

theorem mem_labels : label ∈ labels := mem_labels_of_kindOf (by rw [hkind]; simp)

theorem isDigit_label_eq_false : label.all Char.isDigit = false := by
  simpa using isDigit_label (mem_labels hkind) []

theorem readQualifiers_numbered {number : List Char} (hnumber : number.all Char.isDigit = true)
    (tokens : List (List Char)) (q : Qualifiers) :
    readQualifiers (label :: number :: tokens) q =
      (parseUnsigned (2 ^ 64) number).bind fun n => readQualifiers tokens (q.set n kind) := by
  rw [readQualifiers.eq_def]
  dsimp only
  rw [if_neg (by simp [isDigit_label_eq_false hkind]), hkind, Option.bind_some, if_pos hnumber]

theorem readQualifiers_bare {tokens : List (List Char)}
    (hhead : ∀ tok ∈ tokens.head?, tok.all Char.isDigit = false) (q : Qualifiers) :
    readQualifiers (label :: tokens) q = readQualifiers tokens (q.set 0 kind) := by
  rw [readQualifiers.eq_def]
  dsimp only
  rw [if_neg (by simp [isDigit_label_eq_false hkind]), hkind, Option.bind_some]
  cases tokens with
  | nil => rfl
  | cons tok tokens => exact if_neg (by simp [hhead tok rfl])

/-- A label with its number, and what separates them. -/
theorem read_numbered (s : Option Separator) (n : Numeral) {rest : List Char}
    (hrest : EndsRun true rest) (q : Qualifiers) :
    read (label ++ (separatorText s ++ (n.digits ++ rest))) q =
      if n.value < 2 ^ 64 then read rest (q.set n.value kind) else none := by
  have hends : EndsRun false (separatorText s ++ (n.digits ++ rest)) := by
    intro c hc
    cases s with
    | some s =>
      obtain rfl : s.char = c := Option.some.inj hc
      exact .inl (separatorChar_isVersionSeparator s)
    | none =>
      obtain ⟨hne, hrun⟩ := isRun_numeral n
      obtain ⟨c', digits, hdigits⟩ := List.exists_cons_of_ne_nil hne
      rw [hdigits] at hc hrun
      obtain rfl : c' = c := Option.some.inj hc
      exact .inr (hrun c' List.mem_cons_self)
  rw [read, tokenizeVersion_run (isRun_of_mem_labels label (mem_labels hkind)) hends,
    tokenizeVersion_separatorText, tokenizeVersion_run (isRun_numeral n) hrest, read]
  cases tokenizeVersion rest with
  | none => simp
  | some tokens =>
    simp only [Option.map_some, Option.bind_some, readQualifiers_numbered hkind n.all_digits,
      parseUnsigned_digits]
    split <;> rfl

/-- A label that has no number. -/
theorem read_bare {rest : List Char} (hends : EndsRun false rest)
    (hhead : ∀ tokens, tokenizeVersion rest = some tokens →
      ∀ tok ∈ tokens.head?, tok.all Char.isDigit = false) (q : Qualifiers) :
    read (label ++ rest) q = read rest (q.set 0 kind) := by
  rw [read, tokenizeVersion_run (isRun_of_mem_labels label (mem_labels hkind)) hends, read]
  cases htokens : tokenizeVersion rest with
  | none => rfl
  | some tokens => exact readQualifiers_bare hkind (hhead tokens htokens) q

/-- A label that goes over into the next one. -/
theorem read_glued {next : List Char} (hnext : next ∈ laterLabels) (more : List Char)
    (q : Qualifiers) : read (label ++ (next ++ more)) q = none := by
  have hlabels := mem_labels hkind
  have hlater := mem_labels_of_mem_laterLabels next hnext
  rw [read, tokenizeVersion_label hlabels, tokenizeFrom_run (isRun_of_mem_labels next hlater).2]
  cases htokens : tokenizeFrom (label ++ next) false more with
  | none => rfl
  | some tokens =>
    obtain ⟨more', rest, rfl⟩ :=
      head_of_tokenizeFrom (by simp [(isRun_of_mem_labels label hlabels).1]) htokens
    rw [Option.bind_some, readQualifiers.eq_def]
    dsimp only
    rw [if_neg, kindOf_glued hlabels hnext, Option.bind_none]
    rw [List.append_assoc, isDigit_label hlabels]
    simp

end Labels

end Reading

section Suffixes

def PreLabel.kind (l : PreLabel) : Kind := .pre l.letter

theorem kindOf_preLabel (l : PreLabel) : kindOf l.text = some l.kind := by cases l <;> rfl

theorem kindOf_postLabel (l : PostLabel) : kindOf l.text = some .post := by cases l <;> rfl

theorem kindOf_devLabel (l : DevLabel) : kindOf l.text = some .dev := by cases l; rfl

theorem postLabel_mem_laterLabels (l : PostLabel) : l.text ∈ laterLabels := by
  cases l <;> decide

theorem devLabel_mem_laterLabels (l : DevLabel) : l.text ∈ laterLabels := by cases l; decide

/-- Something stands between the labels of the two. -/
def Qualifier.Apart {L M : Type} (q : Qualifier L) (next : Qualifier M) : Prop :=
  q.trail ≠ none ∨ q.number ≠ none ∨ next.lead ≠ none

section Qualifiers
variable {L M : Type} {labelText : L → List Char} {kind : L → Kind}

theorem atLabel_text {q : Qualifier L} (h : labelText q.label ∈ labels) (rest : List Char) :
    AtLabel (q.text labelText ++ rest) :=
  .inr ⟨q.lead, labelText q.label, h,
    separatorText q.trail ++ numberText q.number ++ rest, by simp [Qualifier.text]⟩

variable (hkind : ∀ l, kindOf (labelText l) = some (kind l))
include hkind

/-- A qualifier that no label is glued to. -/
theorem read_text (q : Qualifier L) {rest : List Char} (hrest : AtLabel rest)
    (happart : q.trail = none → q.number = none → EndsRun false rest) (r : Qualifiers) :
    read (q.text labelText ++ rest) r =
      if q.value < 2 ^ 64 then read rest (r.set q.value (kind q.label)) else none := by
  obtain ⟨lead, label, trail, number⟩ := q
  rw [Qualifier.text]
  simp only [List.append_assoc, read_separatorText]
  cases number with
  | some n => exact read_numbered (hkind label) trail n hrest.endsRun r
  | none =>
    have hzero : (0 : ℕ) < 2 ^ 64 := by decide
    have hends : EndsRun false (separatorText trail ++ rest) := by
      cases trail with
      | none => exact happart rfl rfl
      | some s =>
        intro c hc
        obtain rfl : s.char = c := Option.some.inj hc
        exact .inl (separatorChar_isVersionSeparator s)
    have hhead : ∀ tokens, tokenizeVersion (separatorText trail ++ rest) = some tokens →
        ∀ tok ∈ tokens.head?, tok.all Char.isDigit = false := by
      intro tokens htokens
      rw [tokenizeVersion_separatorText] at htokens
      exact hrest.head_tokens htokens
    rw [numberText, List.nil_append, read_bare (hkind label) hends hhead, read_separatorText]
    exact (if_pos hzero).symm

variable {nextText : M → List Char} (hnext : ∀ l, nextText l ∈ laterLabels)
include hnext

/-- A qualifier in front of another one. -/
theorem read_before (q : Qualifier L) (next : Qualifier M) (rest : List Char) (r s : Qualifiers) :
    read (q.text labelText ++ (next.text nextText ++ rest)) r = some s ↔
      q.value < 2 ^ 64 ∧ q.Apart next ∧
        read (next.text nextText ++ rest) (r.set q.value (kind q.label)) = some s := by
  by_cases happart : q.Apart next
  · have hrest : AtLabel (next.text nextText ++ rest) :=
      atLabel_text (mem_labels_of_mem_laterLabels _ (hnext next.label)) rest
    have hends : q.trail = none → q.number = none →
        EndsRun false (next.text nextText ++ rest) := by
      intro htrail hnumber
      obtain ⟨lead, hlead⟩ : ∃ lead, next.lead = some lead := by
        rcases happart with h | h | h
        · exact absurd htrail h
        · exact absurd hnumber h
        · exact Option.ne_none_iff_exists'.mp h
      intro c hc
      rw [Qualifier.text, hlead] at hc
      obtain rfl : lead.char = c := Option.some.inj hc
      exact .inl (separatorChar_isVersionSeparator lead)
    rw [read_text hkind q hrest hends]
    by_cases hfits : q.value < 2 ^ 64 <;> simp [-Nat.reducePow, hfits, happart]
  · have hglued := happart
    rw [Qualifier.Apart, not_or, not_or, not_not, not_not, not_not] at hglued
    obtain ⟨htrail, hnumber, hlead⟩ := hglued
    have hnone : read (q.text labelText ++ (next.text nextText ++ rest)) r = none := by
      rw [Qualifier.text, Qualifier.text, htrail, hnumber, hlead]
      simp only [List.append_assoc, read_separatorText]
      exact read_glued (hkind q.label) (hnext next.label) _ r
    simp [hnone, happart]

end Qualifiers

section Implicit

theorem kindOf_numeral (n : Numeral) : kindOf n.digits = none := by
  by_contra h
  have hlabel := isDigit_label (mem_labels_of_kindOf h) []
  rw [List.append_nil, n.all_digits] at hlabel
  cases hlabel

theorem endsRun_hyphen (digit : Bool) (rest : List Char) : EndsRun digit ('-' :: rest) := by
  intro c hc
  obtain rfl : '-' = c := Option.some.inj hc
  exact .inl rfl

/-- `-N` is read as a post-release right behind the release only. -/
theorem read_implicit (n : Numeral) {rest : List Char} (hrest : EndsRun true rest)
    (r : Qualifiers) :
    read ('-' :: (n.digits ++ rest)) r =
      if (r.pre = none ∧ r.post = none ∧ r.dev = none) ∧ n.value < 2 ^ 64 then
        read rest { r with post := some n.value }
      else none := by
  rw [read, show ('-' : Char) = Separator.hyphen.char from rfl, tokenizeVersion_separator,
    tokenizeVersion_run (isRun_numeral n) hrest, read]
  cases tokenizeVersion rest with
  | none => simp
  | some tokens =>
    rw [Option.map_some, Option.bind_some, readQualifiers.eq_def]
    dsimp only
    rw [n.all_digits, parseUnsigned_digits, kindOf_numeral]
    by_cases hfirst : r.pre = none ∧ r.post = none ∧ r.dev = none <;>
      by_cases hfits : n.value < 2 ^ 64 <;> simp [-Nat.reducePow, hfirst, hfits]

/-- Behind a pre-release without a number `-N` gives it one, whatever stands between them. -/
theorem read_pre_implicit {q : Qualifier PreLabel} (hnumber : q.number = none)
    (htrail : q.trail ≠ none) (n : Numeral) {rest : List Char} (hrest : EndsRun true rest)
    (r : Qualifiers) :
    read (q.text PreLabel.text ++ ('-' :: (n.digits ++ rest))) r =
      if n.value < 2 ^ 64 then read rest (r.set n.value q.label.kind) else none := by
  obtain ⟨s, hs⟩ := Option.ne_none_iff_exists'.mp htrail
  have hlabel := mem_labels (kindOf_preLabel q.label)
  have hends : ∀ cs, EndsRun false (separatorText (some s) ++ cs) := by
    intro cs c hc
    obtain rfl : s.char = c := Option.some.inj hc
    exact .inl (separatorChar_isVersionSeparator s)
  have htokens : tokenizeVersion
      (q.label.text ++ (separatorText (some s) ++ ('-' :: (n.digits ++ rest)))) =
      tokenizeVersion (q.label.text ++ (separatorText (some s) ++ (n.digits ++ rest))) := by
    rw [tokenizeVersion_run (isRun_of_mem_labels _ hlabel) (hends _),
      tokenizeVersion_run (isRun_of_mem_labels _ hlabel) (hends _), tokenizeVersion_separatorText,
      tokenizeVersion_separatorText, show ('-' : Char) = Separator.hyphen.char from rfl,
      tokenizeVersion_separator]
  rw [Qualifier.text, hnumber, hs]
  simp only [List.append_assoc, read_separatorText, numberText, List.nil_append]
  rw [read, htokens]
  exact read_numbered (kindOf_preLabel q.label) (some s) n hrest r

/-- Behind a pre-release with a number `-N` is not read at all. -/
theorem read_numbered_implicit {q : Qualifier PreLabel} {m : Numeral} (hnumber : q.number = some m)
    (n : Numeral) {rest : List Char} (hrest : EndsRun true rest) (r : Qualifiers) :
    read (q.text PreLabel.text ++ ('-' :: (n.digits ++ rest))) r = none := by
  rw [Qualifier.text, hnumber]
  simp only [List.append_assoc, read_separatorText]
  rw [show numberText (some m) = m.digits from rfl,
    read_numbered (kindOf_preLabel q.label) q.trail m (endsRun_hyphen true _),
    read_implicit n hrest]
  simp [PreLabel.kind, Qualifiers.set]

end Implicit

namespace Suffix

/-- The suffixes that are read at all: their numbers fit, no number stands behind a number, and no
label is glued to the one before. -/
@[mk_iff]
structure Readable (x : Suffix) : Prop where
  pre_fits : ∀ q ∈ x.pre, q.value < 2 ^ 64
  post_fits : ∀ p ∈ x.post, p.value < 2 ^ 64
  dev_fits : ∀ q ∈ x.dev, q.value < 2 ^ 64
  implicit_number : ∀ q ∈ x.pre, ∀ n, x.post = some (.implicit n) → q.number = none
  pre_apart_post : ∀ q ∈ x.pre, ∀ p, x.post = some (.labelled p) → q.Apart p
  pre_apart_dev : ∀ q ∈ x.pre, x.post = none → ∀ d ∈ x.dev, q.Apart d
  post_apart_dev : ∀ p, x.post = some (.labelled p) → ∀ d ∈ x.dev, p.Apart d

/-- What is read then: behind a pre-release an implicit post-release counts as its number. -/
def heard (x : Suffix) : Qualifiers :=
  match x.pre, x.post with
  | some q, some (.implicit n) =>
    { pre := some (q.label.letter, n.value), post := none, dev := x.dev.map Qualifier.value }
  | pre, post =>
    { pre := pre.map fun q => (q.label.letter, q.value), post := post.map Post.value,
      dev := x.dev.map Qualifier.value }

def devText (dev : Option (Qualifier DevLabel)) : List Char :=
  (dev.map (Qualifier.text DevLabel.text)).getD []

theorem endsRun_devText (dev : Option (Qualifier DevLabel)) : EndsRun true (devText dev) := by
  cases dev with
  | none => simp [EndsRun, devText]
  | some d =>
    have h := atLabel_text (mem_labels (kindOf_devLabel d.label)) []
    rw [List.append_nil] at h
    exact h.endsRun

theorem read_devText (dev : Option (Qualifier DevLabel)) {r : Qualifiers} (hr : r.dev = none)
    (s : Qualifiers) :
    read (devText dev) r = some s ↔
      (∀ d ∈ dev, d.value < 2 ^ 64) ∧ s = { r with dev := dev.map Qualifier.value } := by
  cases dev with
  | none =>
    have hsame : { r with dev := none } = r := by rw [← hr]
    simp [devText, read_nil, hsame, eq_comm]
  | some d =>
    have htext : devText (some d) = d.text DevLabel.text ++ [] := (List.append_nil _).symm
    rw [htext, read_text kindOf_devLabel d (.inl rfl) (fun _ _ => by simp [EndsRun]), read_nil]
    by_cases hfits : d.value < 2 ^ 64 <;>
      simp [-Nat.reducePow, hfits, Qualifiers.set, eq_comm]

theorem read_beforeDev {L : Type} {labelText : L → List Char} {kind : L → Kind}
    (hkind : ∀ l, kindOf (labelText l) = some (kind l)) (q : Qualifier L)
    (dev : Option (Qualifier DevLabel)) {r : Qualifiers}
    (hr : (r.set q.value (kind q.label)).dev = none) (s : Qualifiers) :
    read (q.text labelText ++ devText dev) r = some s ↔
      q.value < 2 ^ 64 ∧ (∀ d ∈ dev, q.Apart d) ∧ (∀ d ∈ dev, d.value < 2 ^ 64) ∧
        s = { r.set q.value (kind q.label) with dev := dev.map Qualifier.value } := by
  have hdev := read_devText dev hr s
  cases dev with
  | none =>
    rw [show devText none = [] from rfl] at hdev ⊢
    rw [read_text hkind q (.inl rfl) (fun _ _ => by simp [EndsRun])]
    by_cases hfits : q.value < 2 ^ 64
    · rw [if_pos hfits]
      exact hdev.trans (by simp [-Nat.reducePow, hfits])
    · simp [-Nat.reducePow, hfits]
  | some d =>
    have htext : devText (some d) = d.text DevLabel.text ++ [] := (List.append_nil _).symm
    rw [htext] at hdev ⊢
    rw [read_before hkind devLabel_mem_laterLabels, hdev]
    simp [-Nat.reducePow]

theorem read_without_pre (post : Option Post) (dev : Option (Qualifier DevLabel))
    (s : Qualifiers) :
    read ((post.map Post.text).getD [] ++ devText dev) ⟨none, none, none⟩ = some s ↔
      (∀ p ∈ post, p.value < 2 ^ 64) ∧ (∀ d ∈ dev, d.value < 2 ^ 64) ∧
        (∀ p, post = some (.labelled p) → ∀ d ∈ dev, p.Apart d) ∧
          s = ⟨none, post.map Post.value, dev.map Qualifier.value⟩ := by
  rcases post with _ | n | p
  · have h := read_devText dev (r := ⟨none, none, none⟩) rfl s
    simpa [-Nat.reducePow] using h
  · have h := read_devText dev (r := ⟨none, some n.value, none⟩) rfl s
    rw [show ((some (Post.implicit n)).map Post.text).getD [] = '-' :: n.digits from rfl,
      List.cons_append, read_implicit n (endsRun_devText dev)]
    by_cases hfits : n.value < 2 ^ 64 <;> simp [-Nat.reducePow, hfits, Post.value, h]
  · refine (read_beforeDev kindOf_postLabel p dev (r := ⟨none, none, none⟩) rfl s).trans ?_
    simp [-Nat.reducePow, Post.value, Qualifiers.set]
    tauto

theorem read_iff (x : Suffix) (s : Qualifiers) :
    read x.text ⟨none, none, none⟩ = some s ↔ x.Readable ∧ s = x.heard := by
  obtain ⟨pre, post, dev, hpre⟩ := x
  rw [readable_iff]
  cases pre with
  | none =>
    refine (read_without_pre post dev s).trans ?_
    simp [-Nat.reducePow, heard, and_assoc]
  | some q =>
    rcases post with _ | n | p
    · refine (read_beforeDev kindOf_preLabel q dev (r := ⟨none, none, none⟩) rfl s).trans ?_
      simp [-Nat.reducePow, heard, PreLabel.kind, Qualifiers.set]
      tauto
    · rw [show text ⟨some q, some (.implicit n), dev, hpre⟩ =
        q.text PreLabel.text ++ ('-' :: (n.digits ++ devText dev)) from rfl]
      cases hnumber : q.number with
      | some m =>
        rw [read_numbered_implicit hnumber n (endsRun_devText dev)]
        simp [hnumber]
      | none =>
        have hzero : q.value < 2 ^ 64 := by simp [Qualifier.value, hnumber]
        rw [read_pre_implicit hnumber (hpre q n rfl rfl hnumber) n (endsRun_devText dev)]
        have hdev := read_devText dev
          (r := { pre := some (q.label.letter, n.value), post := none, dev := none }) rfl s
        by_cases hfits : n.value < 2 ^ 64 <;>
          simp [-Nat.reducePow, hfits, hzero, hnumber, heard, Post.value, PreLabel.kind,
            Qualifiers.set, hdev]
    · refine (read_before kindOf_preLabel postLabel_mem_laterLabels q p (devText dev)
        ⟨none, none, none⟩ s).trans ?_
      rw [read_beforeDev kindOf_postLabel p dev rfl s]
      simp [-Nat.reducePow, heard, PreLabel.kind, Qualifiers.set, Post.value]
      tauto

end Suffix

end Suffixes

end ArtifactKeeper.Pypi
