import Mathlib.Data.List.Destutter
import ArtifactKeeper.Glob
import ArtifactKeeper.Text

/-! The folding of package names and rule patterns after PEP 503, and the patterns that it neither
widens nor narrows. -/

namespace ArtifactKeeper.Curation
open Glob Text

def isSeparator (c : Char) : Bool := c = '-' ∨ c = '_' ∨ c = '.'

/-- What the loop of the fold pushes, by whether the character before was a separator. -/
def foldLoop : Bool → List Char → List Char
  | _, [] => []
  | lastWasSep, c :: cs =>
    if isSeparator c then
      if lastWasSep then foldLoop true cs else '-' :: foldLoop true cs
    else c.toLower :: foldLoop false cs

def foldPep503 (value : String) : String :=
  let out := foldLoop true value.toList
  String.ofList (if out.getLast? = some '-' then out.dropLast else out)

section Names

/-- `^([A-Z0-9]|[A-Z0-9][A-Z0-9._-]*[A-Z0-9])$`, letters of either case. -/
structure ValidName (name : List Char) : Prop where
  ne_nil : name ≠ []
  chars : ∀ c ∈ name, c.isAlphanum = true ∨ isSeparator c = true
  head : ∀ c ∈ name.head?, isSeparator c = false
  last : ∀ c ∈ name.getLast?, isSeparator c = false

def foldChar (c : Char) : Char := if isSeparator c then '-' else c.toLower

/-- `re.sub(r"[-_.]+", "-", name).lower()`. -/
def pep503Name (name : List Char) : List Char :=
  (name.map foldChar).destutter fun c d => ¬ (c = '-' ∧ d = '-')

/-- The names of the project called `name`. -/
def Spelling (name other : String) : Prop :=
  ValidName other.toList ∧ pep503Name other.toList = pep503Name name.toList

end Names

section Fold
variable {c d : Char} {cs cs' : List Char} {lastWasSep : Bool}

@[simp] theorem foldLoop_nil : foldLoop lastWasSep [] = [] := rfl

theorem foldLoop_sep (h : isSeparator c = true) : foldLoop lastWasSep (c :: cs) =
    if lastWasSep then foldLoop true cs else '-' :: foldLoop true cs := by
  rw [foldLoop, if_pos h]

theorem foldLoop_letter (h : isSeparator c = false) :
    foldLoop lastWasSep (c :: cs) = c.toLower :: foldLoop false cs := by
  rw [foldLoop, if_neg (by simp [h])]

theorem isSeparator_toLower (c : Char) : isSeparator c.toLower = isSeparator c := by
  rcases toLower_cases c with h | ⟨n, hn, rfl⟩
  · rw [h]
  · revert n
    decide

theorem isSeparator_foldChar (c : Char) : isSeparator (foldChar c) = isSeparator c := by
  unfold foldChar
  split
  · next h => rw [h]; rfl
  · exact isSeparator_toLower c

/-- The loop does not see a character beyond its fold. -/
theorem foldLoop_cons_congr (hc : foldChar c = foldChar d)
    (h : foldLoop (isSeparator c) cs = foldLoop (isSeparator c) cs') :
    foldLoop lastWasSep (c :: cs) = foldLoop lastWasSep (d :: cs') := by
  have hsep : isSeparator d = isSeparator c := by
    rw [← isSeparator_foldChar, ← hc, isSeparator_foldChar]
  cases hcs : isSeparator c with
  | true =>
    rw [hcs] at h hsep
    rw [foldLoop_sep hcs, foldLoop_sep hsep, h]
  | false =>
    rw [hcs] at h hsep
    rw [foldLoop_letter hcs, foldLoop_letter hsep, h]
    rw [foldChar, foldChar, hcs, hsep] at hc
    exact congrArg (· :: _) hc

theorem foldChar_foldChar (c : Char) : foldChar (foldChar c) = foldChar c := by
  unfold foldChar
  cases h : isSeparator c with
  | true => rfl
  | false => simp only [isSeparator_toLower, h, Bool.false_eq_true, if_false, toLower_toLower]

/-- A literal of the pattern, as it is and as it is folded. -/
theorem foldChar_eq_wildcard {w : Char} (hw : w = '*' ∨ w = '?') : foldChar c = w ↔ c = w := by
  unfold foldChar
  split
  · next h =>
    constructor
    · rintro rfl
      rcases hw with hw | hw <;> exact absurd hw (by decide)
    · rintro rfl
      rcases hw with rfl | rfl <;> exact absurd h (by decide)
  · rcases toLower_cases c with h | ⟨n, hn, rfl⟩
    · rw [h]
    · rcases hw with rfl | rfl
      · revert n
        decide
      · revert n
        decide

end Fold

section Patterns
variable {c : Char} {pattern text : List Char} {f g : Bool}

theorem foldLoop_star : foldLoop f ('*' :: pattern) = '*' :: foldLoop false pattern :=
  foldLoop_letter rfl

theorem foldLoop_mark : foldLoop f ('?' :: pattern) = '?' :: foldLoop false pattern :=
  foldLoop_letter rfl

/-- A star may take over character by character what another took. -/
theorem exists_star_append
    (h : ∀ g, ∃ other, GlobMeaning pattern other ∧ foldLoop g other = foldLoop g text)
    (skipped : List Char) :
    ∃ other, GlobMeaning ('*' :: pattern) other ∧
      foldLoop g other = foldLoop g (skipped ++ text) := by
  induction skipped generalizing g with
  | nil =>
    obtain ⟨other, hother, heq⟩ := h g
    exact ⟨other, hother.star, heq⟩
  | cons d skipped ih =>
    obtain ⟨other, hother, heq⟩ := @ih (isSeparator d)
    exact ⟨d :: other, hother.star_cons d, foldLoop_cons_congr rfl heq⟩

/-- What a pattern matches, the folded one matches up to the fold of the text. -/
theorem globMeaning_foldLoop (h : GlobMeaning pattern text) (hfg : f = true → g = true) :
    ∃ other, GlobMeaning (foldLoop f pattern) other ∧ foldLoop g other = foldLoop g text := by
  induction pattern generalizing f g text with
  | nil =>
    rw [globMeaning_nil] at h
    exact ⟨[], globMeaning_nil.mpr rfl, by rw [h]⟩
  | cons c pattern ih =>
    by_cases hstar : c = '*'
    · subst hstar
      obtain ⟨skipped, rest, rfl, hrest⟩ := globMeaning_star_append.mp h
      rw [foldLoop_star]
      exact exists_star_append (fun g => ih hrest (by simp)) skipped
    · by_cases hmark : c = '?'
      · subst hmark
        obtain ⟨d, rest, rfl, hrest⟩ := globMeaning_mark.mp h
        obtain ⟨other, hother, heq⟩ := @ih rest false (isSeparator d) hrest (by simp)
        rw [foldLoop_mark]
        exact ⟨d :: other, globMeaning_mark.mpr ⟨d, other, rfl, hother⟩,
          foldLoop_cons_congr rfl heq⟩
      · obtain ⟨rest, rfl, hrest⟩ := (globMeaning_literal hstar hmark).mp h
        obtain ⟨other, hother, heq⟩ := @ih rest (isSeparator c) (isSeparator c) hrest id
        have hfold : GlobMeaning (foldChar c :: foldLoop (isSeparator c) pattern)
            (foldChar c :: other) := by
          refine (globMeaning_literal ?_ ?_).mpr ⟨other, rfl, hother⟩
          · rwa [ne_eq, foldChar_eq_wildcard (.inl rfl)]
          · rwa [ne_eq, foldChar_eq_wildcard (.inr rfl)]
        have hcongr : foldLoop g (foldChar c :: other) = foldLoop g (c :: rest) :=
          foldLoop_cons_congr (foldChar_foldChar c) (by rw [isSeparator_foldChar, heq])
        cases hsep : isSeparator c with
        | false =>
          rw [hsep] at hfold
          rw [foldLoop_letter hsep]
          rw [foldChar, hsep] at hfold hcongr
          exact ⟨_, hfold, hcongr⟩
        | true =>
          rw [hsep] at hfold hother heq
          rw [foldLoop_sep hsep]
          cases f with
          | false =>
            rw [foldChar, hsep] at hfold hcongr
            exact ⟨_, hfold, hcongr⟩
          | true =>
            rw [hfg rfl, foldLoop_sep hsep]
            exact ⟨other, hother, heq⟩

/-- What the folded pattern matches, the pattern itself matches up to the fold of the text. -/
theorem globMeaning_of_foldLoop (h : GlobMeaning (foldLoop f pattern) text)
    (hfg : f = true → g = true) :
    ∃ other, GlobMeaning pattern other ∧ foldLoop g other = foldLoop g text := by
  induction pattern generalizing f g text with
  | nil => exact ⟨text, h, rfl⟩
  | cons c pattern ih =>
    by_cases hstar : c = '*'
    · subst hstar
      rw [foldLoop_star] at h
      obtain ⟨skipped, rest, rfl, hrest⟩ := globMeaning_star_append.mp h
      exact exists_star_append (fun g => ih hrest (by simp)) skipped
    · by_cases hmark : c = '?'
      · subst hmark
        rw [foldLoop_mark] at h
        obtain ⟨d, rest, rfl, hrest⟩ := globMeaning_mark.mp h
        obtain ⟨other, hother, heq⟩ := @ih rest false (isSeparator d) hrest (by simp)
        exact ⟨d :: other, globMeaning_mark.mpr ⟨d, other, rfl, hother⟩,
          foldLoop_cons_congr rfl heq⟩
      · have hfold : ∀ {rest}, GlobMeaning (foldLoop (isSeparator c) pattern) rest →
            ∃ other, GlobMeaning (c :: pattern) other ∧
              foldLoop g other = foldLoop g (foldChar c :: rest) := by
          intro rest h
          obtain ⟨other, hother, heq⟩ := @ih rest (isSeparator c) (isSeparator c) h id
          exact ⟨c :: other, (globMeaning_literal hstar hmark).mpr ⟨other, rfl, hother⟩,
            foldLoop_cons_congr (foldChar_foldChar c).symm heq⟩
        have hstar' : foldChar c ≠ '*' := by rwa [ne_eq, foldChar_eq_wildcard (.inl rfl)]
        have hmark' : foldChar c ≠ '?' := by rwa [ne_eq, foldChar_eq_wildcard (.inr rfl)]
        cases hsep : isSeparator c with
        | false =>
          rw [hsep] at hfold
          rw [foldLoop_letter hsep] at h
          rw [foldChar, hsep] at hfold hstar' hmark'
          obtain ⟨rest, rfl, hrest⟩ := (globMeaning_literal hstar' hmark').mp h
          exact hfold hrest
        | true =>
          rw [hsep] at hfold
          rw [foldLoop_sep hsep] at h
          rw [foldChar, hsep] at hfold
          cases f with
          | false =>
            obtain ⟨rest, rfl, hrest⟩ := (globMeaning_literal (by decide) (by decide)).mp h
            exact hfold hrest
          | true =>
            obtain ⟨other, hother, heq⟩ := hfold h
            rw [hfg rfl] at heq ⊢
            exact ⟨other, hother, heq⟩

end Patterns

section Closed
variable {c : Char} {pattern text : List Char}

/-- In a folded pattern: it can stand for one hyphen of a name. -/
def MayBeHyphen (c : Char) : Prop := c = '-' ∨ c = '?'

instance (c : Char) : Decidable (MayBeHyphen c) := inferInstanceAs (Decidable (_ ∨ _))

/-- The characters of a pattern that take one each. -/
def required (pattern : List Char) : List Char := pattern.filter (· ≠ '*')

/-- No two neighbours can both stand for a hyphen. -/
def Spaced (cs : List Char) : Prop := cs.IsChain fun c d => ¬ (MayBeHyphen c ∧ MayBeHyphen d)

instance (cs : List Char) : Decidable (Spaced cs) := inferInstanceAs (Decidable (List.IsChain _ _))

theorem Spaced.tail {cs : List Char} (h : Spaced (c :: cs)) : Spaced cs := List.IsChain.tail h

theorem Spaced.hyphen {cs : List Char} (h : Spaced (c :: cs)) (hc : MayBeHyphen c) :
    Spaced ('-' :: cs) := by
  cases cs with
  | nil => exact List.IsChain.singleton _
  | cons d cs =>
    rw [Spaced, List.isChain_cons_cons] at h ⊢
    exact ⟨fun hd => h.1 ⟨hc, hd.2⟩, h.2⟩

theorem not_spaced {d : Char} {cs : List Char} (hc : MayBeHyphen c) (hd : MayBeHyphen d) :
    ¬ Spaced (c :: d :: cs) := by
  rw [Spaced, List.isChain_cons_cons]
  exact fun h => h.1 ⟨hc, hd⟩

theorem required_cons (hc : c ≠ '*') : required (c :: pattern) = c :: required pattern := by
  rw [required, List.filter_cons_of_pos (by simpa using hc)]
  rfl

theorem required_star : required ('*' :: pattern) = required pattern := by
  rw [required, List.filter_cons_of_neg (by decide)]
  rfl

/-- A text that a folded pattern matches, with its runs of separators collapsed: at the start, in a
run whose hyphen a star took, and in a run whose hyphen is taken by a character of its own. -/
structure Collapses (pattern text : List Char) : Prop where
  fresh : Spaced (required pattern) → GlobMeaning pattern (foldLoop false text)
  starred : Spaced (required pattern) → GlobMeaning ('*' :: pattern) ('-' :: foldLoop true text)
  taken : Spaced ('-' :: required pattern) → GlobMeaning pattern (foldLoop true text)

theorem collapses_nil : Collapses [] [] where
  fresh _ := globMeaning_nil.mpr rfl
  starred _ := ((globMeaning_nil.mpr rfl).star).star_cons _
  taken _ := globMeaning_nil.mpr rfl

theorem Collapses.star_append (h : Collapses pattern text) (skipped : List Char) :
    Collapses ('*' :: pattern) (skipped ++ text) := by
  induction skipped with
  | nil =>
    constructor <;> rw [required_star]
    · exact fun hs => (h.fresh hs).star
    · exact fun hs => (h.starred hs).star
    · exact fun hs => (h.taken hs).star
  | cons d skipped ih =>
    obtain ⟨fresh, starred, taken⟩ := ih
    cases hd : isSeparator d with
    | true =>
      constructor <;> rw [List.cons_append, foldLoop_sep hd]
      · exact fun hs => globMeaning_star_star.mp (starred hs)
      · exact starred
      · exact taken
    | false =>
      constructor <;> rw [List.cons_append, foldLoop_letter hd]
      · exact fun hs => (fresh hs).star_cons _
      · exact fun hs => ((fresh hs).star.star_cons _).star_cons _
      · rw [required_star] at fresh ⊢
        exact fun hs => (fresh hs.tail).star_cons _

theorem Collapses.mark {d : Char} (h : Collapses pattern text) :
    Collapses ('?' :: pattern) (d :: text) := by
  have hmark : required ('?' :: pattern) = '?' :: required pattern := required_cons (by decide)
  cases hd : isSeparator d with
  | true =>
    constructor <;> rw [hmark, foldLoop_sep hd]
    · exact fun hs => globMeaning_mark.mpr ⟨_, _, rfl, h.taken (hs.hyphen (.inr rfl))⟩
    · exact fun hs => (globMeaning_mark.mpr ⟨_, _, rfl, h.taken (hs.hyphen (.inr rfl))⟩).star
    · exact fun hs => (not_spaced (.inl rfl) (.inr rfl) hs).elim
  | false =>
    constructor <;> rw [hmark, foldLoop_letter hd]
    · exact fun hs => globMeaning_mark.mpr ⟨_, _, rfl, h.fresh hs.tail⟩
    · exact fun hs => ((globMeaning_mark.mpr ⟨_, _, rfl, h.fresh hs.tail⟩).star).star_cons _
    · exact fun hs => (not_spaced (.inl rfl) (.inr rfl) hs).elim

theorem Collapses.hyphen (h : Collapses pattern text) :
    Collapses ('-' :: pattern) ('-' :: text) := by
  have hreq : required ('-' :: pattern) = '-' :: required pattern := required_cons (by decide)
  have hlit : ∀ {rest}, GlobMeaning pattern rest → GlobMeaning ('-' :: pattern) ('-' :: rest) :=
    fun hrest => (globMeaning_literal (by decide) (by decide)).mpr ⟨_, rfl, hrest⟩
  have hsep : isSeparator '-' = true := by decide
  constructor <;> rw [hreq, foldLoop_sep hsep]
  · exact fun hs => hlit (h.taken hs)
  · exact fun hs => (hlit (h.taken hs)).star
  · exact fun hs => (not_spaced (.inl rfl) (.inl rfl) hs).elim

theorem Collapses.letter (h : Collapses pattern text) (hstar : c ≠ '*') (hmark : c ≠ '?')
    (hsep : isSeparator c = false) (hlower : c.toLower = c) :
    Collapses (c :: pattern) (c :: text) := by
  have hlit : ∀ {rest}, GlobMeaning pattern rest → GlobMeaning (c :: pattern) (c :: rest) :=
    fun hrest => (globMeaning_literal hstar hmark).mpr ⟨_, rfl, hrest⟩
  constructor <;> rw [required_cons hstar, foldLoop_letter hsep, hlower]
  · exact fun hs => hlit (h.fresh hs.tail)
  · exact fun hs => (hlit (h.fresh hs.tail)).star.star_cons _
  · exact fun hs => hlit (h.fresh hs.tail.tail)

theorem collapses (hfolded : ∀ c ∈ pattern, foldChar c = c) (h : GlobMeaning pattern text) :
    Collapses pattern text := by
  induction pattern generalizing text with
  | nil =>
    obtain rfl := globMeaning_nil.mp h
    exact collapses_nil
  | cons c pattern ih =>
    have hrest : ∀ {rest}, GlobMeaning pattern rest → Collapses pattern rest :=
      fun h => ih (fun c hc => hfolded c (.tail _ hc)) h
    by_cases hstar : c = '*'
    · subst hstar
      obtain ⟨skipped, rest, rfl, hmatch⟩ := globMeaning_star_append.mp h
      exact (hrest hmatch).star_append skipped
    · by_cases hmark : c = '?'
      · subst hmark
        obtain ⟨d, rest, rfl, hmatch⟩ := globMeaning_mark.mp h
        exact (hrest hmatch).mark
      · obtain ⟨rest, rfl, hmatch⟩ := (globMeaning_literal hstar hmark).mp h
        have hc := hfolded c (.head _)
        rw [foldChar] at hc
        cases hsep : isSeparator c with
        | true =>
          rw [hsep, if_pos rfl] at hc
          subst hc
          exact (hrest hmatch).hyphen
        | false =>
          rw [hsep, if_neg (by decide)] at hc
          exact (hrest hmatch).letter hstar hmark hsep hc

end Closed

section Ends
variable {c : Char} {pattern text : List Char}

/-- Without a question mark at its beginning and one at its end: these take a letter or digit. -/
def interior (cs : List Char) : List Char :=
  let cs := if cs.head? = some '?' then cs.tail else cs
  if cs.getLast? = some '?' then cs.dropLast else cs

theorem required_append (pattern pattern' : List Char) :
    required (pattern ++ pattern') = required pattern ++ required pattern' :=
  List.filter_append _ _

theorem required_replicate_star (k : ℕ) : required (List.replicate k '*') = [] := by
  simp [required]

/-- A list that is filtered to nothing consists of stars. -/
theorem eq_replicate_of_required {cs : List Char} (h : required cs = []) :
    ∃ k, cs = List.replicate k '*' := by
  refine ⟨cs.length, List.eq_replicate_of_mem fun c hc => ?_⟩
  have h := List.filter_eq_nil_iff.mp h c hc
  simpa using h

/-- The question mark at the beginning can be taken in front of all stars. -/
theorem exists_head_mark {cs : List Char} (h : required pattern = '?' :: cs) :
    ∃ pattern', required pattern' = cs ∧ pattern' ⊆ pattern ∧ ∀ text,
      GlobMeaning pattern text ↔ GlobMeaning ('?' :: pattern') text := by
  obtain ⟨front, back, rfl, hfront, -, hback⟩ := List.filter_eq_cons_iff.mp h
  obtain ⟨k, rfl⟩ := eq_replicate_of_required (List.filter_eq_nil_iff.mpr hfront)
  refine ⟨List.replicate k '*' ++ back, ?_, ?_, fun text => globMeaning_stars_mark k⟩
  · rw [required_append, required_replicate_star, List.nil_append]
    exact hback
  · refine List.append_subset.mpr ⟨List.subset_append_left _ _, fun c hc => ?_⟩
    exact List.mem_append_right _ (.tail _ hc)

theorem exists_last_mark {cs : List Char} (h : required pattern = cs ++ ['?']) :
    ∃ pattern', required pattern' = cs ∧ pattern' ⊆ pattern ∧ ∀ text,
      GlobMeaning pattern text ↔ GlobMeaning (pattern' ++ ['?']) text := by
  obtain ⟨front, back, rfl, hfront, hback⟩ := List.filter_eq_append_iff.mp h
  obtain ⟨between, stars, rfl, hbetween, -, hstars⟩ := List.filter_eq_cons_iff.mp hback
  obtain ⟨k, rfl⟩ := eq_replicate_of_required hstars
  have hswap : ∀ text, GlobMeaning ('?' :: List.replicate k '*') text ↔
      GlobMeaning (List.replicate k '*' ++ ['?']) text := by
    intro text
    rw [globMeaning_stars_mark, List.append_nil]
  refine ⟨front ++ (between ++ List.replicate k '*'), ?_, ?_, fun text => ?_⟩
  · rw [required_append, required_append, required_replicate_star, List.append_nil]
    have hnil : required between = [] := List.filter_eq_nil_iff.mpr hbetween
    rw [hnil, List.append_nil]
    exact hfront
  · refine List.append_subset.mpr ⟨List.subset_append_left _ _, fun c hc => ?_⟩
    rcases List.mem_append.mp hc with hc | hc <;> simp [hc]
  · rw [List.append_assoc, List.append_assoc, globMeaning_append, globMeaning_append]
    refine exists_congr fun a => exists_congr fun b => and_congr_right fun _ =>
      and_congr_right fun _ => ?_
    rw [globMeaning_append, globMeaning_append]
    exact exists_congr fun a => exists_congr fun b => and_congr_right fun _ =>
      and_congr_right fun _ => hswap b

theorem foldLoop_append_letter (hc : isSeparator c = false) {cs : List Char} {f : Bool} :
    foldLoop f (cs ++ [c]) = foldLoop f cs ++ [c.toLower] := by
  induction cs generalizing f with
  | nil => rw [List.nil_append, foldLoop_letter hc]; rfl
  | cons d cs ih =>
    rw [List.cons_append]
    cases hd : isSeparator d with
    | true =>
      rw [foldLoop_sep hd, foldLoop_sep hd]
      cases f with
      | true => exact ih
      | false => exact congrArg ('-' :: ·) ih
    | false =>
      rw [foldLoop_letter hd, foldLoop_letter hd]
      exact congrArg (d.toLower :: ·) ih

/-- A folded pattern that may end in a question mark for the last letter of the text. -/
theorem globMeaning_fold_of_last (hfolded : ∀ c ∈ pattern, foldChar c = c)
    (hlast : ∀ c ∈ text.getLast?, isSeparator c = false)
    (hspaced : Spaced (if (required pattern).getLast? = some '?' then (required pattern).dropLast
      else required pattern)) (h : GlobMeaning pattern text) :
    GlobMeaning pattern (foldLoop false text) := by
  split at hspaced
  · next hmark =>
    obtain ⟨pattern', hreq, hsub, hmeaning⟩ :=
      exists_last_mark (List.dropLast_append_getLast? _ hmark).symm
    rw [hmeaning] at h ⊢
    obtain ⟨front, back, rfl, hfront, hback⟩ := globMeaning_append.mp h
    obtain ⟨d, rest, rfl, hrest⟩ := globMeaning_mark.mp hback
    obtain rfl := globMeaning_nil.mp hrest
    have hd := hlast d (by simp)
    rw [foldLoop_append_letter hd]
    refine globMeaning_append.mpr ⟨_, _, rfl, ?_, globMeaning_mark.mpr ⟨_, _, rfl, hrest⟩⟩
    exact (collapses (fun c hc => hfolded c (hsub hc)) hfront).fresh (by rwa [hreq])
  · exact (collapses hfolded h).fresh hspaced

/-- With its runs of separators collapsed a name is still matched. -/
theorem globMeaning_fold (hfolded : ∀ c ∈ pattern, foldChar c = c)
    (hspaced : Spaced (interior (required pattern))) (hname : ValidName text)
    (h : GlobMeaning pattern text) : GlobMeaning pattern (foldLoop false text) := by
  by_cases hmark : (required pattern).head? = some '?'
  · obtain ⟨cs, hcs⟩ := List.head?_eq_some_iff.mp hmark
    obtain ⟨pattern', hreq, hsub, hmeaning⟩ := exists_head_mark hcs
    rw [hmeaning] at h ⊢
    obtain ⟨d, rest, rfl, hrest⟩ := globMeaning_mark.mp h
    rw [foldLoop_letter (hname.head d rfl)]
    refine globMeaning_mark.mpr ⟨_, _, rfl, ?_⟩
    refine globMeaning_fold_of_last (fun c hc => hfolded c (hsub hc)) (fun c hc => ?_) ?_ hrest
    · cases rest with
      | nil => simp at hc
      | cons e rest => exact hname.last c (by rwa [List.getLast?_cons_cons])
    · rw [hreq]
      simpa only [interior, hcs, List.head?_cons, if_true, List.tail_cons] using hspaced
  · refine globMeaning_fold_of_last hfolded hname.last ?_ h
    simpa only [interior, if_neg hmark] using hspaced

end Ends

section Normal
variable {c : Char} {cs name other : List Char} {f : Bool}

theorem mem_foldLoop_of_letter (h : c ∈ cs) (hc : isSeparator c = false) :
    c.toLower ∈ foldLoop f cs := by
  induction cs generalizing f with
  | nil => simp at h
  | cons d cs ih =>
    rcases List.mem_cons.mp h with rfl | h
    · rw [foldLoop_letter hc]
      exact .head _
    · cases hd : isSeparator d with
      | true =>
        rw [foldLoop_sep hd]
        split
        · exact ih h
        · exact .tail _ (ih h)
      | false =>
        rw [foldLoop_letter hd]
        exact .tail _ (ih h)

theorem of_mem_foldLoop (h : c ∈ foldLoop f cs) :
    c = '-' ∨ ∃ d ∈ cs, isSeparator d = false ∧ c = d.toLower := by
  induction cs generalizing f with
  | nil => simp at h
  | cons d cs ih =>
    have htail : ∀ {g}, c ∈ foldLoop g cs →
        c = '-' ∨ ∃ e ∈ d :: cs, isSeparator e = false ∧ c = e.toLower := by
      intro g hc
      rcases ih hc with hc | ⟨e, he, hsep, hc⟩
      · exact .inl hc
      · exact .inr ⟨e, .tail _ he, hsep, hc⟩
    cases hd : isSeparator d with
    | true =>
      rw [foldLoop_sep hd] at h
      split at h
      · exact htail h
      · rcases List.mem_cons.mp h with hc | hc
        · exact .inl hc
        · exact htail hc
    | false =>
      rw [foldLoop_letter hd] at h
      rcases List.mem_cons.mp h with hc | hc
      · exact .inr ⟨d, .head _, hd, hc⟩
      · exact htail hc

theorem foldChar_of_mem_foldLoop (h : c ∈ foldLoop f cs) : foldChar c = c := by
  rcases of_mem_foldLoop h with rfl | ⟨d, -, hd, rfl⟩
  · rfl
  · rw [foldChar, isSeparator_toLower, hd, if_neg (by decide), toLower_toLower]

/-- A hyphen that stands for a run of separators at the end. -/
theorem getLast?_foldLoop_sep (hc : isSeparator c = true) :
    (foldLoop f (cs ++ [c])).getLast? = some '-' ∨ f = true ∧ foldLoop f (cs ++ [c]) = [] := by
  induction cs generalizing f with
  | nil =>
    rw [List.nil_append, foldLoop_sep hc]
    cases f <;> simp
  | cons d cs ih =>
    rw [List.cons_append]
    cases hd : isSeparator d with
    | true =>
      rw [foldLoop_sep hd]
      cases f with
      | true => exact @ih true
      | false =>
        left
        rcases @ih true with h | ⟨-, h⟩
        · rw [if_neg (by decide), List.getLast?_cons, h]
          rfl
        · rw [if_neg (by decide), h]
          rfl
    | false =>
      left
      rw [foldLoop_letter hd, List.getLast?_cons]
      rcases @ih false with h | ⟨h, -⟩
      · rw [h]
        rfl
      · cases h

theorem foldLoop_false_cons :
    foldLoop false (c :: cs) = foldChar c :: foldLoop (isSeparator c) cs := by
  cases hc : isSeparator c with
  | true => simp [foldLoop_sep hc, foldChar, hc]
  | false => simp [foldLoop_letter hc, foldChar, hc]

/-- A name is valid if its fold is. -/
theorem validName_foldLoop : ValidName (foldLoop false name) ↔ ValidName name := by
  constructor
  · intro h
    refine ⟨?_, fun c hc => ?_, fun c hc => ?_, fun c hc => ?_⟩
    · rintro rfl
      exact h.ne_nil rfl
    · cases hsep : isSeparator c with
      | true => exact .inr rfl
      | false =>
        have hlower := h.chars _ (mem_foldLoop_of_letter hc hsep)
        rw [isSeparator_toLower, hsep, isAlphanum_toLower] at hlower
        exact .inl (hlower.resolve_right (by decide))
    · cases name with
      | nil => simp at hc
      | cons d rest =>
        obtain rfl : d = c := by simpa using hc
        rw [← isSeparator_foldChar]
        exact h.head _ (by rw [foldLoop_false_cons]; rfl)
    · by_contra hsep
      rw [Bool.not_eq_false] at hsep
      obtain ⟨rest, rfl⟩ : ∃ rest, name = rest ++ [c] :=
        ⟨_, (List.dropLast_append_getLast? c hc).symm⟩
      rcases @getLast?_foldLoop_sep _ rest false hsep with hlast | ⟨hf, -⟩
      · exact absurd (h.last '-' hlast) (by decide)
      · cases hf
  · intro h
    refine ⟨?_, fun c hc => ?_, fun c hc => ?_, fun c hc => ?_⟩
    · cases name with
      | nil => exact (h.ne_nil rfl).elim
      | cons d rest =>
        rw [foldLoop_false_cons]
        exact List.cons_ne_nil _ _
    · rcases of_mem_foldLoop hc with rfl | ⟨d, hd, hsep, rfl⟩
      · exact .inr (by decide)
      · left
        rw [isAlphanum_toLower]
        exact (h.chars d hd).resolve_right (by simp [hsep])
    · cases name with
      | nil => simp at hc
      | cons d rest =>
        rw [foldLoop_false_cons] at hc
        obtain rfl : foldChar d = c := by simpa using hc
        rw [isSeparator_foldChar]
        exact h.head d rfl
    · obtain ⟨rest, d, rfl⟩ : ∃ rest d, name = rest ++ [d] :=
        ⟨_, _, (List.dropLast_append_getLast h.ne_nil).symm⟩
      have hd := h.last d (by simp)
      rw [foldLoop_append_letter hd] at hc
      obtain rfl : d.toLower = c := by simpa using hc
      rwa [isSeparator_toLower]

theorem ValidName.congr (h : ValidName name) (heq : foldLoop false other = foldLoop false name) :
    ValidName other := by
  rw [← validName_foldLoop, heq, validName_foldLoop]
  exact h

/-- No two hyphens of the fold are neighbours, and behind a separator it has none in front. -/
theorem isChain_foldLoop :
    (if f then '-' :: foldLoop f cs else foldLoop f cs).IsChain
      fun c d => ¬ (c = '-' ∧ d = '-') := by
  induction cs generalizing f with
  | nil => cases f <;> simp
  | cons c cs ih =>
    cases hc : isSeparator c with
    | true =>
      have htrue := @ih true
      rw [foldLoop_sep hc]
      cases f <;> exact htrue
    | false =>
      rw [foldLoop_letter hc]
      have hne : c.toLower ≠ '-' := by
        intro h
        rw [← isSeparator_toLower, h] at hc
        exact absurd hc (by decide)
      have hcons : (c.toLower :: foldLoop false cs).IsChain fun c d => ¬ (c = '-' ∧ d = '-') :=
        List.isChain_cons.mpr ⟨fun d _ h => hne h.1, @ih false⟩
      cases f with
      | true => exact List.isChain_cons_cons.mpr ⟨fun h => hne h.2, hcons⟩
      | false => exact hcons

theorem foldLoop_of_isChain (hfolded : ∀ c ∈ cs, foldChar c = c)
    (h : (if f then '-' :: cs else cs).IsChain fun c d => ¬ (c = '-' ∧ d = '-')) :
    foldLoop f cs = cs := by
  induction cs generalizing f with
  | nil => rfl
  | cons c cs ih =>
    have hc := hfolded c (.head _)
    have hrest : ∀ c ∈ cs, foldChar c = c := fun c hc => hfolded c (.tail _ hc)
    rw [foldChar] at hc
    cases hsep : isSeparator c with
    | true =>
      rw [hsep, if_pos rfl] at hc
      subst hc
      rw [foldLoop_sep hsep]
      cases f with
      | true => exact ((List.isChain_cons_cons.mp h).1 ⟨rfl, rfl⟩).elim
      | false => exact congrArg ('-' :: ·) (@ih true hrest h)
    | false =>
      rw [hsep, if_neg (by decide)] at hc
      rw [foldLoop_letter hsep, hc]
      have htail : cs.IsChain fun c d => ¬ (c = '-' ∧ d = '-') := by
        cases f with
        | true => exact h.tail.tail
        | false => exact h.tail
      exact congrArg (c :: ·) (@ih false hrest htail)

theorem foldLoop_foldLoop : foldLoop false (foldLoop false cs) = foldLoop false cs :=
  foldLoop_of_isChain (fun _ => foldChar_of_mem_foldLoop) (@isChain_foldLoop cs false)

theorem foldChar_eq_hyphen : foldChar c = '-' ↔ isSeparator c = true := by
  constructor
  · intro h
    rw [← isSeparator_foldChar, h]
    rfl
  · intro h
    rw [foldChar, if_pos h]

theorem destutter'_map_foldChar :
    (cs.map foldChar).destutter' (fun c d => ¬ (c = '-' ∧ d = '-')) c =
      c :: foldLoop (c = '-') cs := by
  induction cs generalizing c with
  | nil => rfl
  | cons d cs ih =>
    rw [List.map_cons]
    by_cases hboth : c = '-' ∧ foldChar d = '-'
    · rw [List.destutter'_cons_neg _ (not_not.mpr hboth), ih]
      rw [foldChar_eq_hyphen] at hboth
      rw [foldLoop_sep hboth.2]
      simp [hboth.1]
    · rw [List.destutter'_cons_pos _ hboth, ih]
      simp only [foldChar_eq_hyphen]
      cases hsep : isSeparator d with
      | true =>
        have hc : c ≠ '-' := fun hc => hboth ⟨hc, foldChar_eq_hyphen.mpr hsep⟩
        rw [foldLoop_sep hsep]
        simp [hc, foldChar, hsep]
      | false =>
        rw [foldLoop_letter hsep]
        simp [foldChar, hsep]

/-- The fold follows PEP 503 but for the separators at the two ends. -/
theorem pep503Name_eq : pep503Name name = foldLoop false name := by
  cases name with
  | nil => rfl
  | cons c cs =>
    rw [pep503Name, List.map_cons, List.destutter_cons', destutter'_map_foldChar,
      foldLoop_false_cons]
    simp [foldChar_eq_hyphen]

end Normal

end ArtifactKeeper.Curation
