import ArtifactKeeper.Curation.NameFold
import ArtifactKeeper.Curation.VersionRange
import Mathlib.Data.Bool.AllAny

/-! The curation rules that are evaluated on folded names, and when a folded pattern stands for the
same projects as the pattern. -/

namespace ArtifactKeeper.Curation
open Glob Text

section Gap
variable {c d : Char} {pattern text cs : List Char}

/-- A character of a pattern other than a star takes such a character of the text. -/
def Takes (c d : Char) : Prop := c = '?' ∨ c = d

def fill (c : Char) : Char := if c = '?' then 'a' else c

theorem takes_fill (c : Char) : Takes c (fill c) := by
  unfold Takes fill
  split
  · next h => exact .inl h
  · exact .inr rfl

theorem forall₂_takes_fill (cs : List Char) : List.Forall₂ Takes cs (cs.map fill) := by
  rw [List.forall₂_map_right_iff, List.forall₂_same]
  exact fun c _ => takes_fill c

/-- The stars may take nothing at all. -/
theorem globMeaning_of_takes (h : List.Forall₂ Takes (required pattern) text) :
    GlobMeaning pattern text := by
  induction pattern generalizing text with
  | nil =>
    rw [required, List.filter_nil, List.forall₂_nil_left_iff] at h
    exact globMeaning_nil.mpr h
  | cons c pattern ih =>
    by_cases hstar : c = '*'
    · subst hstar
      rw [required_star] at h
      exact (ih h).star
    · rw [required_cons hstar, List.forall₂_cons_left_iff] at h
      obtain ⟨d, rest, hd, hrest, rfl⟩ := h
      exact (globMeaning_single hstar).mpr ⟨d, rest, rfl, hd, ih hrest⟩

theorem exists_takes (h : GlobMeaning pattern text) :
    ∃ taken, List.Forall₂ Takes (required pattern) taken ∧ taken.Sublist text := by
  induction pattern generalizing text with
  | nil => exact ⟨[], .nil, List.nil_sublist _⟩
  | cons c pattern ih =>
    by_cases hstar : c = '*'
    · subst hstar
      obtain ⟨skipped, rest, rfl, hrest⟩ := globMeaning_star_append.mp h
      obtain ⟨taken, htaken, hsub⟩ := ih hrest
      rw [required_star]
      exact ⟨taken, htaken, hsub.trans (List.sublist_append_right _ _)⟩
    · obtain ⟨d, rest, rfl, hd, hrest⟩ := (globMeaning_single hstar).mp h
      obtain ⟨taken, htaken, hsub⟩ := ih hrest
      rw [required_cons hstar]
      exact ⟨d :: taken, .cons hd htaken, hsub.cons_cons d⟩

/-- A letter in front of a hyphen that would come first. -/
def edge (cs : List Char) : List Char := if cs.head? = some '-' then ['a'] else []

theorem reverse_edge (cs : List Char) : (edge cs).reverse = edge cs := by
  unfold edge
  split <;> rfl

theorem required_reverse : required pattern.reverse = (required pattern).reverse :=
  List.filter_reverse

/-- A pattern that requires a hyphen first, but does not begin with it, begins with a star. -/
theorem globMeaning_edge_append (hhead : pattern.head? ≠ some '-') (h : GlobMeaning pattern text) :
    GlobMeaning pattern (edge (required pattern) ++ text) := by
  unfold edge
  split
  · next hhyphen =>
    cases pattern with
    | nil => cases hhyphen
    | cons c pattern =>
      by_cases hstar : c = '*'
      · subst hstar
        exact h.star_cons _
      · rw [required_cons hstar] at hhyphen
        exact (hhead hhyphen).elim
  · exact h

theorem globMeaning_append_edge (hlast : pattern.getLast? ≠ some '-')
    (h : GlobMeaning pattern text) :
    GlobMeaning pattern (text ++ edge (required pattern).reverse) := by
  rw [List.getLast?_eq_head?_reverse] at hlast
  have hedge := globMeaning_reverse (globMeaning_edge_append hlast (globMeaning_reverse h))
  rwa [List.reverse_reverse, List.reverse_append, List.reverse_reverse, reverse_edge,
    required_reverse] at hedge

theorem sublist_of_edge_append {taken : List Char} (htaken : List.Forall₂ Takes cs taken)
    (h : taken.Sublist (edge cs ++ text)) : taken.Sublist text := by
  unfold edge at h
  split at h
  · next hhyphen =>
    cases htaken with
    | nil => exact List.nil_sublist _
    | cons hd hrest =>
      obtain rfl := Option.some.inj hhyphen
      rcases List.sublist_cons_iff.mp h with hsub | ⟨rest, heq, -⟩
      · exact hsub
      · obtain rfl := (List.cons.inj heq).1
        rcases hd with hd | hd <;> exact absurd hd (by decide)
  · exact h

theorem sublist_of_append_edge {taken : List Char} (htaken : List.Forall₂ Takes cs taken)
    (h : taken.Sublist (text ++ edge cs.reverse)) : taken.Sublist text := by
  have hrev : taken.reverse.Sublist (edge cs.reverse ++ text.reverse) := by
    rw [← reverse_edge, ← List.reverse_append]
    exact h.reverse
  exact List.reverse_sublist.mp
    (sublist_of_edge_append (List.forall₂_reverse_iff.mpr htaken) hrev)

theorem foldLoop_edge (cs text : List Char) :
    foldLoop false (edge cs ++ text) = edge cs ++ foldLoop false text := by
  unfold edge
  split
  · exact foldLoop_letter rfl
  · rfl

theorem foldLoop_append_edge (cs text : List Char) :
    foldLoop false (text ++ edge cs) = foldLoop false text ++ edge cs := by
  unfold edge
  split
  · exact foldLoop_append_letter rfl
  · rw [List.append_nil, List.append_nil]

theorem length_foldLoop_le {f : Bool} : (foldLoop f cs).length ≤ cs.length := by
  induction cs generalizing f with
  | nil => exact Nat.zero_le _
  | cons c cs ih =>
    have htrue := @ih true
    have hfalse := @ih false
    rw [foldLoop]
    split
    · split <;> simp only [List.length_cons] <;> omega
    · simp only [List.length_cons]
      omega

/-- Two hyphens that are neighbours become one. -/
theorem length_foldLoop_lt {f : Bool} (front back : List Char) :
    (foldLoop f (front ++ '-' :: '-' :: back)).length < (front ++ '-' :: '-' :: back).length := by
  induction front generalizing f with
  | nil =>
    have hback := @length_foldLoop_le back true
    cases f <;>
      simp only [List.nil_append, foldLoop_sep (show isSeparator '-' = true by decide), if_true,
        Bool.false_eq_true, if_false, List.length_cons] <;> omega
  | cons c front ih =>
    have htrue := @ih true
    have hfalse := @ih false
    rw [List.cons_append, foldLoop]
    split
    · split <;> simp only [List.length_cons] <;> omega
    · simp only [List.length_cons]
      omega

theorem exists_of_not_spaced (h : ¬ Spaced cs) :
    ∃ front c d back, cs = front ++ c :: d :: back ∧ MayBeHyphen c ∧ MayBeHyphen d := by
  induction cs with
  | nil => exact (h List.IsChain.nil).elim
  | cons c cs ih =>
    by_cases htail : Spaced cs
    · cases cs with
      | nil => exact (h (List.IsChain.singleton c)).elim
      | cons d back =>
        rw [Spaced, List.isChain_cons_cons] at h
        have hboth : MayBeHyphen c ∧ MayBeHyphen d := by
          by_contra hnot
          exact h ⟨hnot, htail⟩
        exact ⟨[], c, d, back, rfl, hboth⟩
    · obtain ⟨front, c', d, back, rfl, hboth⟩ := ih htail
      exact ⟨c :: front, c', d, back, rfl, hboth⟩

/-- Two neighbours that can both stand for a hyphen, not a question mark at one of the ends. -/
theorem exists_gap (h : ¬ Spaced (interior cs)) :
    ∃ front c d back, cs = front ++ c :: d :: back ∧ MayBeHyphen c ∧ MayBeHyphen d ∧
      (front = [] → c ≠ '?') ∧ (back = [] → d ≠ '?') := by
  obtain ⟨inner, hinner⟩ : ∃ inner, inner = if cs.head? = some '?' then cs.tail else cs := ⟨_, rfl⟩
  obtain ⟨lead, hlead, hhead⟩ : ∃ lead, cs = lead ++ inner ∧ (lead = [] → cs.head? ≠ some '?') := by
    split at hinner
    · next hmark =>
      obtain ⟨rest, rfl⟩ := List.head?_eq_some_iff.mp hmark
      exact ⟨['?'], by rw [hinner]; rfl, fun h => by cases h⟩
    · next hmark => exact ⟨[], hinner.symm, fun _ => hmark⟩
  obtain ⟨trail, htrail, hlast⟩ : ∃ trail, inner = interior cs ++ trail ∧
      (trail = [] → inner.getLast? ≠ some '?') := by
    rw [interior, ← hinner]
    split
    · next hmark => exact ⟨['?'], (List.dropLast_append_getLast? _ hmark).symm, fun h => by cases h⟩
    · next hmark => exact ⟨[], (List.append_nil _).symm, fun _ => hmark⟩
  obtain ⟨front, c, d, back, hsplit, hc, hd⟩ := exists_of_not_spaced h
  rw [hsplit] at htrail
  have hcs : cs = (lead ++ front) ++ c :: d :: (back ++ trail) := by
    rw [hlead, htrail]
    simp
  refine ⟨lead ++ front, c, d, back ++ trail, hcs, hc, hd, fun hnil hmark => ?_,
    fun hnil hmark => ?_⟩
  · rw [List.append_eq_nil_iff] at hnil
    refine hhead hnil.1 ?_
    rw [hcs, hnil.1, hnil.2, hmark]
    rfl
  · rw [List.append_eq_nil_iff] at hnil
    refine hlast hnil.2 ?_
    rw [htrail, hnil.1, hnil.2, hmark]
    simp

/-- The letters, digits and separators of a folded pattern beside its wildcards. -/
structure Folded (pattern : List Char) : Prop where
  chars : ∀ c ∈ pattern, c.isAlphanum = true ∨ c = '-' ∨ c = '*' ∨ c = '?'
  folded : ∀ c ∈ pattern, foldChar c = c
  head : pattern.head? ≠ some '-'
  last : pattern.getLast? ≠ some '-'

theorem Folded.reverse (h : Folded pattern) : Folded pattern.reverse where
  chars c hc := h.chars c (List.mem_reverse.mp hc)
  folded c hc := h.folded c (List.mem_reverse.mp hc)
  head := by
    rw [← List.getLast?_eq_head?_reverse]
    exact h.last
  last := by
    rw [List.getLast?_reverse]
    exact h.head

theorem isSeparator_fill (hfolded : foldChar c = c) (hne : c ≠ '-') :
    isSeparator (fill c) = false := by
  unfold fill
  split
  · rfl
  · rw [← Bool.not_eq_true, ← foldChar_eq_hyphen, hfolded]
    exact hne

/-- With a letter in front of a hyphen that would come first, the filled pattern begins like a
name. -/
theorem head_edge_append {front back : List Char}
    (hfolded : ∀ c ∈ front, foldChar c = c) (hcs : cs = front ++ c :: back) (hc : MayBeHyphen c)
    (hfront : front = [] → c ≠ '?') (rest : List Char) :
    ∀ e ∈ (edge cs ++ (front.map fill ++ '-' :: rest)).head?, isSeparator e = false := by
  intro e he
  unfold edge at he
  split at he
  · obtain rfl : 'a' = e := by simpa using he
    rfl
  · next hne =>
    cases front with
    | nil =>
      obtain rfl := hc.resolve_right (hfront rfl)
      exact (hne (by rw [hcs]; rfl)).elim
    | cons f front =>
      obtain rfl : fill f = e := by simpa using he
      refine isSeparator_fill (hfolded f (.head _)) ?_
      rintro rfl
      exact hne (by rw [hcs]; rfl)

theorem Folded.chars_fill (h : Folded pattern) (hc : c ∈ required pattern) :
    (fill c).isAlphanum = true ∨ isSeparator (fill c) = true := by
  obtain ⟨hmem, hstar⟩ := List.mem_filter.mp hc
  unfold fill
  split
  · exact .inl (by decide)
  · next hmark =>
    rcases h.chars c hmem with halpha | rfl | rfl | rfl
    · exact .inl halpha
    · exact .inr (by decide)
    · simp at hstar
    · exact (hmark rfl).elim

theorem isAlphanum_of_mem_edge (h : c ∈ edge cs) : c.isAlphanum = true := by
  unfold edge at h
  split at h
  · obtain rfl := List.mem_singleton.mp h
    decide
  · cases h

/-- The pattern filled with letters, but for two neighbours that become hyphens. -/
def doubled (cs front back : List Char) : List Char :=
  edge cs ++ (front.map fill ++ '-' :: '-' :: back.map fill ++ edge cs.reverse)

theorem reverse_doubled {front back : List Char} :
    (doubled cs front back).reverse = doubled cs.reverse back.reverse front.reverse := by
  simp [doubled, reverse_edge]

theorem validName_doubled (h : Folded pattern) {front back : List Char}
    (hreq : required pattern = front ++ c :: d :: back) (hc : MayBeHyphen c) (hd : MayBeHyphen d)
    (hfront : front = [] → c ≠ '?') (hback : back = [] → d ≠ '?') :
    ValidName (doubled (required pattern) front back) := by
  have hfolded : ∀ e ∈ front ++ c :: d :: back, foldChar e = e := fun e he =>
    h.folded e (List.mem_of_mem_filter (hreq ▸ he))
  have hhead : ∀ e ∈ (doubled (required pattern) front back).head?, isSeparator e = false := by
    rw [doubled, List.append_assoc, List.cons_append]
    exact head_edge_append (fun e he => hfolded e (List.mem_append_left _ he)) hreq hc hfront _
  have hlast : ∀ e ∈ (doubled (required pattern) front back).getLast?, isSeparator e = false := by
    have hrev : (required pattern).reverse = back.reverse ++ d :: (c :: front.reverse) := by
      rw [hreq]
      simp
    rw [List.getLast?_eq_head?_reverse, reverse_doubled, doubled, List.append_assoc,
      List.cons_append]
    refine head_edge_append (fun e he => hfolded e ?_) hrev hd
      (fun hnil => hback (List.reverse_eq_nil_iff.mp hnil)) _
    exact List.mem_append_right _ (.tail _ (.tail _ (List.mem_reverse.mp he)))
  refine ⟨by simp [doubled], fun e he => ?_, hhead, hlast⟩
  simp only [doubled, List.mem_append, List.mem_cons, List.mem_map] at he
  rcases he with he | ((⟨e, hmem, rfl⟩ | rfl | rfl | ⟨e, hmem, rfl⟩) | he)
  · exact .inl (isAlphanum_of_mem_edge he)
  · exact h.chars_fill (by rw [hreq]; exact List.mem_append_left _ hmem)
  · exact .inr (by decide)
  · exact .inr (by decide)
  · exact h.chars_fill (by rw [hreq]; exact List.mem_append_right _ (.tail _ (.tail _ hmem)))
  · exact .inl (isAlphanum_of_mem_edge he)

/-- A name that a folded pattern matches although it no longer does once the runs of separators are
collapsed. -/
theorem exists_lost (h : Folded pattern) (hgap : ¬ Spaced (interior (required pattern))) :
    ∃ name, ValidName name ∧ GlobMeaning pattern name ∧
      ¬ GlobMeaning pattern (foldLoop false name) := by
  obtain ⟨front, c, d, back, hreq, hc, hd, hfront, hback⟩ := exists_gap hgap
  have htakes : List.Forall₂ Takes (required pattern)
      (front.map fill ++ '-' :: '-' :: back.map fill) := by
    rw [hreq]
    exact List.rel_append (forall₂_takes_fill front)
      (.cons hc.symm (.cons hd.symm (forall₂_takes_fill back)))
  refine ⟨_, validName_doubled h hreq hc hd hfront hback, ?_, fun hmatch => ?_⟩
  · exact globMeaning_edge_append h.head
      (globMeaning_append_edge h.last (globMeaning_of_takes htakes))
  · obtain ⟨taken, htaken, hsub⟩ := exists_takes hmatch
    rw [doubled, foldLoop_edge, foldLoop_append_edge] at hsub
    have hlen :=
      (sublist_of_append_edge htaken (sublist_of_edge_append htaken hsub)).length_le
    rw [← htaken.length_eq, htakes.length_eq] at hlen
    exact absurd hlen (Nat.not_le.mpr (length_foldLoop_lt _ _))

end Gap

section Exact
variable {c : Char} {pattern text : List Char}

theorem globMatch_eq_true (pattern text : String) :
    globMatch pattern text = some true ↔ GlobMeaning pattern.toList text.toList := by
  obtain ⟨b, hb, hiff⟩ := globMatch_iff pattern text
  rw [hb, ← hiff, Option.some_inj]

/-- The characters that a pattern for a project's name can use. -/
def NameChar (c : Char) : Prop :=
  c.isAlphanum = true ∨ isSeparator c = true ∨ c = '*' ∨ c = '?'

/-- No project's name can match: the pattern has separators only or a character that no name has. -/
def MatchesNoName (pattern : List Char) : Prop :=
  (∀ c ∈ pattern, isSeparator c = true) ∨ ∃ c ∈ pattern, ¬ NameChar c

/-- The pattern neither begins nor ends with a separator, and of its folded form, stars left out and
a question mark at either end, no two neighbours can both stand for a hyphen. -/
structure KeepsProjects (pattern : List Char) : Prop where
  head : ∀ c ∈ pattern.head?, isSeparator c = false
  last : ∀ c ∈ pattern.getLast?, isSeparator c = false
  spaced : Spaced (interior (required (foldLoop false pattern)))

/-- The folded pattern matches the folded name of a project exactly if the pattern matches one of
the names of the project. -/
def FoldsExactly (pattern : String) : Prop :=
  ∀ name, ValidName name.toList →
    ((∃ other, Spelling name other ∧ globMatch pattern other = some true) ↔
      globMatch (foldPep503 pattern) (foldPep503 name) = some true)

theorem foldLoop_true_of_head (h : ∀ c ∈ text.head?, isSeparator c = false) :
    foldLoop true text = foldLoop false text := by
  cases text with
  | nil => rfl
  | cons c cs => rw [foldLoop_letter (h c rfl), foldLoop_letter (h c rfl)]

theorem toList_foldPep503 {value : String} (hhead : ∀ c ∈ value.toList.head?, isSeparator c = false)
    (hlast : ∀ c ∈ value.toList.getLast?, isSeparator c = false) :
    (foldPep503 value).toList = foldLoop false value.toList := by
  rw [foldPep503, foldLoop_true_of_head hhead]
  rw [if_neg, String.toList_ofList]
  intro hhyphen
  rcases List.eq_nil_or_concat value.toList with hnil | ⟨rest, d, hd⟩
  · rw [hnil] at hhyphen
    cases hhyphen
  · rw [List.concat_eq_append] at hd
    rw [hd, List.getLast?_concat] at hlast
    rw [hd, foldLoop_append_letter (hlast d rfl), List.getLast?_concat] at hhyphen
    have hsep := isSeparator_toLower d
    rw [Option.some.inj hhyphen, hlast d rfl] at hsep
    exact absurd hsep (by decide)

theorem ValidName.toList_foldPep503 {name : String} (h : ValidName name.toList) :
    (foldPep503 name).toList = foldLoop false name.toList :=
  Curation.toList_foldPep503 h.head h.last

theorem toLower_ne_hyphen (h : isSeparator c = false) : c.toLower ≠ '-' := by
  intro hhyphen
  rw [← isSeparator_toLower, hhyphen] at h
  exact absurd h (by decide)

/-- A folded value is what the loop pushed, but for a hyphen at the end. -/
theorem foldPep503_cases (value : String) :
    (foldPep503 value).toList.getLast? ≠ some '-' ∧
      ((foldPep503 value).toList = foldLoop true value.toList ∨
        (foldPep503 value).toList ++ ['-'] = foldLoop true value.toList) := by
  rw [foldPep503]
  split
  · next h =>
    have happend := List.dropLast_append_getLast? _ h
    rw [String.toList_ofList]
    refine ⟨fun hlast => ?_, .inr happend⟩
    have hchain := (@isChain_foldLoop value.toList true).tail
    rw [← happend, ← List.dropLast_append_getLast? _ hlast, List.append_assoc] at hchain
    exact (List.isChain_cons_cons.mp hchain.right_of_append).1 ⟨rfl, rfl⟩
  · next h =>
    rw [String.toList_ofList]
    exact ⟨h, .inl rfl⟩

theorem mem_foldPep503 {value : String} (h : c ∈ value.toList) (hc : isSeparator c = false) :
    c.toLower ∈ (foldPep503 value).toList := by
  have hmem : c.toLower ∈ foldLoop true value.toList := mem_foldLoop_of_letter h hc
  rcases (foldPep503_cases value).2 with heq | heq
  · rwa [heq]
  · rw [← heq, List.mem_append, List.mem_singleton] at hmem
    exact hmem.resolve_right (toLower_ne_hyphen hc)

theorem of_mem_foldPep503 {value : String} (h : c ∈ (foldPep503 value).toList) :
    c ∈ foldLoop true value.toList := by
  rcases (foldPep503_cases value).2 with heq | heq
  · rwa [← heq]
  · rw [← heq]
    exact List.mem_append_left _ h

/-- The fold of a pattern with the characters of names and wildcards. -/
theorem folded_foldPep503 {value : String} (h : ∀ c ∈ value.toList, NameChar c) :
    Folded (foldPep503 value).toList where
  chars c hc := by
    rcases of_mem_foldLoop (of_mem_foldPep503 hc) with rfl | ⟨d, hd, hsep, rfl⟩
    · exact .inr (.inl rfl)
    · rcases h d hd with halpha | hsep' | rfl | rfl
      · exact .inl (by rwa [isAlphanum_toLower])
      · rw [hsep] at hsep'
        cases hsep'
      · exact .inr (.inr (.inl rfl))
      · exact .inr (.inr (.inr rfl))
  folded c hc := foldChar_of_mem_foldLoop (of_mem_foldPep503 hc)
  head := by
    have hchain := @isChain_foldLoop value.toList true
    intro hhead
    obtain ⟨rest, hrest⟩ := List.head?_eq_some_iff.mp hhead
    have hfront : ∃ rest, foldLoop true value.toList = '-' :: rest := by
      rcases (foldPep503_cases value).2 with heq | heq
      · exact ⟨rest, by rw [← heq, hrest]⟩
      · exact ⟨rest ++ ['-'], by rw [← heq, hrest]; rfl⟩
    obtain ⟨rest', hrest'⟩ := hfront
    rw [if_pos rfl, hrest'] at hchain
    exact (List.isChain_cons_cons.mp hchain).1 ⟨rfl, rfl⟩
  last := (foldPep503_cases value).1

/-- Every character that is not a wildcard is in the text. -/
theorem mem_of_globMeaning (h : GlobMeaning pattern text) (hc : c ∈ pattern) (hstar : c ≠ '*')
    (hmark : c ≠ '?') : c ∈ text := by
  obtain ⟨front, back, rfl⟩ := List.append_of_mem hc
  obtain ⟨a, b, rfl, -, hb⟩ := globMeaning_append.mp h
  obtain ⟨rest, rfl, -⟩ := (globMeaning_literal hstar hmark).mp hb
  exact List.mem_append_right _ (.head _)

theorem head?_of_globMeaning (h : GlobMeaning pattern text) (hc : pattern.head? = some c)
    (hsep : isSeparator c = true) : text.head? = some c := by
  obtain ⟨rest, rfl⟩ := List.head?_eq_some_iff.mp hc
  have hstar : c ≠ '*' := by
    rintro rfl
    exact absurd hsep (by decide)
  have hmark : c ≠ '?' := by
    rintro rfl
    exact absurd hsep (by decide)
  obtain ⟨rest', rfl, -⟩ := (globMeaning_literal hstar hmark).mp h
  rfl

/-- A pattern that matches a name of a project has no separator at its ends. -/
theorem no_separator_of_globMeaning (hname : ValidName text) (h : GlobMeaning pattern text) :
    (∀ c ∈ pattern.head?, isSeparator c = false) ∧
      ∀ c ∈ pattern.getLast?, isSeparator c = false := by
  constructor
  · intro c hc
    by_contra hsep
    rw [Bool.not_eq_false] at hsep
    have htext := hname.head c (head?_of_globMeaning h hc hsep)
    rw [hsep] at htext
    cases htext
  · intro c hc
    by_contra hsep
    rw [Bool.not_eq_false] at hsep
    have hhead := head?_of_globMeaning (globMeaning_reverse h)
      (by rw [← List.getLast?_eq_head?_reverse]; exact hc) hsep
    have htext := hname.last c (by rw [List.getLast?_eq_head?_reverse]; exact hhead)
    rw [hsep] at htext
    cases htext

def fillWildcard (c : Char) : Char := if c = '*' ∨ c = '?' then 'a' else c

theorem globMeaning_fillWildcard (pattern : List Char) :
    GlobMeaning pattern (pattern.map fillWildcard) := by
  induction pattern with
  | nil => exact globMeaning_nil.mpr rfl
  | cons c pattern ih =>
    rw [List.map_cons]
    by_cases hstar : c = '*'
    · subst hstar
      exact ih.star.star_cons _
    · refine (globMeaning_single hstar).mpr ⟨_, _, rfl, ?_, ih⟩
      unfold fillWildcard
      split
      · next h => exact .inl (h.resolve_left hstar)
      · exact .inr rfl

theorem fillWildcard_eq_hyphen : fillWildcard c = '-' ↔ c = '-' := by
  unfold fillWildcard
  split
  · next h => rcases h with rfl | rfl <;> decide
  · rfl

/-- A folded pattern matches the name of some project. -/
theorem Folded.exists_name (h : Folded pattern) (hne : pattern ≠ [])
    (hchain : pattern.IsChain fun c d => ¬ (c = '-' ∧ d = '-')) :
    ∃ name, ValidName name ∧ foldLoop false name = name ∧ GlobMeaning pattern name := by
  have hsep : ∀ c ∈ pattern, c ≠ '-' → isSeparator (fillWildcard c) = false := by
    intro c hc hhyphen
    unfold fillWildcard
    split
    · rfl
    · rw [← Bool.not_eq_true, ← foldChar_eq_hyphen, h.folded c hc]
      exact hhyphen
  refine ⟨pattern.map fillWildcard, ⟨by simpa using hne, fun c hc => ?_, fun c hc => ?_,
    fun c hc => ?_⟩, foldLoop_of_isChain (fun c hc => ?_) ?_, globMeaning_fillWildcard pattern⟩
  · obtain ⟨d, hd, rfl⟩ := List.mem_map.mp hc
    unfold fillWildcard
    split
    · exact .inl (by decide)
    · next hwild =>
      rcases h.chars d hd with halpha | rfl | hstar | hmark
      · exact .inl halpha
      · exact .inr (by decide)
      · exact (hwild (.inl hstar)).elim
      · exact (hwild (.inr hmark)).elim
  · rw [List.head?_map] at hc
    obtain ⟨d, hd, rfl⟩ := Option.map_eq_some_iff.mp hc
    refine hsep d (List.mem_of_mem_head? hd) ?_
    rintro rfl
    exact h.head hd
  · rw [List.getLast?_map] at hc
    obtain ⟨d, hd, rfl⟩ := Option.map_eq_some_iff.mp hc
    refine hsep d (List.mem_of_mem_getLast? hd) ?_
    rintro rfl
    exact h.last hd
  · obtain ⟨d, hd, rfl⟩ := List.mem_map.mp hc
    unfold fillWildcard
    split
    · rfl
    · exact h.folded d hd
  · rw [if_neg (by decide), List.isChain_map]
    simpa only [fillWildcard_eq_hyphen] using hchain

theorem isChain_foldPep503 (value : String) :
    (foldPep503 value).toList.IsChain fun c d => ¬ (c = '-' ∧ d = '-') := by
  have hchain := @isChain_foldLoop value.toList true
  rw [if_pos rfl] at hchain
  rcases (foldPep503_cases value).2 with heq | heq
  · rw [heq]
    exact hchain.tail
  · rw [← heq] at hchain
    exact hchain.tail.left_of_append

variable {value name : String}

theorem spelling_iff {other : String} : Spelling name other ↔
    ValidName other.toList ∧ foldLoop false other.toList = foldLoop false name.toList := by
  rw [Spelling, pep503Name_eq, pep503Name_eq]

theorem foldLoop_of_seps {cs : List Char} (h : ∀ c ∈ cs, isSeparator c = true) :
    foldLoop true cs = [] := by
  induction cs with
  | nil => rfl
  | cons c cs ih =>
    rw [foldLoop_sep (h c (.head _)), if_pos rfl]
    exact ih fun c hc => h c (.tail _ hc)

theorem not_match_of_matchesNoName (h : MatchesNoName value.toList)
    (hname : ValidName name.toList) :
    globMatch value name ≠ some true ∧
      globMatch (foldPep503 value) (foldPep503 name) ≠ some true := by
  rw [ne_eq, ne_eq, globMatch_eq_true, globMatch_eq_true]
  rcases h with hseps | ⟨c, hc, hchar⟩
  · constructor
    · intro hmatch
      have hends := (no_separator_of_globMeaning hname hmatch).1
      cases hvalue : value.toList with
      | nil =>
        rw [hvalue, globMeaning_nil] at hmatch
        exact hname.ne_nil hmatch
      | cons d rest =>
        have hd := hends d (by rw [hvalue]; rfl)
        rw [hseps d (by rw [hvalue]; exact .head _)] at hd
        cases hd
    · intro hmatch
      have hnil : (foldPep503 value).toList = [] := by
        rcases (foldPep503_cases value).2 with heq | heq
        · rw [heq, foldLoop_of_seps hseps]
        · rw [foldLoop_of_seps hseps] at heq
          exact (List.append_ne_nil_of_right_ne_nil _ (List.cons_ne_nil _ _) heq).elim
      rw [hnil, globMeaning_nil, hname.toList_foldPep503] at hmatch
      exact (validName_foldLoop.mpr hname).ne_nil hmatch
  · have hsep : isSeparator c = false := by
      by_contra hsep
      rw [Bool.not_eq_false] at hsep
      exact hchar (.inr (.inl hsep))
    have halpha : c.isAlphanum = false := by
      by_contra halpha
      rw [Bool.not_eq_false] at halpha
      exact hchar (.inl halpha)
    have hstar : c ≠ '*' := fun h => hchar (.inr (.inr (.inl h)))
    have hmark : c ≠ '?' := fun h => hchar (.inr (.inr (.inr h)))
    constructor
    · intro hmatch
      have hmem := hname.chars c (mem_of_globMeaning hmatch hc hstar hmark)
      rw [hsep, halpha] at hmem
      simp at hmem
    · intro hmatch
      have hlower : foldChar c = c.toLower := by
        rw [foldChar, hsep, if_neg (by decide)]
      have hmem := mem_of_globMeaning hmatch (mem_foldPep503 hc hsep)
        (by rw [← hlower, ne_eq, foldChar_eq_wildcard (.inl rfl)]; exact hstar)
        (by rw [← hlower, ne_eq, foldChar_eq_wildcard (.inr rfl)]; exact hmark)
      rw [hname.toList_foldPep503] at hmem
      have hchars := (validName_foldLoop.mpr hname).chars _ hmem
      rw [isAlphanum_toLower, isSeparator_toLower, hsep, halpha] at hchars
      simp at hchars

theorem foldsExactly_of_keepsProjects (h : KeepsProjects value.toList) : FoldsExactly value := by
  intro name hname
  rw [globMatch_eq_true, toList_foldPep503 h.head h.last, hname.toList_foldPep503]
  constructor
  · rintro ⟨other, hother, hmatch⟩
    obtain ⟨hvalid, heq⟩ := spelling_iff.mp hother
    rw [globMatch_eq_true] at hmatch
    obtain ⟨text, htext, hfold⟩ := globMeaning_foldLoop (f := false) (g := false) hmatch (by simp)
    have hclosed := globMeaning_fold (fun _ => foldChar_of_mem_foldLoop) h.spaced
      (hvalid.congr hfold) htext
    rwa [hfold, heq] at hclosed
  · intro hmatch
    obtain ⟨other, hother, hfold⟩ := globMeaning_of_foldLoop (g := false) hmatch (by simp)
    rw [foldLoop_foldLoop] at hfold
    refine ⟨String.ofList other, spelling_iff.mpr ?_, ?_⟩
    · rw [String.toList_ofList]
      exact ⟨hname.congr hfold, hfold⟩
    · rwa [globMatch_eq_true, String.toList_ofList]

theorem keepsProjects_of_foldsExactly (h : FoldsExactly value)
    (hsome : ¬ MatchesNoName value.toList) : KeepsProjects value.toList := by
  rw [MatchesNoName, not_or] at hsome
  have hchars : ∀ c ∈ value.toList, NameChar c := by
    simpa using hsome.2
  have hfolded := folded_foldPep503 hchars
  have hne : (foldPep503 value).toList ≠ [] := by
    obtain ⟨c, hc, hsep⟩ : ∃ c ∈ value.toList, isSeparator c = false := by
      simpa using hsome.1
    exact List.ne_nil_of_mem (mem_foldPep503 hc hsep)
  have hends : (∀ c ∈ value.toList.head?, isSeparator c = false) ∧
      ∀ c ∈ value.toList.getLast?, isSeparator c = false := by
    obtain ⟨name, hvalid, hfix, hmatch⟩ := hfolded.exists_name hne (isChain_foldPep503 value)
    have hname : ValidName (String.ofList name).toList := by
      rwa [String.toList_ofList]
    have hmatched : globMatch (foldPep503 value) (foldPep503 (String.ofList name)) = some true := by
      rw [globMatch_eq_true, hname.toList_foldPep503, String.toList_ofList, hfix]
      exact hmatch
    obtain ⟨other, hother, hmatch⟩ := (h _ hname).mpr hmatched
    rw [globMatch_eq_true] at hmatch
    exact no_separator_of_globMeaning hother.1 hmatch
  refine ⟨hends.1, hends.2, ?_⟩
  have heq := toList_foldPep503 hends.1 hends.2
  rw [heq] at hfolded
  by_contra hgap
  obtain ⟨name, hvalid, hmatch, hlost⟩ := exists_lost hfolded hgap
  obtain ⟨other, hother, hfold⟩ := globMeaning_of_foldLoop (g := false) hmatch (by simp)
  have hname : ValidName (String.ofList name).toList := by
    rwa [String.toList_ofList]
  refine hlost ?_
  have hmatched := (h _ hname).mp ⟨String.ofList other, spelling_iff.mpr ?_, ?_⟩
  · rwa [globMatch_eq_true, heq, hname.toList_foldPep503, String.toList_ofList] at hmatched
  · rw [String.toList_ofList, String.toList_ofList]
    exact ⟨hvalid.congr hfold, hfold⟩
  · rwa [globMatch_eq_true, String.toList_ofList]

theorem foldsExactly_iff (pattern : String) :
    FoldsExactly pattern ↔ MatchesNoName pattern.toList ∨ KeepsProjects pattern.toList := by
  constructor
  · intro h
    by_cases hnone : MatchesNoName pattern.toList
    · exact .inl hnone
    · exact .inr (keepsProjects_of_foldsExactly h hnone)
  · rintro (hnone | hkeeps)
    · intro name hname
      refine ⟨?_, fun hmatch => ((not_match_of_matchesNoName hnone hname).2 hmatch).elim⟩
      rintro ⟨other, hother, hmatch⟩
      exact ((not_match_of_matchesNoName hnone hother.1).1 hmatch).elim
    · exact foldsExactly_of_keepsProjects hkeeps

end Exact

section Rules

/-- The columns of `curation_rules` that the evaluation of pattern rules reads. -/
structure CurationRule where
  id : ℕ
  ruleType : String
  packagePattern : String
  versionConstraint : String
  architecture : String
  action : String
  reason : String
  deriving DecidableEq, Repr

structure RuleEvaluation where
  action : String
  reason : String
  ruleId : Option ℕ
  deriving DecidableEq, Repr

def CurationRule.nameMatches (rule : CurationRule) (packageName : String)
    (foldedName : Option String) : Bool :=
  match foldedName with
  | some name => globMatch (foldPep503 rule.packagePattern) name = some true
  | none => globMatch rule.packagePattern packageName = some true

/-- A request without a version or an architecture skips the rules that constrain it. -/
def CurationRule.decides (rule : CurationRule) (packageName : String) (foldedName version
    architecture : Option String) : Bool :=
  let constraint := String.ofList (trim rule.versionConstraint.toList)
  rule.ruleType = "pattern" && rule.nameMatches packageName foldedName &&
    (match version with
      | some v => versionMatches constraint v
      | none => constraint = "*") &&
    (rule.architecture = "*" || architecture = some rule.architecture)

def evaluateRules (rules : List CurationRule) (defaultAction packageName : String)
    (version architecture : Option String) (foldNames : Bool) : RuleEvaluation :=
  let foldedName := if foldNames then some (foldPep503 packageName) else none
  match rules.find? fun rule => rule.decides packageName foldedName version architecture with
  | some rule => ⟨rule.action, rule.reason, some rule.id⟩
  | none =>
    ⟨defaultAction, "No matching rule; default action: " ++ defaultAction, none⟩

/-- All names of a project are decided alike. -/
def SpellingsAgree (rules : List CurationRule) (defaultAction : String) : Prop :=
  ∀ name other version architecture, ValidName name.toList → Spelling name other →
    evaluateRules rules defaultAction other version architecture true =
      evaluateRules rules defaultAction name version architecture true

theorem spellingsAgree (rules : List CurationRule) (defaultAction : String) :
    SpellingsAgree rules defaultAction := by
  intro name other version architecture hname hother
  obtain ⟨hvalid, heq⟩ := spelling_iff.mp hother
  have hfold : foldPep503 other = foldPep503 name := by
    rw [← String.toList_inj, hvalid.toList_foldPep503, hname.toList_foldPep503, heq]
  have hdecides : ∀ rule : CurationRule,
      rule.decides other (some (foldPep503 other)) version architecture =
        rule.decides name (some (foldPep503 name)) version architecture := by
    intro rule
    rw [hfold]
    rfl
  simp only [evaluateRules, if_true, hdecides]

/-- The fold of a rule's pattern neither narrows nor widens it exactly for these patterns, and for
all patterns the rules decide all names of a project alike. -/
theorem fold_keeps_projects (rules : List CurationRule) (defaultAction pattern : String) :
    (FoldsExactly pattern ↔ MatchesNoName pattern.toList ∨ KeepsProjects pattern.toList) ∧
      SpellingsAgree rules defaultAction :=
  ⟨foldsExactly_iff pattern, spellingsAgree rules defaultAction⟩

/-- `foo-*-bar` matches `foo--bar`, but folded not the name of that project; `foo*-` matches no
name of `foobar`, but folded it does. -/
theorem fold_narrows_and_widens :
    (Spelling "foo-bar" "foo--bar" ∧ globMatch "foo-*-bar" "foo--bar" = some true ∧
      globMatch (foldPep503 "foo-*-bar") (foldPep503 "foo-bar") ≠ some true) ∧
    (globMatch (foldPep503 "foo*-") (foldPep503 "foobar") = some true ∧
      ∀ other, Spelling "foobar" other → globMatch "foo*-" other ≠ some true) := by
  simp only [globMatch_eq_true, ne_eq]
  have hvalid : ValidName "foo--bar".toList :=
    ⟨by decide, List.all_iff_forall_prop.mp rfl, fun _ h => by cases h; rfl,
      fun _ h => by cases h; rfl⟩
  refine ⟨⟨⟨hvalid, by decide⟩, ?_, ?_⟩, ?_, ?_⟩
  · refine ⟨[['f'], ['o'], ['o'], ['-'], [], ['-'], ['b'], ['a'], ['r']], ?_, rfl⟩
    simp [StandsFor]
  · intro hmatch
    have hlong := (exists_takes hmatch).elim fun taken h => h.1.length_eq ▸ h.2.length_le
    exact absurd hlong (by decide)
  · refine ⟨[['f'], ['o'], ['o'], ['b', 'a', 'r']], ?_, rfl⟩
    simp [StandsFor, foldPep503, foldLoop, isSeparator]
  · intro other hother hmatch
    exact absurd ((no_separator_of_globMeaning hother.1 hmatch).2 '-' rfl) (by decide)

end Rules

end ArtifactKeeper.Curation
