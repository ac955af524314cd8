import ArtifactKeeper.Go.ModGrammar
import Mathlib.Data.Bool.AllAny

/-! What the reader of `go.mod` files takes from each line of a file. -/

namespace ArtifactKeeper.Go

open Text

section Trimming

/-- A text with something visible at both ends. -/
def Solid (cs : List Char) : Prop :=
  ∃ h : cs ≠ [], isWhitespace (cs.head h) = false ∧ isWhitespace (cs.getLast h) = false

theorem Solid.append {a b : List Char} (ha : Solid a) (m : List Char) (hb : Solid b) :
    Solid (a ++ (m ++ b)) := by
  obtain ⟨hane, hhead, -⟩ := ha
  obtain ⟨hbne, -, hlast⟩ := hb
  refine ⟨by simp [hane], ?_, ?_⟩
  · rwa [List.head_append_of_ne_nil hane]
  · rwa [List.getLast_append_of_ne_nil _ (by simp [hbne]), List.getLast_append_of_ne_nil _ hbne]

theorem solid_of_visible {cs : List Char} (hne : cs ≠ [])
    (h : ∀ c ∈ cs, isWhitespace c = false) : Solid cs :=
  ⟨hne, h _ (List.head_mem hne), h _ (List.getLast_mem hne)⟩

theorem solid_of_all {cs : List Char} (hne : cs ≠ [])
    (h : (cs.all fun c => isWhitespace c = false) = true) : Solid cs :=
  solid_of_visible hne (List.all_iff_forall_prop.mp h)

/-- What is visible stays when a line is trimmed. -/
theorem trim_solid {indent body : List Char} (hindent : ∀ c ∈ indent, isWhitespace c = true)
    (hbody : Solid body) (rest : List Char) :
    trim (indent ++ (body ++ rest)) = body ++ trimEnd rest := by
  obtain ⟨hne, hhead, hlast⟩ := hbody
  have hstart : trimStart (indent ++ (body ++ rest)) = body ++ rest := by
    rw [trimStart, List.dropWhile_append_of_pos hindent]
    obtain ⟨c, cs, rfl⟩ := List.exists_cons_of_ne_nil hne
    rw [List.cons_append, List.dropWhile_cons_of_neg (by simpa using hhead)]
  rw [trim, hstart]
  conv_lhs => rw [← List.dropLast_append_getLast hne, List.append_assoc, List.singleton_append]
  rw [trimEnd_append_cons hlast, List.append_cons, List.dropLast_append_getLast]

theorem Blank.white (b : Blank) : ∀ c ∈ b.chars, isWhitespace c = true := by
  intro c hc
  rcases b.blank c hc with rfl | rfl | rfl <;> decide

theorem trimEnd_white {cs : List Char} (h : ∀ c ∈ cs, isWhitespace c = true) :
    trimEnd cs = [] :=
  trimEnd_eq_nil.mpr h

/-- The end of a line without the blanks behind it. -/
def Tail.trimmed {text : List Char} (t : Tail text) : List Char :=
  match t.comment with
  | some c => t.blank.chars ++ '/' :: '/' :: trimEnd c
  | none => []

theorem trimEnd_comment (blank c : List Char) :
    trimEnd (blank ++ '/' :: '/' :: c) = blank ++ '/' :: '/' :: trimEnd c := by
  have hinner := trimEnd_append_cons (c := '/') (by decide) [] c
  rw [List.nil_append] at hinner
  rw [trimEnd_append_cons (by decide), hinner, List.nil_append]

theorem Tail.trimEnd_chars {text : List Char} (t : Tail text) : trimEnd t.chars = t.trimmed := by
  unfold chars trimmed
  cases t.comment with
  | none =>
    rw [commentText, List.append_nil]
    exact trimEnd_white t.blank.white
  | some c => exact trimEnd_comment t.blank.chars c

theorem Tail.trimEnd_trimmed {text : List Char} (t : Tail text) :
    trimEnd t.trimmed = t.trimmed := by
  rw [← t.trimEnd_chars, trimEnd_trimEnd]

end Trimming

section Words

theorem splitWhitespace_white {blank : List Char} (h : ∀ c ∈ blank, isWhitespace c = true)
    (rest : List Char) : splitWhitespace (blank ++ rest) = splitWhitespace rest := by
  induction blank with
  | nil => rfl
  | cons c blank ih =>
    rw [List.cons_append, splitWhitespace_cons _ (h c List.mem_cons_self)]
    exact ih fun x hx => h x (List.mem_cons_of_mem c hx)

/-- Blanks at the end make no word. -/
theorem splitWhitespace_append_white {blank : List Char}
    (h : ∀ c ∈ blank, isWhitespace c = true) (cs : List Char) :
    splitWhitespace (cs ++ blank) = splitWhitespace cs := by
  cases blank with
  | nil => rw [List.append_nil]
  | cons c blank =>
    have hnil : splitWhitespace blank = [] := by
      have hwhite := splitWhitespace_white (fun x hx => h x (List.mem_cons_of_mem c hx)) []
      rw [List.append_nil] at hwhite
      exact hwhite
    rw [splitWhitespace, List.splitOnP_append_cons _ _ (h c List.mem_cons_self),
      List.filter_append]
    exact (congrArg _ hnil).trans (List.append_nil _)

theorem exists_append_white (cs : List Char) :
    ∃ white, cs = trimEnd cs ++ white ∧ ∀ c ∈ white, isWhitespace c = true := by
  refine ⟨(cs.reverse.takeWhile isWhitespace).reverse, ?_, fun c hc => ?_⟩
  · rw [trimEnd, ← List.reverse_append, List.takeWhile_append_dropWhile, List.reverse_reverse]
  · exact List.mem_takeWhile_imp (List.mem_reverse.mp hc)

theorem splitWhitespace_trimEnd (cs : List Char) :
    splitWhitespace (trimEnd cs) = splitWhitespace cs := by
  obtain ⟨white, hcs, hwhite⟩ := exists_append_white cs
  conv_rhs => rw [hcs]
  rw [splitWhitespace_append_white hwhite]

/-- A text that begins without blanks ends its first word at the first blank. -/
theorem splitWhitespace_head {v : List Char} (hne : v ≠ [])
    (hv : ∀ c ∈ v, isWhitespace c = false) (rest : List Char) :
    splitWhitespace (v ++ rest) = (v ++ rest.takeWhile (!isWhitespace ·)) ::
      splitWhitespace (rest.dropWhile (!isWhitespace ·)) := by
  have hword : ∀ c ∈ v ++ rest.takeWhile (!isWhitespace ·), isWhitespace c = false := by
    intro c hc
    rcases List.mem_append.mp hc with hc | hc
    · exact hv c hc
    · simpa using List.mem_takeWhile_imp hc
  have hne' : v ++ rest.takeWhile (!isWhitespace ·) ≠ [] := by simp [hne]
  conv_lhs => rw [← List.takeWhile_append_dropWhile (p := (!isWhitespace ·)) (l := rest),
    ← List.append_assoc]
  cases hdrop : rest.dropWhile (!isWhitespace ·) with
  | nil =>
    rw [List.append_nil, splitWhitespace_word hne' hword]
    rfl
  | cons c tail =>
    have hc : isWhitespace c = true := by
      have hhead := List.head_dropWhile_not (!isWhitespace ·) (l := rest) (by simp [hdrop])
      simpa [hdrop] using hhead
    rw [splitWhitespace_word_cons tail hne' hword hc, splitWhitespace_cons tail hc]

theorem splitWhitespace_gap {v : List Char} (hne : v ≠ [])
    (hv : ∀ c ∈ v, isWhitespace c = false) (gap : Gap) (rest : List Char) :
    splitWhitespace (v ++ (gap.chars ++ rest)) = v :: splitWhitespace rest := by
  obtain ⟨c, cs, hgap⟩ := List.exists_cons_of_ne_nil gap.ne_nil
  have hwhite := gap.white
  rw [hgap] at hwhite ⊢
  rw [List.cons_append, splitWhitespace_word_cons _ hne hv (hwhite c List.mem_cons_self),
    splitWhitespace_white fun x hx => hwhite x (List.mem_cons_of_mem c hx)]

end Words

section Arrows

theorem splitArrow_cons {c : Char} {rest : List Char}
    (h : ¬ (c = '=' ∧ rest.head? = some '>')) :
    splitArrow (c :: rest) = (splitArrow rest).modifyHead (c :: ·) := by
  rw [splitArrow.eq_2]
  rintro rest' rfl rfl
  exact h ⟨rfl, rfl⟩

theorem NoPair.head {a b c : Char} {rest : List Char} (h : NoPair a b (c :: rest)) :
    ¬ (c = a ∧ rest.head? = some b) := by
  rintro ⟨rfl, hrest⟩
  obtain ⟨tail, rfl⟩ := List.head?_eq_some_iff.mp hrest
  exact (List.isChain_cons_cons.mp h).1 ⟨rfl, rfl⟩

theorem splitArrow_append {cs : List Char} (h : NoPair '=' '>' cs) (rest : List Char) :
    splitArrow (cs ++ '=' :: '>' :: rest) = cs :: splitArrow rest := by
  induction cs with
  | nil => rfl
  | cons c cs ih =>
    have hhead : ¬ (c = '=' ∧ (cs ++ '=' :: '>' :: rest).head? = some '>') := by
      cases cs with
      | nil => simp
      | cons d cs => exact h.head
    rw [List.cons_append, splitArrow_cons hhead, ih h.tail, List.modifyHead_cons]

theorem splitArrow_of_noPair {cs : List Char} (h : NoPair '=' '>' cs) : splitArrow cs = [cs] := by
  induction cs with
  | nil => rfl
  | cons c cs ih => rw [splitArrow_cons h.head, ih h.tail, List.modifyHead_cons]

/-- An arrow splits a text at its first place. -/
theorem exists_arrow {cs : List Char} (h : ¬ NoPair '=' '>' cs) :
    ∃ before after, NoPair '=' '>' before ∧ cs = before ++ '=' :: '>' :: after := by
  induction cs with
  | nil => exact absurd List.IsChain.nil h
  | cons c cs ih =>
    by_cases hhead : c = '=' ∧ cs.head? = some '>'
    · obtain ⟨rfl, hcs⟩ := hhead
      obtain ⟨tail, rfl⟩ := List.head?_eq_some_iff.mp hcs
      exact ⟨[], tail, List.IsChain.nil, rfl⟩
    · have htail : ¬ NoPair '=' '>' cs := fun hcs => h <| by
        refine List.isChain_cons.mpr ⟨fun d hd => ?_, hcs⟩
        rintro ⟨rfl, rfl⟩
        exact hhead ⟨rfl, hd⟩
      obtain ⟨before, after, hbefore, rfl⟩ := ih htail
      refine ⟨c :: before, after, List.isChain_cons.mpr ⟨fun d hd => ?_, hbefore⟩, rfl⟩
      rintro ⟨rfl, rfl⟩
      obtain ⟨tail, rfl⟩ := List.head?_eq_some_iff.mp hd
      exact hhead ⟨rfl, rfl⟩

theorem splitArrow_ne_nil (cs : List Char) : splitArrow cs ≠ [] := by
  by_cases h : NoPair '=' '>' cs
  · simp [splitArrow_of_noPair h]
  · obtain ⟨before, after, hbefore, rfl⟩ := exists_arrow h
    simp [splitArrow_append hbefore]

end Arrows

section Dispatch

/-- The branch of a keyword, with what stands behind the keyword and the blank. -/
def branch : Keyword → List Char → Entries
  | .require, rest =>
    if ['('].isPrefixOf rest then {} else { require := (parseDependencyLine rest).toList }
  | .replace, rest => { replace := (parseReplaceLine rest).toList }
  | .exclude, rest => { exclude := (parseDependencyLine rest).toList }
  | .retract, rest => { retract := [rest] }

def GoMod.add (m : GoMod) (e : Entries) : GoMod :=
  { m with
    require := m.require ++ e.require
    replace := m.replace ++ e.replace
    exclude := m.exclude ++ e.exclude
    retract := m.retract ++ e.retract }

@[simp] theorem GoMod.add_empty (m : GoMod) : m.add {} = m := by
  simp [add]

variable {m : GoMod} {line rest : List Char}

theorem parseLine_empty (h : trim line = []) : parseLine m line = m := by
  unfold parseLine
  rw [h]
  rfl

theorem parseLine_comment (h : trim line = '/' :: '/' :: rest) : parseLine m line = m := by
  unfold parseLine
  rw [h]
  rfl

theorem parseLine_module (h : trim line = moduleText ++ ' ' :: rest) :
    parseLine m line = { m with modulePath := trim rest } := by
  unfold parseLine
  rw [h]
  rfl

theorem parseLine_go (h : trim line = goText ++ ' ' :: rest) :
    parseLine m line = { m with goVersion := some (trim rest) } := by
  unfold parseLine
  rw [h]
  rfl

theorem parseLine_keyword (k : Keyword) (h : trim line = k.text ++ ' ' :: rest) :
    parseLine m line = m.add (branch k (trim rest)) := by
  unfold parseLine
  rw [h]
  cases k with
  | require =>
    by_cases hopen : ['('].isPrefixOf (trim rest) = true
    · rw [branch, if_pos hopen, GoMod.add_empty]
      exact if_pos hopen
    · rw [branch, if_neg hopen, GoMod.add]
      simp only [List.append_nil]
      exact if_neg hopen
  | replace => simp only [branch, GoMod.add, List.append_nil]; rfl
  | exclude => simp only [branch, GoMod.add, List.append_nil]; rfl
  | retract => simp only [branch, GoMod.add, List.append_nil]; rfl

/-- A line that the last branch leaves to the other directives. -/
def startsDirective (cs : List Char) : Bool :=
  "require".toList.isPrefixOf cs || "replace".toList.isPrefixOf cs ||
    "exclude".toList.isPrefixOf cs || "retract".toList.isPrefixOf cs

/-- The last branch. -/
theorem parseLine_other {cs : List Char} (h : trim line = cs) (hne : cs ≠ [])
    (hcomment : ¬ ['/', '/'] <+: cs) (hkeyword : ∀ kw ∈ keywords, ¬ kw ++ [' '] <+: cs) :
    parseLine m line = if startsDirective cs || [')'].isPrefixOf cs || ['('].isPrefixOf cs then m
      else m.add { require := (parseDependencyLine cs).toList } := by
  have hnone : ∀ kw ∈ keywords, stripPrefix (kw ++ [' ']) cs = none := fun kw hkw => by
    rw [stripPrefix, if_neg]
    exact fun hpre => hkeyword kw hkw (List.isPrefixOf_iff_prefix.mp hpre)
  have hmodule : stripPrefix "module ".toList cs = none := hnone moduleText (by decide)
  have hgo : stripPrefix "go ".toList cs = none := hnone goText (by decide)
  have hrequire : stripPrefix "require ".toList cs = none := hnone "require".toList (by decide)
  have hreplace : stripPrefix "replace ".toList cs = none := hnone "replace".toList (by decide)
  have hexclude : stripPrefix "exclude ".toList cs = none := hnone "exclude".toList (by decide)
  have hretract : stripPrefix "retract ".toList cs = none := hnone "retract".toList (by decide)
  have hskip : ¬ (cs.isEmpty || ['/', '/'].isPrefixOf cs) = true := by
    simpa [hne] using hcomment
  have hadd : m.add { require := (parseDependencyLine cs).toList } =
      { m with require := m.require ++ (parseDependencyLine cs).toList } := by
    simp [GoMod.add]
  unfold parseLine
  rw [h, hadd]
  dsimp only
  rw [show "//".toList = ['/', '/'] from rfl, if_neg hskip, hmodule, hgo, hrequire, hreplace,
    hexclude, hretract]
  dsimp only
  rw [← Bool.not_or, ← Bool.not_or, ← Bool.not_or, ← Bool.not_or, ← Bool.not_or]
  change (if (!(startsDirective cs || [')'].isPrefixOf cs || ['('].isPrefixOf cs)) = true then _
    else m) = _
  cases startsDirective cs || [')'].isPrefixOf cs || ['('].isPrefixOf cs <;> rfl

theorem keyword_letters {kw : List Char} (hkw : kw ∈ keywords) :
    kw ≠ [] ∧ ∀ c ∈ kw, isWhitespace c = false ∧ c ≠ '/' ∧ c ≠ '[' ∧ c ≠ ')' := by
  have hall : (keywords.all fun kw => kw ≠ [] && kw.all fun c =>
      isWhitespace c = false ∧ c ≠ '/' ∧ c ≠ '[' ∧ c ≠ ')') = true := by decide
  have hkw' := List.all_eq_true.mp hall kw hkw
  rw [Bool.and_eq_true] at hkw'
  exact ⟨of_decide_eq_true hkw'.1, List.all_iff_forall_prop.mp hkw'.2⟩

theorem not_keyword_cons {kw : List Char} {c : Char} (hkw : kw ∈ keywords)
    (hc : c = '[' ∨ c = ')') : ¬ kw ++ [' '] <+: c :: rest := by
  obtain ⟨hne, hletters⟩ := keyword_letters hkw
  obtain ⟨x, cs, rfl⟩ := List.exists_cons_of_ne_nil hne
  rw [List.cons_append, List.cons_prefix_cons]
  rintro ⟨rfl, -⟩
  obtain ⟨-, -, hbracket, hparen⟩ := hletters x List.mem_cons_self
  exact hc.elim hbracket hparen

/-- No keyword begins with another. -/
theorem eq_space_of_prefix_keyword {kw kw' : List Char} {c : Char} (hkw : kw ∈ keywords)
    (hkw' : kw' ∈ keywords) (h : kw ++ [' '] <+: kw' ++ c :: rest) : c = ' ' := by
  have hsame : ∀ kw ∈ keywords, ∀ kw' ∈ keywords, kw' <+: kw → kw = kw' := by decide
  obtain ⟨t, ht⟩ := h
  rw [List.append_assoc, List.singleton_append] at ht
  have hprefix : kw' <+: kw ∨ kw <+: kw' := by
    rcases List.append_eq_append_iff.mp ht with ⟨a, ha, -⟩ | ⟨a, ha, -⟩
    · exact .inr ⟨a, ha.symm⟩
    · exact .inl ⟨a, ha.symm⟩
  obtain rfl : kw = kw' :=
    hprefix.elim (hsame kw hkw kw' hkw') fun h => (hsame kw' hkw' kw hkw h).symm
  exact (List.cons.inj (List.append_cancel_left ht)).1.symm

theorem not_comment_cons {c : Char} (hc : c ≠ '/') : ¬ ['/', '/'] <+: c :: rest := by
  rw [List.cons_prefix_cons]
  exact fun h => hc h.1.symm

theorem not_comment_keyword {kw : List Char} (hkw : kw ∈ keywords) :
    ¬ ['/', '/'] <+: kw ++ rest := by
  obtain ⟨hne, hletters⟩ := keyword_letters hkw
  obtain ⟨x, cs, rfl⟩ := List.exists_cons_of_ne_nil hne
  exact not_comment_cons (hletters x List.mem_cons_self).2.1

/-- A keyword that is followed by something else than a space leaves the line to the last branch. -/
theorem parseLine_notSpaced {kw : List Char} {c : Char} (hkw : kw ∈ keywords) (hc : c ≠ ' ')
    (h : trim line = kw ++ c :: rest) : parseLine m line =
      if startsDirective (kw ++ c :: rest) || [')'].isPrefixOf (kw ++ c :: rest) ||
        ['('].isPrefixOf (kw ++ c :: rest) then m
      else m.add { require := (parseDependencyLine (kw ++ c :: rest)).toList } :=
  parseLine_other h (by simp) (not_comment_keyword hkw) fun _ hkw' hpre =>
    hc (eq_space_of_prefix_keyword hkw' hkw hpre)

theorem Keyword.mem_keywords (k : Keyword) : k.text ∈ keywords := by
  cases k <;> decide

theorem parseLine_unread (k : Keyword) {c : Char} (hc : c ≠ ' ')
    (h : trim line = k.text ++ c :: rest) : parseLine m line = m := by
  rw [parseLine_notSpaced k.mem_keywords hc h, if_pos]
  cases k <;> rfl

end Dispatch

section Words

/-- What may follow a word on its line. -/
def Follows (w : Word) (rest : List Char) : Prop :=
  ∀ c, rest.head? = some c → isWhitespace c = true ∨ c = '/' ∧ w.chars.getLast? ≠ some '/'

/-- A keyword is a prefix of a line just if it is one of the first word. -/
theorem prefix_word_iff {kw rest : List Char} {w : Word} (hkw : kw ∈ keywords)
    (hrest : Follows w rest) : kw <+: w.chars ++ rest ↔ kw <+: w.chars := by
  refine ⟨fun h => ?_, fun h => h.trans (List.prefix_append _ _)⟩
  obtain ⟨t, ht⟩ := h
  rcases List.append_eq_append_iff.mp ht with ⟨a, ha, -⟩ | ⟨a, ha, hrest'⟩
  · exact ⟨a, ha.symm⟩
  · cases a with
    | nil => exact ⟨[], by simpa using ha⟩
    | cons c a =>
      obtain ⟨hvisible, hslash, -⟩ := (keyword_letters hkw).2 c (by simp [ha])
      rcases hrest c (by simp [hrest']) with hwhite | ⟨heq, -⟩
      · rw [hvisible] at hwhite
        cases hwhite
      · exact absurd heq hslash

/-- No word begins a directive. -/
theorem not_keyword_prefix {kw rest : List Char} {w : Word} (hkw : kw ∈ keywords)
    (hrest : Follows w rest) : ¬ kw ++ [' '] <+: w.chars ++ rest := by
  rintro ⟨t, ht⟩
  rw [List.append_assoc, List.singleton_append] at ht
  obtain ⟨a, ha⟩ := (prefix_word_iff hkw hrest).mp ⟨_, ht⟩
  rw [← ha, List.append_assoc, List.append_cancel_left_eq] at ht
  cases a with
  | nil =>
    rw [List.append_nil] at ha
    exact w.not_keyword (ha ▸ hkw)
  | cons c a =>
    obtain ⟨rfl, -⟩ := List.cons.inj ht
    have hvisible := (w.visible ' ' (by simp [← ha])).1
    exact absurd hvisible (by decide)

theorem not_prefix_comment {rest : List Char} {w : Word} (hrest : Follows w rest) :
    ¬ ['/', '/'] <+: w.chars ++ rest := by
  rintro ⟨t, ht⟩
  have hnot : ∀ a, w.chars ≠ '/' :: '/' :: a := fun a ha => by
    have hcomment := w.noComment
    rw [ha] at hcomment
    exact hcomment.head ⟨rfl, rfl⟩
  rcases hw : w.chars with _ | ⟨c, _ | ⟨d, cs⟩⟩
  · exact w.ne_nil hw
  · rw [hw] at ht
    simp only [List.cons_append, List.nil_append, List.cons.injEq] at ht
    obtain ⟨rfl, rfl⟩ := ht
    rcases hrest '/' rfl with hwhite | ⟨-, hlast⟩
    · exact absurd hwhite (by decide)
    · exact hlast (by simp [hw])
  · rw [hw] at ht
    simp only [List.cons_append, List.nil_append, List.cons.injEq] at ht
    obtain ⟨rfl, rfl, -⟩ := ht
    exact hnot cs hw

theorem Word.not_head (w : Word) {c : Char} (hc : c.toNat ∈ [34, 40, 41, 44, 91, 93, 96, 123, 125])
    (rest : List Char) : [c].isPrefixOf (w.chars ++ rest) = false := by
  obtain ⟨d, cs, hw⟩ := List.exists_cons_of_ne_nil w.ne_nil
  rw [hw, List.cons_append, Bool.eq_false_iff, Ne, List.isPrefixOf_iff_prefix,
    List.cons_prefix_cons]
  rintro ⟨rfl, -⟩
  exact (w.visible c (by simp [hw])).2 hc

theorem startsDirective_word {rest : List Char} {w : Word} (hrest : Follows w rest) :
    startsDirective (w.chars ++ rest) = startsDirective w.chars := by
  have hkw : ∀ kw ∈ keywords, kw.isPrefixOf (w.chars ++ rest) = kw.isPrefixOf w.chars :=
    fun kw hkw => Bool.eq_iff_iff.mpr <| by
      rw [List.isPrefixOf_iff_prefix, List.isPrefixOf_iff_prefix]
      exact prefix_word_iff hkw hrest
  rw [startsDirective, hkw _ (by decide), hkw _ (by decide), hkw _ (by decide),
    hkw _ (by decide)]
  rfl

/-- A line that begins with a word goes to the last branch. -/
theorem parseLine_word {m : GoMod} {line rest : List Char} {w : Word}
    (h : trim line = w.chars ++ rest) (hrest : Follows w rest) :
    parseLine m line = if startsDirective w.chars then m
      else m.add { require := (parseDependencyLine (w.chars ++ rest)).toList } := by
  rw [parseLine_other h (by simp [w.ne_nil]) (not_prefix_comment hrest) fun kw hkw =>
    not_keyword_prefix hkw hrest]
  rw [startsDirective_word hrest, w.not_head (by decide), w.not_head (by decide), Bool.or_false,
    Bool.or_false]

theorem Gap.follows (gap : Gap) (w : Word) (rest : List Char) :
    Follows w (gap.chars ++ rest) := by
  intro c hc
  rw [List.head?_append_of_ne_nil _ gap.ne_nil] at hc
  exact .inl (gap.white c (List.mem_of_mem_head? hc))

theorem Tail.follows {w : Word} (t : Tail w.chars) : Follows w t.trimmed := by
  intro c hc
  unfold trimmed at hc
  split at hc
  · next comment hcomment =>
    cases hblank : t.blank.chars with
    | nil =>
      rw [hblank] at hc
      obtain rfl := Option.some.inj hc
      exact .inr ⟨rfl, t.apart hblank (by simp [hcomment])⟩
    | cons b bs =>
      rw [hblank] at hc
      obtain rfl := Option.some.inj hc
      exact .inl (t.blank.white b (by simp [hblank]))
  · cases hc

theorem follows_nil (w : Word) : Follows w [] := fun _ hc => by cases hc

/-- What a specification begins with: a word, or the bracket of an interval. -/
theorem Spec.head {k : Keyword} (spec : Spec k) (tail : Tail spec.text) :
    (∃ w rest, spec.text = w.chars ++ rest ∧ Follows w rest ∧ Follows w (rest ++ tail.trimmed)) ∨
      ∃ rest, spec.text = '[' :: rest := by
  have hdependency : ∀ d : DependencySpec, d.text = d.path.chars ++
      (d.gap.chars ++ d.version.chars) := fun d => List.append_assoc _ _ _
  cases spec with
  | require d =>
    refine .inl ⟨d.path, _, hdependency d, d.gap.follows _ _, ?_⟩
    rw [List.append_assoc]
    exact d.gap.follows _ _
  | exclude d =>
    refine .inl ⟨d.path, _, hdependency d, d.gap.follows _ _, ?_⟩
    rw [List.append_assoc]
    exact d.gap.follows _ _
  | replace r =>
    have hversion : ∀ t, Follows r.old.path
        ((r.old.version.map fun v => v.1.chars ++ v.2.chars).getD [] ++ (r.before.chars ++ t)) := by
      intro t
      cases r.old.version with
      | none => exact r.before.follows _ t
      | some v =>
        rw [Option.map_some, Option.getD_some, List.append_assoc]
        exact v.1.follows _ _
    refine .inl ⟨r.old.path, _, ?_, hversion ('=' :: '>' :: (r.after.chars ++ r.new.text)), ?_⟩
    · rw [text, ReplaceSpec.text, VersionedPath.text, List.append_assoc, List.append_assoc]
    · rw [List.append_assoc, List.append_assoc]
      exact hversion _
  | retract r =>
    cases r with
    | version v =>
      refine .inl ⟨v, [], (List.append_nil _).symm, follows_nil v, ?_⟩
      rw [List.nil_append]
      exact Tail.follows tail
    | interval => exact .inr ⟨_, rfl⟩

end Words

section Lines

theorem Word.solid (w : Word) : Solid w.chars :=
  solid_of_visible w.ne_nil fun c hc => (w.visible c hc).1

theorem Keyword.solid (k : Keyword) : Solid k.text := by
  cases k <;> exact solid_of_all (by decide) rfl

theorem VersionedPath.solid (p : VersionedPath) : Solid p.text := by
  unfold text
  cases p.version with
  | none => simpa using p.path.solid
  | some v => exact p.path.solid.append _ v.2.solid

theorem Spec.solid {k : Keyword} (spec : Spec k) : Solid spec.text := by
  have hdependency : ∀ d : DependencySpec, Solid d.text := fun d => by
    rw [DependencySpec.text, List.append_assoc]
    exact d.path.solid.append _ d.version.solid
  cases spec with
  | require d => exact hdependency d
  | exclude d => exact hdependency d
  | replace r =>
    have h := r.old.solid.append (r.before.chars ++ '=' :: '>' :: r.after.chars) r.new.solid
    simpa [text, ReplaceSpec.text] using h
  | retract r =>
    cases r with
    | version v => exact v.solid
    | interval b₁ low b₂ b₃ high b₄ =>
      have hopen : Solid ['['] := solid_of_all (by decide) rfl
      have hclose : Solid [']'] := solid_of_all (by decide) rfl
      have h := hopen.append
        (b₁.chars ++ low.chars ++ b₂.chars ++ ',' :: (b₃.chars ++ high.chars ++ b₄.chars)) hclose
      simpa [text, RetractSpec.text] using h

/-- The first blank after a keyword is a space. -/
def Blank.Spaced (b : Blank) : Prop := b.chars.head? = some ' '

instance (b : Blank) : Decidable b.Spaced := inferInstanceAs (Decidable (_ = _))

namespace ModLine

/-- The end of the line as it is read. -/
def rest : ModLine → List Char
  | blank tail => commentText (tail.comment.map trimEnd)
  | module _ _ _ tail => tail.trimmed
  | go _ _ _ tail => tail.trimmed
  | single _ _ _ tail _ => tail.trimmed
  | opening _ _ _ tail => tail.trimmed
  | entry _ _ tail => tail.trimmed
  | closing _ tail => tail.trimmed

theorem trim_text (l : ModLine) : trim l.text = l.body ++ l.rest := by
  have htail : ∀ {body : List Char} {text : List Char} (indent : Blank) (tail : Tail text),
      Solid body → trim (indent.chars ++ (body ++ tail.chars)) = body ++ tail.trimmed :=
    fun indent tail hbody => by rw [trim_solid indent.white hbody, tail.trimEnd_chars]
  cases l with
  | blank tail =>
    obtain ⟨b, comment, -, -⟩ := tail
    cases comment with
    | none =>
      have hblank : trim b.chars = [] := List.isEmpty_iff.mp (isBlank_iff.mpr b.white)
      exact (congrArg trim (List.append_nil b.chars)).trans hblank
    | some c =>
      have hslashes : Solid ['/', '/'] := solid_of_all (by decide) rfl
      exact trim_solid b.white hslashes c
  | module indent gap path tail =>
    have hmodule : Solid moduleText := solid_of_all (by decide) rfl
    exact htail indent tail (hmodule.append _ path.solid)
  | go indent gap version tail =>
    have hgo : Solid goText := solid_of_all (by decide) rfl
    exact htail indent tail (hgo.append _ version.solid)
  | @single indent k gap spec tail _ => exact htail indent tail (k.solid.append _ spec.solid)
  | opening indent k gap tail =>
    exact htail indent tail (k.solid.append _ (solid_of_all (by decide) rfl))
  | entry indent spec tail => exact htail indent tail spec.solid
  | closing indent tail =>
    have hclose : Solid [')'] := solid_of_all (by decide) rfl
    exact htail indent tail hclose

/-- The module path that a line sets. -/
def readsModule : ModLine → Option (List Char)
  | module _ gap path tail => if gap.Spaced then some (path.chars ++ tail.trimmed) else none
  | _ => none

def readsGo : ModLine → Option (List Char)
  | go _ gap version tail => if gap.Spaced then some (version.chars ++ tail.trimmed) else none
  | _ => none

/-- The entries that a line adds. -/
def reads : ModLine → Entries
  | blank _ => {}
  | l@(module _ gap _ _) | l@(go _ gap _ _) =>
    if gap.Spaced then {} else { require := (parseDependencyLine (l.body ++ l.rest)).toList }
  | @single _ k gap spec tail _ => if gap.Spaced then branch k (spec.text ++ tail.trimmed) else {}
  | opening _ k gap tail => if gap.Spaced then branch k ('(' :: tail.trimmed) else {}
  | entry _ spec tail => if startsDirective spec.text then {} else
    { require := (parseDependencyLine (spec.text ++ tail.trimmed)).toList }
  | closing _ _ => {}

theorem trim_tail {body : List Char} {text : List Char} (blank : List Char)
    (hblank : ∀ c ∈ blank, isWhitespace c = true) (hbody : Solid body) (tail : Tail text) :
    trim (blank ++ (body ++ tail.trimmed)) = body ++ tail.trimmed := by
  rw [trim_solid hblank hbody, tail.trimEnd_trimmed]

/-- A line with a keyword is read just if the first blank after the keyword is a space. -/
theorem parseLine_directive {m : GoMod} {line body text : List Char} (k : Keyword) (gap : Blank)
    (tail : Tail text) (hbody : Solid body)
    (h : trim line = k.text ++ (gap.chars ++ body) ++ tail.trimmed) :
    parseLine m line = m.add (if gap.Spaced then branch k (body ++ tail.trimmed) else {}) := by
  rw [List.append_assoc, List.append_assoc] at h
  split
  · next hspaced =>
    obtain ⟨blank, hgap⟩ := List.head?_eq_some_iff.mp hspaced
    have hwhite := gap.white
    rw [hgap] at h hwhite
    rw [List.cons_append] at h
    rw [parseLine_keyword k h,
      trim_tail blank (fun c hc => hwhite c (List.mem_cons_of_mem _ hc)) hbody]
  · next hspaced =>
    rw [GoMod.add_empty]
    rcases hgap : gap.chars with _ | ⟨c, blank⟩
    · obtain ⟨hne, hhead, -⟩ := hbody
      obtain ⟨c, cs, rfl⟩ := List.exists_cons_of_ne_nil hne
      rw [hgap] at h
      refine parseLine_unread k ?_ h
      rintro rfl
      exact absurd hhead (by simp [isWhitespace])
    · rw [hgap] at h
      refine parseLine_unread k ?_ h
      rintro rfl
      exact hspaced (by simp [Blank.Spaced, hgap])

/-- A line that declares nothing and is read, if the first blank is no space, as a requirement. -/
theorem parseLine_header {m : GoMod} {line text : List Char} {name : List Char} {w : Word}
    (hname : name = moduleText ∨ name = goText) (gap : Gap) (hspaced : ¬ gap.Spaced)
    (tail : Tail text) (h : trim line = name ++ (gap.chars ++ w.chars) ++ tail.trimmed) :
    parseLine m line = m.add { require :=
      (parseDependencyLine (name ++ (gap.chars ++ w.chars) ++ tail.trimmed)).toList } := by
  obtain ⟨c, blank, hgap⟩ := List.exists_cons_of_ne_nil gap.ne_nil
  have hc : c ≠ ' ' := by
    rintro rfl
    exact hspaced (by simp [Blank.Spaced, hgap])
  rw [hgap] at h ⊢
  have hkw : name ∈ keywords := by
    rcases hname with rfl | rfl <;> decide
  rw [List.append_assoc, List.cons_append, List.cons_append] at h ⊢
  rw [parseLine_notSpaced hkw hc h]
  rcases hname with rfl | rfl <;> rfl

/-- What one turn of the loop does with a line of a file. -/
theorem parseLine_text (m : GoMod) (l : ModLine) :
    parseLine m l.text = { m.add l.reads with
      modulePath := l.readsModule.getD m.modulePath
      goVersion := l.readsGo.or m.goVersion } := by
  have htrim := l.trim_text
  cases l with
  | blank tail =>
    have hread : parseLine m (text (blank tail)) = m := by
      rw [rest] at htrim
      cases hcomment : tail.comment with
      | none =>
        rw [hcomment] at htrim
        exact parseLine_empty htrim
      | some c =>
        rw [hcomment] at htrim
        exact parseLine_comment htrim
    simpa [reads, readsModule, readsGo] using hread
  | module indent gap path tail =>
    by_cases hspaced : gap.Spaced
    · obtain ⟨blank, hgap⟩ := List.head?_eq_some_iff.mp hspaced
      have hwhite := gap.white
      rw [body, rest, hgap, List.append_assoc, List.append_assoc, List.cons_append] at htrim
      rw [hgap] at hwhite
      rw [parseLine_module htrim,
        trim_tail blank (fun c hc => hwhite c (List.mem_cons_of_mem _ hc)) path.solid]
      simp [reads, readsModule, readsGo, hspaced]
    · rw [parseLine_header (.inl rfl) gap hspaced tail htrim]
      simp [reads, readsModule, readsGo, hspaced, GoMod.add, body, rest]
  | go indent gap version tail =>
    by_cases hspaced : gap.Spaced
    · obtain ⟨blank, hgap⟩ := List.head?_eq_some_iff.mp hspaced
      have hwhite := gap.white
      rw [body, rest, hgap, List.append_assoc, List.append_assoc, List.cons_append] at htrim
      rw [hgap] at hwhite
      rw [parseLine_go htrim,
        trim_tail blank (fun c hc => hwhite c (List.mem_cons_of_mem _ hc)) version.solid]
      simp [reads, readsModule, readsGo, hspaced]
    · rw [parseLine_header (.inr rfl) gap hspaced tail htrim]
      simp [reads, readsModule, readsGo, hspaced, GoMod.add, body, rest]
  | @single indent k gap spec tail _ =>
    rw [parseLine_directive k gap tail spec.solid htrim]
    simp [reads, readsModule, readsGo, GoMod.add]
  | opening indent k gap tail =>
    have hopen : Solid ['('] := solid_of_all (by decide) rfl
    rw [parseLine_directive k gap tail hopen htrim]
    simp [reads, readsModule, readsGo, GoMod.add]
  | entry indent spec tail =>
    have hread : parseLine m (text (entry indent spec tail)) =
        m.add (reads (entry indent spec tail)) := by
      rw [body, rest] at htrim
      rw [reads]
      rcases spec.head tail with ⟨w, rest, htext, hrest, hrest'⟩ | ⟨rest, htext⟩
      all_goals generalize tail.trimmed = t at *
      · rw [htext, List.append_assoc] at htrim
        rw [parseLine_word htrim hrest', htext, startsDirective_word hrest, List.append_assoc]
        split
        · rw [GoMod.add_empty]
        · rfl
      · rw [htext] at htrim ⊢
        rw [parseLine_other htrim (List.cons_ne_nil _ _) (not_comment_cons (by decide))
          fun kw hkw => not_keyword_cons hkw (.inl rfl)]
        rfl
    rw [hread]
    simp [readsModule, readsGo, GoMod.add]
  | closing indent tail =>
    have hread : parseLine m (text (closing indent tail)) = m := by
      rw [parseLine_other htrim (List.cons_ne_nil _ _) (not_comment_cons (by decide))
        fun kw hkw => not_keyword_cons hkw (.inr rfl)]
      rfl
    simpa [reads, readsModule, readsGo] using hread

end ModLine

end Lines

end ArtifactKeeper.Go
