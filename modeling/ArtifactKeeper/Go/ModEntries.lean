import ArtifactKeeper.Go.ModReading

/-! What is read of the entries of a `go.mod` file, and how it differs from what they declare. -/

namespace ArtifactKeeper.Go

open Text

section Plain

/-- A text that can stand in a declared entry. -/
structure Plain (cs : List Char) : Prop where
  noComment : NoPair '/' '/' cs
  noParen : '(' ∉ cs
  not_keyword : cs ∉ keywords

theorem Word.plain (w : Word) : Plain w.chars :=
  ⟨w.noComment, fun h => (w.visible _ h).2 (by decide), w.not_keyword⟩

theorem not_plain_comment (before after : List Char) :
    ¬ Plain (before ++ '/' :: '/' :: after) := fun h => by
  have hslashes : NoPair '/' '/' ['/', '/'] :=
    List.IsChain.infix h.noComment ⟨before, after, by simp⟩
  exact absurd hslashes (by decide)

theorem noPair_of_forall_ne {a b : Char} {cs : List Char} (h : ∀ c ∈ cs, c ≠ a) :
    NoPair a b cs := by
  refine List.isChain_iff_forall_rel_of_append_cons_cons.mpr fun c d l l' heq hpair => ?_
  exact h c (by simp [heq]) hpair.1

/-- Texts with something harmless between them. -/
theorem NoPair.between {a b : Char} {xs ys m : List Char} (hxs : NoPair a b xs)
    (hm : ∀ c ∈ m, c ≠ a ∧ c ≠ b) (hne : m ≠ []) (hys : NoPair a b ys) :
    NoPair a b (xs ++ (m ++ ys)) := by
  have hmiddle : NoPair a b m := noPair_of_forall_ne fun c hc => (hm c hc).1
  refine List.IsChain.append hxs (List.IsChain.append hmiddle hys ?_) ?_
  · intro c hc d _ hpair
    exact (hm c (List.mem_of_mem_getLast? hc)).1 hpair.1
  · intro c _ d hd hpair
    rw [List.head?_append_of_ne_nil _ hne] at hd
    exact (hm d (List.mem_of_mem_head? hd)).2 hpair.2

theorem NoPair.prepend {a b : Char} {ys m : List Char} (hm : ∀ c ∈ m, c ≠ a ∧ c ≠ b)
    (hys : NoPair a b ys) : NoPair a b (m ++ ys) := by
  by_cases hne : m = []
  · rwa [hne, List.nil_append]
  · exact @NoPair.between a b [] ys m List.IsChain.nil hm hne hys

theorem white_harmless {a b : Char} {white : List Char}
    (h : ∀ c ∈ white, isWhitespace c = true) (ha : isWhitespace a = false)
    (hb : isWhitespace b = false) : ∀ c ∈ white, c ≠ a ∧ c ≠ b := by
  intro c hc
  have hwhite := h c hc
  constructor
  · rintro rfl
    rw [ha] at hwhite
    cases hwhite
  · rintro rfl
    rw [hb] at hwhite
    cases hwhite

theorem Blank.harmless {a b : Char} (blank : Blank) (ha : isWhitespace a = false)
    (hb : isWhitespace b = false) : ∀ c ∈ blank.chars, c ≠ a ∧ c ≠ b :=
  white_harmless blank.white ha hb

/-- An interval as it is written. -/
theorem RetractSpec.plain (r : RetractSpec) : Plain r.text := by
  cases r with
  | version v => exact v.plain
  | interval b₁ low b₂ b₃ high b₄ =>
    have hblank : ∀ b : Blank, ∀ c ∈ b.chars, c ≠ '/' ∧ c ≠ '/' := fun b =>
      b.harmless (by decide) (by decide)
    have hcomma : ∀ c ∈ b₂.chars ++ ',' :: b₃.chars, c ≠ '/' ∧ c ≠ '/' := by
      intro c hc
      rcases List.mem_append.mp hc with hc | hc
      · exact hblank b₂ c hc
      · rcases List.mem_cons.mp hc with rfl | hc
        · decide
        · exact hblank b₃ c hc
    have hopen : ∀ c ∈ '[' :: b₁.chars, c ≠ '/' ∧ c ≠ '/' := by
      intro c hc
      rcases List.mem_cons.mp hc with rfl | hc
      · decide
      · exact hblank b₁ c hc
    have hclose : ∀ c ∈ b₄.chars ++ [']'], c ≠ '/' ∧ c ≠ '/' := by
      intro c hc
      rcases List.mem_append.mp hc with hc | hc
      · exact hblank b₄ c hc
      · rw [List.mem_singleton.mp hc]
        decide
    have hhigh := NoPair.between high.noComment hclose (by simp) List.IsChain.nil
    have hnoComment := NoPair.prepend hopen
      (NoPair.between low.noComment hcomma (by simp) hhigh)
    have hparen : ∀ b : Blank, '(' ∉ b.chars := fun b h => by
      rcases b.blank _ h with h | h | h <;> exact absurd h (by decide)
    refine ⟨by simpa [text] using hnoComment, ?_, ?_⟩
    · simp [text, hparen, low.plain.noParen, high.plain.noParen]
    · intro h
      exact ((keyword_letters h).2 '[' List.mem_cons_self).2.2.1 rfl

end Plain

section Dependencies

theorem Word.ne_slashes (w : Word) : w.chars ≠ "//".toList := fun h => by
  have hplain := w.plain
  rw [h] at hplain
  exact not_plain_comment [] [] hplain

/-- The words of a comment. -/
def Tail.commentWords {text : List Char} (t : Tail text) : List (List Char) :=
  splitWhitespace (commentText t.comment)

theorem commentWords_some {text : List Char} {t : Tail text} {c : List Char}
    (h : t.comment = some c) : ∃ x ws, t.commentWords = ('/' :: '/' :: x) :: ws := by
  have hslashes : ∀ d ∈ ['/', '/'], isWhitespace d = false := List.all_iff_forall_prop.mp rfl
  rw [Tail.commentWords, h]
  exact ⟨_, _, splitWhitespace_head (by simp) hslashes c⟩

theorem Tail.words {text : List Char} {t : Tail text} (h : ¬ t.Glued) (w : Word) :
    splitWhitespace (w.chars ++ t.trimmed) = w.chars :: t.commentWords := by
  have hvisible : ∀ c ∈ w.chars, isWhitespace c = false := fun c hc => (w.visible c hc).1
  cases hcomment : t.comment with
  | none =>
    have hnil : splitWhitespace [] = [] := rfl
    rw [trimmed, commentWords, hcomment, commentText, hnil]
    dsimp only
    rw [List.append_nil, splitWhitespace_word w.ne_nil hvisible]
  | some c =>
    have hne : t.blank.chars ≠ [] := fun hnil => h ⟨hnil, by simp [hcomment]⟩
    have hwords := splitWhitespace_gap w.ne_nil hvisible ⟨t.blank, hne⟩ ('/' :: '/' :: trimEnd c)
    have htrim := trimEnd_comment [] c
    rw [List.nil_append, List.nil_append] at htrim
    rw [trimmed, commentWords, hcomment]
    dsimp only at hwords ⊢
    rw [hwords, ← htrim, splitWhitespace_trimEnd]
    rfl

/-- A comment without a blank before it is taken into the word. -/
theorem Tail.words_glued {text : List Char} {t : Tail text} (h : t.Glued) (w : Word) :
    ∃ x ws, splitWhitespace (w.chars ++ t.trimmed) = (w.chars ++ '/' :: '/' :: x) :: ws := by
  obtain ⟨hnil, hcomment⟩ := h
  obtain ⟨c, hc⟩ := Option.ne_none_iff_exists'.mp hcomment
  have hvisible : ∀ d ∈ w.chars ++ ['/', '/'], isWhitespace d = false := by
    intro d hd
    rcases List.mem_append.mp hd with hd | hd
    · exact (w.visible d hd).1
    · have hslashes : ∀ d ∈ ['/', '/'], isWhitespace d = false := List.all_iff_forall_prop.mp rfl
      exact hslashes d hd
  have hwords := splitWhitespace_head (by simp) hvisible (trimEnd c)
  rw [List.append_assoc, List.append_assoc] at hwords
  rw [trimmed, hc, hnil]
  exact ⟨_, _, hwords⟩

theorem markedIndirect_words (v w : Word) (ws : List (List Char)) :
    markedIndirect (v.chars :: w.chars :: ws) = markedIndirect ws := by
  have hv := decide_eq_false v.ne_slashes
  have hw := decide_eq_false w.ne_slashes
  cases ws with
  | nil =>
    simp only [markedIndirect, List.tail_cons, List.zip_cons_cons, List.zip_nil_right,
      List.any_cons, List.any_nil, hv, Bool.false_and, Bool.or_false, List.tail_nil]
  | cons x ws =>
    simp only [markedIndirect, List.tail_cons, List.zip_cons_cons, List.any_cons, hv, hw,
      Bool.false_and, Bool.false_or]

/-- The pairs of neighbours are the first two words of the tails. -/
theorem any_zip_tail (a b : List Char) (ws : List (List Char)) :
    ((ws.zip ws.tail).any fun w => w.1 = a && w.2 = b) =
      ws.tails.any fun words => words.take 2 = [a, b] := by
  induction ws with
  | nil => rfl
  | cons v ws ih =>
    rw [List.tails_cons, List.any_cons, ← ih]
    cases ws with
    | nil => simp
    | cons w ws => simp

theorem markedIndirect_eq (ws : List (List Char)) : markedIndirect ws =
    ws.tails.any fun words => words.take 2 = ["//".toList, "indirect".toList] :=
  any_zip_tail _ _ ws

theorem DependencySpec.splitWhitespace_text (d : DependencySpec) (rest : List Char) :
    splitWhitespace (d.text ++ rest) =
      d.path.chars :: splitWhitespace (d.version.chars ++ rest) := by
  rw [text, List.append_assoc, List.append_assoc]
  exact splitWhitespace_gap d.path.ne_nil (fun c hc => (d.path.visible c hc).1) d.gap _

theorem parseDependencyLine_declared {d : DependencySpec} {tail : Tail d.text}
    (h : ¬ tail.Glued) : parseDependencyLine (d.text ++ tail.trimmed) = some (d.declared tail) := by
  rw [parseDependencyLine, d.splitWhitespace_text, Tail.words h]
  dsimp only
  rw [markedIndirect_words, markedIndirect_eq]
  rfl

theorem parseDependencyLine_glued {d : DependencySpec} {tail : Tail d.text} (h : tail.Glued) :
    ∃ x, parseDependencyLine (d.text ++ tail.trimmed) = some x ∧ ¬ Plain x.version := by
  obtain ⟨x, ws, hwords⟩ := Tail.words_glued h d.version
  rw [parseDependencyLine, d.splitWhitespace_text, hwords]
  exact ⟨_, rfl, not_plain_comment _ x⟩

/-- What is read from the line that opens a block has the parenthesis in it. -/
theorem parseDependencyLine_opening {rest : List Char} {x : GoDependency}
    (h : parseDependencyLine ('(' :: rest) = some x) : ¬ Plain x.path := by
  have hopen : ∀ c ∈ ['('], isWhitespace c = false := List.all_iff_forall_prop.mp rfl
  have hwords := splitWhitespace_head (by simp) hopen rest
  rw [List.singleton_append] at hwords
  rw [parseDependencyLine, hwords] at h
  split at h
  · next path version ws hsplit =>
    obtain ⟨rfl, -⟩ := List.cons.inj hsplit
    rw [← Option.some.inj h]
    exact fun hplain => hplain.noParen (by simp)
  · cases h

end Dependencies

section Replacements

theorem NoPair.append_white {cs white : List Char} (hcs : NoPair '=' '>' cs)
    (hwhite : ∀ c ∈ white, isWhitespace c = true) : NoPair '=' '>' (cs ++ white) := by
  cases white with
  | nil => rwa [List.append_nil]
  | cons c white =>
    have h := NoPair.between hcs (white_harmless hwhite (by decide) (by decide))
      (List.cons_ne_nil c white) List.IsChain.nil
    rwa [List.append_nil] at h

theorem noPair_trimEnd {cs : List Char} : NoPair '=' '>' (trimEnd cs) ↔ NoPair '=' '>' cs := by
  obtain ⟨white, hcs, hwhite⟩ := exists_append_white cs
  refine ⟨fun h => ?_, fun h => List.IsChain.infix h (trimEnd_isPrefix cs).isInfix⟩
  rw [hcs]
  exact h.append_white hwhite

theorem VersionedPath.noArrow (p : VersionedPath) : NoPair '=' '>' p.text := by
  unfold text
  cases p.version with
  | none => simpa using p.path.noArrow
  | some v =>
    exact NoPair.between p.path.noArrow (v.1.harmless (by decide) (by decide)) v.1.ne_nil
      v.2.noArrow

/-- The end of a line has an arrow just if its comment has one. -/
theorem Tail.noArrow_iff {text : List Char} (t : Tail text) {cs : List Char}
    (hcs : NoPair '=' '>' cs) : NoPair '=' '>' (cs ++ t.trimmed) ↔
      ∀ c, t.comment = some c → NoPair '=' '>' c := by
  unfold trimmed
  cases t.comment with
  | none => simpa using hcs
  | some c =>
    simp only [Option.some.injEq, forall_eq']
    constructor
    · intro h
      refine noPair_trimEnd.mp <| List.IsChain.infix h ?_
      exact ⟨cs ++ t.blank.chars ++ ['/', '/'], [], by simp⟩
    · intro h
      have hmiddle : ∀ d ∈ t.blank.chars ++ ['/', '/'], d ≠ '=' ∧ d ≠ '>' := by
        intro d hd
        rcases List.mem_append.mp hd with hd | hd
        · exact t.blank.harmless (by decide) (by decide) d hd
        · have hslashes : ∀ d ∈ ['/', '/'], d ≠ '=' ∧ d ≠ '>' := List.all_iff_forall_prop.mp rfl
          exact hslashes d hd
      have hjoined := NoPair.between hcs hmiddle (by simp) (noPair_trimEnd.mpr h)
      rwa [List.append_assoc] at hjoined

theorem VersionedPath.words_none {p : VersionedPath} (h : p.version = none) (rest : List Char) :
    splitWhitespace (p.text ++ rest) = splitWhitespace (p.path.chars ++ rest) := by
  rw [text, h, Option.map_none, Option.getD_none, List.append_nil]

theorem VersionedPath.words_some {p : VersionedPath} {v : Gap × Word} (h : p.version = some v)
    (rest : List Char) : splitWhitespace (p.text ++ rest) =
      p.path.chars :: splitWhitespace (v.2.chars ++ rest) := by
  rw [text, h, Option.map_some, Option.getD_some, List.append_assoc, List.append_assoc]
  exact splitWhitespace_gap p.path.ne_nil (fun c hc => (p.path.visible c hc).1) v.1 _

theorem Word.splitWhitespace_append (w : Word) {white : List Char}
    (hwhite : ∀ c ∈ white, isWhitespace c = true) :
    splitWhitespace (w.chars ++ white) = [w.chars] := by
  rw [splitWhitespace_append_white hwhite,
    splitWhitespace_word w.ne_nil fun c hc => (w.visible c hc).1]

theorem VersionedPath.words_white (p : VersionedPath) {white : List Char}
    (hwhite : ∀ c ∈ white, isWhitespace c = true) :
    splitWhitespace (p.text ++ white) = p.path.chars :: (p.version.map (·.2.chars)).toList := by
  cases h : p.version with
  | none => rw [words_none h, p.path.splitWhitespace_append hwhite]; rfl
  | some v => rw [words_some h, v.2.splitWhitespace_append hwhite]; rfl

/-- The two sides of the arrow. -/
theorem ReplaceSpec.splitArrow_text (r : ReplaceSpec) (tail : Tail r.text) :
    splitArrow (r.text ++ tail.trimmed) = (r.old.text ++ r.before.chars) ::
      splitArrow (r.after.chars ++ (r.new.text ++ tail.trimmed)) := by
  have hleft : NoPair '=' '>' (r.old.text ++ r.before.chars) :=
    r.old.noArrow.append_white r.before.white
  have hsplit := splitArrow_append hleft (r.after.chars ++ (r.new.text ++ tail.trimmed))
  rw [← hsplit]
  simp [text, List.append_assoc]

theorem ReplaceSpec.parse_of_noArrow {r : ReplaceSpec} {tail : Tail r.text}
    (h : ∀ c, tail.comment = some c → NoPair '=' '>' c) {newPath : List Char}
    {newRest : List (List Char)}
    (hwords : splitWhitespace (r.new.text ++ tail.trimmed) = newPath :: newRest) :
    parseReplaceLine (r.text ++ tail.trimmed) =
      some ⟨r.old.path.chars, r.old.version.map (·.2.chars), newPath, newRest.head?⟩ := by
  have hright : NoPair '=' '>' (r.after.chars ++ (r.new.text ++ tail.trimmed)) :=
    NoPair.prepend (r.after.harmless (by decide) (by decide))
      ((tail.noArrow_iff r.new.noArrow).mpr h)
  rw [parseReplaceLine, r.splitArrow_text, splitArrow_of_noPair hright]
  dsimp only
  rw [r.old.words_white r.before.white, splitWhitespace_white r.after.white, hwords]
  dsimp only
  rw [Option.head?_toList]

/-- A comment with an arrow in it makes the line none at all. -/
theorem ReplaceSpec.parse_of_arrow {r : ReplaceSpec} {tail : Tail r.text} {c : List Char}
    (hcomment : tail.comment = some c) (h : ¬ NoPair '=' '>' c) :
    parseReplaceLine (r.text ++ tail.trimmed) = none := by
  have hright : ¬ NoPair '=' '>' (r.after.chars ++ (r.new.text ++ tail.trimmed)) := by
    intro hright
    have hinner : NoPair '=' '>' (r.new.text ++ tail.trimmed) :=
      List.IsChain.infix hright (List.suffix_append _ _).isInfix
    exact h ((tail.noArrow_iff r.new.noArrow).mp hinner c hcomment)
  obtain ⟨before, after, hbefore, heq⟩ := exists_arrow hright
  obtain ⟨x, xs, hxs⟩ := List.exists_cons_of_ne_nil (splitArrow_ne_nil after)
  rw [parseReplaceLine, r.splitArrow_text, heq, splitArrow_append hbefore, hxs]

/-- A replacement is read as it is declared without a comment, or with one that stands apart behind
a version and has no arrow. -/
def ReplaceSpec.Kept (r : ReplaceSpec) (tail : Tail r.text) : Prop :=
  ∀ c, tail.comment = some c →
    tail.blank.chars ≠ [] ∧ r.new.version ≠ none ∧ NoPair '=' '>' c

theorem ReplaceSpec.parse_declared {r : ReplaceSpec} {tail : Tail r.text} (h : r.Kept tail) :
    parseReplaceLine (r.text ++ tail.trimmed) = some r.declared := by
  have harrow : ∀ c, tail.comment = some c → NoPair '=' '>' c := fun c hc => (h c hc).2.2
  have hglued : ¬ tail.Glued := by
    rintro ⟨hnil, hcomment⟩
    obtain ⟨c, hc⟩ := Option.ne_none_iff_exists'.mp hcomment
    exact (h c hc).1 hnil
  cases hversion : r.new.version with
  | none =>
    have hnone : tail.commentWords = [] := by
      cases hcomment : tail.comment with
      | none => rw [Tail.commentWords, hcomment]; rfl
      | some c => exact absurd hversion (h c hcomment).2.1
    have hwords := (VersionedPath.words_none hversion tail.trimmed).trans
      (Tail.words hglued r.new.path)
    rw [parse_of_noArrow harrow hwords, hnone, declared, hversion]
    rfl
  | some v =>
    have hwords := VersionedPath.words_some hversion tail.trimmed
    rw [Tail.words hglued] at hwords
    rw [parse_of_noArrow harrow hwords, declared, hversion]
    rfl

/-- What can stand in a declared replacement. -/
structure PlainReplace (x : GoReplace) : Prop where
  oldPath : Plain x.oldPath
  newPath : Plain x.newPath
  newVersion : ∀ v, x.newVersion = some v → Plain v

theorem ReplaceSpec.plain (r : ReplaceSpec) : PlainReplace r.declared := by
  refine ⟨r.old.path.plain, r.new.path.plain, fun v hv => ?_⟩
  obtain ⟨w, -, rfl⟩ := Option.map_eq_some_iff.mp hv
  exact w.2.plain

theorem ReplaceSpec.not_plain {r : ReplaceSpec} {tail : Tail r.text} (h : ¬ r.Kept tail)
    {x : GoReplace} (hx : parseReplaceLine (r.text ++ tail.trimmed) = some x) :
    ¬ PlainReplace x := by
  simp only [Kept, not_forall] at h
  obtain ⟨c, hcomment, hnot⟩ := h
  by_cases harrow : NoPair '=' '>' c
  · have harrow' : ∀ c, tail.comment = some c → NoPair '=' '>' c := by
      intro c' hc'
      rw [hcomment] at hc'
      exact Option.some.inj hc' ▸ harrow
    by_cases hglued : tail.Glued
    · cases hversion : r.new.version with
      | none =>
        obtain ⟨y, ws, hglue⟩ := Tail.words_glued hglued r.new.path
        have hwords := (VersionedPath.words_none hversion tail.trimmed).trans hglue
        rw [parse_of_noArrow harrow' hwords] at hx
        rw [← Option.some.inj hx]
        exact fun hplain => not_plain_comment _ y hplain.newPath
      | some v =>
        obtain ⟨y, ws, hglue⟩ := Tail.words_glued hglued v.2
        have hwords := VersionedPath.words_some hversion tail.trimmed
        rw [hglue] at hwords
        rw [parse_of_noArrow harrow' hwords] at hx
        rw [← Option.some.inj hx]
        exact fun hplain => not_plain_comment _ y (hplain.newVersion _ rfl)
    · have hapart : tail.blank.chars ≠ [] := fun hnil => hglued ⟨hnil, by simp [hcomment]⟩
      have hversion : r.new.version = none := by
        by_contra hsome
        exact hnot ⟨hapart, hsome, harrow⟩
      obtain ⟨y, ws, hcommentWords⟩ := commentWords_some hcomment
      have hwords := (VersionedPath.words_none hversion tail.trimmed).trans
        (Tail.words hglued r.new.path)
      rw [parse_of_noArrow harrow' hwords, hcommentWords] at hx
      rw [← Option.some.inj hx]
      exact fun hplain => not_plain_comment [] y (hplain.newVersion _ rfl)
  · rw [parse_of_arrow hcomment harrow] at hx
    cases hx

/-- What is read from the line that opens a block has the parenthesis in it. -/
theorem parseReplaceLine_opening {rest : List Char} {x : GoReplace}
    (h : parseReplaceLine ('(' :: rest) = some x) : ¬ PlainReplace x := by
  have hfirst : ∃ y ys, splitArrow ('(' :: rest) = ('(' :: y) :: ys := by
    rw [splitArrow_cons (by simp)]
    obtain ⟨y, ys, hy⟩ := List.exists_cons_of_ne_nil (splitArrow_ne_nil rest)
    rw [hy]
    exact ⟨y, ys, rfl⟩
  obtain ⟨y, ys, hsplit⟩ := hfirst
  have hopen : ∀ c ∈ ['('], isWhitespace c = false := List.all_iff_forall_prop.mp rfl
  have hwords := splitWhitespace_head (by simp) hopen y
  rw [List.singleton_append] at hwords
  rw [parseReplaceLine, hsplit] at h
  split at h
  · next old new hpieces =>
    obtain ⟨rfl, -⟩ := List.cons.inj hpieces
    rw [hwords] at h
    split at h
    · next oldPath oldRest newPath newRest hold _ =>
      obtain ⟨rfl, -⟩ := List.cons.inj hold
      rw [← Option.some.inj h]
      exact fun hplain => hplain.oldPath.noParen (by simp)
    · cases h
  · cases h

end Replacements

section Openings

theorem splitWhitespace_eq_nil_iff {cs : List Char} : splitWhitespace cs = [] ↔
    isBlank cs = true := by
  rw [isBlank_iff]
  constructor
  · intro h c hc
    by_contra hvisible
    have hdrop : cs.dropWhile isWhitespace ≠ [] := fun hnil =>
      hvisible (List.dropWhile_eq_nil_iff.mp hnil c hc)
    obtain ⟨d, rest, hrest⟩ := List.exists_cons_of_ne_nil hdrop
    have hd : isWhitespace d = false := by
      have hhead := List.head_dropWhile_not isWhitespace hdrop
      simpa [hrest] using hhead
    have hwhite : ∀ x ∈ cs.takeWhile isWhitespace, isWhitespace x = true := fun x hx =>
      List.mem_takeWhile_imp hx
    have hwords := splitWhitespace_white hwhite (cs.dropWhile isWhitespace)
    have hword := splitWhitespace_head (List.cons_ne_nil d [])
      (fun x hx => List.mem_singleton.mp hx ▸ hd) rest
    rw [List.takeWhile_append_dropWhile, h, hrest] at hwords
    rw [List.singleton_append] at hword
    rw [hword] at hwords
    cases hwords
  · intro h
    have hwords := splitWhitespace_white h []
    rw [List.append_nil] at hwords
    exact hwords

/-- The line that opens a block of exclusions is read as one if its comment has a word apart. -/
theorem parseDependencyLine_opening_iff (tail : Tail ['(']) :
    parseDependencyLine ('(' :: tail.trimmed) = none ↔ ∀ c, tail.comment = some c →
      tail.blank.chars = [] ∧ (splitWhitespace ('/' :: '/' :: c)).length = 1 := by
  have hopen : ∀ c ∈ ['('], isWhitespace c = false := List.all_iff_forall_prop.mp rfl
  have hnone : ∀ {cs : List Char} {w : List Char} {ws : List (List Char)},
      splitWhitespace cs = w :: ws → (parseDependencyLine cs = none ↔ ws = []) := by
    intro cs w ws hwords
    rw [parseDependencyLine, hwords]
    cases ws <;> simp
  cases hcomment : tail.comment with
  | none =>
    have hwords : splitWhitespace ['('] = ['('] :: [] := rfl
    simp [Tail.trimmed, hcomment, hnone hwords]
  | some c =>
    simp only [Option.some.injEq, forall_eq']
    have hslashes : ∀ d ∈ ['/', '/'], isWhitespace d = false := List.all_iff_forall_prop.mp rfl
    have hparens : ∀ d ∈ ['(', '/', '/'], isWhitespace d = false := List.all_iff_forall_prop.mp rfl
    have htrim := trimEnd_comment [] c
    rw [List.nil_append, List.nil_append] at htrim
    have hcommentWords := splitWhitespace_head (by simp) hslashes (trimEnd c)
    rw [List.cons_append, List.singleton_append, ← htrim, splitWhitespace_trimEnd] at hcommentWords
    rw [Tail.trimmed, hcomment]
    dsimp only
    rcases hblank : tail.blank.chars with _ | ⟨b, bs⟩
    · have hwords := splitWhitespace_head (by simp) hparens (trimEnd c)
      rw [List.nil_append]
      refine (hnone hwords).trans ?_
      rw [hcommentWords, List.length_cons, Nat.add_eq_right, List.length_eq_zero_iff]
      simp
    · have hne : tail.blank.chars ≠ [] := by simp [hblank]
      have hwords := splitWhitespace_gap (by simp) hopen ⟨tail.blank, hne⟩
        ('/' :: '/' :: trimEnd c)
      dsimp only at hwords
      rw [hblank] at hwords
      refine (hnone hwords).trans ?_
      rw [← htrim, splitWhitespace_trimEnd, hcommentWords]
      simp

theorem trimEnd_arrow (before after : List Char) : trimEnd (before ++ '=' :: '>' :: after) =
    before ++ '=' :: '>' :: trimEnd after := by
  have hinner := trimEnd_append_cons (c := '>') (by decide) [] after
  rw [List.nil_append, List.nil_append] at hinner
  rw [trimEnd_append_cons (by decide), hinner]

/-- A comment behind something harmless makes a replacement if it has one arrow with something
behind it. -/
theorem parseReplaceLine_comment_iff {front c : List Char}
    (hfront : ∀ d ∈ '(' :: front, d ≠ '=' ∧ d ≠ '>') :
    parseReplaceLine ('(' :: front ++ trimEnd c) = none ↔
      ∀ before after, splitArrow c = [before, after] → isBlank after = true := by
  rw [parseReplaceLine]
  by_cases harrow : NoPair '=' '>' c
  · rw [splitArrow_of_noPair (NoPair.prepend hfront (noPair_trimEnd.mpr harrow)),
      splitArrow_of_noPair harrow]
    simp
  · obtain ⟨before, after, hbefore, rfl⟩ := exists_arrow harrow
    have hleft : NoPair '=' '>' ('(' :: front ++ before) := NoPair.prepend hfront hbefore
    rw [trimEnd_arrow, ← List.append_assoc, splitArrow_append hleft, splitArrow_append hbefore]
    by_cases hafter : NoPair '=' '>' after
    · have hopen : ∀ d ∈ ['('], isWhitespace d = false := List.all_iff_forall_prop.mp rfl
      have hold := splitWhitespace_head (by simp) hopen (front ++ before)
      rw [List.singleton_append, ← List.cons_append] at hold
      have hblank : (∀ x y, [before, after] = [x, y] → isBlank y = true) ↔
          splitWhitespace after = [] := by
        rw [splitWhitespace_eq_nil_iff]
        refine ⟨fun h => h _ _ rfl, fun h x y heq => ?_⟩
        simp only [List.cons.injEq, and_true] at heq
        exact heq.2 ▸ h
      rw [splitArrow_of_noPair (noPair_trimEnd.mpr hafter), splitArrow_of_noPair hafter, hblank]
      dsimp only
      rw [hold, splitWhitespace_trimEnd]
      cases splitWhitespace after <;> simp
    · obtain ⟨before', after', hbefore', rfl⟩ := exists_arrow hafter
      obtain ⟨x, xs, hxs⟩ := List.exists_cons_of_ne_nil (splitArrow_ne_nil after')
      obtain ⟨y, ys, hys⟩ := List.exists_cons_of_ne_nil (splitArrow_ne_nil (trimEnd after'))
      rw [trimEnd_arrow, splitArrow_append hbefore', splitArrow_append hbefore', hxs, hys]
      simp

/-- So it is with the line that opens a block of replacements. -/
theorem parseReplaceLine_opening_iff (tail : Tail ['(']) :
    parseReplaceLine ('(' :: tail.trimmed) = none ↔ ∀ c, tail.comment = some c →
      ∀ before after, splitArrow c = [before, after] → isBlank after = true := by
  cases hcomment : tail.comment with
  | none => simp [Tail.trimmed, hcomment, parseReplaceLine, splitArrow]
  | some c =>
    simp only [Option.some.injEq, forall_eq']
    have hfront : ∀ d ∈ '(' :: (tail.blank.chars ++ ['/', '/']), d ≠ '=' ∧ d ≠ '>' := by
      intro d hd
      rcases List.mem_cons.mp hd with rfl | hd
      · decide
      · rcases List.mem_append.mp hd with hd | hd
        · exact tail.blank.harmless (by decide) (by decide) d hd
        · have hslashes : ∀ d ∈ ['/', '/'], d ≠ '=' ∧ d ≠ '>' := List.all_iff_forall_prop.mp rfl
          exact hslashes d hd
    have hread := parseReplaceLine_comment_iff (c := c) hfront
    rw [List.cons_append, List.append_assoc] at hread
    rw [Tail.trimmed, hcomment]
    exact hread

end Openings

end ArtifactKeeper.Go
