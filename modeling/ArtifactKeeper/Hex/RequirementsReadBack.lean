import ArtifactKeeper.ErlangTerm
import ArtifactKeeper.Hex.Requirements

/-! What is printed as the requirements of a package is read back from its `metadata.config`. -/

namespace ArtifactKeeper.Hex
open ErlangTerm
open ReplaceAll (startsIn startsIn_append_eq_zero startsIn_cons_eq_zero startsIn_of_not_mem
  find_of_startsIn find_eq_none)
open Occurrence (find slice)
open ArtifactKeeper.Text (trimStart trimEnd trim stripPrefix isWhitespace)

section Scanning
variable {σ α : Type} {text : List Char} {plain : Char → ℕ → σ → Loop.Round σ α} {atEnd : σ → α}

theorem scan_step {pre post : List Char} {c : Char} (htext : text = pre ++ c :: post)
    (inString : Bool) (d : σ) :
    (scan text plain atEnd).step ⟨pre.length, inString, d⟩ =
      if inString then
        if c = '\\' then .again ⟨pre.length + 2, inString, d⟩
        else .again ⟨pre.length + 1, c != '"', d⟩
      else if c = '"' then .again ⟨pre.length + 1, true, d⟩
      else
        match plain c pre.length d with
        | .again d' => .again ⟨pre.length + 1, inString, d'⟩
        | .done a => .done a := by
  have hat : text[pre.length]? = some c := by
    rw [htext, List.getElem?_append_right (Nat.le_refl _), Nat.sub_self]
    rfl
  cases hplain : plain c pre.length d with
  | again d' => simp only [scan, hat, hplain]
  | done a => simp only [scan, hat, hplain]

/-- Outside of a binary the scanner comes over the chunk, with `d` before and `d'` behind it. -/
def Moves (text : List Char) (plain : Char → ℕ → σ → Loop.Round σ α) (atEnd : σ → α)
    (chunk : List Char) (d d' : σ) : Prop :=
  ∀ pre post, text = pre ++ (chunk ++ post) →
    (scan text plain atEnd).run ⟨pre.length, false, d⟩ =
      (scan text plain atEnd).run ⟨(pre ++ chunk).length, false, d'⟩

theorem Moves.nil (d : σ) : Moves text plain atEnd [] d d := by
  intro pre post _
  rw [List.append_nil]

theorem Moves.append {a b : List Char} {d d' d'' : σ} (ha : Moves text plain atEnd a d d')
    (hb : Moves text plain atEnd b d' d'') : Moves text plain atEnd (a ++ b) d d'' := by
  intro pre post htext
  rw [ha pre (b ++ post) (by rw [htext, List.append_assoc]),
    hb (pre ++ a) post (by rw [htext, List.append_assoc, List.append_assoc]), List.append_assoc]

theorem moves_char {c : Char} {d d' : σ} (hc : c ≠ '"') (h : ∀ i, plain c i d = .again d') :
    Moves text plain atEnd [c] d d' := by
  intro pre post htext
  have hstep : (scan text plain atEnd).step ⟨pre.length, false, d⟩ =
      .again ⟨pre.length + 1, false, d'⟩ := by
    rw [scan_step htext, if_neg (by decide), if_neg hc, h]
  rw [Loop.run_again _ hstep, List.length_append]
  rfl

theorem Moves.cons {c : Char} {chunk : List Char} {d d' d'' : σ} (hc : c ≠ '"')
    (h : ∀ i, plain c i d = .again d') (hrest : Moves text plain atEnd chunk d' d'') :
    Moves text plain atEnd (c :: chunk) d d'' :=
  (moves_char hc h).append hrest

/-- The scanner comes to the end of a string as it is printed. -/
theorem run_escape {s pre post : List Char} (htext : text = pre ++ (escape s ++ '"' :: post))
    (d : σ) :
    (scan text plain atEnd).run ⟨pre.length, true, d⟩ =
      (scan text plain atEnd).run ⟨(pre ++ (escape s ++ ['"'])).length, false, d⟩ := by
  induction s generalizing pre with
  | nil =>
    rw [Loop.run_again _ (scan_step htext true d), List.length_append]
    rfl
  | cons c s ih =>
    by_cases hc : c = '"' ∨ c = '\\'
    · rw [escape_cons_special hc] at htext ⊢
      have hnext := @ih (pre ++ ['\\', c]) (by rw [htext]; simp)
      rw [Loop.run_again _ (scan_step htext true d)]
      simpa using hnext
    · have hnext := @ih (pre ++ [c]) (by rw [htext, escape_cons_plain hc]; simp)
      rw [escape_cons_plain hc] at htext ⊢
      rw [not_or] at hc
      have hstep : (scan text plain atEnd).step ⟨pre.length, true, d⟩ =
          .again ⟨pre.length + 1, true, d⟩ := by
        rw [scan_step htext, if_pos rfl, if_neg hc.2, bne_iff_ne.mpr hc.1]
      rw [Loop.run_again _ hstep]
      simpa using hnext

theorem moves_quoted (s : List Char) (d : σ) : Moves text plain atEnd (quoted s) d d := by
  intro pre post htext
  have hopen : text = pre ++ '"' :: (escape s ++ '"' :: post) := by
    rw [htext, quoted]
    simp
  have hinside : text = (pre ++ ['"']) ++ (escape s ++ '"' :: post) := by
    rw [hopen]
    simp
  have hstep : (scan text plain atEnd).step ⟨pre.length, false, d⟩ =
      .again ⟨pre.length + 1, true, d⟩ := by
    rw [scan_step hopen, if_neg (by decide), if_pos rfl]
  have hrun := @run_escape _ _ text plain atEnd s _ post hinside d
  rw [Loop.run_again _ hstep]
  simpa [quoted] using hrun

/-- How a scanner takes what is deep inside a term: brackets come in pairs that undo each other,
and everything else is passed over. -/
structure Nests (plain : Char → ℕ → σ → Loop.Round σ α) (deep : σ → Prop) : Prop where
  other : ∀ c i d, deep d → c ≠ '{' → c ≠ '[' → c ≠ '}' → c ≠ ']' → plain c i d = .again d
  brace : ∀ d, deep d → ∃ d', deep d' ∧ (∀ i, plain '{' i d = .again d') ∧
    ∀ i, plain '}' i d' = .again d
  square : ∀ d, deep d → ∃ d', deep d' ∧ (∀ i, plain '[' i d = .again d') ∧
    ∀ i, plain ']' i d' = .again d

/-- Text without quotes and brackets is passed over. -/
theorem moves_bare {chunk : List Char} {d : σ}
    (hother : ∀ c i, c ≠ '{' → c ≠ '[' → c ≠ '}' → c ≠ ']' → plain c i d = .again d)
    (hbare : ∀ c ∈ chunk, c ∉ ['"', '{', '[', '}', ']']) :
    Moves text plain atEnd chunk d d := by
  induction chunk with
  | nil => exact .nil d
  | cons c chunk ih =>
    have hc := hbare c List.mem_cons_self
    simp only [List.mem_cons, List.not_mem_nil, or_false, not_or] at hc
    exact .cons hc.1 (fun i => hother c i hc.2.1 hc.2.2.1 hc.2.2.2.1 hc.2.2.2.2)
      (ih fun a ha => hbare a (List.mem_cons_of_mem _ ha))

theorem moves_gap {L : Layout} {path : List ℕ} {d : σ}
    (hother : ∀ c i, c ≠ '{' → c ≠ '[' → c ≠ '}' → c ≠ ']' → plain c i d = .again d) :
    Moves text plain atEnd (',' :: L.gap path) d d := by
  apply moves_bare hother
  intro c hc
  rcases List.mem_cons.mp hc with rfl | hc
  · decide
  · rcases L.blank path c hc with rfl | rfl <;> decide

variable {L : Layout} {deep : σ → Prop}

mutual

theorem moves_print (hn : Nests plain deep) (t : Term) (path : List ℕ) {d : σ} (hd : deep d) :
    Moves text plain atEnd (t.print L path) d d := by
  cases t with
  | binary s =>
    have hopen : ∀ i, plain '<' i d = .again d :=
      fun i => hn.other '<' i d hd (by decide) (by decide) (by decide) (by decide)
    have hclose : ∀ i, plain '>' i d = .again d :=
      fun i => hn.other '>' i d hd (by decide) (by decide) (by decide) (by decide)
    have hend : Moves text plain atEnd ['>', '>'] d d :=
      .cons (by decide) hclose (moves_char (by decide) hclose)
    rw [Term.print]
    exact .cons (by decide) hopen (.cons (by decide) hopen ((moves_quoted s d).append hend))
  | charlist s => exact moves_quoted s d
  | word w =>
    refine moves_bare (fun c i => hn.other c i d hd) fun c hc => ?_
    have hword := List.all_eq_true.mp w.property c hc
    intro hmem
    simp only [List.mem_cons, List.not_mem_nil, or_false] at hmem
    rcases hmem with rfl | rfl | rfl | rfl | rfl <;> exact absurd hword (by decide)
  | list ts =>
    obtain ⟨d', hd', hopen, hclose⟩ := hn.square d hd
    exact .cons (by decide) hopen
      ((moves_printItems hn ts path 0 hd').append (moves_char (by decide) hclose))
  | tuple ts =>
    obtain ⟨d', hd', hopen, hclose⟩ := hn.brace d hd
    exact .cons (by decide) hopen
      ((moves_printItems hn ts path 0 hd').append (moves_char (by decide) hclose))

theorem moves_printItems (hn : Nests plain deep) (ts : List Term) (path : List ℕ) (n : ℕ) {d : σ}
    (hd : deep d) : Moves text plain atEnd (printItems L path n ts) d d := by
  cases ts with
  | nil => exact .nil d
  | cons t ts => exact (moves_print hn t _ hd).append (moves_printRest hn ts path n hd)

theorem moves_printRest (hn : Nests plain deep) (ts : List Term) (path : List ℕ) (n : ℕ) {d : σ}
    (hd : deep d) : Moves text plain atEnd (printRest L path n ts) d d := by
  cases ts with
  | nil => exact .nil d
  | cons t ts =>
    have hgap := @moves_gap _ _ text plain atEnd L (n :: path) d fun c i => hn.other c i d hd
    exact hgap.append ((moves_print hn t _ hd).append (moves_printRest hn ts path (n + 1) hd))

end

end Scanning

section Balanced

theorem nests_onBracket : Nests onBracket fun depth => 1 ≤ depth where
  other c i depth hdepth h₁ h₂ h₃ h₄ := by
    rw [onBracket, if_neg (by simp [h₁, h₂]), if_neg (by simp [h₃, h₄]), if_neg (by omega)]
  brace depth hdepth := by
    refine ⟨depth + 1, by omega, fun i => rfl, fun i => ?_⟩
    rw [onBracket, if_neg (by decide), if_pos (by decide), if_neg (by omega), if_neg (by omega)]
    congr 1
    omega
  square depth hdepth := by
    refine ⟨depth + 1, by omega, fun i => rfl, fun i => ?_⟩
    rw [onBracket, if_neg (by decide), if_pos (by decide), if_neg (by omega), if_neg (by omega)]
    congr 1
    omega

theorem balancedEnd_print {L : Layout} {path : List ℕ} (ts : List Term) (post : List Char) :
    balancedEnd ((Term.list ts).print L path ++ post) =
      some ((Term.list ts).print L path).length := by
  set text := (Term.list ts).print L path ++ post with htext
  have hshape : text = ([] : List Char) ++ (('[' :: printItems L path 0 ts) ++ ']' :: post) := by
    rw [htext, Term.print]
    simp
  have hinside : Moves text onBracket (fun _ => none) ('[' :: printItems L path 0 ts) 0 1 :=
    .cons (by decide) (fun i => rfl) (moves_printItems nests_onBracket ts path 0 (by decide))
  have hrun := hinside [] _ hshape
  have hstep := @scan_step _ _ text onBracket (fun _ => none) ('[' :: printItems L path 0 ts) post
    ']' hshape false 1
  rw [balancedEnd, balancedEndLoop]
  refine hrun.trans ((Loop.run_done _ hstep).trans ?_)
  rw [Term.print]
  simp

end Balanced

section Groups
variable {text : List Char} {L : Layout}

theorem onSquare_other {c : Char} (i : ℕ) (g : Groups) (hopen : c ≠ '[') (hclose : c ≠ ']') :
    onSquare text c i g = .again g := by
  rw [onSquare, if_neg hopen, if_neg hclose]

theorem nests_onSquare (text : List Char) : Nests (onSquare text) fun g => 2 ≤ g.depth where
  other c i g _ _ hopen _ hclose := onSquare_other i g hopen hclose
  brace g hdepth :=
    ⟨g, hdepth, fun i => onSquare_other i g (by decide) (by decide),
      fun i => onSquare_other i g (by decide) (by decide)⟩
  square g hdepth := by
    refine ⟨{ g with depth := g.depth + 1 }, Int.le_add_one hdepth, fun i => ?_, fun i => ?_⟩
    · rw [onSquare, if_pos rfl, if_neg (by omega)]
    · rw [onSquare, if_neg (by decide), if_pos rfl, if_neg (show g.depth + 1 ≠ 2 by omega)]
      simp

/-- A group at depth two is cut out of the text. -/
theorem run_group {us : List Term} {path : List ℕ} {pre post : List Char}
    (htext : text = pre ++ ((Term.list us).print L path ++ post)) (acc : List (List Char)) :
    (splitLoop text).run ⟨pre.length, false, 1, none, acc⟩ =
      (splitLoop text).run ⟨(pre ++ (Term.list us).print L path).length, false, 1, none,
        acc ++ [(Term.list us).print L path]⟩ := by
  set group := (Term.list us).print L path with hgroup
  have hprint : group = '[' :: (printItems L path 0 us ++ [']']) := by
    rw [hgroup, Term.print]
  have hfirst : text = pre ++ '[' :: (printItems L path 0 us ++ ']' :: post) := by
    rw [htext, hprint]
    simp
  have hinside : text = (pre ++ ['[']) ++ (printItems L path 0 us ++ ']' :: post) := by
    rw [hfirst]
    simp
  have hlast : text = (pre ++ '[' :: printItems L path 0 us) ++ ']' :: post := by
    rw [hfirst]
    simp
  have hlength : (pre ++ '[' :: printItems L path 0 us).length + 1 = pre.length + group.length := by
    rw [hprint]
    simp
    omega
  have hslice :
      slice text pre.length ((pre ++ '[' :: printItems L path 0 us).length + 1) = group := by
    rw [slice, htext, List.drop_left, hlength, Nat.add_sub_cancel_left, List.take_left]
  have hopen := @scan_step _ _ text (onSquare text) Groups.groups _ _ _ hfirst false ⟨1, none, acc⟩
  have hmove := @moves_printItems _ _ text (onSquare text) Groups.groups L _ (nests_onSquare text)
    us path 0 ⟨2, some pre.length, acc⟩ (Int.le_refl 2) (pre ++ ['[']) _ hinside
  have hclose := @scan_step _ _ text (onSquare text) Groups.groups _ _ _ hlast false
    ⟨2, some pre.length, acc⟩
  have hcut : onSquare text ']' (pre ++ '[' :: printItems L path 0 us).length
      ⟨2, some pre.length, acc⟩ = .again ⟨1, none, acc ++ [group]⟩ := by
    rw [onSquare, if_neg (by decide), if_pos rfl, if_pos rfl]
    show Loop.Round.again _ = _
    rw [hslice]
    rfl
  rw [hcut] at hclose
  rw [splitLoop, Loop.run_again _ hopen]
  have hshift : (pre ++ ['[']).length = pre.length + 1 := by simp
  have hjoin : pre ++ ['['] ++ printItems L path 0 us = pre ++ '[' :: printItems L path 0 us := by
    simp
  rw [hshift, hjoin] at hmove
  refine hmove.trans ((Loop.run_again _ hclose).trans ?_)
  rw [hlength, List.length_append]

/-- The texts of groups with the numbers from `n` on. -/
def groupTexts (L : Layout) (path : List ℕ) (n : ℕ) : List (List Term) → List (List Char)
  | [] => []
  | us :: groups => (Term.list us).print L (n :: path) :: groupTexts L path (n + 1) groups

theorem run_groups {groups : List (List Term)} {path : List ℕ} {n : ℕ} {pre : List Char}
    (htext : text = pre ++ (printRest L path n (groups.map .list) ++ [']']))
    (acc : List (List Char)) :
    (splitLoop text).run ⟨pre.length, false, 1, none, acc⟩ =
      acc ++ groupTexts L path (n + 1) groups := by
  induction groups generalizing n pre acc with
  | nil =>
    have hclose := @scan_step _ _ text (onSquare text) Groups.groups pre [] ']' htext false
      ⟨1, none, acc⟩
    have hend : (splitLoop text).step ⟨pre.length + 1, false, 0, none, acc⟩ = .done acc := by
      have hlen : text.length ≤ pre.length + 1 := by
        rw [htext]
        simp [printRest]
      have hnone : text[pre.length + 1]? = none := List.getElem?_eq_none hlen
      simp only [splitLoop, scan, hnone]
    rw [groupTexts, List.append_nil]
    exact (Loop.run_again _ hclose).trans (Loop.run_done _ hend)
  | cons us groups ih =>
    rw [List.map_cons, printRest] at htext
    have hgap := @moves_gap _ _ text (onSquare text) Groups.groups L (n :: path) ⟨1, none, acc⟩
      fun c i _ hopen _ hclose => onSquare_other i _ hopen hclose
    have hcomma := hgap pre ((Term.list us).print L ((n + 1) :: path) ++
      (printRest L path (n + 1) (groups.map .list) ++ [']'])) (by rw [htext]; simp)
    have hgroup := @run_group text L us ((n + 1) :: path) (pre ++ ',' :: L.gap (n :: path))
      (printRest L path (n + 1) (groups.map .list) ++ [']']) (by rw [htext]; simp) acc
    have hrest := @ih (n + 1)
      (pre ++ ',' :: L.gap (n :: path) ++ (Term.list us).print L ((n + 1) :: path))
      (by rw [htext]; simp) (acc ++ [(Term.list us).print L ((n + 1) :: path)])
    refine (hcomma.trans (hgroup.trans hrest)).trans ?_
    rw [groupTexts, List.append_assoc, List.singleton_append]

theorem splitTopLevelGroups_print (groups : List (List Term)) (path : List ℕ) :
    splitTopLevelGroups ((Term.list (groups.map .list)).print L path) =
      groupTexts L path 0 groups := by
  set text := (Term.list (groups.map .list)).print L path with htext
  rw [Term.print] at htext
  have hopen := @scan_step _ _ text (onSquare text) Groups.groups [] _ '[' htext false
    ⟨0, none, []⟩
  rw [splitTopLevelGroups]
  refine (Loop.run_again _ hopen).trans ?_
  cases groups with
  | nil =>
    exact @run_groups text L [] path 0 ['['] htext []
  | cons us groups =>
    rw [List.map_cons, printItems] at htext
    have hgroup := @run_group text L us (0 :: path) ['[']
      (printRest L path 0 (groups.map .list) ++ [']']) (by rw [htext]; simp) []
    have hrest := @run_groups text L groups path 0 ('[' :: (Term.list us).print L (0 :: path))
      (by rw [htext]; simp) [(Term.list us).print L (0 :: path)]
    exact hgroup.trans hrest

end Groups

/-- The value as a term. -/
def ErlValue.term : ErlValue → Term
  | .str s => .binary s
  | .bool true => .word ⟨"true".toList, by decide⟩
  | .bool false => .word ⟨"false".toList, by decide⟩

/-- Written as it is, and not taken for the beginning of a pair. -/
structure Plain (s : List Char) : Prop where
  quote : '"' ∉ s
  backslash : '\\' ∉ s
  opening : ¬ ['{', '<', '<'] <:+ s

theorem plain_of_isAlphanum {s : List Char} (h : s.all Char.isAlphanum = true) : Plain s := by
  have hnot : ∀ c : Char, c.isAlphanum = false → c ∉ s := by
    intro c hc hmem
    rw [List.all_eq_true.mp h c hmem] at hc
    cases hc
  exact ⟨hnot _ (by decide), hnot _ (by decide),
    fun hsuffix => hnot '{' (by decide) (hsuffix.subset List.mem_cons_self)⟩

def ErlValue.Plain : ErlValue → Prop
  | .str s => Hex.Plain s
  | .bool _ => True

/-- A key and a value that are written as they are. -/
def PlainPair (pair : List Char × ErlValue) : Prop := Plain pair.1 ∧ pair.2.Plain

section Pairs
variable {L : Layout} {path : List ℕ}

def pairTerm (pair : List Char × ErlValue) : Term := .tuple [.binary pair.1, pair.2.term]

/-- What follows the key in a pair. -/
def pairEnd (L : Layout) (path : List ℕ) (v : ErlValue) : List Char :=
  binaryClosing ++ ',' :: (L.gap (0 :: path) ++ (v.term.print L (1 :: path) ++ ['}']))

theorem print_pairTerm {pair : List Char × ErlValue} (h : PlainPair pair) :
    (pairTerm pair).print L path = pairOpening ++ (pair.1 ++ pairEnd L path pair.2) := by
  simp [pairTerm, Term.print, printItems, printRest, quoted, pairEnd, pairOpening, binaryOpening,
    binaryClosing, escape_of_plain h.1.quote h.1.backslash]

theorem startsIn_binaryClosing {s : List Char} (h : '"' ∉ s) (tail : List Char) :
    startsIn binaryClosing s tail = 0 :=
  startsIn_of_not_mem rfl h tail

theorem parseValue_print {v : ErlValue} (hv : v.Plain) (tail : List Char) :
    parseValue (v.term.print L path ++ '}' :: tail) = some v := by
  cases v with
  | str s =>
    have hshape : (ErlValue.str s).term.print L path ++ '}' :: tail =
        binaryOpening ++ (s ++ (binaryClosing ++ '}' :: tail)) := by
      simp [ErlValue.term, Term.print, quoted, escape_of_plain hv.quote hv.backslash,
        binaryOpening, binaryClosing]
    have hstrip :
        stripPrefix binaryOpening (binaryOpening ++ (s ++ (binaryClosing ++ '}' :: tail))) =
          some (s ++ (binaryClosing ++ '}' :: tail)) := by
      rw [stripPrefix, if_pos (List.isPrefixOf_iff_prefix.mpr (List.prefix_append _ _)),
        List.drop_left]
    rw [hshape, parseValue, hstrip]
    simp only [find_of_startsIn (startsIn_binaryClosing hv.quote _), Option.map_some,
      List.take_left]
  | bool b => cases b <;> rfl

theorem trimStart_gap {c : Char} {place : List ℕ} (hc : isWhitespace c = false)
    (rest : List Char) : trimStart (L.gap place ++ c :: rest) = c :: rest := by
  have hgap : ∀ c ∈ L.gap place, isWhitespace c = true := by
    intro c hc
    rcases L.blank place c hc with rfl | rfl <;> decide
  rw [trimStart, List.dropWhile_append_of_pos hgap, List.dropWhile_cons_of_neg (by simp [hc])]

theorem trimStart_value {v : ErlValue} {place : List ℕ} (tail : List Char) :
    trimStart (L.gap place ++ (v.term.print L path ++ tail)) = v.term.print L path ++ tail := by
  cases v with
  | str s => exact trimStart_gap (by decide) _
  | bool b => cases b <;> exact trimStart_gap (by decide) _

theorem startsIn_plain {s : List Char} (hs : Plain s) (tail : List Char) :
    startsIn pairOpening s ('"' :: tail) = 0 := by
  induction s with
  | nil => rfl
  | cons c s ih =>
    have hrest : Plain s := by
      refine ⟨fun h => hs.quote (List.mem_cons_of_mem _ h),
        fun h => hs.backslash (List.mem_cons_of_mem _ h), fun h => hs.opening ?_⟩
      exact h.trans (List.suffix_cons c s)
    rw [startsIn_cons_eq_zero]
    refine ⟨fun hpre => ?_, ih hrest⟩
    have hescape : ['{', '<', '<'] ++ '"' :: [] <+: escape (c :: s) ++ '"' :: tail := by
      rw [escape_of_plain hs.quote hs.backslash]
      exact hpre
    obtain ⟨heq, -⟩ := eq_of_prefix_escape (by decide) (by decide) hescape
    exact hs.opening (heq ▸ List.suffix_refl _)

/-- No pair begins before the next one does. -/
theorem startsIn_pairEnd {v : ErlValue} (hv : v.Plain) (tail : List Char) :
    startsIn pairOpening (pairEnd L path v) tail = 0 := by
  have hbare : ∀ chunk tail : List Char, '{' ∉ chunk → startsIn pairOpening chunk tail = 0 :=
    fun chunk tail h => startsIn_of_not_mem rfl h tail
  have hgap : '{' ∉ ',' :: L.gap (0 :: path) := by
    rw [List.mem_cons, not_or]
    exact ⟨by decide, fun hmem => absurd (L.blank _ _ hmem) (by decide)⟩
  have hvalue : ∀ tail, startsIn pairOpening (v.term.print L (1 :: path)) tail = 0 := by
    intro tail
    cases v with
    | str s =>
      rw [ErlValue.term, Term.print, quoted, escape_of_plain hv.quote hv.backslash]
      have hshape : '<' :: '<' :: ('"' :: (s ++ ['"']) ++ ['>', '>']) =
          binaryOpening ++ (s ++ binaryClosing) := by
        simp [binaryOpening, binaryClosing]
      rw [hshape, startsIn_append_eq_zero, startsIn_append_eq_zero]
      exact ⟨hbare _ _ (by decide), startsIn_plain hv _, hbare _ _ (by decide)⟩
    | bool b =>
      cases b with
      | false => exact hbare "false".toList _ (by decide)
      | true => exact hbare "true".toList _ (by decide)
  have hshape : pairEnd L path v =
      binaryClosing ++ ((',' :: L.gap (0 :: path)) ++ (v.term.print L (1 :: path) ++ ['}'])) := by
    rw [pairEnd, List.cons_append]
  rw [hshape, startsIn_append_eq_zero, startsIn_append_eq_zero, startsIn_append_eq_zero]
  exact ⟨hbare _ _ (by decide), hbare _ _ hgap, hvalue _, hbare _ _ (by decide)⟩

/-- One round of the loop reads the next pair. -/
theorem run_pair {junk tail : List Char} {pair : List Char × ErlValue} (h : PlainPair pair)
    (hjunk : ∀ tail, startsIn pairOpening junk tail = 0) (acc : List (List Char × ErlValue)) :
    pairsLoop.run ⟨junk ++ ((pairTerm pair).print L path ++ tail), acc⟩ =
      pairsLoop.run ⟨pairEnd L path pair.2 ++ tail, acc ++ [pair]⟩ := by
  obtain ⟨key, v⟩ := pair
  obtain ⟨hplain, hv⟩ := h
  have htext : junk ++ ((pairTerm (key, v)).print L path ++ tail) =
      junk ++ (pairOpening ++ (key ++ (pairEnd L path v ++ tail))) := by
    rw [print_pairTerm ⟨hplain, hv⟩]
    simp
  have hafter : (junk ++ (pairOpening ++ (key ++ (pairEnd L path v ++ tail)))).drop
      (junk.length + 4) = key ++ (pairEnd L path v ++ tail) := by
    rw [← List.append_assoc]
    exact List.drop_left' (by simp [pairOpening, binaryOpening])
  have hend : pairEnd L path v ++ tail = binaryClosing ++
      (',' :: (L.gap (0 :: path) ++ (v.term.print L (1 :: path) ++ '}' :: tail))) := by
    simp [pairEnd]
  have hkey : find binaryClosing (key ++ (pairEnd L path v ++ tail)) = some key.length := by
    rw [hend]
    exact find_of_startsIn (startsIn_binaryClosing hplain.quote _)
  have hdrop : (key ++ (pairEnd L path v ++ tail)).drop (key.length + 3) =
      ',' :: (L.gap (0 :: path) ++ (v.term.print L (1 :: path) ++ '}' :: tail)) := by
    rw [hend, ← List.append_assoc]
    exact List.drop_left' (by simp [binaryClosing])
  have hrest : (junk ++ (pairOpening ++ (key ++ (pairEnd L path v ++ tail)))).drop
      (junk.length + 4 + key.length) = pairEnd L path v ++ tail := by
    rw [← List.drop_drop, hafter, List.drop_left]
  have hcomma : find [','] (',' :: (L.gap (0 :: path) ++
      (v.term.print L (1 :: path) ++ '}' :: tail))) = some 0 := if_pos ⟨_, rfl⟩
  have hvalue : parseValue (v.term.print L (1 :: path) ++ '}' :: tail) = some v :=
    parseValue_print hv tail
  rw [htext]
  apply Loop.run_again
  simp only [pairsLoop, find_of_startsIn (hjunk _), hafter, hkey, hdrop, hcomma, hrest,
    Nat.zero_add, List.drop_one, List.tail_cons, trimStart_value, hvalue, List.take_left,
    Option.toList_some, List.map_cons, List.map_nil]

theorem run_pairs {junk : List Char} {n : ℕ} {pairs : List (List Char × ErlValue)}
    (h : ∀ p ∈ pairs, PlainPair p) (hjunk : ∀ tail, startsIn pairOpening junk tail = 0)
    (acc : List (List Char × ErlValue)) :
    pairsLoop.run ⟨junk ++ (printRest L path n (pairs.map pairTerm) ++ [']']), acc⟩ =
      acc ++ pairs := by
  induction pairs generalizing junk n acc with
  | nil =>
    have hnone : find pairOpening (junk ++ (printRest L path n [] ++ [']'])) = none := by
      apply find_eq_none (List.cons_ne_nil _ _)
      rw [startsIn_append_eq_zero]
      exact ⟨hjunk _, @startsIn_of_not_mem _ _ pairOpening '{' rfl [']'] (by decide) _⟩
    rw [List.append_nil]
    apply Loop.run_done
    simp only [pairsLoop, List.map_nil, hnone]
  | cons pair pairs ih =>
    have hgap : ∀ tail, startsIn pairOpening (junk ++ ',' :: L.gap (n :: path)) tail = 0 := by
      intro tail
      rw [startsIn_append_eq_zero]
      refine ⟨hjunk _, startsIn_of_not_mem rfl ?_ _⟩
      rw [List.mem_cons, not_or]
      exact ⟨by decide, fun hmem => absurd (L.blank _ _ hmem) (by decide)⟩
    set tail := printRest L path (n + 1) (pairs.map pairTerm) ++ [']'] with htail
    have hshape : junk ++ (printRest L path n ((pair :: pairs).map pairTerm) ++ [']']) =
        (junk ++ ',' :: L.gap (n :: path)) ++
          ((pairTerm pair).print L ((n + 1) :: path) ++ tail) := by
      rw [List.map_cons, printRest, htail]
      simp
    have hrest : ∀ acc, pairsLoop.run ⟨pairEnd L ((n + 1) :: path) pair.2 ++ tail, acc⟩ =
        acc ++ pairs :=
      ih (fun p hp => h p (List.mem_cons_of_mem _ hp))
        (startsIn_pairEnd (h pair List.mem_cons_self).2)
    rw [hshape, run_pair (h pair List.mem_cons_self) hgap, hrest, List.append_assoc,
      List.singleton_append]

theorem parseKvPairs_print {pairs : List (List Char × ErlValue)}
    (h : ∀ p ∈ pairs, PlainPair p) :
    parseKvPairs ((Term.list (pairs.map pairTerm)).print L path) = pairs := by
  have hopen : ∀ tail, startsIn pairOpening ['['] tail = 0 :=
    fun tail => startsIn_of_not_mem rfl (by decide) tail
  rw [parseKvPairs, Term.print]
  cases pairs with
  | nil => rfl
  | cons pair pairs =>
    have hrest : ∀ acc, pairsLoop.run ⟨pairEnd L (0 :: path) pair.2 ++
        (printRest L path 0 (pairs.map pairTerm) ++ [']']), acc⟩ = acc ++ pairs :=
      run_pairs (fun p hp => h p (List.mem_cons_of_mem _ hp))
        (startsIn_pairEnd (h pair List.mem_cons_self).2)
    rw [List.map_cons, printItems, List.append_assoc]
    exact (run_pair (h pair List.mem_cons_self) hopen []).trans (hrest _)

end Pairs

section Printing

/-- What is printed of a dependency besides its name. -/
def HexDependency.attributes (d : HexDependency) : List (List Char × ErlValue) :=
  d.app.toList.map (fun app => ("app".toList, .str app)) ++
    (("optional".toList, .bool d.optional) :: ("requirement".toList, .str d.requirement) ::
      d.repository.toList.map fun repository => ("repository".toList, .str repository))

def HexDependency.entries (d : HexDependency) : List (List Char × ErlValue) :=
  ("name".toList, .str d.package) :: d.attributes

/-- The layout of the documentation: each dependency is the list of its pairs. -/
def proplistLayout (deps : List HexDependency) : Term :=
  .list (deps.map fun d => .list (d.entries.map pairTerm))

/-- Each dependency is the pair of its name and the list of the others. -/
def mapLayout (deps : List HexDependency) : Term :=
  .list (deps.map fun d => .tuple [.binary d.package, .list (d.attributes.map pairTerm)])

def entryTerm (entry : List Char × Term) : Term := .tuple [.binary entry.1, entry.2]

/-- A `metadata.config` with the requirements among other terms. -/
def metadataConfig (L : Layout) (before : List (List Char × Term)) (requirements : Term)
    (after : List (List Char × Term)) : List Char :=
  consultText L 0
    ((before ++ ("requirements".toList, requirements) :: after).map entryTerm)

def HexDependency.strings (d : HexDependency) : List (List Char) :=
  d.package :: d.requirement :: (d.app.toList ++ d.repository.toList)

end Printing

section ReadBack
variable {L : Layout}

theorem consultText_append (n : ℕ) (ts us : List Term) :
    consultText L n (ts ++ us) = consultText L n ts ++ consultText L (n + ts.length) us := by
  induction ts generalizing n with
  | nil => rfl
  | cons t ts ih =>
    rw [List.cons_append, consultText, consultText, ih, List.length_cons]
    simp [Nat.add_comm ts.length, Nat.add_assoc]

theorem trim_print (ts : List Term) (path : List ℕ) :
    trim ((Term.list ts).print L path) = (Term.list ts).print L path := by
  have hstart : trimStart ((Term.list ts).print L path) = (Term.list ts).print L path := rfl
  rw [trim, hstart, Term.print, ← List.cons_append]
  exact Text.trimEnd_append_cons (by decide) _ []

/-- The value behind the key, if no term before has a tuple with that key. -/
theorem extractTermValue_print {key : List Char} (hkey : IsName key) {before : List Term}
    (hbefore : ∀ t ∈ before, ∀ u ∈ t.subterms, ¬ HeadedBy key u) (ts after : List Term) :
    extractTermValue
        (consultText L 0 (before ++ .tuple [.binary key, .list ts] :: after)) key =
      some ((Term.list ts).print L [1, before.length]) := by
  set value := (Term.list ts).print L [1, before.length] with hvalue
  set lead := consultText L 0 before with hlead
  obtain ⟨tail, htail⟩ : ∃ tail, consultText L 0 (before ++ .tuple [.binary key, .list ts] :: after)
      = lead ++ (keyNeedle key ++ (',' :: (L.gap [0, before.length] ++ (value ++ tail)))) := by
    refine ⟨'}' :: '.' :: (L.gap [before.length] ++ consultText L (before.length + 1) after), ?_⟩
    rw [consultText_append, consultText, Nat.zero_add]
    simp [Term.print, printItems, printRest, quoted, keyNeedle, pairOpening, binaryOpening,
      binaryClosing, hvalue, hlead,
      escape_of_plain (hkey.not_mem (by decide)) (hkey.not_mem (by decide))]
  have htrim : trimStart (L.gap [0, before.length] ++ (value ++ tail)) = value ++ tail :=
    trimStart_gap (by decide) _
  set rest := L.gap [0, before.length] ++ (value ++ tail) with hrest
  have hstart : find (keyNeedle key) (lead ++ (keyNeedle key ++ (',' :: rest))) =
      some lead.length := find_of_startsIn (startsIn_consultText hkey hbefore 0 _)
  have hafter : (lead ++ (keyNeedle key ++ (',' :: rest))).drop
      (lead.length + (keyNeedle key).length) = ',' :: rest := by
    rw [← List.drop_drop, List.drop_left, List.drop_left]
  have hcomma : find [','] (',' :: rest) = some 0 := if_pos ⟨_, rfl⟩
  rw [htail, extractTermValue, hstart, Option.bind_some]
  dsimp only
  rw [hafter, hcomma, Option.bind_some, Nat.add_zero, ← List.drop_drop, hafter, List.drop_one,
    List.tail_cons, htrim, hvalue, balancedEnd_print, Option.map_some, List.take_left, trim_print]

theorem dependencyOf_entries (d : HexDependency) : dependencyOf d.entries = some d := by
  obtain ⟨package, requirement, optional, app, repository⟩ := d
  cases app <;> cases repository <;> cases optional <;> rfl

theorem plainPair_of_mem_entries {d : HexDependency} (h : ∀ s ∈ d.strings, Plain s) :
    ∀ p ∈ d.entries, PlainPair p := by
  intro p hp
  simp only [HexDependency.entries, HexDependency.attributes, List.mem_cons, List.mem_append,
    List.mem_map, Option.mem_toList] at hp
  simp only [HexDependency.strings, List.mem_cons, List.mem_append, Option.mem_toList] at h
  rcases hp with rfl | ⟨app, happ, rfl⟩ | rfl | rfl | ⟨repository, hrepository, rfl⟩
  · exact ⟨plain_of_isAlphanum rfl, h d.package (.inl rfl)⟩
  · exact ⟨plain_of_isAlphanum rfl, h app (.inr (.inr (.inl happ)))⟩
  · exact ⟨plain_of_isAlphanum rfl, trivial⟩
  · exact ⟨plain_of_isAlphanum rfl, h d.requirement (.inr (.inl rfl))⟩
  · exact ⟨plain_of_isAlphanum rfl, h repository (.inr (.inr (.inr hrepository)))⟩

theorem dependencies_groupTexts {deps : List HexDependency}
    (h : ∀ d ∈ deps, ∀ s ∈ d.strings, Plain s) (path : List ℕ) (n : ℕ) :
    (groupTexts L path n (deps.map fun d => d.entries.map pairTerm)).filterMap
      (fun group => dependencyOf (parseKvPairs group)) = deps := by
  induction deps generalizing n with
  | nil => rfl
  | cons d deps ih =>
    have hpairs := plainPair_of_mem_entries (h d List.mem_cons_self)
    have hrest := ih (fun e he => h e (List.mem_cons_of_mem _ he)) (n + 1)
    rw [List.map_cons, groupTexts, List.filterMap_cons, parseKvPairs_print hpairs,
      dependencyOf_entries, hrest]

theorem isName_requirements : IsName "requirements".toList := by
  have hall : "requirements".toList.all Char.isAlphanum = true := by decide
  exact fun c hc => .inl (List.all_eq_true.mp hall c hc)

/-- The printed requirements are read back from among the other terms, and on every text each loop
of the scanner has its answer one round after the last character at the latest. -/
theorem requirements_read_back :
    (∀ (L : Layout) (deps : List HexDependency) (before after : List (List Char × Term)),
      (∀ d ∈ deps, ∀ s ∈ d.strings, Plain s) →
      (∀ e ∈ before, ∀ u ∈ (entryTerm e).subterms, ¬ HeadedBy "requirements".toList u) →
      parseRequirements (metadataConfig L before (proplistLayout deps) after) = .ok deps) ∧
    ∀ text : List Char,
      ((balancedEndLoop text).rounds (text.length + 1) ⟨0, false, 0⟩).isSome = true ∧
      ((splitLoop text).rounds (text.length + 1) ⟨0, false, 0, none, []⟩).isSome = true ∧
      (pairsLoop.rounds (text.length + 1) ⟨text, []⟩).isSome = true := by
  refine ⟨fun L deps before after hdeps hbefore => ?_, fun text => ⟨?_, ?_, ?_⟩⟩
  · have hterms : ∀ t ∈ before.map entryTerm, ∀ u ∈ t.subterms,
        ¬ HeadedBy "requirements".toList u := by
      intro t ht
      obtain ⟨e, he, rfl⟩ := List.mem_map.mp ht
      exact hbefore e he
    rw [metadataConfig, List.map_append, List.map_cons, parseRequirements]
    have hlists : proplistLayout deps =
        .list ((deps.map fun d => d.entries.map pairTerm).map .list) := by
      rw [proplistLayout, List.map_map]
      rfl
    rw [entryTerm, hlists, extractTermValue_print isName_requirements hterms]
    dsimp only
    rw [splitTopLevelGroups_print, dependencies_groupTexts hdeps]
  · exact Loop.isSome_rounds _ (Nat.lt_succ_of_le (Nat.sub_le _ _))
  · exact Loop.isSome_rounds _ (Nat.lt_succ_of_le (Nat.sub_le _ _))
  · exact Loop.isSome_rounds _ (Nat.lt_succ_self _)

/-- Everything on one line. -/
def compact : Layout := ⟨fun _ => [], fun _ _ hc => absurd hc List.not_mem_nil⟩

def jason : HexDependency where
  package := "jason".toList
  requirement := "~> 1.4".toList
  optional := false
  app := some "jason".toList
  repository := some "hexpm".toList

theorem plain_jason : ∀ s ∈ jason.strings, Plain s := by
  have hall : jason.strings.all (fun s => '"' ∉ s ∧ '\\' ∉ s ∧ ¬ ['{', '<', '<'] <:+ s) = true := by
    decide
  intro s hs
  obtain ⟨hquote, hslash, hopening⟩ := of_decide_eq_true (List.all_eq_true.mp hall s hs)
  exact ⟨hquote, hslash, hopening⟩

/-- Behind a term that holds brackets and commas in a binary. -/
theorem jason_read_back :
    parseRequirements (metadataConfig compact
        [("links".toList, .list [.tuple [.binary "[a,\x7b".toList, .binary "http://x".toList]])]
        (proplistLayout [jason]) []) = .ok [jason] := by
  refine requirements_read_back.1 compact [jason] _ [] (fun d hd => ?_) fun e he u hu => ?_
  · obtain rfl := List.mem_singleton.mp hd
    exact plain_jason
  · obtain rfl := List.mem_singleton.mp he
    rintro ⟨ts, rfl⟩
    simp [entryTerm, Term.subterms, allSubterms] at hu

/-- The other layout: its groups have no name in them, and the requirements are gone. -/
theorem map_layout_lost :
    ¬ ∀ (L : Layout) (deps : List HexDependency) (before after : List (List Char × Term)),
      (∀ d ∈ deps, ∀ s ∈ d.strings, '"' ∉ s ∧ '\\' ∉ s) →
      (∀ e ∈ before ++ after, e.1 ≠ "requirements".toList) →
      ∀ layout ∈ [proplistLayout, mapLayout],
        parseRequirements (metadataConfig L before (layout deps) after) = .ok deps := by
  intro h
  have hread := h compact [jason] [] [] (fun d hd s hs => ?_) (fun e he => ?_) mapLayout (by simp)
  · have hlost : parseRequirements (metadataConfig compact [] (mapLayout [jason]) []) = .ok [] := by
      decide +kernel
    rw [hlost] at hread
    cases hread
  · obtain rfl := List.mem_singleton.mp hd
    exact ⟨(plain_jason s hs).quote, (plain_jason s hs).backslash⟩
  · cases he

end ReadBack

end ArtifactKeeper.Hex
