import ArtifactKeeper.Rubygems.AliasScan
import ArtifactKeeper.YamlText

/-! What the scan makes of the pieces of a line, and when it takes them for what they are. -/

namespace ArtifactKeeper.Rubygems
open YamlText
open ArtifactKeeper.Text (isWhitespace isBlank)

section Reading

/-- Whether the scan looks for a node behind a character that is no quote. -/
def startsBehind (start : Bool) (c : Char) (rest : List Char) : Bool :=
  if c = ' ' ∨ c = '\t' then start
  else if c = '-' then start && (rest.isEmpty || rest.head? == some ' ')
  else if c = ':' then rest.isEmpty || rest.head? == some ' ' || rest.head? == some '\t'
  else c == ',' || c == '[' || c == '{'

/-- No quote and no `#` stands in the text, and no header of a block scalar where the scan looks for
a node; `tail` is what follows the text on its line. -/
def Quiet : Bool → List Char → List Char → Prop
  | _, [], _ => True
  | start, c :: s, tail =>
    c ∉ ['\'', '"', '#'] ∧
      (c ∈ ['|', '>'] → start = true → isBlockScalarHeader (s ++ tail) = false) ∧
      Quiet (startsBehind start c (s ++ tail)) s tail

/-- Whether the scan looks for a node behind the piece. -/
def startsNode (start : Bool) (p : Piece) (ps : List Piece) : Bool :=
  match p with
  | .blank _ => start
  | .entry => startsBehind start '-' (piecesText ps)
  | .value => startsBehind start ':' (piecesText ps)
  | .flow f => startsBehind start f.char (piecesText ps)
  | _ => false

/-- The scan takes the piece for what it is. -/
def Harmless (start : Bool) (p : Piece) (ps : List Piece) : Prop :=
  match p with
  | .tag s => Quiet false s (piecesText ps)
  | .anchor name => Quiet false name (piecesText ps)
  | .aliasTo name => Quiet false name (piecesText ps)
  | .plain s => Quiet true s.val (piecesText ps)
  | .literal s => Quiet true s (piecesText ps)
  | .directive s => Quiet false s (piecesText ps)
  | .single _ => (piecesText ps).head? ≠ some '\''
  | .openSingle _ => ps = []
  | .openDouble _ _ => ps = []
  | .header _ => ps = [] ∧ start = true
  | .comment _ => ps = []
  | _ => True

/-- Nothing in the text is where the scan looks for an anchor, an alias or a merge key, and it looks
for no node behind the text. -/
def Calm : Bool → List Char → List Char → Prop
  | start, [], _ => start = false
  | start, c :: s, tail =>
    (start = true → c ∉ ['&', '*'] ∧ ¬ (c = '<' ∧ (s ++ tail).head? = some '<')) ∧
      Calm (startsBehind start c (s ++ tail)) s tail

/-- The scan takes the piece for what it is, and no part of it for a node. -/
def TakenAsRead (start : Bool) (p : Piece) (ps : List Piece) : Prop :=
  Harmless start p ps ∧
    match p with
    | .tag s => Calm false s (piecesText ps)
    | .anchor name => start = false → Calm false name (piecesText ps)
    | .aliasTo name => start = false → Calm false name (piecesText ps)
    | .plain s => Calm start s.val (piecesText ps)
    | .literal s => Calm start s (piecesText ps)
    | .directive s => Calm false s (piecesText ps)
    | _ => True

def AllHarmless : Bool → List Piece → Prop
  | _, [] => True
  | start, p :: ps => Harmless start p ps ∧ AllHarmless (startsNode start p ps) ps

def AllTakenAsRead : Bool → List Piece → Prop
  | _, [] => True
  | start, p :: ps => TakenAsRead start p ps ∧ AllTakenAsRead (startsNode start p ps) ps

/-- A node stands where the scan looks for one. -/
def ShowsNode : Bool → List Piece → Prop
  | _, [] => False
  | start, p :: ps =>
    p.isNode = true ∧ start = true ∨ Harmless start p ps ∧ ShowsNode (startsNode start p ps) ps

/-- A node can start at the beginning of a line, but not behind the end of a quoted scalar. -/
def Line.startsFresh : Line → Bool
  | .fresh _ => true
  | _ => false

/-- The scan skips the lines of a block scalar and no others, and takes the end of a quoted scalar
for its end. -/
def EntersAsRead : Ctx → Line → Prop
  | .block header, .fresh pieces =>
    isBlank (piecesText pieces) = false ∧ indentOf (piecesText pieces) ≤ indentOf header
  | .block header, .body s => isBlank s = true ∨ indentOf header < indentOf s
  | _, .closingSingle _ pieces => (piecesText pieces).head? ≠ some '\''
  | _, _ => True

/-- Some node is in the open, and up to it the scan takes every piece for what it is. -/
def ShowsNodeIn : Ctx → List Line → Prop
  | _, [] => False
  | ctx, line :: lines =>
    EntersAsRead ctx line ∧
      (ShowsNode (Line.startsFresh line) line.pieces ∨
        AllHarmless (Line.startsFresh line) line.pieces ∧ ShowsNodeIn (line.next ctx) lines)

/-- The scan takes the whole document for what it is. -/
def TakenAsReadIn : Ctx → List Line → Prop
  | _, [] => True
  | ctx, line :: lines =>
    EntersAsRead ctx line ∧ AllTakenAsRead (Line.startsFresh line) line.pieces ∧
      TakenAsReadIn (line.next ctx) lines

end Reading

section Loop
variable {indent : ℕ} {parent : Option ℕ}

theorem run_blank {c : Char} (hc : c = ' ' ∨ c = '\t') (rest : List Char) (b : Bool) :
    (lineLoop indent parent).run ⟨c :: rest, b⟩ = (lineLoop indent parent).run ⟨rest, b⟩ :=
  Loop.run_again _ (if_pos hc)

theorem run_nil (b : Bool) : (lineLoop indent parent).run ⟨[], b⟩ = some ⟨.none, parent⟩ :=
  Loop.run_done _ rfl

theorem run_comment (rest : List Char) (b : Bool) :
    (lineLoop indent parent).run ⟨'#' :: rest, b⟩ = some ⟨.none, parent⟩ :=
  Loop.run_done _ rfl

theorem run_single_closed {rest tail : List Char} (h : closeSingle rest = some tail) (b : Bool) :
    (lineLoop indent parent).run ⟨'\'' :: rest, b⟩ =
      (lineLoop indent parent).run ⟨tail, false⟩ := by
  apply Loop.run_again
  simp [lineLoop, h]

theorem run_single_open {rest : List Char} (h : closeSingle rest = none) (b : Bool) :
    (lineLoop indent parent).run ⟨'\'' :: rest, b⟩ = some ⟨.single, parent⟩ := by
  apply Loop.run_done
  simp [lineLoop, h]

theorem run_double_closed {rest tail : List Char} (h : closeDouble rest = some tail) (b : Bool) :
    (lineLoop indent parent).run ⟨'"' :: rest, b⟩ =
      (lineLoop indent parent).run ⟨tail, false⟩ := by
  apply Loop.run_again
  simp [lineLoop, h]

theorem run_double_open {rest : List Char} (h : closeDouble rest = none) (b : Bool) :
    (lineLoop indent parent).run ⟨'"' :: rest, b⟩ = some ⟨.double, parent⟩ := by
  apply Loop.run_done
  simp [lineLoop, h]

theorem run_node {c : Char} (hc : c = '&' ∨ c = '*') (rest : List Char) :
    (lineLoop indent parent).run ⟨c :: rest, true⟩ = none := by
  apply Loop.run_done
  rcases hc with rfl | rfl <;> simp [lineLoop]

theorem run_merge {rest : List Char} (h : rest.head? = some '<') :
    (lineLoop indent parent).run ⟨'<' :: rest, true⟩ = none := by
  apply Loop.run_done
  simp [lineLoop, h]

theorem run_header {c : Char} (hc : c = '|' ∨ c = '>') {rest : List Char}
    (h : isBlockScalarHeader rest = true) :
    (lineLoop indent parent).run ⟨c :: rest, true⟩ = some ⟨.none, some indent⟩ := by
  apply Loop.run_done
  rcases hc with rfl | rfl <;> simp [lineLoop, h]

theorem run_entry {rest : List Char} (h : rest = [] ∨ rest.head? = some ' ') :
    (lineLoop indent parent).run ⟨'-' :: rest, true⟩ =
      (lineLoop indent parent).run ⟨rest, true⟩ := by
  apply Loop.run_again
  simp [lineLoop, h]

theorem run_value {rest : List Char}
    (h : rest = [] ∨ rest.head? = some ' ' ∨ rest.head? = some '\t') (b : Bool) :
    (lineLoop indent parent).run ⟨':' :: rest, b⟩ =
      (lineLoop indent parent).run ⟨rest, true⟩ := by
  apply Loop.run_again
  simp [lineLoop, h]

theorem run_flow {c : Char} (hc : c = ',' ∨ c = '[' ∨ c = '{') (rest : List Char) (b : Bool) :
    (lineLoop indent parent).run ⟨c :: rest, b⟩ = (lineLoop indent parent).run ⟨rest, true⟩ := by
  apply Loop.run_again
  rcases hc with rfl | rfl | rfl <;> simp [lineLoop]

/-- A character that is no quote, no `#`, no header of a block scalar and no node is passed over. -/
theorem run_passed {c : Char} (hquiet : c ∉ ['\'', '"', '#']) {b : Bool} {rest : List Char}
    (hheader : c ∈ ['|', '>'] → b = true → isBlockScalarHeader rest = false)
    (hmark : ¬ ((c = '&' ∨ c = '*') ∧ b = true))
    (hmerge : ¬ (c = '<' ∧ b = true ∧ rest.head? = some '<')) :
    (lineLoop indent parent).run ⟨c :: rest, b⟩ =
      (lineLoop indent parent).run ⟨rest, startsBehind b c rest⟩ := by
  simp only [List.mem_cons, List.not_mem_nil, or_false, not_or] at hquiet hheader
  by_cases hblank : c = ' ' ∨ c = '\t'
  · rw [run_blank hblank rest b, startsBehind, if_pos hblank]
  have hnot : ¬ ((c = '|' ∨ c = '>') ∧ b = true ∧ isBlockScalarHeader rest = true) := by
    intro h
    exact absurd (hheader h.1 h.2.1) (by rw [h.2.2]; decide)
  by_cases hentry : c = '-' ∧ b = true ∧ (rest = [] ∨ rest.head? = some ' ')
  · obtain ⟨rfl, rfl, hrest⟩ := hentry
    rw [run_entry hrest]
    rcases hrest with rfl | hrest
    · rfl
    · simp [startsBehind, hrest]
  by_cases hvalue : c = ':' ∧ (rest = [] ∨ rest.head? = some ' ' ∨ rest.head? = some '\t')
  · obtain ⟨rfl, hrest⟩ := hvalue
    rw [run_value hrest b]
    rcases hrest with rfl | hrest | hrest
    · rfl
    · simp [startsBehind, hrest]
    · simp [startsBehind, hrest]
  by_cases hflow : c = ',' ∨ c = '[' ∨ c = '{'
  · rw [run_flow hflow rest b]
    rcases hflow with rfl | rfl | rfl <;> rfl
  · have hstarts : startsBehind b c rest = false := by
      rw [startsBehind, if_neg hblank]
      split_ifs with hdash hcolon
      · cases b with
        | false => rfl
        | true => simpa [hdash] using hentry
      · simpa [hcolon, and_assoc] using hvalue
      · simpa [and_assoc] using hflow
    rw [hstarts]
    apply Loop.run_again
    simp only [lineLoop, if_neg hblank, if_neg hquiet.1, if_neg hquiet.2.1, if_neg hquiet.2.2,
      if_neg hmark, if_neg hmerge, if_neg hnot, if_neg hentry, if_neg hvalue, if_neg hflow]

theorem run_char {c : Char} (hquiet : c ∉ ['\'', '"', '#']) {b : Bool} {rest : List Char}
    (hheader : c ∈ ['|', '>'] → b = true → isBlockScalarHeader rest = false) :
    (lineLoop indent parent).run ⟨c :: rest, b⟩ = none ∨
      (lineLoop indent parent).run ⟨c :: rest, b⟩ =
        (lineLoop indent parent).run ⟨rest, startsBehind b c rest⟩ := by
  by_cases hmark : (c = '&' ∨ c = '*') ∧ b = true
  · obtain ⟨hc, rfl⟩ := hmark
    exact .inl (run_node hc rest)
  by_cases hmerge : c = '<' ∧ b = true ∧ rest.head? = some '<'
  · obtain ⟨rfl, rfl, hhead⟩ := hmerge
    exact .inl (run_merge hhead)
  · exact .inr (run_passed hquiet hheader hmark hmerge)

theorem startsBehind_mono {start b : Bool} (hb : start = true → b = true) {c : Char}
    {rest : List Char} (h : startsBehind start c rest = true) : startsBehind b c rest = true := by
  rw [startsBehind] at h ⊢
  split_ifs at h ⊢
  · exact hb h
  · rw [Bool.and_eq_true] at h ⊢
    exact ⟨hb h.1, h.2⟩
  · exact h
  · exact h

/-- A quiet text is passed over. -/
theorem run_quiet {start : Bool} {s rest : List Char} (hs : Quiet start s rest) {b : Bool}
    (hb : b = true → start = true) :
    (lineLoop indent parent).run ⟨s ++ rest, b⟩ = none ∨
      ∃ b', (lineLoop indent parent).run ⟨s ++ rest, b⟩ =
        (lineLoop indent parent).run ⟨rest, b'⟩ := by
  induction s generalizing start b with
  | nil => exact .inr ⟨b, rfl⟩
  | cons c s ih =>
    obtain ⟨hc, hheader, hrest⟩ := hs
    rw [List.cons_append]
    rcases run_char hc (fun hmem h => hheader hmem (hb h)) with hfound | hrun
    · exact .inl hfound
    · rw [hrun]
      exact ih hrest (startsBehind_mono hb)

theorem run_calm {start b : Bool} {s rest : List Char} (hs : Quiet start s rest)
    (hb : b = true → start = true) (hcalm : Calm b s rest) :
    (lineLoop indent parent).run ⟨s ++ rest, b⟩ =
      (lineLoop indent parent).run ⟨rest, false⟩ := by
  induction s generalizing start b with
  | nil => rw [show b = false from hcalm, List.nil_append]
  | cons c s ih =>
    obtain ⟨hc, hheader, hquiet⟩ := hs
    obtain ⟨hnode, hrest⟩ := hcalm
    have hmark : ¬ ((c = '&' ∨ c = '*') ∧ b = true) :=
      fun ⟨hc, hb⟩ => (hnode hb).1 (by simpa using hc)
    have hmerge : ¬ (c = '<' ∧ b = true ∧ (s ++ rest).head? = some '<') :=
      fun ⟨hc, hb, hhead⟩ => (hnode hb).2 ⟨hc, hhead⟩
    rw [List.cons_append, run_passed hc (fun hmem h => hheader hmem (hb h)) hmark hmerge]
    exact ih hquiet (startsBehind_mono hb) hrest

theorem run_blanks {s : List Char} (hs : ∀ c ∈ s, c = ' ' ∨ c = '\t') (rest : List Char)
    (b : Bool) :
    (lineLoop indent parent).run ⟨s ++ rest, b⟩ = (lineLoop indent parent).run ⟨rest, b⟩ := by
  induction s with
  | nil => rfl
  | cons c s ih =>
    rw [List.cons_append, run_blank (hs c List.mem_cons_self)]
    exact ih fun d hd => hs d (List.mem_cons_of_mem _ hd)

end Loop

section Quotes

theorem closeSingle_cons_of_ne {c : Char} (hc : c ≠ '\'') (rest : List Char) :
    closeSingle (c :: rest) = closeSingle rest := by
  rw [closeSingle]
  · exact fun _ h _ => hc h
  · exact hc

theorem closeDouble_cons_of_ne {c : Char} (hquote : c ≠ '"') (hslash : c ≠ '\\')
    (rest : List Char) : closeDouble (c :: rest) = closeDouble rest := by
  rw [closeDouble]
  · exact fun _ _ h _ => hslash h
  · exact hquote

theorem closeSingle_singleText (s : List Char) {rest : List Char}
    (h : rest.head? ≠ some '\'') : closeSingle (singleText s ++ '\'' :: rest) = some rest := by
  induction s with
  | nil =>
    cases rest with
    | nil => rfl
    | cons c rest =>
      have hc : c ≠ '\'' := fun hc => h (congrArg some hc)
      rw [singleText, List.nil_append, closeSingle]
      simpa using hc
  | cons c s ih =>
    rw [singleText]
    split_ifs with hc
    · rw [List.cons_append, List.cons_append, closeSingle, ih]
    · rw [List.cons_append, closeSingle_cons_of_ne hc, ih]

theorem closeSingle_open (s : List Char) : closeSingle (singleText s) = none := by
  induction s with
  | nil => rfl
  | cons c s ih =>
    rw [singleText]
    split_ifs with hc
    · rw [closeSingle, ih]
    · rw [closeSingle_cons_of_ne hc, ih]

theorem closeDouble_doubleText (s : List DoubleChar) (rest : List Char) :
    closeDouble (doubleText s ++ '"' :: rest) = some rest := by
  induction s with
  | nil => rfl
  | cons c s ih =>
    cases c with
    | char c => rw [doubleText, List.cons_append, closeDouble_cons_of_ne c.2.1 c.2.2, ih]
    | escape c => rw [doubleText, List.cons_append, List.cons_append, closeDouble, ih]

theorem closeDouble_open (s : List DoubleChar) (escaped : Bool) :
    closeDouble (doubleText s ++ breakText escaped) = none := by
  induction s with
  | nil => cases escaped <;> rfl
  | cons c s ih =>
    cases c with
    | char c => rw [doubleText, List.cons_append, closeDouble_cons_of_ne c.2.1 c.2.2, ih]
    | escape c => rw [doubleText, List.cons_append, List.cons_append, closeDouble, ih]

end Quotes

section Pieces
variable {indent : ℕ} {parent : Option ℕ}

/-- What the scan leaves of a line behind a piece, if it has not found anything. -/
def Passes (indent : ℕ) (parent : Option ℕ) (text rest : List Char) (b next : Bool) : Prop :=
  (lineLoop indent parent).run ⟨text ++ rest, b⟩ = none ∨
    ∃ b', (next = true → b' = true) ∧
      (lineLoop indent parent).run ⟨text ++ rest, b⟩ =
        (lineLoop indent parent).run ⟨rest, b'⟩

theorem passes_quiet {s rest : List Char} (hs : Quiet true s rest) (b : Bool) :
    Passes indent parent s rest b false := by
  rcases run_quiet hs (fun _ => rfl) with hfound | ⟨b', hrun⟩
  · exact .inl hfound
  · exact .inr ⟨b', fun h => (by cases h), hrun⟩

/-- An indicator that is no quote, no `#` and no header of a block scalar. -/
theorem passes_char {c : Char} (hc : c ∉ ['\'', '"', '#', '|', '>']) {start b : Bool}
    (hb : start = true → b = true) (rest : List Char) :
    Passes indent parent [c] rest b (startsBehind start c rest) := by
  simp only [List.mem_cons, List.not_mem_nil, or_false, not_or] at hc
  have hquiet : c ∉ ['\'', '"', '#'] := by simp [hc]
  have hheader : c ∈ ['|', '>'] → b = true → isBlockScalarHeader rest = false :=
    fun hmem => absurd hmem (by simp [hc])
  rcases run_char hquiet hheader with hfound | hrun
  · exact .inl hfound
  · exact .inr ⟨_, startsBehind_mono hb, hrun⟩

theorem quiet_cons {c : Char} (hc : c ∈ ['!', '&', '*', '%']) {s rest : List Char}
    (hs : Quiet false s rest) : Quiet true (c :: s) rest := by
  simp only [List.mem_cons, List.not_mem_nil, or_false] at hc
  rcases hc with rfl | rfl | rfl | rfl <;>
    exact ⟨by decide, fun hmem => absurd hmem (by decide), hs⟩

theorem quiet_marker (ends : Bool) (rest : List Char) :
    Quiet true (Piece.text (.marker ends)) rest := by
  cases ends with
  | false =>
    exact ⟨by decide, fun hmem => absurd hmem (by decide), by decide,
      fun hmem => absurd hmem (by decide), by decide, fun hmem => absurd hmem (by decide), trivial⟩
  | true =>
    exact ⟨by decide, fun hmem => absurd hmem (by decide), by decide,
      fun hmem => absurd hmem (by decide), by decide, fun hmem => absurd hmem (by decide), trivial⟩

theorem not_mem_of_flow (f : Flow) : f.char ∉ ['\'', '"', '#', '|', '>'] := by
  cases f <;> decide

/-- The scalar or the comment that a line ends in. -/
def Piece.endsLine : Piece → Bool
  | .openSingle _ => true
  | .openDouble _ _ => true
  | .header _ => true
  | .comment _ => true
  | _ => false

/-- The piece is passed over, and behind it a node is looked for where it can start. -/
theorem passes_of_harmless {start b : Bool} {p : Piece} {ps : List Piece}
    (hp : Harmless start p ps) (hends : Piece.endsLine p = false)
    (hb : start = true → b = true) :
    Passes indent parent p.text (piecesText ps) b (startsNode start p ps) := by
  cases p with
  | blank s => exact .inr ⟨b, hb, run_blanks s.2.2 _ b⟩
  | entry => exact passes_char (by decide) hb _
  | key => exact passes_char (by decide) hb _
  | value => exact passes_char (by decide) hb _
  | flow f => exact passes_char (not_mem_of_flow f) hb _
  | marker ends => exact passes_quiet (quiet_marker ends _) b
  | tag s => exact passes_quiet (quiet_cons (by decide) hp) b
  | anchor name => exact passes_quiet (quiet_cons (by decide) hp) b
  | aliasTo name => exact passes_quiet (quiet_cons (by decide) hp) b
  | plain s => exact passes_quiet hp b
  | single s =>
    refine .inr ⟨false, fun h => (by cases h), ?_⟩
    rw [Piece.text, List.cons_append, List.append_assoc]
    exact run_single_closed (closeSingle_singleText s hp) b
  | double s =>
    refine .inr ⟨false, fun h => (by cases h), ?_⟩
    rw [Piece.text, List.cons_append, List.append_assoc]
    exact run_double_closed (closeDouble_doubleText s _) b
  | directive s => exact passes_quiet (quiet_cons (by decide) hp) b
  | byteOrderMark => exact passes_char (by decide) hb _
  | carriageReturn => exact passes_char (by decide) hb _
  | literal s => exact passes_quiet hp b
  | openSingle s => cases hends
  | openDouble s escaped => cases hends
  | header h => cases hends
  | comment s => cases hends

theorem calm_marker (ends b : Bool) (rest : List Char) :
    Calm b (Piece.text (.marker ends)) rest := by
  have hchar : ∀ c ∈ ['-', '.'], ∀ tail : List Char,
      c ∉ ['&', '*'] ∧ ¬ (c = '<' ∧ tail.head? = some '<') := by
    intro c hc tail
    simp only [List.mem_cons, List.not_mem_nil, or_false] at hc
    rcases hc with rfl | rfl <;> exact ⟨by decide, fun h => absurd h.1 (by decide)⟩
  cases ends <;> cases b <;>
    exact ⟨fun _ => hchar _ (by decide) _, fun _ => hchar _ (by decide) _,
      fun _ => hchar _ (by decide) _, rfl⟩

/-- An indicator is passed over, if it is not the one of a node that is looked for. -/
theorem run_indicator {c : Char} (hc : c ∉ ['\'', '"', '#', '|', '>', '<']) {b : Bool}
    (hnode : c ∈ ['&', '*'] → b = false) (rest : List Char) :
    (lineLoop indent parent).run ⟨c :: rest, b⟩ =
      (lineLoop indent parent).run ⟨rest, startsBehind b c rest⟩ := by
  simp only [List.mem_cons, List.not_mem_nil, or_false, not_or] at hc hnode
  apply run_passed
  · simp [hc]
  · exact fun hmem => absurd hmem (by simp [hc])
  · intro hmark
    exact absurd (hnode hmark.1) (by rw [hmark.2]; decide)
  · exact fun h => hc.2.2.2.2.2 h.1

/-- A text behind its indicator. -/
theorem run_marked {c : Char} (hc : c ∈ ['!', '&', '*', '%']) {b : Bool}
    (hnode : c ∈ ['&', '*'] → b = false) {s rest : List Char} (hs : Quiet false s rest)
    (hcalm : Calm false s rest) :
    (lineLoop indent parent).run ⟨c :: s ++ rest, b⟩ =
      (lineLoop indent parent).run ⟨rest, false⟩ := by
  have hstarts : startsBehind b c (s ++ rest) = false := by
    simp only [List.mem_cons, List.not_mem_nil, or_false] at hc
    rcases hc with rfl | rfl | rfl | rfl <;> rfl
  have hquiet : c ∉ ['\'', '"', '#', '|', '>', '<'] := by
    simp only [List.mem_cons, List.not_mem_nil, or_false] at hc
    rcases hc with rfl | rfl | rfl | rfl <;> decide
  rw [List.cons_append, run_indicator hquiet hnode, hstarts]
  exact run_calm hs id hcalm

theorem run_of_taken {b : Bool} {p : Piece} {ps : List Piece} (hp : TakenAsRead b p ps)
    (hends : Piece.endsLine p = false) (hnode : p.isNode = true → b = false) :
    (lineLoop indent parent).run ⟨p.text ++ piecesText ps, b⟩ =
      (lineLoop indent parent).run ⟨piecesText ps, startsNode b p ps⟩ := by
  obtain ⟨hp, hcalm⟩ := hp
  cases p with
  | blank s => exact run_blanks s.2.2 _ b
  | entry => exact run_indicator (by decide) (fun h => absurd h (by decide)) _
  | key => exact run_indicator (by decide) (fun h => absurd h (by decide)) _
  | value => exact run_indicator (by decide) (fun h => absurd h (by decide)) _
  | flow f => cases f <;> exact run_indicator (by decide) (fun h => absurd h (by decide)) _
  | marker ends => exact run_calm (quiet_marker ends _) (fun _ => rfl) (calm_marker ends b _)
  | tag s => exact run_marked (by decide) (fun h => absurd h (by decide)) hp hcalm
  | anchor name => exact run_marked (by decide) (fun _ => hnode rfl) hp (hcalm (hnode rfl))
  | aliasTo name => exact run_marked (by decide) (fun _ => hnode rfl) hp (hcalm (hnode rfl))
  | plain s => exact run_calm hp (fun _ => rfl) hcalm
  | single s =>
    rw [Piece.text, List.cons_append, List.append_assoc]
    exact run_single_closed (closeSingle_singleText s hp) b
  | double s =>
    rw [Piece.text, List.cons_append, List.append_assoc]
    exact run_double_closed (closeDouble_doubleText s _) b
  | directive s => exact run_marked (by decide) (fun h => absurd h (by decide)) hp hcalm
  | byteOrderMark => exact run_indicator (by decide) (fun h => absurd h (by decide)) _
  | carriageReturn => exact run_indicator (by decide) (fun h => absurd h (by decide)) _
  | literal s => exact run_calm hp (fun _ => rfl) hcalm
  | openSingle s => cases hends
  | openDouble s escaped => cases hends
  | header h => cases hends
  | comment s => cases hends

theorem isBlockScalarHeader_text (h : Header) :
    isBlockScalarHeader (h.indicators.val ++ (h.blanks.val ++
      match h.comment with
      | some s => '#' :: s
      | none => [])) = true := by
  obtain ⟨folded, ⟨indicators, hindicators⟩, ⟨blanks, hblanks⟩, comment⟩ := h
  have hfirst : ∀ tail : List Char, (tail = [] ∨ ∃ s, tail = '#' :: s) →
      (indicators ++ (blanks ++ tail)).dropWhile (fun c => c.isDigit || c == '+' || c == '-') =
        blanks ++ tail := by
    intro tail htail
    rw [List.dropWhile_append_of_pos (List.all_eq_true.mp hindicators)]
    cases blanks with
    | nil =>
      obtain rfl | ⟨s, rfl⟩ := htail
      · rfl
      · rfl
    | cons c blanks =>
      have hc := List.all_eq_true.mp hblanks c List.mem_cons_self
      rw [Bool.or_eq_true, beq_iff_eq, beq_iff_eq] at hc
      rcases hc with rfl | rfl <;> rfl
  have hsecond : ∀ tail : List Char, (tail = [] ∨ ∃ s, tail = '#' :: s) →
      (blanks ++ tail).dropWhile (fun c => c == ' ' || c == '\t') = tail := by
    intro tail htail
    rw [List.dropWhile_append_of_pos (List.all_eq_true.mp hblanks)]
    obtain rfl | ⟨s, rfl⟩ := htail
    · rfl
    · rfl
  rw [isBlockScalarHeader]
  cases comment with
  | none =>
    dsimp only
    rw [hfirst [] (.inl rfl), hsecond [] (.inl rfl)]
  | some s =>
    dsimp only
    rw [hfirst ('#' :: s) (.inr ⟨s, rfl⟩), hsecond ('#' :: s) (.inr ⟨s, rfl⟩)]
    rfl

end Pieces

end ArtifactKeeper.Rubygems
