import ArtifactKeeper.Rubygems.AliasScanPieces
import ArtifactKeeper.Rubygems.GemspecYaml

/-! Where the scan finds an anchor or an alias of a document: a node that it looks for, with nothing
before it that the scan takes for something else. -/

namespace ArtifactKeeper.Rubygems
open YamlText
open ArtifactKeeper.Text (isBlank)

section Lines

/-- What the scan has to keep where `ctx` is open. -/
def stateOf : Ctx → Scan
  | .node => ⟨.none, none⟩
  | .single => ⟨.single, none⟩
  | .double => ⟨.double, none⟩
  | .block header => ⟨.none, some (indentOf header)⟩

/-- The last piece of a line, if it leaves something open or is a comment. -/
theorem run_last {line : List Char} {start b : Bool} {p : Piece} {ps : List Piece}
    (hp : Harmless start p ps) (hends : Piece.endsLine p = true) (hb : start = true → b = true) :
    ps = [] ∧ (lineLoop (indentOf line) none).run ⟨p.text, b⟩ =
      some (stateOf (Ctx.behind line [p])) := by
  cases p with
  | openSingle s => exact ⟨hp, run_single_open (closeSingle_open s) b⟩
  | openDouble s escaped => exact ⟨hp, run_double_open (closeDouble_open s escaped) b⟩
  | header h =>
    obtain ⟨hps, hstart⟩ := hp
    obtain rfl := hb hstart
    refine ⟨hps, run_header ?_ (isBlockScalarHeader_text h)⟩
    cases h.folded with
    | false => exact .inl rfl
    | true => exact .inr rfl
  | comment s => exact ⟨hp, run_comment s b⟩
  | _ => cases hends

theorem behind_cons {line : List Char} {p : Piece} (hends : Piece.endsLine p = false)
    (ps : List Piece) : Ctx.behind line (p :: ps) = Ctx.behind line ps := by
  cases ps with
  | nil => cases p <;> first | rfl | cases hends
  | cons q ps =>
    rw [Ctx.behind, Ctx.behind, List.getLast?_cons_cons]

theorem run_pieces {line : List Char} {pieces : List Piece} {start b : Bool}
    (h : AllHarmless start pieces) (hb : start = true → b = true) :
    (lineLoop (indentOf line) none).run ⟨piecesText pieces, b⟩ = none ∨
      (lineLoop (indentOf line) none).run ⟨piecesText pieces, b⟩ =
        some (stateOf (Ctx.behind line pieces)) := by
  induction pieces generalizing start b with
  | nil => exact .inr (run_nil b)
  | cons p ps ih =>
    obtain ⟨hp, hps⟩ := h
    cases hends : Piece.endsLine p with
    | true =>
      obtain ⟨rfl, hrun⟩ := @run_last line _ _ _ _ hp hends hb
      refine .inr ?_
      rw [piecesText, List.flatMap_singleton]
      exact hrun
    | false =>
      rw [behind_cons hends, piecesText, List.flatMap_cons]
      rcases @passes_of_harmless (indentOf line) none _ _ _ _ hp hends hb with
        hfound | ⟨b', hb', hrun⟩
      · exact .inl hfound
      · rcases ih hps hb' with hfound | hrest
        · exact .inl (hrun.trans hfound)
        · exact .inr (hrun.trans hrest)

/-- A node in the open is found. -/
theorem run_shown {indent : ℕ} {pieces : List Piece} {start b : Bool}
    (h : ShowsNode start pieces) (hb : start = true → b = true) :
    (lineLoop indent none).run ⟨piecesText pieces, b⟩ = none := by
  induction pieces generalizing start b with
  | nil => exact h.elim
  | cons p ps ih =>
    rw [piecesText, List.flatMap_cons]
    rcases h with ⟨hnode, hstart⟩ | ⟨hp, hps⟩
    · obtain rfl := hb hstart
      cases p with
      | anchor name => exact run_node (.inl rfl) _
      | aliasTo name => exact run_node (.inr rfl) _
      | _ => cases hnode
    · cases hends : Piece.endsLine p with
      | true =>
        obtain ⟨rfl, -⟩ := @run_last [] _ _ _ _ hp hends hb
        exact hps.elim
      | false =>
        rcases @passes_of_harmless indent none _ _ _ _ hp hends hb with hfound | ⟨b', hb', hrun⟩
        · exact hfound
        · exact hrun.trans (ih hps hb')

/-- Where every node stands elsewhere, the pieces are passed over to the end of the line. -/
theorem run_taken {line : List Char} {pieces : List Piece} {b : Bool}
    (h : AllTakenAsRead b pieces) (hhidden : ¬ ShowsNode b pieces) :
    (lineLoop (indentOf line) none).run ⟨piecesText pieces, b⟩ =
      some (stateOf (Ctx.behind line pieces)) := by
  induction pieces generalizing b with
  | nil => exact run_nil b
  | cons p ps ih =>
    obtain ⟨hp, hps⟩ := h
    rw [ShowsNode, not_or] at hhidden
    have hnode : p.isNode = true → b = false := fun hp =>
      Bool.eq_false_iff.mpr fun hb => hhidden.1 ⟨hp, hb⟩
    have hrest : ¬ ShowsNode (startsNode b p ps) ps := fun h => hhidden.2 ⟨hp.1, h⟩
    cases hends : Piece.endsLine p with
    | true =>
      obtain ⟨rfl, hrun⟩ := @run_last line _ _ _ _ hp.1 hends id
      rw [piecesText, List.flatMap_singleton]
      exact hrun
    | false =>
      rw [behind_cons hends, piecesText, List.flatMap_cons]
      exact (run_of_taken hp hends hnode).trans (ih hps hrest)

/-- The scan of a line comes down to the scan of its pieces, if it has any. -/
theorem scanLine_pieces {ctx : Ctx} {line : Line} (hfits : line.Fits ctx)
    (henters : EntersAsRead ctx line) :
    (line.pieces = [] ∧ scanLine (stateOf ctx) line.text = some (stateOf (line.next ctx))) ∨
      scanLine (stateOf ctx) line.text = (lineLoop (indentOf line.text) none).run
        ⟨piecesText line.pieces, Line.startsFresh line⟩ ∧
      line.next ctx = Ctx.behind line.text line.pieces := by
  cases hfits with
  | fresh => exact .inr ⟨rfl, rfl⟩
  | @behindBlock header pieces =>
    obtain ⟨hblank, hindent⟩ := henters
    refine .inr ⟨if_neg ?_, rfl⟩
    rw [Bool.or_eq_true, not_or, decide_eq_true_eq]
    exact ⟨by rw [Line.text, hblank]; decide, Nat.not_lt.mpr hindent⟩
  | @body header s =>
    refine .inl ⟨rfl, if_pos ?_⟩
    rw [Bool.or_eq_true, decide_eq_true_eq]
    exact henters
  | @insideSingle s =>
    have hopen : closeSingle (Line.text (.insideSingle s)) = none := closeSingle_open s
    refine .inl ⟨rfl, ?_⟩
    simp only [scanLine, stateOf, hopen, Line.next]
  | @closingSingle s pieces =>
    have hclose : closeSingle (Line.text (.closingSingle s pieces)) = some (piecesText pieces) :=
      closeSingle_singleText s henters
    refine .inr ⟨?_, rfl⟩
    simp only [scanLine, stateOf, hclose]
    rfl
  | @insideDouble s escaped =>
    have hopen : closeDouble (Line.text (.insideDouble s escaped)) = none :=
      closeDouble_open s escaped
    refine .inl ⟨rfl, ?_⟩
    simp only [scanLine, stateOf, hopen, Line.next]
  | @closingDouble s pieces =>
    have hclose : closeDouble (Line.text (.closingDouble s pieces)) = some (piecesText pieces) :=
      closeDouble_doubleText s _
    refine .inr ⟨?_, rfl⟩
    simp only [scanLine, stateOf, hclose]
    rfl

/-- A line that is taken for what it is leaves the scan in the state of what is open behind it. -/
theorem scanLine_harmless {ctx : Ctx} {line : Line} (hfits : line.Fits ctx)
    (henters : EntersAsRead ctx line)
    (h : AllHarmless (Line.startsFresh line) line.pieces) :
    scanLine (stateOf ctx) line.text = none ∨
      scanLine (stateOf ctx) line.text = some (stateOf (line.next ctx)) := by
  rcases scanLine_pieces hfits henters with ⟨-, hstate⟩ | ⟨hrun, hnext⟩
  · exact .inr hstate
  · rw [hrun, hnext]
    exact run_pieces h id

theorem scanLine_shown {ctx : Ctx} {line : Line} (hfits : line.Fits ctx)
    (henters : EntersAsRead ctx line) (h : ShowsNode (Line.startsFresh line) line.pieces) :
    scanLine (stateOf ctx) line.text = none := by
  rcases scanLine_pieces hfits henters with ⟨hpieces, -⟩ | ⟨hrun, -⟩
  · rw [hpieces] at h
    exact h.elim
  · rw [hrun]
    exact run_shown h id

/-- From line to line, up to the node. -/
theorem scanLines_shown {ctx : Ctx} {lines : List Line} (hfits : AllFit ctx lines)
    (h : ShowsNodeIn ctx lines) : scanLines (stateOf ctx) (lines.map Line.text) = none := by
  induction lines generalizing ctx with
  | nil => exact h.elim
  | cons line lines ih =>
    obtain ⟨hline, hlines⟩ := hfits
    obtain ⟨henters, hshown | ⟨hharmless, hrest⟩⟩ := h
    · rw [List.map_cons, scanLines, scanLine_shown hline henters hshown]
      rfl
    · rw [List.map_cons, scanLines]
      rcases scanLine_harmless hline henters hharmless with hfound | hstate
      · rw [hfound]
        rfl
      · rw [hstate]
        exact ih hlines hrest

theorem scanLine_taken {ctx : Ctx} {line : Line} (hfits : line.Fits ctx)
    (henters : EntersAsRead ctx line)
    (h : AllTakenAsRead (Line.startsFresh line) line.pieces)
    (hhidden : ¬ ShowsNode (Line.startsFresh line) line.pieces) :
    scanLine (stateOf ctx) line.text = some (stateOf (line.next ctx)) := by
  rcases scanLine_pieces hfits henters with ⟨-, hstate⟩ | ⟨hrun, hnext⟩
  · exact hstate
  · rw [hrun, hnext]
    exact run_taken h hhidden

theorem harmless_of_taken {start : Bool} {pieces : List Piece} (h : AllTakenAsRead start pieces) :
    AllHarmless start pieces := by
  induction pieces generalizing start with
  | nil => trivial
  | cons p ps ih => exact ⟨h.1.1, ih h.2⟩

/-- A document that is taken for what it is, with no node in the open, passes the scan. -/
theorem scanLines_taken {ctx : Ctx} {lines : List Line} (hfits : AllFit ctx lines)
    (h : TakenAsReadIn ctx lines) (hhidden : ¬ ShowsNodeIn ctx lines) :
    scanLines (stateOf ctx) (lines.map Line.text) ≠ none := by
  induction lines generalizing ctx with
  | nil => exact Option.some_ne_none _
  | cons line lines ih =>
    obtain ⟨hline, hlines⟩ := hfits
    obtain ⟨henters, htaken, hrest⟩ := h
    have hpieces : ¬ ShowsNode (Line.startsFresh line) line.pieces :=
      fun hshown => hhidden ⟨henters, .inl hshown⟩
    have hbelow : ¬ ShowsNodeIn (line.next ctx) lines :=
      fun hshown => hhidden ⟨henters, .inr ⟨harmless_of_taken htaken, hshown⟩⟩
    rw [List.map_cons, scanLines, scanLine_taken hline henters htaken hpieces]
    exact ih hlines hrest hbelow

end Lines

variable {content : List Char}

/-- Some anchor or alias of the document is in the open. -/
def ShowsSomeNode (r : Reading (Text.lines content)) : Prop :=
  ShowsNodeIn .node r.lines

/-- The scan misreads no part of the document. -/
def TakesAsRead (r : Reading (Text.lines content)) : Prop :=
  TakenAsReadIn .node r.lines

theorem scan_shown (r : Reading (Text.lines content)) (h : ShowsSomeNode r) :
    yamlUsesAnchorsOrAliases content = true := by
  have hscan := scanLines_shown r.fits h
  rw [r.text_eq] at hscan
  rw [yamlUsesAnchorsOrAliases, show (⟨.none, none⟩ : Scan) = stateOf .node from rfl, hscan]
  rfl

theorem scan_hidden (r : Reading (Text.lines content)) (htaken : TakesAsRead r)
    (h : ¬ ShowsSomeNode r) : yamlUsesAnchorsOrAliases content = false := by
  have hscan := scanLines_taken r.fits htaken h
  rw [r.text_eq] at hscan
  rw [yamlUsesAnchorsOrAliases, show (⟨.none, none⟩ : Scan) = stateOf .node from rfl,
    Option.isNone_eq_false_iff]
  exact Option.isSome_iff_ne_none.mpr hscan

/-- The scan finds the document, and the parser is not asked about it. -/
def KeptFromParser (content : List Char) : Prop :=
  yamlUsesAnchorsOrAliases content = true ∧
    ∀ fromStr, parseGemspecDependencies fromStr content = none

theorem keptFromParser_iff : KeptFromParser content ↔ yamlUsesAnchorsOrAliases content = true :=
  ⟨fun h => h.1, fun h => ⟨h, (parseGemspecDependencies_none_iff content).mpr h⟩⟩

/-- A document with anchors or aliases is kept from the parser, if one of them is in the open; and
only then, if the scan takes the document for what it is. -/
theorem alias_scan_complete (r : Reading (Text.lines content)) :
    ((r.HasNode → ShowsSomeNode r) → r.HasNode → KeptFromParser content) ∧
      (TakesAsRead r → (r.HasNode → KeptFromParser content) → r.HasNode → ShowsSomeNode r) := by
  simp only [keptFromParser_iff]
  constructor
  · exact fun hshown hnode => scan_shown r (hshown hnode)
  · intro htaken hfound hnode
    by_contra hhidden
    exact absurd (hfound hnode) (by rw [scan_hidden r htaken hhidden]; decide)

/-- The anchor stands behind a tag, and the alias directly behind the `:` of a quoted key. -/
def taggedAnchor : List Piece :=
  let space : Blanks := ⟨[' '], by simp⟩
  [.flow .openMapping, .plain ⟨['a'], 'a', [], rfl, by simp [indicators]⟩, .value, .blank space,
    .tag "!str".toList, .blank space, .anchor ['x'], .blank space,
    .plain ⟨['b'], 'b', [], rfl, by simp [indicators]⟩, .flow .comma, .blank space,
    .double [.char ⟨'c', by simp⟩], .value, .aliasTo ['x'], .flow .closeMapping]

theorem tagged_anchor_missed :
    ∃ r : Reading (Text.lines "\x7ba: !!str &x b, \"c\":*x\x7d".toList), r.HasNode ∧
      yamlUsesAnchorsOrAliases "\x7ba: !!str &x b, \"c\":*x\x7d".toList = false ∧
      ¬ KeptFromParser "\x7ba: !!str &x b, \"c\":*x\x7d".toList := by
  have hscan : yamlUsesAnchorsOrAliases "\x7ba: !!str &x b, \"c\":*x\x7d".toList = false := by
    decide +kernel
  refine ⟨⟨[.fresh taggedAnchor], by decide +kernel, .fresh, trivial⟩, ?_, hscan, fun h => ?_⟩
  swap
  · exact absurd h.1 (by rw [hscan]; decide)
  exact ⟨.fresh taggedAnchor, List.mem_singleton_self _, .anchor ['x'],
    by simp [Line.pieces, taggedAnchor], rfl⟩

theorem listed_aliases_found : KeptFromParser "deps: [*a, *b]".toList := by
  let space : Blanks := ⟨[' '], by simp⟩
  let deps : List Piece :=
    [.plain ⟨"deps".toList, 'd', "eps".toList, rfl, by simp [indicators]⟩, .value, .blank space,
      .flow .openSequence, .aliasTo ['a'], .flow .comma, .blank space, .aliasTo ['b'],
      .flow .closeSequence]
  let r : Reading (Text.lines "deps: [*a, *b]".toList) :=
    ⟨[.fresh deps], by decide +kernel, .fresh, trivial⟩
  have hnode : r.HasNode :=
    ⟨.fresh deps, List.mem_singleton_self _, .aliasTo ['a'], by simp [Line.pieces, deps], rfl⟩
  refine (alias_scan_complete r).1 (fun _ => ⟨trivial, .inl ?_⟩) hnode
  simp [Line.pieces, deps, Line.startsFresh, ShowsNode, Harmless, Quiet, startsNode, startsBehind,
    Piece.isNode, piecesText, Piece.text, Flow.char]

end ArtifactKeeper.Rubygems
