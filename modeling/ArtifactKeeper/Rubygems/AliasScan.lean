import ArtifactKeeper.Loop
import ArtifactKeeper.Text
import Mathlib.Algebra.GroupWithZero.Nat

/-! The scan for anchors, aliases and merge keys that is made of the YAML in a gem before it is
parsed. It goes by lines and keeps whether a quoted or a block scalar is open. -/

namespace ArtifactKeeper.Rubygems
open ArtifactKeeper.Text (isWhitespace isBlank lines)
open Loop.Round (below_again below_done below_ite)

/-- `is_block_scalar_header` on what follows the `|` or the `>`. -/
def isBlockScalarHeader (rest : List Char) : Bool :=
  let tail := (rest.dropWhile fun c => c.isDigit || c == '+' || c == '-').dropWhile fun c =>
    c == ' ' || c == '\t'
  match tail with
  | [] => true
  | c :: _ => c == '#'

inductive Quote
  | none | single | double
  deriving DecidableEq, Repr

/-- What the scan keeps from line to line; the parent of a block scalar is its indentation. -/
structure Scan where
  quote : Quote
  blockScalarParent : Option ℕ
  deriving DecidableEq, Repr

/-- What follows the end of a single-quoted scalar, if it ends on the line. -/
def closeSingle : List Char → Option (List Char)
  | [] => none
  | '\'' :: '\'' :: rest => closeSingle rest
  | '\'' :: rest => some rest
  | _ :: rest => closeSingle rest

def closeDouble : List Char → Option (List Char)
  | [] => none
  | '\\' :: _ :: rest => closeDouble rest
  | '"' :: rest => some rest
  | _ :: rest => closeDouble rest

/-- The loop over a line: what is left of it, and whether a node can start there. -/
structure LineScan where
  rest : List Char
  atNodeStart : Bool

theorem length_closeSingle {cs rest : List Char} (h : closeSingle cs = some rest) :
    rest.length < cs.length := by
  fun_induction closeSingle cs with
  | case1 => cases h
  | case2 tail ih =>
    have hless := ih h
    simp only [List.length_cons]
    omega
  | case3 tail hnot =>
    obtain rfl := Option.some.inj h
    exact Nat.lt_succ_self _
  | case4 c tail hnot hquote ih => exact Nat.lt_succ_of_lt (ih h)

theorem length_closeDouble {cs rest : List Char} (h : closeDouble cs = some rest) :
    rest.length < cs.length := by
  fun_induction closeDouble cs with
  | case1 => cases h
  | case2 c tail ih =>
    have hless := ih h
    simp only [List.length_cons]
    omega
  | case3 tail =>
    obtain rfl := Option.some.inj h
    exact Nat.lt_succ_self _
  | case4 c tail hnot hquote ih => exact Nat.lt_succ_of_lt (ih h)

/-- A line from some position on; `none` is an anchor, an alias or a merge key. -/
def lineLoop (indent : ℕ) (parent : Option ℕ) : Loop LineScan (Option Scan) where
  step s :=
    match s.rest with
    | [] => .done (some ⟨.none, parent⟩)
    | c :: rest =>
      if c = ' ' ∨ c = '\t' then .again ⟨rest, s.atNodeStart⟩
      else if c = '#' then .done (some ⟨.none, parent⟩)
      else if c = '\'' then
        match closeSingle rest with
        | some rest => .again ⟨rest, false⟩
        | none => .done (some ⟨.single, parent⟩)
      else if c = '"' then
        match closeDouble rest with
        | some rest => .again ⟨rest, false⟩
        | none => .done (some ⟨.double, parent⟩)
      else if (c = '&' ∨ c = '*') ∧ s.atNodeStart = true then .done none
      else if c = '<' ∧ s.atNodeStart = true ∧ rest.head? = some '<' then .done none
      else if (c = '|' ∨ c = '>') ∧ s.atNodeStart = true ∧ isBlockScalarHeader rest = true then
        .done (some ⟨.none, some indent⟩)
      else if c = '-' ∧ s.atNodeStart = true ∧ (rest = [] ∨ rest.head? = some ' ') then
        .again ⟨rest, s.atNodeStart⟩
      else if c = ':' ∧ (rest = [] ∨ rest.head? = some ' ' ∨ rest.head? = some '\t') then
        .again ⟨rest, true⟩
      else if c = ',' ∨ c = '[' ∨ c = '{' then .again ⟨rest, true⟩
      else .again ⟨rest, false⟩
  measure s := s.rest.length
  descends := by
    intro s s' hstep
    refine (?_ : Loop.Round.Below (fun s : LineScan => s.rest.length) s.rest.length _) s' hstep
    split
    · exact below_done _
    · rename_i c rest hrest
      have hless : ∀ {tail : List Char}, tail.length ≤ rest.length →
          tail.length < s.rest.length := by
        intro tail htail
        rw [hrest, List.length_cons]
        exact Nat.lt_succ_of_le htail
      have hnext : ∀ b : Bool, Loop.Round.Below (fun s : LineScan => s.rest.length)
          s.rest.length (.again ⟨rest, b⟩ : Loop.Round LineScan (Option Scan)) :=
        fun b => below_again (hless le_rfl)
      refine below_ite (hnext _) (below_ite (below_done _) (below_ite ?_ (below_ite ?_
        (below_ite (below_done _) (below_ite (below_done _) (below_ite (below_done _)
          (below_ite (hnext _) (below_ite (hnext _) (below_ite (hnext _) (hnext _))))))))))
      · split
        · rename_i tail htail
          exact below_again (hless (length_closeSingle htail).le)
        · exact below_done _
      · split
        · rename_i tail htail
          exact below_again (hless (length_closeDouble htail).le)
        · exact below_done _

/-- `line.len() - line.trim_start().len()`, in bytes. -/
def indentOf (line : List Char) : ℕ := ((line.takeWhile isWhitespace).map Char.utf8Size).sum

def scanLine (s : Scan) (line : List Char) : Option Scan :=
  let indent := indentOf line
  match s.quote with
  | .none =>
    match s.blockScalarParent with
    | some parent =>
      if isBlank line || decide (parent < indent) then some s
      else (lineLoop indent none).run ⟨line, true⟩
    | none => (lineLoop indent none).run ⟨line, true⟩
  | .single =>
    match closeSingle line with
    | some rest => (lineLoop indent s.blockScalarParent).run ⟨rest, false⟩
    | none => some s
  | .double =>
    match closeDouble line with
    | some rest => (lineLoop indent s.blockScalarParent).run ⟨rest, false⟩
    | none => some s

def scanLines : Scan → List (List Char) → Option Scan
  | s, [] => some s
  | s, line :: rest => (scanLine s line).bind fun s' => scanLines s' rest

def yamlUsesAnchorsOrAliases (content : List Char) : Bool :=
  (scanLines ⟨.none, none⟩ (lines content)).isNone

end ArtifactKeeper.Rubygems
