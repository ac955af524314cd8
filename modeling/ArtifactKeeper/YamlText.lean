import Mathlib.Data.List.Basic
import Mathlib.Data.Nat.Notation

/-! The text of a YAML 1.2 document, read line by line as the pieces that the productions of the
language put there. -/

namespace YamlText

/-- `s-white+`. -/
abbrev Blanks : Type := { s : List Char // s ≠ [] ∧ ∀ c ∈ s, c = ' ' ∨ c = '\t' }

inductive Flow
  | comma | openSequence | closeSequence | openMapping | closeMapping
  deriving DecidableEq, Repr

def Flow.char : Flow → Char
  | .comma => ','
  | .openSequence => '['
  | .closeSequence => ']'
  | .openMapping => '{'
  | .closeMapping => '}'

/-- The indicators that no plain scalar begins with, whatever follows them. -/
def indicators : List Char :=
  [',', '[', ']', '{', '}', '#', '&', '*', '!', '|', '>', '\'', '"', '%', '@', '\x60', ' ', '\t']

/-- What a line holds of a plain scalar. -/
abbrev PlainText : Type := { s : List Char // ∃ c rest, s = c :: rest ∧ c ∉ indicators }

/-- `nb-double-char`. -/
inductive DoubleChar
  | char (c : { c : Char // c ≠ '"' ∧ c ≠ '\\' })
  | escape (c : Char)

def doubleText : List DoubleChar → List Char
  | [] => []
  | .char c :: rest => c.val :: doubleText rest
  | .escape c :: rest => '\\' :: c :: doubleText rest

/-- Single-quoted, a quote is written twice. -/
def singleText : List Char → List Char
  | [] => []
  | c :: rest => if c = '\'' then '\'' :: '\'' :: singleText rest else c :: singleText rest

/-- A line break may be escaped. -/
def breakText (escaped : Bool) : List Char := if escaped then ['\\'] else []

/-- `c-b-block-header`, with the comment behind it. -/
structure Header where
  folded : Bool
  indicators : { s : List Char // s.all (fun c => c.isDigit || c == '+' || c == '-') = true }
  blanks : { s : List Char // s.all (fun c => c == ' ' || c == '\t') = true }
  comment : Option (List Char)

def Header.text (h : Header) : List Char :=
  (if h.folded then '>' else '|') :: (h.indicators.val ++ (h.blanks.val ++
    match h.comment with
    | some s => '#' :: s
    | none => []))

inductive Piece
  | blank (s : Blanks)
  | entry
  | key
  | value
  | flow (f : Flow)
  | marker (ends : Bool)
  | tag (s : List Char)
  | anchor (name : List Char)
  | aliasTo (name : List Char)
  | plain (s : PlainText)
  | single (s : List Char)
  | double (s : List DoubleChar)
  /-- The first line of a quoted scalar that goes on. -/
  | openSingle (s : List Char)
  | openDouble (s : List DoubleChar) (escaped : Bool)
  | header (h : Header)
  | comment (s : List Char)
  | directive (s : List Char)
  | byteOrderMark
  /-- A line break that is a carriage return alone. -/
  | carriageReturn
  /-- The text of a scalar that began on an earlier line. -/
  | literal (s : List Char)

namespace Piece

def text : Piece → List Char
  | blank s => s.val
  | entry => ['-']
  | key => ['?']
  | value => [':']
  | flow f => [f.char]
  | marker ends => if ends then ['.', '.', '.'] else ['-', '-', '-']
  | tag s => '!' :: s
  | anchor name => '&' :: name
  | aliasTo name => '*' :: name
  | plain s => s.val
  | single s => '\'' :: (singleText s ++ ['\''])
  | double s => '"' :: (doubleText s ++ ['"'])
  | openSingle s => '\'' :: singleText s
  | openDouble s escaped => '"' :: (doubleText s ++ breakText escaped)
  | header h => h.text
  | comment s => '#' :: s
  | directive s => '%' :: s
  | byteOrderMark => ['\uFEFF']
  | carriageReturn => ['\r']
  | literal s => s

/-- An anchor or an alias. -/
def isNode : Piece → Bool
  | anchor _ => true
  | aliasTo _ => true
  | _ => false

end Piece

def piecesText (pieces : List Piece) : List Char := pieces.flatMap Piece.text

inductive Line
  | fresh (pieces : List Piece)
  | insideSingle (s : List Char)
  | closingSingle (s : List Char) (pieces : List Piece)
  | insideDouble (s : List DoubleChar) (escaped : Bool)
  | closingDouble (s : List DoubleChar) (pieces : List Piece)
  /-- A line of a block scalar. -/
  | body (s : List Char)

namespace Line

def pieces : Line → List Piece
  | fresh pieces => pieces
  | closingSingle _ pieces => pieces
  | closingDouble _ pieces => pieces
  | _ => []

def text : Line → List Char
  | fresh pieces => piecesText pieces
  | insideSingle s => singleText s
  | closingSingle s pieces => singleText s ++ '\'' :: piecesText pieces
  | insideDouble s escaped => doubleText s ++ breakText escaped
  | closingDouble s pieces => doubleText s ++ '"' :: piecesText pieces
  | body s => s

end Line

/-- What is open between two lines; a block scalar with the line that holds its header. -/
inductive Ctx
  | node
  | single
  | double
  | block (header : List Char)

/-- What the pieces at the end of a line leave open. -/
def Ctx.behind (line : List Char) (pieces : List Piece) : Ctx :=
  match pieces.getLast? with
  | some (.openSingle _) => .single
  | some (.openDouble _ _) => .double
  | some (.header _) => .block line
  | _ => .node

def Line.next (ctx : Ctx) : Line → Ctx
  | .fresh pieces => .behind (piecesText pieces) pieces
  | .closingSingle s pieces => .behind (Line.text (.closingSingle s pieces)) pieces
  | .closingDouble s pieces => .behind (Line.text (.closingDouble s pieces)) pieces
  | _ => ctx

/-- The line can stand where `ctx` is open. -/
inductive Line.Fits : Ctx → Line → Prop
  | fresh {pieces : List Piece} : Fits .node (.fresh pieces)
  | behindBlock {header : List Char} {pieces : List Piece} : Fits (.block header) (.fresh pieces)
  | body {header s : List Char} : Fits (.block header) (.body s)
  | insideSingle {s : List Char} : Fits .single (.insideSingle s)
  | closingSingle {s : List Char} {pieces : List Piece} : Fits .single (.closingSingle s pieces)
  | insideDouble {s : List DoubleChar} {escaped : Bool} : Fits .double (.insideDouble s escaped)
  | closingDouble {s : List DoubleChar} {pieces : List Piece} :
      Fits .double (.closingDouble s pieces)

def AllFit : Ctx → List Line → Prop
  | _, [] => True
  | ctx, line :: lines => line.Fits ctx ∧ AllFit (line.next ctx) lines

/-- A reading of the physical lines of a document. -/
structure Reading (physical : List (List Char)) where
  lines : List Line
  text_eq : lines.map Line.text = physical
  fits : AllFit .node lines

/-- An anchor or an alias occurs. -/
def Reading.HasNode {physical : List (List Char)} (r : Reading physical) : Prop :=
  ∃ line ∈ r.lines, ∃ p ∈ line.pieces, p.isNode = true

end YamlText
