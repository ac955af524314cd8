import ArtifactKeeper.Go.ModFile
import Mathlib.Data.List.Chain

/-! What a `go.mod` file is: directives on one line or in parentheses, comments and blank lines,
with the entries that they declare. -/

namespace ArtifactKeeper.Go

open Text

inductive Keyword where
  | require
  | replace
  | exclude
  | retract
  deriving DecidableEq, Repr

def Keyword.text : Keyword → List Char
  | require => "require".toList
  | replace => "replace".toList
  | exclude => "exclude".toList
  | retract => "retract".toList

def moduleText : List Char := "module".toList

def goText : List Char := "go".toList

def keywords : List (List Char) :=
  [moduleText, goText, "require".toList, "replace".toList, "exclude".toList,
    "retract".toList]

/-- The two characters never stand next to each other in this order. -/
def NoPair (a b : Char) (cs : List Char) : Prop := cs.IsChain fun c d => ¬ (c = a ∧ d = b)

instance (a b : Char) (cs : List Char) : Decidable (NoPair a b cs) :=
  inferInstanceAs (Decidable (List.IsChain _ _))

/-- An unquoted identifier: no blanks, quotes, parentheses, brackets, braces or commas, no comment
and no arrow in it, and no keyword. -/
structure Word where
  chars : List Char
  ne_nil : chars ≠ []
  visible : ∀ c ∈ chars, isWhitespace c = false ∧ c.toNat ∉ [34, 40, 41, 44, 91, 93, 96, 123, 125]
  noComment : NoPair '/' '/' chars
  noArrow : NoPair '=' '>' chars
  not_keyword : chars ∉ keywords

/-- What may stand between the tokens of a line. -/
structure Blank where
  chars : List Char
  blank : ∀ c ∈ chars, c = ' ' ∨ c = '\t' ∨ c = '\r'

structure Gap extends Blank where
  ne_nil : chars ≠ []

/-- The end of a line behind a text: blanks and perhaps a comment, which may follow without a blank
where the text does not end in a slash. -/
structure Tail (text : List Char) where
  blank : Blank
  comment : Option (List Char)
  noNewline : ∀ c, comment = some c → '\n' ∉ c
  apart : blank.chars = [] → comment ≠ none → text.getLast? ≠ some '/'

def commentText : Option (List Char) → List Char
  | some c => '/' :: '/' :: c
  | none => []

def Tail.chars {text : List Char} (t : Tail text) : List Char :=
  t.blank.chars ++ commentText t.comment

/-- The comment follows without a blank. -/
def Tail.Glued {text : List Char} (t : Tail text) : Prop :=
  t.blank.chars = [] ∧ t.comment ≠ none

structure DependencySpec where
  path : Word
  gap : Gap
  version : Word

def DependencySpec.text (d : DependencySpec) : List Char :=
  d.path.chars ++ d.gap.chars ++ d.version.chars

/-- A path and perhaps a version. -/
structure VersionedPath where
  path : Word
  version : Option (Gap × Word)

def VersionedPath.text (p : VersionedPath) : List Char :=
  p.path.chars ++ (p.version.map fun v => v.1.chars ++ v.2.chars).getD []

structure ReplaceSpec where
  old : VersionedPath
  before : Gap
  after : Blank
  new : VersionedPath

def ReplaceSpec.text (r : ReplaceSpec) : List Char :=
  r.old.text ++ r.before.chars ++ '=' :: '>' :: (r.after.chars ++ r.new.text)

/-- One version, or an interval in brackets. -/
inductive RetractSpec where
  | version (v : Word)
  | interval (b₁ : Blank) (low : Word) (b₂ b₃ : Blank) (high : Word) (b₄ : Blank)

def RetractSpec.text : RetractSpec → List Char
  | version v => v.chars
  | interval b₁ low b₂ b₃ high b₄ =>
    '[' :: (b₁.chars ++ low.chars ++ b₂.chars ++
      ',' :: (b₃.chars ++ high.chars ++ b₄.chars ++ [']']))

/-- What stands behind a keyword, or on a line of the keyword's block. -/
inductive Spec : Keyword → Type where
  | require (d : DependencySpec) : Spec .require
  | replace (r : ReplaceSpec) : Spec .replace
  | exclude (d : DependencySpec) : Spec .exclude
  | retract (r : RetractSpec) : Spec .retract

def Spec.text {k : Keyword} : Spec k → List Char
  | require d => d.text
  | replace r => r.text
  | exclude d => d.text
  | retract r => r.text

/-- The four lists of a file. -/
structure Entries where
  require : List GoDependency := []
  replace : List GoReplace := []
  exclude : List GoDependency := []
  retract : List (List Char) := []
  deriving DecidableEq, Repr

def GoMod.entries (m : GoMod) : Entries := ⟨m.require, m.replace, m.exclude, m.retract⟩

/-- Somewhere in its words a comment says `// indirect`. -/
def saysIndirect (comment : Option (List Char)) : Bool :=
  (splitWhitespace (commentText comment)).tails.any
    fun words => words.take 2 = ["//".toList, "indirect".toList]

def DependencySpec.declared (d : DependencySpec) (tail : Tail d.text) : GoDependency :=
  ⟨d.path.chars, d.version.chars, saysIndirect tail.comment⟩

def ReplaceSpec.declared (r : ReplaceSpec) : GoReplace :=
  ⟨r.old.path.chars, r.old.version.map (·.2.chars), r.new.path.chars,
    r.new.version.map (·.2.chars)⟩

/-- The entry of a specification: a requirement is indirect if its comment says so. -/
def Spec.declared {k : Keyword} : (spec : Spec k) → Tail spec.text → Entries
  | require d, tail => { require := [d.declared tail] }
  | replace r, _ => { replace := [r.declared] }
  | exclude d, tail => { exclude := [d.declared tail] }
  | retract r, _ => { retract := [r.text] }

/-- The lines of a file. -/
inductive ModLine where
  | blank (tail : Tail [])
  | module (indent : Blank) (gap : Gap) (path : Word) (tail : Tail path.chars)
  | go (indent : Blank) (gap : Gap) (version : Word) (tail : Tail version.chars)
  | single (indent : Blank) {k : Keyword} (gap : Blank) (spec : Spec k) (tail : Tail spec.text)
    (apart : gap.chars ≠ [] ∨ spec.text.head? = some '[')
  | opening (indent : Blank) (k : Keyword) (gap : Blank) (tail : Tail ['('])
  | entry (indent : Blank) {k : Keyword} (spec : Spec k) (tail : Tail spec.text)
  | closing (indent : Blank) (tail : Tail [')'])

namespace ModLine

/-- The line without what stands around it. -/
def body : ModLine → List Char
  | blank _ => []
  | module _ gap path _ => moduleText ++ (gap.chars ++ path.chars)
  | go _ gap version _ => goText ++ (gap.chars ++ version.chars)
  | @single _ k gap spec _ _ => k.text ++ (gap.chars ++ spec.text)
  | opening _ k gap _ => k.text ++ (gap.chars ++ ['('])
  | entry _ spec _ => spec.text
  | closing _ _ => [')']

def text : ModLine → List Char
  | blank tail => tail.chars
  | l@(module indent _ _ tail) | l@(go indent _ _ tail) => indent.chars ++ (l.body ++ tail.chars)
  | l@(single indent _ _ tail _) => indent.chars ++ (l.body ++ tail.chars)
  | l@(opening indent _ _ tail) => indent.chars ++ (l.body ++ tail.chars)
  | l@(entry indent _ tail) => indent.chars ++ (l.body ++ tail.chars)
  | l@(closing indent tail) => indent.chars ++ (l.body ++ tail.chars)

def declared : ModLine → Entries
  | single _ _ spec tail _ => spec.declared tail
  | entry _ spec tail => spec.declared tail
  | _ => {}

def isModule : ModLine → Bool
  | module .. => true
  | _ => false

def isGo : ModLine → Bool
  | go .. => true
  | _ => false

end ModLine

/-- A line in the parentheses of a keyword. -/
inductive BlockLine (k : Keyword) where
  | blank (tail : Tail [])
  | entry (indent : Blank) (spec : Spec k) (tail : Tail spec.text)

def BlockLine.line {k : Keyword} : BlockLine k → ModLine
  | blank tail => .blank tail
  | entry indent spec tail => .entry indent spec tail

inductive Item where
  | blank (tail : Tail [])
  | module (indent : Blank) (gap : Gap) (path : Word) (tail : Tail path.chars)
  | go (indent : Blank) (gap : Gap) (version : Word) (tail : Tail version.chars)
  | single (indent : Blank) {k : Keyword} (gap : Blank) (spec : Spec k) (tail : Tail spec.text)
    (apart : gap.chars ≠ [] ∨ spec.text.head? = some '[')
  | block (indent : Blank) (k : Keyword) (gap : Blank) (tail : Tail ['('])
    (body : List (BlockLine k)) (indent' : Blank) (tail' : Tail [')'])

def Item.lines : Item → List ModLine
  | blank tail => [.blank tail]
  | module indent gap path tail => [.module indent gap path tail]
  | go indent gap version tail => [.go indent gap version tail]
  | single indent gap spec tail apart => [.single indent gap spec tail apart]
  | block indent k gap tail body indent' tail' =>
    .opening indent k gap tail :: (body.map BlockLine.line ++ [.closing indent' tail'])

/-- A file with one module line and at most one go line. -/
structure ModFile where
  items : List Item
  oneModule : (items.flatMap Item.lines).countP ModLine.isModule = 1
  oneGo : (items.flatMap Item.lines).countP ModLine.isGo ≤ 1

namespace ModFile

def lines (f : ModFile) : List ModLine := f.items.flatMap Item.lines

/-- The lines with line ends between them; a file that ends in one has a last line that is blank. -/
def text (f : ModFile) : List Char := ['\n'].intercalate (f.lines.map ModLine.text)

def declared (f : ModFile) : Entries where
  require := f.lines.flatMap (·.declared.require)
  replace := f.lines.flatMap (·.declared.replace)
  exclude := f.lines.flatMap (·.declared.exclude)
  retract := f.lines.flatMap (·.declared.retract)

end ModFile

end ArtifactKeeper.Go
