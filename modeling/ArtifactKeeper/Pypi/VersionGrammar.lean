import Mathlib.Data.List.DropRight
import ArtifactKeeper.Text

/-! The versions of PEP 440: how they may be written, and when two of them are the same. -/

namespace ArtifactKeeper.Pypi

/-- `[0-9]+`. -/
structure Numeral where
  digits : List Char
  ne_nil : digits ≠ []
  all_digits : digits.all Char.isDigit = true

def Numeral.value (n : Numeral) : ℕ := Nat.ofDigitChars 10 n.digits 0

/-- `[-_.]`. -/
inductive Separator where
  | hyphen | underscore | dot
  deriving DecidableEq, Repr

def Separator.char : Separator → Char
  | .hyphen => '-'
  | .underscore => '_'
  | .dot => '.'

inductive PreLabel where
  | alpha | a | beta | b | preview | pre | c | rc
  deriving DecidableEq, Repr

def PreLabel.text : PreLabel → List Char
  | .alpha => "alpha".toList
  | .a => "a".toList
  | .beta => "beta".toList
  | .b => "b".toList
  | .preview => "preview".toList
  | .pre => "pre".toList
  | .c => "c".toList
  | .rc => "rc".toList

/-- The three phases of pre-releases. -/
inductive PreLetter where
  | a | b | rc
  deriving DecidableEq, Repr

def PreLabel.letter : PreLabel → PreLetter
  | .alpha | .a => .a
  | .beta | .b => .b
  | .preview | .pre | .c | .rc => .rc

inductive PostLabel where
  | post | rev | r
  deriving DecidableEq, Repr

def PostLabel.text : PostLabel → List Char
  | .post => "post".toList
  | .rev => "rev".toList
  | .r => "r".toList

inductive DevLabel where
  | dev
  deriving DecidableEq, Repr

def DevLabel.text : DevLabel → List Char
  | .dev => "dev".toList

/-- A label with what may stand around it: `[-_.]?label[-_.]?([0-9]+)?`. -/
structure Qualifier (L : Type) where
  lead : Option Separator
  label : L
  trail : Option Separator
  number : Option Numeral

/-- A post-release is either `-N` or labelled. -/
inductive Post where
  | implicit (number : Numeral)
  | labelled (q : Qualifier PostLabel)

/-- `[a-z0-9]+`. -/
structure Segment where
  chars : List Char
  ne_nil : chars ≠ []
  alphanum : ∀ c ∈ chars, c.isDigit = true ∨ c.isLower = true

/-- What stands behind the release. `-N` behind a pre-release is the number of that pre-release if
it has no other and no separator of its own, so that it is no post-release then. -/
structure Suffix where
  pre : Option (Qualifier PreLabel)
  post : Option Post
  dev : Option (Qualifier DevLabel)
  pre_before_implicit : ∀ q n, pre = some q → post = some (.implicit n) → q.number = none →
    q.trail ≠ none

/-- One way to write a version in lower case. -/
structure Spelling where
  before : List Char
  v : Bool
  epoch : Option Numeral
  major : Numeral
  minor : List Numeral
  suffix : Suffix
  localSegments : Option (Segment × List (Separator × Segment))
  after : List Char
  before_space : ∀ c ∈ before, c ∈ [' ', '\t', '\n', '\r', '\x0b', '\x0c']
  after_space : ∀ c ∈ after, c ∈ [' ', '\t', '\n', '\r', '\x0b', '\x0c']

section Texts

def separatorText : Option Separator → List Char
  | none => []
  | some s => [s.char]

def numberText : Option Numeral → List Char
  | none => []
  | some n => n.digits

def Qualifier.text {L : Type} (labelText : L → List Char) (q : Qualifier L) : List Char :=
  separatorText q.lead ++ (labelText q.label ++ (separatorText q.trail ++ numberText q.number))

def Post.text : Post → List Char
  | .implicit n => '-' :: n.digits
  | .labelled q => q.text PostLabel.text

def Suffix.text (x : Suffix) : List Char :=
  (x.pre.map (Qualifier.text PreLabel.text)).getD [] ++ ((x.post.map Post.text).getD [] ++
    (x.dev.map (Qualifier.text DevLabel.text)).getD [])

def epochText : Option Numeral → List Char
  | none => []
  | some n => n.digits ++ ['!']

def releaseText (major : Numeral) (minor : List Numeral) : List Char :=
  major.digits ++ minor.flatMap fun n => '.' :: n.digits

def localText : Option (Segment × List (Separator × Segment)) → List Char
  | none => []
  | some (first, rest) =>
    '+' :: (first.chars ++ rest.flatMap fun part => part.1.char :: part.2.chars)

namespace Spelling
variable (a : Spelling)

def publicText : List Char := epochText a.epoch ++ (releaseText a.major a.minor ++ a.suffix.text)

/-- The version without the white space around it. -/
def core : List Char := (if a.v then ['v'] else []) ++ (a.publicText ++ localText a.localSegments)

def text : List Char := a.before ++ (a.core ++ a.after)

end Spelling

end Texts

section Meaning

inductive LocalKey where
  | number (n : ℕ)
  | letters (cs : List Char)
  deriving DecidableEq, Repr

/-- A segment of digits counts as a number. -/
def Segment.key (s : Segment) : LocalKey :=
  if s.chars.all Char.isDigit then .number (Nat.ofDigitChars 10 s.chars 0) else .letters s.chars

/-- What two spellings of the same version have in common. -/
@[ext]
structure Version where
  epoch : ℕ
  release : List ℕ
  pre : Option (PreLetter × ℕ)
  post : Option ℕ
  dev : Option ℕ
  localKeys : Option (List LocalKey)
  deriving DecidableEq, Repr

/-- A label without a number has number `0`. -/
def Qualifier.value {L : Type} (q : Qualifier L) : ℕ := (q.number.map Numeral.value).getD 0

def Post.value : Post → ℕ
  | .implicit n => n.value
  | .labelled q => q.value

def segmentsOf : Segment × List (Separator × Segment) → List Segment
  | (first, rest) => first :: rest.map Prod.snd

namespace Spelling
variable (a : Spelling)

def numbers : List ℕ := a.major.value :: a.minor.map Numeral.value

/-- Trailing zeros of the release do not count. -/
def version : Version where
  epoch := (a.epoch.map Numeral.value).getD 0
  release := a.numbers.rdropWhile (· = 0)
  pre := a.suffix.pre.map fun q => (q.label.letter, q.value)
  post := a.suffix.post.map Post.value
  dev := a.suffix.dev.map Qualifier.value
  localKeys := a.localSegments.map fun parts => (segmentsOf parts).map Segment.key

end Spelling

/-- A text that PEP 440 accepts, in whatever case it is written. -/
structure Written where
  text : List Char
  spelling : Spelling
  spelled : text.map Char.toLower = spelling.text

def Written.version (w : Written) : Version := w.spelling.version

end Meaning

end ArtifactKeeper.Pypi
