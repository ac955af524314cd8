import ArtifactKeeper.Pypi.VersionGrammar
import Mathlib.Algebra.Group.Nat.Defs

/-! The canonical text by which the index compares the versions of distributions. -/

namespace ArtifactKeeper.Pypi
open Text

/-- A number of the release that does not fit counts as `0`. -/
def releaseNumber (part : List Char) : ℕ := (parseUnsigned (2 ^ 64) part).getD 0

/-- `while nums.len() > 1 && *nums.last().unwrap() == 0`. -/
def popZeros : List ℕ → List ℕ
  | [] => []
  | n :: nums => n :: nums.rdropWhile (· = 0)

def canonRelease (release : List Char) : List Char :=
  ['.'].intercalate ((popZeros ((release.splitOn '.').map releaseNumber)).map decimal)

/-- The scan for the end of the release: a dot belongs to it if a digit follows. -/
def scanRelease (expectDigit : Bool) : List Char → List Char × List Char
  | [] => ([], [])
  | c :: cs =>
    if c.isDigit then
      let (release, suffix) := scanRelease false cs
      (c :: release, suffix)
    else if c = '.' ∧ expectDigit = false ∧ cs.head?.any Char.isDigit then
      let (release, suffix) := scanRelease true cs
      (c :: release, suffix)
    else ([], c :: cs)

def splitRelease (body : List Char) : Option (List Char × List Char) :=
  if body.head?.any Char.isDigit then some (scanRelease true body) else none

def isVersionSeparator (c : Char) : Bool := c = '.' ∨ c = '-' ∨ c = '_'

/-- The token that ends here, if there is one. -/
def flush (cur : List Char) (tokens : List (List Char)) : List (List Char) :=
  if cur = [] then tokens else cur :: tokens

def tokenizeFrom (cur : List Char) (curDigit : Bool) : List Char → Option (List (List Char))
  | [] => some (flush cur [])
  | c :: cs =>
    if isVersionSeparator c then (tokenizeFrom [] curDigit cs).map (flush cur)
    else if c.isDigit then
      if cur ≠ [] ∧ curDigit = false then (tokenizeFrom [c] true cs).map (flush cur)
      else tokenizeFrom (cur ++ [c]) true cs
    else if c.isAlpha then
      if cur ≠ [] ∧ curDigit = true then (tokenizeFrom [c] false cs).map (flush cur)
      else tokenizeFrom (cur ++ [c]) false cs
    else none

def tokenizeVersion (body : List Char) : Option (List (List Char)) := tokenizeFrom [] false body

inductive Kind where
  | pre (letter : PreLetter)
  | post
  | dev
  deriving DecidableEq, Repr

def kindOf (tok : List Char) : Option Kind :=
  if tok = "a".toList ∨ tok = "alpha".toList then some (.pre .a)
  else if tok = "b".toList ∨ tok = "beta".toList then some (.pre .b)
  else if tok = "c".toList ∨ tok = "rc".toList ∨ tok = "pre".toList ∨ tok = "preview".toList then
    some (.pre .rc)
  else if tok = "post".toList ∨ tok = "rev".toList ∨ tok = "r".toList then some .post
  else if tok = "dev".toList then some .dev
  else none

structure Qualifiers where
  pre : Option (PreLetter × ℕ)
  post : Option ℕ
  dev : Option ℕ
  deriving DecidableEq, Repr

def Qualifiers.set (q : Qualifiers) (n : ℕ) : Kind → Qualifiers
  | .pre letter => { q with pre := some (letter, n) }
  | .post => { q with post := some n }
  | .dev => { q with dev := some n }

/-- The loop over the tokens. A bare number is a post-release if no qualifier is set yet. -/
def readQualifiers : List (List Char) → Qualifiers → Option Qualifiers
  | [], q => some q
  | tok :: tokens, q =>
    if tok.all Char.isDigit ∧ q.pre = none ∧ q.post = none ∧ q.dev = none then
      (parseUnsigned (2 ^ 64) tok).bind fun n => readQualifiers tokens { q with post := some n }
    else
      (kindOf tok).bind fun kind =>
        match tokens with
        | [] => some (q.set 0 kind)
        | number :: rest =>
          if number.all Char.isDigit then
            (parseUnsigned (2 ^ 64) number).bind fun n => readQualifiers rest (q.set n kind)
          else readQualifiers (number :: rest) (q.set 0 kind)

def PreLetter.text : PreLetter → List Char
  | .a => "a".toList
  | .b => "b".toList
  | .rc => "rc".toList

def qualifiersText (q : Qualifiers) : List Char :=
  (q.pre.map fun p => p.1.text ++ decimal p.2).getD [] ++
    (q.post.map fun n => ".post".toList ++ decimal n).getD [] ++
    (q.dev.map fun n => ".dev".toList ++ decimal n).getD []

/-- The segments of the local version that are not empty. -/
def canonLocal (localVersion : List Char) : List Char :=
  let parts := (localVersion.splitOnP isVersionSeparator).filter (· ≠ [])
  if parts = [] then [] else '+' :: (['.'].intercalate parts).map Char.toLower

/-- The epoch without leading zeros and what stands behind it. -/
def splitEpoch (lower : List Char) : Option (List Char × List Char) :=
  match splitOnce '!' lower with
  | some (e, r) =>
    if e = [] ∨ e.all Char.isDigit = false then none
    else
      let epoch := e.dropWhile (· = '0')
      some (if epoch = [] then ['0'] else epoch, r)
  | none => some (['0'], lower)

def canonicalVersion (version : List Char) : Option (List Char) :=
  let v := (trim version).dropWhile fun c => c = 'v' ∨ c = 'V'
  if v = [] then none
  else
    let (publicPart, localPart) := match splitOnce '+' v with
      | some (p, l) => (p, some l)
      | none => (v, none)
    (splitEpoch (publicPart.map Char.toLower)).bind fun (epoch, rest) =>
      (splitRelease rest).bind fun (release, suffix) =>
        (tokenizeVersion suffix).bind fun tokens =>
          (readQualifiers tokens ⟨none, none, none⟩).bind fun q =>
            some (epoch ++ ('!' :: canonRelease release) ++ qualifiersText q ++
              (localPart.map canonLocal).getD [])

end ArtifactKeeper.Pypi
