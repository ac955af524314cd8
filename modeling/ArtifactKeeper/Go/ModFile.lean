import ArtifactKeeper.Auth.Claims
import ArtifactKeeper.Text

/-! The line-based reader of `go.mod` files. -/

namespace ArtifactKeeper.Go

open Text

structure GoDependency where
  path : List Char
  version : List Char
  indirect : Bool
  deriving DecidableEq, Repr

structure GoReplace where
  oldPath : List Char
  oldVersion : Option (List Char)
  newPath : List Char
  newVersion : Option (List Char)
  deriving DecidableEq, Repr

structure GoMod where
  modulePath : List Char := []
  goVersion : Option (List Char) := none
  require : List GoDependency := []
  replace : List GoReplace := []
  exclude : List GoDependency := []
  retract : List (List Char) := []
  deriving DecidableEq, Repr

/-- Two words next to each other that say `// indirect`. -/
def markedIndirect (parts : List (List Char)) : Bool :=
  (parts.zip parts.tail).any fun w => w.1 = "//".toList && w.2 = "indirect".toList

def parseDependencyLine (line : List Char) : Option GoDependency :=
  match splitWhitespace line with
  | path :: version :: rest => some ⟨path, version, markedIndirect (path :: version :: rest)⟩
  | _ => none

/-- `str::split("=>")`. -/
def splitArrow : List Char → List (List Char)
  | '=' :: '>' :: rest => [] :: splitArrow rest
  | c :: rest => (splitArrow rest).modifyHead (c :: ·)
  | [] => [[]]

def parseReplaceLine (line : List Char) : Option GoReplace :=
  match splitArrow line with
  | [old, new] =>
    match splitWhitespace old, splitWhitespace new with
    | oldPath :: oldRest, newPath :: newRest =>
      some ⟨oldPath, oldRest.head?, newPath, newRest.head?⟩
    | _, _ => none
  | _ => none

/-- One turn of the loop of `parse_go_mod`. -/
def parseLine (goMod : GoMod) (line : List Char) : GoMod :=
  let line := trim line
  if line.isEmpty || "//".toList.isPrefixOf line then goMod
  else if let some rest := stripPrefix "module ".toList line then
    { goMod with modulePath := trim rest }
  else if let some rest := stripPrefix "go ".toList line then
    { goMod with goVersion := some (trim rest) }
  else if let some rest := stripPrefix "require ".toList line then
    if ['('].isPrefixOf (trim rest) then goMod
    else { goMod with require := goMod.require ++ (parseDependencyLine (trim rest)).toList }
  else if let some rest := stripPrefix "replace ".toList line then
    { goMod with replace := goMod.replace ++ (parseReplaceLine (trim rest)).toList }
  else if let some rest := stripPrefix "exclude ".toList line then
    { goMod with exclude := goMod.exclude ++ (parseDependencyLine (trim rest)).toList }
  else if let some rest := stripPrefix "retract ".toList line then
    { goMod with retract := goMod.retract ++ [trim rest] }
  -- The inner lines of a block of any kind come here.
  else if !"require".toList.isPrefixOf line && !"replace".toList.isPrefixOf line &&
      !"exclude".toList.isPrefixOf line && !"retract".toList.isPrefixOf line &&
      !")".toList.isPrefixOf line && !"(".toList.isPrefixOf line then
    { goMod with require := goMod.require ++ (parseDependencyLine line).toList }
  else goMod

def parseGoMod (content : List Char) : Except AppError GoMod :=
  let goMod := (lines content).foldl parseLine {}
  if goMod.modulePath.isEmpty then .error (.validation "go.mod missing module declaration")
  else .ok goMod

end ArtifactKeeper.Go
