import ArtifactKeeper.Rubygems.AliasScan
import ArtifactKeeper.Rubygems.MarshalWriter

/-! The dependencies that are read from the YAML in a gem, with the scan in front of the parser. -/

namespace ArtifactKeeper.Rubygems

/-- `serde_yaml::Value`, with the text that a number is written as. -/
inductive Yaml
  | null
  | bool (b : Bool)
  | number (text : String)
  | string (s : String)
  | sequence (items : List Yaml)
  | mapping (entries : List (Yaml × Yaml))
  | tagged (tag : String) (value : Yaml)

namespace Yaml

def untagRef : Yaml → Yaml
  | tagged _ value => value.untagRef
  | v => v

def asStr (v : Yaml) : Option String :=
  match v.untagRef with
  | string s => some s
  | _ => none

def get (v : Yaml) (key : String) : Option Yaml :=
  match v.untagRef with
  | mapping entries => entries.findSome? fun entry =>
    match entry.1 with
    | string k => if k = key then some entry.2 else none
    | _ => none
  | _ => none

end Yaml

def yamlScalarToString : Yaml → Option String
  | .string s => some s
  | .number text => some text
  | _ => none

/-- `YDep`, where a missing `requirement` has no constraints. -/
structure YDep where
  name : String
  requirements : List (List Yaml)
  depType : Option String

/-- An operator and a version, in a `Gem::Version` or by itself. -/
def constraintText (parts : List Yaml) : Option String :=
  (parts.head?.bind Yaml.asStr).bind fun op =>
    (parts[1]?.bind fun v =>
      ((v.get "version").bind yamlScalarToString).or (yamlScalarToString v)).map fun ver =>
        op ++ " " ++ ver

def YDep.toGemDependency (d : YDep) : GemDependency where
  name := d.name
  requirements :=
    let requirements := ", ".intercalate (d.requirements.filterMap constraintText)
    if requirements = "" then ">= 0" else requirements
  depType := String.ofList ((d.depType.getD "").toList.dropWhile (· == ':'))

/-- `fromStr` is the parser of the third party. -/
def parseGemspecDependencies (fromStr : List Char → Option (List YDep)) (content : List Char) :
    Option (List GemDependency) :=
  if yamlUsesAnchorsOrAliases content then none
  else (fromStr content).map (List.map YDep.toGemDependency)

/-- A dependency is never left without a requirement, and its type is not a Ruby symbol. -/
theorem toGemDependency_wellFormed (d : YDep) :
    d.toGemDependency.requirements ≠ "" ∧ d.toGemDependency.depType.toList.head? ≠ some ':' := by
  constructor
  · simp only [YDep.toGemDependency]
    split_ifs with h
    · decide
    · exact h
  · simp only [YDep.toGemDependency, String.toList_ofList]
    intro h
    have hhead := List.head?_dropWhile_not (· == ':') (d.depType.getD "").toList
    rw [h] at hhead
    simp at hhead

/-- The parser is asked where the scan finds nothing, and nowhere else. -/
theorem parseGemspecDependencies_none_iff (content : List Char) :
    (∀ fromStr, parseGemspecDependencies fromStr content = none) ↔
      yamlUsesAnchorsOrAliases content = true := by
  constructor
  · intro h
    by_contra hscan
    have hparsed := h fun _ => some []
    rw [parseGemspecDependencies, if_neg hscan] at hparsed
    cases hparsed
  · intro hscan fromStr
    rw [parseGemspecDependencies, if_pos hscan]

end ArtifactKeeper.Rubygems
