import ArtifactKeeper.Loop
import ArtifactKeeper.Occurrence
import ArtifactKeeper.Text

/-! The requirements of a hex package, read from the text of its `metadata.config`. -/

namespace ArtifactKeeper.Hex
open Occurrence (find slice)
open ArtifactKeeper.Text (trimStart trim stripPrefix)

structure HexDependency where
  package : List Char
  requirement : List Char
  optional : Bool
  app : Option (List Char)
  repository : Option (List Char)
  deriving DecidableEq, Repr

inductive ErlValue
  | str (s : List Char)
  | bool (b : Bool)
  deriving DecidableEq, Repr

/-- A position in the text, whether it is in a binary, and what the scanner has gathered. -/
structure Scan (σ : Type) where
  i : ℕ
  inString : Bool
  data : σ

/-- The loop of `balanced_end` and of `split_top_level_groups`: binaries are passed over, with the
escapes in them, and `plain` decides on the characters outside. -/
def scan {σ α : Type} (text : List Char) (plain : Char → ℕ → σ → Loop.Round σ α)
    (atEnd : σ → α) : Loop (Scan σ) α where
  step s :=
    match text[s.i]? with
    | none => .done (atEnd s.data)
    | some c =>
      if s.inString then
        if c = '\\' then .again { s with i := s.i + 2 }
        else .again { s with i := s.i + 1, inString := c != '"' }
      else if c = '"' then .again { s with i := s.i + 1, inString := true }
      else
        match plain c s.i s.data with
        | .again data => .again { s with i := s.i + 1, data := data }
        | .done a => .done a
  measure s := text.length - s.i
  descends := by
    intro s s' hstep
    split at hstep
    · cases hstep
    · rename_i c hc
      have hlt : s.i < text.length := (List.getElem?_eq_some_iff.mp hc).1
      split_ifs at hstep
      · cases hstep
        exact Nat.sub_lt_sub_left hlt (Nat.lt_add_of_pos_right Nat.two_pos)
      · cases hstep
        exact Nat.sub_lt_sub_left hlt (Nat.lt_add_of_pos_right Nat.one_pos)
      · cases hstep
        exact Nat.sub_lt_sub_left hlt (Nat.lt_add_of_pos_right Nat.one_pos)
      · split at hstep
        · cases hstep
          exact Nat.sub_lt_sub_left hlt (Nat.lt_add_of_pos_right Nat.one_pos)
        · cases hstep

/-- `balanced_end` outside of a binary; the data is the depth. -/
def onBracket (c : Char) (i : ℕ) (depth : ℤ) : Loop.Round ℤ (Option ℕ) :=
  if c = '{' ∨ c = '[' then .again (depth + 1)
  else if c = '}' ∨ c = ']' then
    if depth - 1 = 0 then .done (some (i + 1))
    else if depth - 1 < 0 then .done none
    else .again (depth - 1)
  else if c = '.' ∧ depth = 0 then .done (some i)
  else .again depth

def balancedEndLoop (s : List Char) : Loop (Scan ℤ) (Option ℕ) := scan s onBracket fun _ => none

/-- The length of the balanced term at the beginning. -/
def balancedEnd (s : List Char) : Option ℕ := (balancedEndLoop s).run ⟨0, false, 0⟩

structure Groups where
  depth : ℤ
  groupStart : Option ℕ
  groups : List (List Char)

/-- `split_top_level_groups` outside of a binary: it counts the square brackets only. -/
def onSquare (text : List Char) (c : Char) (i : ℕ) (g : Groups) :
    Loop.Round Groups (List (List Char)) :=
  if c = '[' then
    .again { g with
      depth := g.depth + 1
      groupStart := if g.depth + 1 = 2 then some i else g.groupStart }
  else if c = ']' then
    if g.depth = 2 then
      match g.groupStart with
      | some s => .again ⟨g.depth - 1, none, g.groups ++ [slice text s (i + 1)]⟩
      | none => .again { g with depth := g.depth - 1 }
    else .again { g with depth := g.depth - 1 }
  else .again g

def splitLoop (listTerm : List Char) : Loop (Scan Groups) (List (List Char)) :=
  scan listTerm (onSquare listTerm) Groups.groups

def splitTopLevelGroups (listTerm : List Char) : List (List Char) :=
  (splitLoop listTerm).run ⟨0, false, 0, none, []⟩

def binaryOpening : List Char := ['<', '<', '"']

def binaryClosing : List Char := ['"', '>', '>']

def parseValue (valueText : List Char) : Option ErlValue :=
  match stripPrefix binaryOpening valueText with
  | some stripped => (find binaryClosing stripped).map fun n => .str (stripped.take n)
  | none =>
    if "true".toList.isPrefixOf valueText then some (.bool true)
    else if "false".toList.isPrefixOf valueText then some (.bool false)
    else none

structure Pairs where
  rest : List Char
  pairs : List (List Char × ErlValue)

def pairOpening : List Char := '{' :: binaryOpening

/-- The loop of `parse_kv_pairs`; what is left begins with the end of the key it has read. -/
def pairsLoop : Loop Pairs (List (List Char × ErlValue)) where
  step s :=
    match find pairOpening s.rest with
    | none => .done s.pairs
    | some idx =>
      let after := s.rest.drop (idx + 4)
      match find binaryClosing after with
      | none => .done s.pairs
      | some keyEnd =>
        let afterKey := after.drop (keyEnd + 3)
        match find [','] afterKey with
        | none => .done s.pairs
        | some comma =>
          let value := parseValue (trimStart (afterKey.drop (comma + 1)))
          .again ⟨s.rest.drop (idx + 4 + keyEnd),
            s.pairs ++ value.toList.map fun v => (after.take keyEnd, v)⟩
  measure s := s.rest.length
  descends := by
    intro s s' hstep
    dsimp only at hstep
    split at hstep
    · cases hstep
    · rename_i idx hidx
      have hfound := (Occurrence.find_eq_some_iff.mp hidx).add_length_le (List.cons_ne_nil _ _)
      have hlen : pairOpening.length = 4 := rfl
      split at hstep
      · cases hstep
      · split at hstep
        · cases hstep
        · cases hstep
          show (s.rest.drop _).length < s.rest.length
          rw [List.length_drop]
          omega

def parseKvPairs (group : List Char) : List (List Char × ErlValue) := pairsLoop.run ⟨group, []⟩

/-- The value of the first pair with the key. -/
def valueOf (key : String) (pairs : List (List Char × ErlValue)) : Option ErlValue :=
  (pairs.find? fun p => p.1 == key.toList).map Prod.snd

def ErlValue.asStr : ErlValue → Option (List Char)
  | .str s => some s
  | .bool _ => none

/-- The dependency of a group; one without a name is skipped. -/
def dependencyOf (pairs : List (List Char × ErlValue)) : Option HexDependency :=
  match (valueOf "name" pairs).bind ErlValue.asStr with
  | none => none
  | some package => some
    { package
      requirement := ((valueOf "requirement" pairs).bind ErlValue.asStr).getD []
      optional := valueOf "optional" pairs == some (.bool true)
      app := (valueOf "app" pairs).bind ErlValue.asStr
      repository := (valueOf "repository" pairs).bind ErlValue.asStr }

def keyNeedle (key : List Char) : List Char := pairOpening ++ (key ++ binaryClosing)

/-- The text of the value behind the first `{<<"key">>`. -/
def extractTermValue (content key : List Char) : Option (List Char) :=
  (find (keyNeedle key) content).bind fun start =>
    let afterKey := start + (keyNeedle key).length
    (find [','] (content.drop afterKey)).bind fun comma =>
      let value := trimStart (content.drop (afterKey + comma + 1))
      (balancedEnd value).map fun n => trim (value.take n)

def parseRequirements (metadataConfig : List Char) : Except String (List HexDependency) :=
  match extractTermValue metadataConfig "requirements".toList with
  | none => .ok []
  | some term =>
    .ok ((splitTopLevelGroups term).filterMap fun group => dependencyOf (parseKvPairs group))

end ArtifactKeeper.Hex
