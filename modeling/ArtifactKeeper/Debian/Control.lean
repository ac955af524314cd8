import ArtifactKeeper.Debian.Release
import Mathlib.Data.List.AList

/-! Control files of Debian packages: fields with continuation lines, read into the known fields and
the rest, and written back field by field. -/

namespace ArtifactKeeper.Debian

open Text

section Scan
variable {α : Type}

/-- What is read so far, and the field that is open with its value up to here. -/
structure FieldScan (α : Type) where
  acc : α
  current : Option (List Char × List Char)

variable (set : α → List Char → List Char → α)

def FieldScan.save (scan : FieldScan α) : α :=
  match scan.current with
  | some (key, value) => set scan.acc key value
  | none => scan.acc

def FieldScan.line (scan : FieldScan α) (line : List Char) : FieldScan α :=
  if isIndented line then
    { scan with
      current := scan.current.map fun field => (field.1, field.2 ++ '\n' :: trimStart line) }
  else
    match splitOnce ':' line with
    | some (key, rest) => ⟨scan.save set, some (key, trim rest)⟩
    | none => scan

/-- The loop of `parse_control`, for any way to keep a field. -/
def scanFields (init : α) (ls : List (List Char)) : α :=
  (ls.foldl (FieldScan.line set) ⟨init, none⟩).save set

/-- The names that a line can start a field with. -/
structure IsName (key : List Char) : Prop where
  noColon : ':' ∉ key
  oneLine : '\n' ∉ key
  margin : isIndented key = false

theorem isName_of_splitOnce {line key rest : List Char} (hline : '\n' ∉ line)
    (hmargin : isIndented line = false) (h : splitOnce ':' line = some (key, rest)) :
    IsName key := by
  obtain ⟨hcolon, rfl⟩ := splitOnce_eq_some_iff.mp h
  refine ⟨hcolon, fun hmem => hline (List.mem_append_left _ hmem), ?_⟩
  cases key with
  | nil => rfl
  | cons c key => exact hmargin

/-- A property that keeping a field preserves holds of all that is read. -/
theorem scanFields_induction {set : α → List Char → List Char → α} {P : α → Prop} {init : α}
    {ls : List (List Char)} (hls : ∀ line ∈ ls, '\n' ∉ line) (hinit : P init)
    (hset : ∀ acc key value, P acc → IsName key → P (set acc key value)) :
    P (scanFields set init ls) := by
  suffices hrun : ∀ scan : FieldScan α, P scan.acc → (∀ field ∈ scan.current, IsName field.1) →
      P ((ls.foldl (FieldScan.line set) scan).save set) from hrun ⟨init, none⟩ hinit (by simp)
  have hsave : ∀ scan : FieldScan α, P scan.acc → (∀ field ∈ scan.current, IsName field.1) →
      P (scan.save set) := by
    intro scan hacc hcurrent
    rw [FieldScan.save]
    split
    · rename_i key value heq
      exact hset _ _ _ hacc (hcurrent _ heq)
    · exact hacc
  induction ls with
  | nil => exact hsave
  | cons line ls ih =>
    obtain ⟨hline, hls⟩ := List.forall_mem_cons.mp hls
    intro scan hacc hcurrent
    rw [List.foldl_cons, FieldScan.line]
    split
    · refine ih hls _ hacc fun field hfield => ?_
      obtain ⟨old, hold, rfl⟩ := Option.mem_map.mp hfield
      exact hcurrent old hold
    · rename_i hmargin
      split
      · rename_i key rest hsplit
        refine ih hls _ (hsave scan hacc hcurrent) fun field hfield => ?_
        obtain rfl := Option.mem_some_iff.mp hfield
        exact isName_of_splitOnce hline (by simpa using hmargin) hsplit
      · exact ih hls _ hacc hcurrent

end Scan

section Parse

structure DebControl where
  package : List Char
  version : List Char
  architecture : List Char
  maintainer : Option (List Char)
  installedSize : Option ℕ
  depends : Option (List (List Char))
  preDepends : Option (List (List Char))
  recommends : Option (List (List Char))
  suggests : Option (List (List Char))
  conflicts : Option (List (List Char))
  provides : Option (List (List Char))
  replaces : Option (List (List Char))
  section_ : Option (List Char)
  priority : Option (List Char)
  homepage : Option (List Char)
  description : Option (List Char)
  source : Option (List Char)
  extra : AList fun _ : List Char => List Char

def DebControl.default : DebControl where
  package := []
  version := []
  architecture := []
  maintainer := none
  installedSize := none
  depends := none
  preDepends := none
  recommends := none
  suggests := none
  conflicts := none
  provides := none
  replaces := none
  section_ := none
  priority := none
  homepage := none
  description := none
  source := none
  extra := ∅

def parseDependencyList (value : List Char) : List (List Char) :=
  ((value.splitOn ',').map trim).filter (!·.isEmpty)

variable (toLowercase : List Char → List Char)

def setControlField (control : DebControl) (key value : List Char) : DebControl :=
  match String.ofList (toLowercase key) with
  | "package" => { control with package := value }
  | "version" => { control with version := value }
  | "architecture" => { control with architecture := value }
  | "maintainer" => { control with maintainer := some value }
  | "installed-size" => { control with installedSize := parseUnsigned (2 ^ 64) value }
  | "depends" => { control with depends := some (parseDependencyList value) }
  | "pre-depends" => { control with preDepends := some (parseDependencyList value) }
  | "recommends" => { control with recommends := some (parseDependencyList value) }
  | "suggests" => { control with suggests := some (parseDependencyList value) }
  | "conflicts" => { control with conflicts := some (parseDependencyList value) }
  | "provides" => { control with provides := some (parseDependencyList value) }
  | "replaces" => { control with replaces := some (parseDependencyList value) }
  | "section" => { control with section_ := some value }
  | "priority" => { control with priority := some value }
  | "homepage" => { control with homepage := some value }
  | "description" => { control with description := some value }
  | "source" => { control with source := some value }
  | _ => { control with extra := control.extra.insert key value }

def parseControl (content : List Char) : Except String DebControl :=
  let control := scanFields (setControlField toLowercase) .default (lines content)
  if control.package.isEmpty then .error "Control file missing Package field"
  else if control.version.isEmpty then .error "Control file missing Version field"
  else if control.architecture.isEmpty then .error "Control file missing Architecture field"
  else .ok control

/-- The names that `setControlField` knows. -/
def controlNames : List String :=
  ["package", "version", "architecture", "maintainer", "installed-size", "depends", "pre-depends",
    "recommends", "suggests", "conflicts", "provides", "replaces", "section", "priority",
    "homepage", "description", "source"]

/-- What the other fields are called. -/
structure IsExtraName (key : List Char) : Prop extends IsName key where
  unknown : String.ofList (toLowercase key) ∉ controlNames

def ExtraNamed (control : DebControl) : Prop := ∀ key ∈ control.extra, IsExtraName toLowercase key

theorem extraNamed_setControlField {control : DebControl} {key : List Char} (value : List Char)
    (h : ExtraNamed toLowercase control) (hkey : IsName key) :
    ExtraNamed toLowercase (setControlField toLowercase control key value) := by
  unfold setControlField
  split
  case h_18 h1 h2 h3 h4 h5 h6 h7 h8 h9 h10 h11 h12 h13 h14 h15 h16 h17 =>
    intro k hk
    rcases (AList.mem_insert _).mp hk with rfl | hk
    · refine ⟨hkey, ?_⟩
      simp only [controlNames, List.mem_cons, List.not_mem_nil, or_false, not_or]
      exact ⟨h1, h2, h3, h4, h5, h6, h7, h8, h9, h10, h11, h12, h13, h14, h15, h16, h17⟩
    · exact h k hk
  all_goals exact h

theorem extraNamed_of_parseControl {content : List Char} {control : DebControl}
    (h : parseControl toLowercase content = .ok control) : ExtraNamed toLowercase control := by
  have hscan : ExtraNamed toLowercase
      (scanFields (setControlField toLowercase) .default (lines content)) := by
    apply scanFields_induction (P := ExtraNamed toLowercase)
      (fun line hline => not_newline_of_mem_lines hline)
    · intro key hkey
      exact absurd hkey (AList.notMem_empty key)
    · intro control key value hcontrol hkey
      exact extraNamed_setControlField toLowercase value hcontrol hkey
  unfold parseControl at h
  dsimp only at h
  split at h
  · cases h
  · split at h
    · cases h
    · split at h
      · cases h
      · cases h
        exact hscan

end Parse

section Write

/-- What `push_control_field` appends. -/
def pushControlField (key value : List Char) : List Char :=
  match lines (normalizeNewlines value) with
  | [] => []
  | first :: rest =>
    key ++ ": ".toList ++ first ++ "\n".toList ++ rest.flatMap fun line =>
      " ".toList ++ (if line.isEmpty then ".".toList else line) ++ "\n".toList

def continuation (line : List Char) : List Char := ' ' :: if line.isEmpty then ['.'] else line

/-- The lines of a field and its value. -/
def fieldLines (field : List Char × List Char) : List (List Char) :=
  match lines (normalizeNewlines field.2) with
  | [] => []
  | first :: rest => (field.1 ++ ':' :: ' ' :: first) :: rest.map continuation

theorem carriage_not_mem_normalizeNewlines (cs : List Char) : '\r' ∉ normalizeNewlines cs := by
  induction cs using normalizeNewlines.induct with
  | case1 => simp [normalizeNewlines]
  | case2 rest ih => simp [normalizeNewlines, ih]
  | case3 rest hnot ih =>
    rw [normalizeNewlines]
    · simp [ih]
    · exact hnot
  | case4 c rest hcrlf hcr ih =>
    rw [normalizeNewlines]
    · have hc : '\r' ≠ c := fun heq => hcr heq.symm
      simp [ih, hc]
    · exact hcrlf
    · exact hcr

theorem normalizeNewlines_eq_nil_iff {cs : List Char} : normalizeNewlines cs = [] ↔ cs = [] := by
  unfold normalizeNewlines
  split <;> simp

theorem fieldLines_eq_nil_iff {field : List Char × List Char} :
    fieldLines field = [] ↔ field.2 = [] := by
  rw [← normalizeNewlines_eq_nil_iff, ← lines_eq_nil_iff, fieldLines]
  split <;> simp_all

theorem carriage_not_mem_of_mem_lines {value line : List Char}
    (h : line ∈ lines (normalizeNewlines value)) : '\r' ∉ line := fun hmem =>
  carriage_not_mem_normalizeNewlines value (mem_of_mem_lines h hmem)

theorem endsLine_pushControlField (key value : List Char) :
    EndsLine (pushControlField key value) := by
  rw [pushControlField]
  split
  · exact .inl rfl
  · exact EndsLine.append (.inr ⟨_, rfl⟩) (.flatMap fun line _ => .inr ⟨_, rfl⟩)

theorem lines_pushControlField {key : List Char} (hkey : IsName key) (value : List Char) :
    lines (pushControlField key value) = fieldLines (key, value) := by
  unfold pushControlField fieldLines
  dsimp only
  cases hlines : lines (normalizeNewlines value) with
  | nil => rfl
  | cons first rest =>
    have hone : ∀ line ∈ first :: rest, '\n' ∉ line ∧ '\r' ∉ line := by
      intro line hline
      rw [← hlines] at hline
      exact ⟨not_newline_of_mem_lines hline, carriage_not_mem_of_mem_lines hline⟩
    obtain ⟨hfirst, hrest⟩ := List.forall_mem_cons.mp hone
    have hbody : lines (rest.flatMap fun line =>
        " ".toList ++ (if line.isEmpty then ".".toList else line) ++ "\n".toList) =
        rest.map continuation := by
      have hends : ∀ line ∈ rest, EndsLine
          (" ".toList ++ (if line.isEmpty then ".".toList else line) ++ "\n".toList) :=
        fun line _ => .inr ⟨_, rfl⟩
      rw [lines_flatMap hends, List.map_eq_flatMap]
      apply List.flatMap_congr
      intro line hline
      obtain ⟨hnl, hcr⟩ := hrest line hline
      have hcontinuation : '\n' ∉ continuation line ∧ '\r' ∉ continuation line := by
        rw [continuation]
        split <;> simp [hnl, hcr]
      rw [← stripCarriage_of_not_mem hcontinuation.2]
      exact lines_line [] hcontinuation.1
    have hnl : '\n' ∉ key ++ ':' :: ' ' :: first := by simp [hkey.oneLine, hfirst.1]
    have hstrip : stripCarriage (key ++ ':' :: ' ' :: first) = key ++ ':' :: ' ' :: first := by
      rw [stripCarriage, if_neg]
      intro hlast
      have hmem : '\r' ∈ ' ' :: first := by
        rw [List.getLast?_append_of_ne_nil _ (by simp), List.getLast?_cons_cons] at hlast
        exact List.mem_of_getLast? hlast
      simp [hfirst.2] at hmem
    dsimp only
    rw [← hbody, ← hstrip, ← lines_line _ hnl]
    simp

end Write

section ReadBack

def keepField (fields : List (List Char × List Char)) (key value : List Char) :
    List (List Char × List Char) := fields ++ [(key, value)]

/-- The fields of a stanza, read the way a control file is. -/
def fieldsOf (ls : List (List Char)) : List (List Char × List Char) := scanFields keepField [] ls

def readValue (value : List Char) : List Char :=
  match lines (normalizeNewlines value) with
  | [] => []
  | first :: rest =>
    trim (' ' :: first) ++ rest.flatMap fun line => '\n' :: trimStart (continuation line)

theorem save_eq (scan : FieldScan (List (List Char × List Char))) :
    scan.save keepField = scan.acc ++ scan.current.toList := by
  obtain ⟨acc, current⟩ := scan
  cases current <;> simp [FieldScan.save, keepField]

theorem foldl_continuation (acc : List (List Char × List Char)) (key value : List Char)
    (rest : List (List Char)) :
    (rest.map continuation).foldl (FieldScan.line keepField) ⟨acc, some (key, value)⟩ =
      ⟨acc, some (key, value ++ rest.flatMap fun line =>
        '\n' :: trimStart (continuation line))⟩ := by
  induction rest generalizing value with
  | nil => simp
  | cons line rest ih =>
    have hindent : isIndented (continuation line) = true := rfl
    rw [List.map_cons, List.foldl_cons, FieldScan.line, if_pos hindent, Option.map_some, ih]
    simp

/-- The lines of a written field close the field before and leave this one open. -/
theorem foldl_fieldLines {field : List Char × List Char} (hname : IsName field.1)
    (hvalue : field.2 ≠ []) (scan : FieldScan (List (List Char × List Char))) :
    (fieldLines field).foldl (FieldScan.line keepField) scan =
      ⟨scan.save keepField, some (field.1, readValue field.2)⟩ := by
  have hne : lines (normalizeNewlines field.2) ≠ [] := by
    rwa [ne_eq, lines_eq_nil_iff, normalizeNewlines_eq_nil_iff]
  obtain ⟨first, rest, hlines⟩ := List.exists_cons_of_ne_nil hne
  have hmargin : isIndented (field.1 ++ ':' :: ' ' :: first) = false := by
    have hindent := hname.margin
    cases hkey : field.1 with
    | nil => rfl
    | cons c key => rw [hkey] at hindent; exact hindent
  rw [fieldLines, readValue, hlines]
  dsimp only
  rw [List.foldl_cons, FieldScan.line, hmargin, if_neg (by decide),
    splitOnce_of_not_mem _ hname.noColon]
  exact foldl_continuation _ _ _ _

def isWritten (field : List Char × List Char) : Bool := !field.2.isEmpty

/-- Reading what was written gives the fields that have a value. -/
theorem fieldsOf_flatMap {fields : List (List Char × List Char)}
    (h : ∀ field ∈ fields, IsName field.1) :
    fieldsOf (fields.flatMap fieldLines) =
      (fields.filter isWritten).map fun field => (field.1, readValue field.2) := by
  suffices hrun : ∀ scan : FieldScan (List (List Char × List Char)),
      ((fields.flatMap fieldLines).foldl (FieldScan.line keepField) scan).save keepField =
        scan.save keepField ++
          (fields.filter isWritten).map fun field => (field.1, readValue field.2) by
    rw [fieldsOf, scanFields, hrun]
    rfl
  induction fields with
  | nil => simp
  | cons field fields ih =>
    obtain ⟨hname, hnames⟩ := List.forall_mem_cons.mp h
    intro scan
    rw [List.flatMap_cons, List.foldl_append, ih hnames, List.filter_cons]
    split
    · rename_i hwritten
      have hvalue : field.2 ≠ [] := by simpa [isWritten] using hwritten
      rw [foldl_fieldLines hname hvalue, save_eq]
      simp
    · rename_i hwritten
      have hvalue : field.2 = [] := by simpa [isWritten] using hwritten
      rw [fieldLines_eq_nil_iff.mpr hvalue]
      rfl

/-- Values that come back as they were: on one line, with no blanks around. -/
structure IsPlain (value : List Char) : Prop where
  ne_nil : value ≠ []
  trimmed : trim value = value
  noNewline : '\n' ∉ value
  noCarriage : '\r' ∉ value

theorem normalizeNewlines_of_not_mem {cs : List Char} (h : '\r' ∉ cs) :
    normalizeNewlines cs = cs := by
  induction cs using normalizeNewlines.induct with
  | case1 => rfl
  | case2 rest ih => simp at h
  | case3 rest hnot ih => simp at h
  | case4 c rest hcrlf hcr ih =>
    rw [normalizeNewlines, ih fun hmem => h (List.mem_cons_of_mem _ hmem)]
    · exact hcrlf
    · exact hcr

theorem lines_normalizeNewlines {value : List Char} (h : IsPlain value) :
    lines (normalizeNewlines value) = [value] := by
  rw [normalizeNewlines_of_not_mem h.noCarriage, lines_of_not_mem h.ne_nil h.noNewline]

theorem trim_space (value : List Char) : trim (' ' :: value) = trim value := by
  have hspace : isWhitespace ' ' = true := by decide
  rw [trim, trim, trimStart, List.dropWhile_cons, if_pos hspace, ← trimStart]

theorem readValue_plain {value : List Char} (h : IsPlain value) : readValue value = value := by
  rw [readValue, lines_normalizeNewlines h]
  dsimp only
  rw [trim_space, h.trimmed]
  simp

end ReadBack

end ArtifactKeeper.Debian
