import ArtifactKeeper.Text
import Mathlib.Data.Finmap

/-! The `Release` document of a hosted Debian distribution, as it is rendered and signed, and the
reader that takes the checksums out of such a document. -/

namespace ArtifactKeeper.Debian

open Text

/-- A path to its digest and its size. -/
abbrev ChecksumTable := Finmap fun _ : List Char => List Char × ℕ

section Reader

structure ReleaseHash where
  hash : List Char
  size : ℕ
  path : List Char
  deriving DecidableEq, Repr

def parseReleaseHashLine (line : List Char) : Option ReleaseHash := do
  let words := splitWhitespace line
  let hash ← words[0]?
  let size ← words[1]?.bind (parseUnsigned (2 ^ 64))
  let path ← words[2]?
  if words[3]?.isSome || hash.isEmpty || path.isEmpty then none else some ⟨hash, size, path⟩

def isIndented (line : List Char) : Bool := line.head? == some ' ' || line.head? == some '\t'

def isSha256Header (line : List Char) : Bool :=
  eqIgnoreAsciiCase (trimEnd line) "SHA256:".toList

structure ChecksumScan where
  inSha256 : Bool
  out : ChecksumTable

def ChecksumScan.line (scan : ChecksumScan) (line : List Char) : ChecksumScan :=
  if scan.inSha256 && isIndented line then
    match parseReleaseHashLine line with
    | some h => { scan with out := scan.out.insert h.path (h.hash, h.size) }
    | none => scan
  else { scan with inSha256 := isSha256Header line }

def parseReleaseChecksums (releaseText : List Char) : ChecksumTable :=
  ((lines releaseText).foldl ChecksumScan.line ⟨false, ∅⟩).out

end Reader

section Renderer

/-- `normalize_newlines`: every `\r\n` and every other `\r` is an `\n`. -/
def normalizeNewlines : List Char → List Char
  | [] => []
  | '\r' :: '\n' :: rest => '\n' :: normalizeNewlines rest
  | '\r' :: rest => '\n' :: normalizeNewlines rest
  | c :: rest => c :: normalizeNewlines rest

def formatDeb822Description (desc : List Char) : List Char :=
  match lines (normalizeNewlines desc) with
  | [] => []
  | first :: rest =>
    trim first ++ rest.flatMap fun line =>
      let trimmed := trim line
      if trimmed.isEmpty then "\n .".toList else "\n ".toList ++ trimmed

/-- A `Vec<u8>` under the path at which it is served. -/
structure ReleaseFile where
  path : List Char
  bytes : List UInt8
  length_lt : bytes.length < 2 ^ 64

/-- The digests, which are written in hexadecimal, and the format of dates. -/
structure ReleaseFormat (DateTime : Type) where
  calculateMd5 : List UInt8 → List Char
  calculateSha1 : List UInt8 → List Char
  calculateSha256 : List UInt8 → List Char
  formatReleaseDate : DateTime → List Char
  md5_hex : ∀ bytes, ∀ c ∈ calculateMd5 bytes, c.isAlphanum
  sha1_hex : ∀ bytes, ∀ c ∈ calculateSha1 bytes, c.isAlphanum
  sha256_hex : ∀ bytes, ∀ c ∈ calculateSha256 bytes, c.isAlphanum
  sha256_ne_nil : ∀ bytes, calculateSha256 bytes ≠ []
  date_oneLine : ∀ date, '\n' ∉ formatReleaseDate date

structure ReleaseRenderInput (DateTime : Type) where
  origin : List Char
  label : List Char
  distribution : List Char
  version : Option (List Char)
  description : Option (List Char)
  publishedAt : DateTime
  architectures : List Char
  components : List Char
  files : List ReleaseFile

def releaseHashSection (name : String) (files : List ReleaseFile)
    (hash : List UInt8 → List Char) : List Char :=
  name.toList ++ ":\n".toList ++ files.flatMap fun file =>
    " ".toList ++ hash file.bytes ++ " ".toList ++ decimal file.bytes.length ++ " ".toList ++
      file.path ++ "\n".toList

def releaseField (name : String) (value : List Char) : List Char :=
  name.toList ++ ": ".toList ++ value ++ "\n".toList

variable {DateTime : Type} (fmt : ReleaseFormat DateTime)

def renderReleaseDocument (input : ReleaseRenderInput DateTime) : List Char :=
  releaseField "Origin" input.origin ++
  releaseField "Label" input.label ++
  releaseField "Suite" input.distribution ++
  releaseField "Codename" input.distribution ++
  (match input.version with
    | some ver => releaseField "Version" ver
    | none => []) ++
  (match input.description with
    | some desc => releaseField "Description" (formatDeb822Description desc)
    | none => []) ++
  releaseField "Date" (fmt.formatReleaseDate input.publishedAt) ++
  releaseField "Architectures" input.architectures ++
  releaseField "Components" input.components ++
  releaseHashSection "MD5Sum" input.files fmt.calculateMd5 ++
  releaseHashSection "SHA1" input.files fmt.calculateSha1 ++
  releaseHashSection "SHA256" input.files fmt.calculateSha256

/-- What the document is to vouch for. -/
def serverChecksums (files : List ReleaseFile) : ChecksumTable :=
  files.foldl
    (fun table file => table.insert file.path (fmt.calculateSha256 file.bytes, file.bytes.length)) ∅

end Renderer

section Sections

/-- The entries that the reader takes from lines, inside of a section or outside. -/
def sectionEntries : (inSha256 : Bool) → List (List Char) → List ReleaseHash
  | _, [] => []
  | inSha256, line :: rest =>
    if inSha256 && isIndented line then
      (parseReleaseHashLine line).toList ++ sectionEntries inSha256 rest
    else sectionEntries (isSha256Header line) rest

def insertEntries (table : ChecksumTable) (entries : List ReleaseHash) : ChecksumTable :=
  entries.foldl (fun table h => table.insert h.path (h.hash, h.size)) table

theorem foldl_line (scan : ChecksumScan) (ls : List (List Char)) :
    (ls.foldl ChecksumScan.line scan).out =
      insertEntries scan.out (sectionEntries scan.inSha256 ls) := by
  induction ls generalizing scan with
  | nil => rfl
  | cons line ls ih =>
    rw [List.foldl_cons, ih, ChecksumScan.line, sectionEntries]
    split
    · cases parseReleaseHashLine line <;> simp_all [insertEntries]
    · rfl

theorem parseReleaseChecksums_eq (text : List Char) :
    parseReleaseChecksums text = insertEntries ∅ (sectionEntries false (lines text)) :=
  foldl_line ⟨false, ∅⟩ _

/-- A line at the margin ends whatever section there was. -/
theorem sectionEntries_append {line : List Char} (h : isIndented line = false) (inSha256 : Bool)
    (ls rest : List (List Char)) :
    sectionEntries inSha256 (ls ++ line :: rest) =
      sectionEntries inSha256 ls ++ sectionEntries (isSha256Header line) rest := by
  induction ls generalizing inSha256 with
  | nil => simp [sectionEntries, h]
  | cons l ls ih =>
    rw [List.cons_append, sectionEntries, sectionEntries]
    split
    · rw [ih, List.append_assoc]
    · exact ih _

/-- A document of parts that each start with a line at the margin. -/
theorem sectionEntries_flatten (inSha256 : Bool) {parts : List (List (List Char))}
    (h : ∀ part ∈ parts, ∃ line rest, part = line :: rest ∧ isIndented line = false) :
    sectionEntries inSha256 parts.flatten = parts.flatMap (sectionEntries false) := by
  suffices hpre : ∀ pre, sectionEntries inSha256 (pre ++ parts.flatten) =
      sectionEntries inSha256 pre ++ parts.flatMap (sectionEntries false) by
    simpa [sectionEntries] using hpre []
  induction parts generalizing inSha256 with
  | nil => simp
  | cons part parts ih =>
    intro pre
    obtain ⟨hpart, hparts⟩ := List.forall_mem_cons.mp h
    obtain ⟨line, rest, rfl, hline⟩ := hpart
    rw [List.flatten_cons, List.flatMap_cons, List.cons_append, sectionEntries_append hline,
      ih _ hparts, sectionEntries, hline, Bool.and_false, if_neg (by decide)]

theorem isSha256Header_of_isIndented {line : List Char} (h : isIndented line = true) :
    isSha256Header line = false := by
  rw [isSha256Header, eqIgnoreAsciiCase]
  cases line with
  | nil => cases h
  | cons c rest =>
    cases htrim : trimEnd (c :: rest) with
    | nil => decide
    | cons c' rest' =>
      obtain ⟨-, hc⟩ : rest' <+: rest ∧ c' = c := by
        have hpre := trimEnd_isPrefix (c :: rest)
        rw [htrim, List.cons_prefix_cons] at hpre
        exact ⟨hpre.2, hpre.1⟩
      subst hc
      simp only [isIndented, List.head?_cons, Bool.or_eq_true, beq_iff_eq, Option.some.injEq] at h
      rcases h with rfl | rfl
      · simp
      · simp

theorem sectionEntries_of_isIndented {ls : List (List Char)}
    (h : ∀ line ∈ ls, isIndented line = true) : sectionEntries false ls = [] := by
  induction ls with
  | nil => rfl
  | cons line ls ih =>
    obtain ⟨hline, hls⟩ := List.forall_mem_cons.mp h
    rw [sectionEntries, Bool.false_and, if_neg (by decide), isSha256Header_of_isIndented hline]
    exact ih hls

/-- Lines in which a checksum section has an entry for the path. -/
def NamesPath (ls : List (List Char)) (path : List Char) : Prop :=
  ∃ before header indented line after entry, ls = before ++ header :: indented ++ line :: after ∧
    isSha256Header header = true ∧ (∀ l ∈ indented, isIndented l = true) ∧
    isIndented line = true ∧ parseReleaseHashLine line = some entry ∧ entry.path = path

/-- The lines go on in an open section that has an entry for the path. -/
def ContinuesWith (ls : List (List Char)) (path : List Char) : Prop :=
  ∃ indented line after entry, ls = indented ++ line :: after ∧
    (∀ l ∈ indented, isIndented l = true) ∧ isIndented line = true ∧
    parseReleaseHashLine line = some entry ∧ entry.path = path

theorem namesPath_cons_iff {line path : List Char} {ls : List (List Char)} :
    NamesPath (line :: ls) path ↔
      (isSha256Header line = true ∧ ContinuesWith ls path) ∨ NamesPath ls path := by
  constructor
  · rintro ⟨before, header, indented, l, after, entry, heq, hheader, hrest⟩
    cases before with
    | nil =>
      obtain ⟨rfl, rfl⟩ := List.cons_eq_cons.mp heq
      exact .inl ⟨hheader, indented, l, after, entry, rfl, hrest⟩
    | cons b before =>
      obtain ⟨rfl, rfl⟩ := List.cons_eq_cons.mp heq
      exact .inr ⟨before, header, indented, l, after, entry, rfl, hheader, hrest⟩
  · rintro (⟨hheader, indented, l, after, entry, rfl, hrest⟩ |
      ⟨before, header, indented, l, after, entry, rfl, hrest⟩)
    · exact ⟨[], line, indented, l, after, entry, rfl, hheader, hrest⟩
    · exact ⟨line :: before, header, indented, l, after, entry, rfl, hrest⟩

theorem continuesWith_cons_iff {line path : List Char} {ls : List (List Char)} :
    ContinuesWith (line :: ls) path ↔ isIndented line = true ∧
      ((∃ entry, parseReleaseHashLine line = some entry ∧ entry.path = path) ∨
        ContinuesWith ls path) := by
  constructor
  · rintro ⟨indented, l, after, entry, heq, hindented, hl, hentry⟩
    cases indented with
    | nil =>
      obtain ⟨rfl, rfl⟩ := List.cons_eq_cons.mp heq
      exact ⟨hl, .inl ⟨entry, hentry⟩⟩
    | cons i indented =>
      obtain ⟨rfl, rfl⟩ := List.cons_eq_cons.mp heq
      obtain ⟨hi, hindented⟩ := List.forall_mem_cons.mp hindented
      exact ⟨hi, .inr ⟨indented, l, after, entry, rfl, hindented, hl, hentry⟩⟩
  · rintro ⟨hline, ⟨entry, hentry⟩ | ⟨indented, l, after, entry, rfl, hindented, hrest⟩⟩
    · exact ⟨[], line, ls, entry, rfl, by simp, hline, hentry⟩
    · exact ⟨line :: indented, l, after, entry, rfl, List.forall_mem_cons.mpr ⟨hline, hindented⟩,
        hrest⟩

theorem mem_sectionEntries_iff {ls : List (List Char)} {path : List Char} (inSha256 : Bool) :
    (∃ entry ∈ sectionEntries inSha256 ls, entry.path = path) ↔
      (inSha256 = true ∧ ContinuesWith ls path) ∨ NamesPath ls path := by
  induction ls generalizing inSha256 with
  | nil =>
    simp [sectionEntries, ContinuesWith, NamesPath]
  | cons line ls ih =>
    rw [sectionEntries, namesPath_cons_iff, continuesWith_cons_iff]
    split
    · rename_i hboth
      obtain ⟨rfl, hline⟩ := Bool.and_eq_true_iff.mp hboth
      have hheader := isSha256Header_of_isIndented hline
      simp only [List.mem_append, or_and_right, exists_or, ih, Option.mem_toList, hline, hheader,
        true_and, Bool.false_eq_true, false_and, false_or, or_assoc]
    · rename_i hnot
      rw [ih]
      by_cases hin : inSha256 = true
      · have hline : isIndented line = false := by simpa [hin] using hnot
        simp [hline]
      · simp [hin]

end Sections

section Document

/-- The lines of a value behind its first one. -/
def foldedLines (value : List Char) : List (List Char) := (lines (value ++ ['\n'])).tail

/-- A name that starts a field and neither continues one nor opens the section. -/
def IsFieldName (name : String) : Prop :=
  '\n' ∉ name.toList ∧ isIndented name.toList = false ∧
    ¬ (name.toList ++ [':']).map Char.toLower <+: "sha256:".toList

instance (name : String) : Decidable (IsFieldName name) :=
  inferInstanceAs (Decidable (_ ∧ _ ∧ _))

theorem isSha256Header_field {name : String} (h : IsFieldName name) (first : List Char) :
    isSha256Header (name.toList ++ ": ".toList ++ first) = false := by
  obtain ⟨-, -, hpre⟩ := h
  have htrim : trimEnd (name.toList ++ ": ".toList ++ first) =
      name.toList ++ [':'] ++ trimEnd (' ' :: first) := by
    have hcolon : isWhitespace ':' = false := by decide
    have hcons := trimEnd_append_cons hcolon name.toList (' ' :: first)
    simpa using hcons
  by_contra hheader
  rw [Bool.not_eq_false, isSha256Header, eqIgnoreAsciiCase, beq_iff_eq, htrim,
    List.map_append] at hheader
  have hlower : "SHA256:".toList.map Char.toLower = "sha256:".toList := by decide
  exact hpre ⟨_, hheader.trans hlower⟩

theorem lines_releaseField {name : String} (h : IsFieldName name) (value : List Char) :
    ∃ first, lines (releaseField name value) =
      (name.toList ++ ": ".toList ++ first) :: foldedLines value := by
  have hnl : '\n' ∉ name.toList ++ ": ".toList := by
    simp [h.1]
  have hcr : (name.toList ++ ": ".toList).getLast? ≠ some '\r' := by
    simp
  obtain ⟨first, rest, hvalue, hlines⟩ := lines_prepend value hnl hcr
  refine ⟨first, ?_⟩
  rw [foldedLines, hvalue, List.tail_cons, ← hlines, releaseField, List.append_assoc _ value]
  rfl

theorem isIndented_field {name : String} (h : IsFieldName name) (first : List Char) :
    isIndented (name.toList ++ ": ".toList ++ first) = false := by
  obtain ⟨-, hname, -⟩ := h
  cases hlist : name.toList with
  | nil => rfl
  | cons c cs => rw [hlist] at hname; exact hname

theorem sectionEntries_releaseField {name : String} (h : IsFieldName name) (value : List Char) :
    sectionEntries false (lines (releaseField name value)) =
      sectionEntries false (foldedLines value) := by
  obtain ⟨first, hlines⟩ := lines_releaseField h value
  rw [hlines, sectionEntries, Bool.false_and, if_neg (by decide), isSha256Header_field h]

theorem foldedLines_oneLine {value : List Char} (h : '\n' ∉ value) : foldedLines value = [] := by
  rw [foldedLines, lines_line [] h]
  rfl

theorem isIndented_stripCarriage (rest : List Char) :
    isIndented (stripCarriage (' ' :: rest)) = true := by
  rw [stripCarriage]
  split
  · rename_i hlast
    cases rest with
    | nil => simp at hlast
    | cons c rest => rfl
  · rfl

/-- Lines that are each put behind a line end and a space stay indented. -/
theorem isIndented_foldedLines {first : List Char} {rest : List (List Char)}
    (hfirst : '\n' ∉ first) (hrest : ∀ line ∈ rest, '\n' ∉ line) :
    ∀ line ∈ foldedLines (first ++ rest.flatMap fun line => '\n' :: ' ' :: line),
      isIndented line = true := by
  induction rest generalizing first with
  | nil =>
    rw [List.flatMap_nil, List.append_nil, foldedLines_oneLine hfirst]
    simp
  | cons line rest ih =>
    obtain ⟨hline, hrest⟩ := List.forall_mem_cons.mp hrest
    have hspace : '\n' ∉ ' ' :: line := by simp [hline]
    have htail : ∀ l ∈ foldedLines (' ' :: line ++ rest.flatMap fun line => '\n' :: ' ' :: line),
        isIndented l = true := ih hspace hrest
    obtain ⟨raw, after, heq, hraw⟩ := List.eq_append_cons_of_mem
      (show '\n' ∈ (' ' :: line ++ rest.flatMap fun line => '\n' :: ' ' :: line) ++ ['\n'] by simp)
    have hcs : (first ++ (line :: rest).flatMap fun line => '\n' :: ' ' :: line) ++ ['\n'] =
        first ++ '\n' ::
          ((' ' :: line ++ rest.flatMap fun line => '\n' :: ' ' :: line) ++ ['\n']) := by simp
    rw [foldedLines, hcs, lines_line _ hfirst, List.tail_cons, heq, lines_line after hraw]
    rw [foldedLines, heq, lines_line after hraw, List.tail_cons] at htail
    have hhead : isIndented (stripCarriage raw) = true := by
      cases raw with
      | nil => simp at heq
      | cons c raw =>
        obtain ⟨rfl, -⟩ := List.cons_eq_cons.mp (heq.symm.trans rfl)
        exact isIndented_stripCarriage raw
    exact List.forall_mem_cons.mpr ⟨hhead, htail⟩

theorem sectionEntries_description (desc : List Char) :
    sectionEntries false (foldedLines (formatDeb822Description desc)) = [] := by
  apply sectionEntries_of_isIndented
  rw [formatDeb822Description]
  split
  · rw [foldedLines_oneLine (by simp)]
    simp
  · rename_i first rest hlines
    have htrim : ∀ line ∈ lines (normalizeNewlines desc), '\n' ∉ trim line := by
      intro line hline hmem
      exact not_newline_of_mem_lines hline (trim_subset line hmem)
    rw [hlines] at htrim
    obtain ⟨hfirst, hrest⟩ := List.forall_mem_cons.mp htrim
    have hbody : (rest.flatMap fun line =>
        if (trim line).isEmpty then "\n .".toList else "\n ".toList ++ trim line) =
        (rest.map fun line => if (trim line).isEmpty then ['.'] else trim line).flatMap
          fun line => '\n' :: ' ' :: line := by
      rw [List.flatMap_map]
      congr 1
      funext line
      split <;> rfl
    dsimp only
    rw [hbody]
    apply isIndented_foldedLines hfirst
    intro line hline
    obtain ⟨l, hl, rfl⟩ := List.mem_map.mp hline
    split
    · decide
    · exact hrest l hl

variable {DateTime : Type} (fmt : ReleaseFormat DateTime)

def hashLine (hash : List UInt8 → List Char) (file : ReleaseFile) : List Char :=
  ' ' :: hash file.bytes ++ ' ' :: decimal file.bytes.length ++ ' ' :: file.path

theorem lines_releaseHashSection {name : String} {files : List ReleaseFile}
    {hash : List UInt8 → List Char} (hname : '\n' ∉ name.toList)
    (hline : ∀ file ∈ files, '\n' ∉ hashLine hash file) :
    lines (releaseHashSection name files hash) =
      (name.toList ++ [':']) :: files.map fun file => stripCarriage (hashLine hash file) := by
  have hfiles : lines (files.flatMap fun file => " ".toList ++ hash file.bytes ++ " ".toList ++
      decimal file.bytes.length ++ " ".toList ++ file.path ++ "\n".toList) =
      files.map fun file => stripCarriage (hashLine hash file) := by
    induction files with
    | nil => rfl
    | cons file files ih =>
      obtain ⟨hfile, hfiles⟩ := List.forall_mem_cons.mp hline
      rw [List.map_cons, ← ih hfiles, ← lines_line _ hfile, List.flatMap_cons]
      simp [hashLine]
  have hheader : '\n' ∉ name.toList ++ [':'] := by simp [hname]
  have hstrip : stripCarriage (name.toList ++ [':']) = name.toList ++ [':'] := by
    simp [stripCarriage]
  rw [← hfiles, ← hstrip, ← lines_line _ hheader, releaseHashSection]
  simp

/-- A path that the reader can take for one word. -/
def IsWord (path : List Char) : Prop := path ≠ [] ∧ ∀ c ∈ path, isWhitespace c = false

theorem isWhitespace_decimal (n : ℕ) : ∀ c ∈ decimal n, isWhitespace c = false := by
  intro c hc
  apply isWhitespace_of_isAlphanum
  simp [Char.isAlphanum, isDigit_of_mem_decimal hc]

theorem not_newline_of_isWhitespace {cs : List Char} (h : ∀ c ∈ cs, isWhitespace c = false) :
    '\n' ∉ cs := by
  intro hmem
  exact absurd (h _ hmem) (by decide)

theorem not_newline_hashLine {hash : List UInt8 → List Char} {file : ReleaseFile}
    (hhash : ∀ c ∈ hash file.bytes, isWhitespace c = false) (hpath : IsWord file.path) :
    '\n' ∉ hashLine hash file := by
  have h₁ := not_newline_of_isWhitespace hhash
  have h₂ := not_newline_of_isWhitespace (isWhitespace_decimal file.bytes.length)
  have h₃ := not_newline_of_isWhitespace hpath.2
  simp [hashLine, h₁, h₂, h₃]

/-- A section with another name is skipped. -/
theorem sectionEntries_releaseHashSection {name : String} {files : List ReleaseFile}
    {hash : List UInt8 → List Char} (hname : '\n' ∉ name.toList)
    (hheader : isSha256Header (name.toList ++ [':']) = false)
    (hline : ∀ file ∈ files, '\n' ∉ hashLine hash file) :
    sectionEntries false (lines (releaseHashSection name files hash)) = [] := by
  rw [lines_releaseHashSection hname hline, sectionEntries, Bool.false_and, if_neg (by decide),
    hheader]
  apply sectionEntries_of_isIndented
  intro line hmem
  obtain ⟨file, -, rfl⟩ := List.mem_map.mp hmem
  exact isIndented_stripCarriage _

def releaseHash (file : ReleaseFile) : ReleaseHash :=
  ⟨fmt.calculateSha256 file.bytes, file.bytes.length, file.path⟩

theorem sha256_isWord (bytes : List UInt8) : IsWord (fmt.calculateSha256 bytes) :=
  ⟨fmt.sha256_ne_nil bytes, fun c hc => isWhitespace_of_isAlphanum (fmt.sha256_hex bytes c hc)⟩

theorem parseReleaseHashLine_hashLine {file : ReleaseFile} (hpath : IsWord file.path) :
    parseReleaseHashLine (stripCarriage (hashLine fmt.calculateSha256 file)) =
      some (releaseHash fmt file) := by
  obtain ⟨hsha, hshaw⟩ := sha256_isWord fmt file.bytes
  obtain ⟨hne, hword⟩ := hpath
  have hstrip : stripCarriage (hashLine fmt.calculateSha256 file) =
      hashLine fmt.calculateSha256 file := by
    rw [stripCarriage, if_neg]
    rw [hashLine, List.getLast?_append_of_ne_nil _ (by simp), List.getLast?_cons_of_ne_nil hne]
    intro hlast
    exact absurd (hword _ (List.mem_of_getLast? hlast)) (by decide)
  have hwords : splitWhitespace (hashLine fmt.calculateSha256 file) =
      [fmt.calculateSha256 file.bytes, decimal file.bytes.length, file.path] := by
    have hspace : isWhitespace ' ' = true := by decide
    rw [hashLine, List.cons_append, List.cons_append, splitWhitespace_cons _ hspace,
      List.append_assoc, List.cons_append, splitWhitespace_word_cons _ hsha hshaw hspace,
      splitWhitespace_word_cons _ (decimal_ne_nil _) (isWhitespace_decimal _) hspace,
      splitWhitespace_word hne hword]
  rw [hstrip, parseReleaseHashLine, hwords]
  simp [-Nat.reducePow, parseUnsigned_decimal file.length_lt, hsha, hne, releaseHash]

theorem sectionEntries_sha256 {files : List ReleaseFile}
    (h : ∀ file ∈ files, IsWord file.path) :
    sectionEntries false (lines (releaseHashSection "SHA256" files fmt.calculateSha256)) =
      files.map (releaseHash fmt) := by
  have hline : ∀ file ∈ files, '\n' ∉ hashLine fmt.calculateSha256 file := fun file hfile =>
    not_newline_hashLine (sha256_isWord fmt file.bytes).2 (h file hfile)
  rw [lines_releaseHashSection (by decide) hline, sectionEntries, Bool.false_and,
    if_neg (by decide), show isSha256Header ("SHA256".toList ++ [':']) = true by decide]
  induction files with
  | nil => rfl
  | cons file files ih =>
    obtain ⟨hfile, hfiles⟩ := List.forall_mem_cons.mp h
    rw [List.map_cons, sectionEntries, hashLine, List.cons_append, List.cons_append,
      isIndented_stripCarriage]
    rw [← List.cons_append, ← List.cons_append, ← hashLine,
      parseReleaseHashLine_hashLine fmt hfile]
    simp [ih hfiles fun file hfile => hline file (List.mem_cons_of_mem _ hfile)]

def documentParts (input : ReleaseRenderInput DateTime) : List (List Char) :=
  [releaseField "Origin" input.origin, releaseField "Label" input.label,
    releaseField "Suite" input.distribution, releaseField "Codename" input.distribution] ++
  input.version.toList.map (releaseField "Version") ++
  input.description.toList.map (fun desc =>
    releaseField "Description" (formatDeb822Description desc)) ++
  [releaseField "Date" (fmt.formatReleaseDate input.publishedAt),
    releaseField "Architectures" input.architectures, releaseField "Components" input.components,
    releaseHashSection "MD5Sum" input.files fmt.calculateMd5,
    releaseHashSection "SHA1" input.files fmt.calculateSha1,
    releaseHashSection "SHA256" input.files fmt.calculateSha256]

theorem renderReleaseDocument_eq (input : ReleaseRenderInput DateTime) :
    renderReleaseDocument fmt input = (documentParts fmt input).flatten := by
  rw [renderReleaseDocument, documentParts]
  cases input.version <;> cases input.description <;> simp

/-- The values that stand in the document as they are, the distribution as suite and codename. -/
def headerValues (input : ReleaseRenderInput DateTime) : List (List Char) :=
  [input.origin, input.label, input.distribution, input.distribution] ++ input.version.toList ++
    [input.architectures, input.components]

/-- What a part must be like for the reader to take it by itself. -/
def IsPart (part : List Char) : Prop :=
  EndsLine part ∧ ∃ line rest, lines part = line :: rest ∧ isIndented line = false

theorem isPart_releaseField {name : String} (h : IsFieldName name) (value : List Char) :
    IsPart (releaseField name value) := by
  obtain ⟨first, hlines⟩ := lines_releaseField h value
  exact ⟨.inr ⟨_, rfl⟩, _, _, hlines, isIndented_field h first⟩

theorem isPart_releaseHashSection {name : String} {files : List ReleaseFile}
    {hash : List UInt8 → List Char} (hname : '\n' ∉ name.toList)
    (hindent : isIndented (name.toList ++ [':']) = false)
    (hline : ∀ file ∈ files, '\n' ∉ hashLine hash file) :
    IsPart (releaseHashSection name files hash) := by
  refine ⟨?_, _, _, lines_releaseHashSection hname hline, hindent⟩
  have hheader : EndsLine (name.toList ++ ":\n".toList) := .inr ⟨name.toList ++ [':'], by simp⟩
  exact hheader.append (.flatMap fun file _ => .inr ⟨_, rfl⟩)

theorem sectionEntries_parts {parts : List (List Char)} (h : ∀ part ∈ parts, IsPart part) :
    sectionEntries false (lines parts.flatten) =
      parts.flatMap fun part => sectionEntries false (lines part) := by
  have hlines : lines parts.flatten = (parts.map lines).flatten := by
    rw [← List.flatMap_id]
    exact lines_flatMap fun part hpart => (h part hpart).1
  rw [hlines, sectionEntries_flatten, List.flatMap_map]
  intro part hpart
  obtain ⟨part, hmem, rfl⟩ := List.mem_map.mp hpart
  exact (h part hmem).2

/-- The reader finds the entries of the server and whatever the values bring along. -/
theorem sectionEntries_render {input : ReleaseRenderInput DateTime}
    (h : ∀ file ∈ input.files, IsWord file.path) :
    sectionEntries false (lines (renderReleaseDocument fmt input)) =
      ((headerValues input).flatMap fun value => sectionEntries false (foldedLines value)) ++
        input.files.map (releaseHash fmt) := by
  have hmd5 : ∀ file ∈ input.files, '\n' ∉ hashLine fmt.calculateMd5 file := fun file hfile =>
    not_newline_hashLine (fun c hc => isWhitespace_of_isAlphanum (fmt.md5_hex _ c hc))
      (h file hfile)
  have hsha1 : ∀ file ∈ input.files, '\n' ∉ hashLine fmt.calculateSha1 file := fun file hfile =>
    not_newline_hashLine (fun c hc => isWhitespace_of_isAlphanum (fmt.sha1_hex _ c hc))
      (h file hfile)
  have hsha256 : ∀ file ∈ input.files, '\n' ∉ hashLine fmt.calculateSha256 file :=
    fun file hfile => not_newline_hashLine (sha256_isWord fmt file.bytes).2 (h file hfile)
  have hparts : ∀ part ∈ documentParts fmt input, IsPart part := by
    simp only [documentParts, List.mem_append, List.mem_cons, List.not_mem_nil, or_false,
      List.mem_map]
    rintro part (((((rfl | rfl | rfl | rfl) | ⟨ver, -, rfl⟩) | ⟨desc, -, rfl⟩) |
      (rfl | rfl | rfl | rfl | rfl | rfl)))
    any_goals exact isPart_releaseField (by decide) _
    · exact isPart_releaseHashSection (by decide) (by decide) hmd5
    · exact isPart_releaseHashSection (by decide) (by decide) hsha1
    · exact isPart_releaseHashSection (by decide) (by decide) hsha256
  have hdate := foldedLines_oneLine (fmt.date_oneLine input.publishedAt)
  have hversion : (input.version.toList.flatMap fun ver =>
      sectionEntries false (lines (releaseField "Version" ver))) =
      input.version.toList.flatMap fun ver => sectionEntries false (foldedLines ver) := by
    congr 1
    funext ver
    exact sectionEntries_releaseField (by decide) ver
  have hdescription : (input.description.toList.flatMap fun desc => sectionEntries false
      (lines (releaseField "Description" (formatDeb822Description desc)))) = [] := by
    rw [List.flatMap_eq_nil_iff]
    intro desc _
    rw [sectionEntries_releaseField (by decide), sectionEntries_description]
  rw [renderReleaseDocument_eq, sectionEntries_parts hparts, documentParts, headerValues]
  simp only [List.flatMap_append, List.flatMap_cons, List.flatMap_nil, List.append_nil,
    List.flatMap_map, hversion, hdescription, sectionEntries_sha256 fmt h,
    sectionEntries_releaseHashSection (show '\n' ∉ "MD5Sum".toList by decide) (by decide) hmd5,
    sectionEntries_releaseHashSection (show '\n' ∉ "SHA1".toList by decide) (by decide) hsha1,
    sectionEntries_releaseField (show IsFieldName "Origin" by decide),
    sectionEntries_releaseField (show IsFieldName "Label" by decide),
    sectionEntries_releaseField (show IsFieldName "Suite" by decide),
    sectionEntries_releaseField (show IsFieldName "Codename" by decide),
    sectionEntries_releaseField (show IsFieldName "Date" by decide),
    sectionEntries_releaseField (show IsFieldName "Architectures" by decide),
    sectionEntries_releaseField (show IsFieldName "Components" by decide), hdate]
  simp [sectionEntries]

end Document

section Exactness

theorem mem_insertEntries {table : ChecksumTable} {entries : List ReleaseHash} {path : List Char} :
    path ∈ insertEntries table entries ↔ path ∈ table ∨ ∃ entry ∈ entries, entry.path = path := by
  induction entries generalizing table with
  | nil => simp [insertEntries]
  | cons entry entries ih =>
    have hcons : insertEntries table (entry :: entries) =
        insertEntries (table.insert entry.path (entry.hash, entry.size)) entries := rfl
    rw [hcons, ih, Finmap.mem_insert, List.exists_mem_cons_iff, or_assoc, or_left_comm,
      @eq_comm _ path]

/-- What was there before under a path does not matter once the path is inserted. -/
theorem lookup_insertEntries {table table' : ChecksumTable} {entries : List ReleaseHash}
    {path : List Char} (h : (∃ entry ∈ entries, entry.path = path) ∨
      table.lookup path = table'.lookup path) :
    (insertEntries table entries).lookup path = (insertEntries table' entries).lookup path := by
  induction entries generalizing table table' with
  | nil =>
    rcases h with ⟨entry, hentry, -⟩ | h
    · cases hentry
    · exact h
  | cons entry entries ih =>
    apply ih
    by_cases hpath : path = entry.path
    · right
      rw [hpath, Finmap.lookup_insert, Finmap.lookup_insert]
    · rw [Finmap.lookup_insert_of_ne _ hpath, Finmap.lookup_insert_of_ne _ hpath]
      rcases h with ⟨e, he, heq⟩ | h
      · rcases List.mem_cons.mp he with rfl | he
        · exact absurd heq.symm hpath
        · exact .inl ⟨e, he, heq⟩
      · exact .inr h

theorem insertEntries_append_eq_iff {before entries : List ReleaseHash} :
    insertEntries ∅ (before ++ entries) = insertEntries ∅ entries ↔
      ∀ path, (∃ entry ∈ before, entry.path = path) → ∃ entry ∈ entries, entry.path = path := by
  have happend : insertEntries ∅ (before ++ entries) =
      insertEntries (insertEntries ∅ before) entries := List.foldl_append
  rw [happend]
  constructor
  · rintro heq path hbefore
    have hmem : path ∈ insertEntries (insertEntries ∅ before) entries :=
      mem_insertEntries.mpr (.inl (mem_insertEntries.mpr (.inr hbefore)))
    rw [heq] at hmem
    exact (mem_insertEntries.mp hmem).resolve_left Finmap.notMem_empty
  · intro h
    apply Finmap.ext_lookup
    intro path
    apply lookup_insertEntries
    by_cases hbefore : ∃ entry ∈ before, entry.path = path
    · exact .inl (h path hbefore)
    · right
      have hnot : path ∉ insertEntries ∅ before := fun hmem =>
        hbefore ((mem_insertEntries.mp hmem).resolve_left Finmap.notMem_empty)
      rw [Finmap.lookup_eq_none.mpr hnot, Finmap.lookup_empty]

theorem path_isWord_of_parseReleaseHashLine {line : List Char} {entry : ReleaseHash}
    (h : parseReleaseHashLine line = some entry) : IsWord entry.path := by
  simp only [parseReleaseHashLine, Option.bind_eq_bind, Option.bind_eq_some_iff] at h
  obtain ⟨hash, -, size, -, path, hpath, hret⟩ := h
  split at hret
  · cases hret
  · cases hret
    exact isWhitespace_of_mem_splitWhitespace (List.mem_of_getElem? hpath)

theorem isWord_of_mem_sectionEntries {inSha256 : Bool} {ls : List (List Char)} {entry : ReleaseHash}
    (h : entry ∈ sectionEntries inSha256 ls) : IsWord entry.path := by
  induction ls generalizing inSha256 with
  | nil => cases h
  | cons line ls ih =>
    rw [sectionEntries] at h
    split at h
    · rcases List.mem_append.mp h with h | h
      · exact path_isWord_of_parseReleaseHashLine (Option.mem_toList.mp h)
      · exact ih h
    · exact ih h

variable {DateTime : Type} (fmt : ReleaseFormat DateTime)

theorem serverChecksums_eq (files : List ReleaseFile) :
    serverChecksums fmt files = insertEntries ∅ (files.map (releaseHash fmt)) := by
  rw [serverChecksums, insertEntries, List.foldl_map]
  rfl

/-- The document vouches for the files of the server and nothing else exactly when their paths can
be read back and no value smuggles in a section with an entry for another path. -/
theorem releaseChecksums_exact_iff (input : ReleaseRenderInput DateTime) :
    parseReleaseChecksums (renderReleaseDocument fmt input) = serverChecksums fmt input.files ↔
      (∀ file ∈ input.files, IsWord file.path) ∧
        ∀ value ∈ headerValues input, ∀ path, NamesPath (foldedLines value) path →
          ∃ file ∈ input.files, file.path = path := by
  have hfiles : ∀ path, (∃ entry ∈ input.files.map (releaseHash fmt), entry.path = path) ↔
      ∃ file ∈ input.files, file.path = path := by
    intro path
    simp [releaseHash]
  have hiff : (∀ file ∈ input.files, IsWord file.path) →
      (parseReleaseChecksums (renderReleaseDocument fmt input) = serverChecksums fmt input.files ↔
        ∀ value ∈ headerValues input, ∀ path, NamesPath (foldedLines value) path →
          ∃ file ∈ input.files, file.path = path) := by
    intro hpaths
    rw [parseReleaseChecksums_eq, sectionEntries_render fmt hpaths, serverChecksums_eq,
      insertEntries_append_eq_iff]
    simp only [hfiles]
    constructor
    · intro h value hvalue path hnames
      obtain ⟨entry, hentry, hpath⟩ := (mem_sectionEntries_iff false).mpr (.inr hnames)
      exact h path ⟨entry, List.mem_flatMap.mpr ⟨value, hvalue, hentry⟩, hpath⟩
    · rintro h path ⟨entry, hentry, hpath⟩
      obtain ⟨value, hvalue, hentry⟩ := List.mem_flatMap.mp hentry
      have hnames := (mem_sectionEntries_iff false).mp ⟨entry, hentry, hpath⟩
      exact h value hvalue path (hnames.resolve_left fun hin => by cases hin.1)
  constructor
  · intro heq
    -- every path that the reader ever returns is one word
    have hpaths : ∀ file ∈ input.files, IsWord file.path := by
      intro file hfile
      have hmem : file.path ∈ serverChecksums fmt input.files := by
        rw [serverChecksums_eq, mem_insertEntries]
        exact .inr ((hfiles _).mpr ⟨file, hfile, rfl⟩)
      rw [← heq, parseReleaseChecksums_eq, mem_insertEntries] at hmem
      obtain ⟨entry, hentry, hpath⟩ := hmem.resolve_left Finmap.notMem_empty
      rw [← hpath]
      exact isWord_of_mem_sectionEntries hentry
    exact ⟨hpaths, (hiff hpaths).mp heq⟩
  · rintro ⟨hpaths, hvalues⟩
    exact (hiff hpaths).mpr hvalues

/-- The digests of the empty file. -/
def emptyFileFormat : ReleaseFormat Unit where
  calculateMd5 _ := "d41d8cd98f00b204e9800998ecf8427e".toList
  calculateSha1 _ := "da39a3ee5e6b4b0d3255bfef95601890afd80709".toList
  calculateSha256 _ := "e3b0c44298fc1c149afbf4c8996fb92427ae41e4649b934ca495991b7852b855".toList
  formatReleaseDate _ := "Thu, 01 Jan 1970 00:00:00 UTC".toList
  md5_hex _ := List.all_eq_true.mp (by decide)
  sha1_hex _ := List.all_eq_true.mp (by decide)
  sha256_hex _ := List.all_eq_true.mp (by decide)
  sha256_ne_nil _ := by decide
  date_oneLine _ := by decide

/-- A request for `dists/x%0ASHA256:%0A%20bad%201%20main%2FPackages/Release`. -/
def smugglingInput : ReleaseRenderInput Unit where
  origin := "artifact-keeper".toList
  label := "artifact-keeper".toList
  distribution := "x\nSHA256:\n bad 1 main/Packages".toList
  version := none
  description := none
  publishedAt := ()
  architectures := "amd64".toList
  components := "main".toList
  files := [⟨"main/binary-amd64/Packages".toList, [], by decide⟩]

theorem distribution_adds_checksum :
    ¬ ∀ (DateTime : Type) (fmt : ReleaseFormat DateTime) (input : ReleaseRenderInput DateTime),
      (∀ file ∈ input.files, '\n' ∉ file.path ∧ ' ' ∉ file.path) →
      parseReleaseChecksums (renderReleaseDocument fmt input) =
        serverChecksums fmt input.files := by
  intro h
  have heq := h Unit emptyFileFormat smugglingInput (by decide +kernel)
  have hmem : "main/Packages".toList ∈
      parseReleaseChecksums (renderReleaseDocument emptyFileFormat smugglingInput) := by
    decide +kernel
  have hnot : "main/Packages".toList ∉ serverChecksums emptyFileFormat smugglingInput.files := by
    decide +kernel
  rw [heq] at hmem
  exact hnot hmem

end Exactness

end ArtifactKeeper.Debian
