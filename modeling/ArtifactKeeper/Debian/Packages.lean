import ArtifactKeeper.Debian.Control
import Mathlib.Data.List.Forall2
import Mathlib.Data.Char
import Mathlib.Data.List.Sort

/-! The `Packages` index of a hosted repository: written from the control data that was uploaded and
the facts that the server knows, and read for the checksums of the pool. -/

namespace ArtifactKeeper.Debian

open Text

section Build

/-- A digest as the server writes it, in hexadecimal. -/
structure HexDigest where
  text : List Char
  ne_nil : text ≠ []
  hex : ∀ c ∈ text, c.isAlphanum = true

/-- An artifact of the pool with what the server knows about it. -/
structure PackageEntry where
  control : DebControl
  filename : List Char
  size : ℕ
  size_lt : size < 2 ^ 63
  sha256 : HexDigest
  sha1 : Option HexDigest
  md5 : Option HexDigest

/-- The filter of `push_optional_control_field`. -/
def optionalValue (value : Option (List Char)) : Option (List Char) :=
  value.filter fun v => !(trim v).isEmpty

/-- The value that `push_dependency_field` writes. -/
def dependencyValue (values : Option (List (List Char))) : Option (List Char) :=
  (values.filter (!·.isEmpty)).map (", ".toList.intercalate ·)

/-- The fields that are pushed before the other ones, in this order, with those that are skipped. -/
def headFields (control : DebControl) : List (String × Option (List Char)) :=
  [("Package", some control.package),
    ("Version", some control.version),
    ("Architecture", some control.architecture),
    ("Maintainer", optionalValue control.maintainer),
    ("Installed-Size", control.installedSize.map decimal),
    ("Depends", dependencyValue control.depends),
    ("Pre-Depends", dependencyValue control.preDepends),
    ("Recommends", dependencyValue control.recommends),
    ("Suggests", dependencyValue control.suggests),
    ("Conflicts", dependencyValue control.conflicts),
    ("Provides", dependencyValue control.provides),
    ("Replaces", dependencyValue control.replaces),
    ("Section", optionalValue control.section_),
    ("Priority", optionalValue control.priority),
    ("Homepage", optionalValue control.homepage),
    ("Source", optionalValue control.source)]

def extraFields (control : DebControl) : List (List Char × List Char) :=
  (control.extra.entries.map fun field => (field.1, field.2)).insertionSort
    fun field field' => field.1 ≤ field'.1

/-- The fields of the server, in the order in which they end a stanza. -/
def serverFields (entry : PackageEntry) : List (String × Option (List Char)) :=
  [("Filename", some entry.filename),
    ("Size", some (decimal entry.size)),
    ("MD5sum", optionalValue (entry.md5.map (·.text))),
    ("SHA1", optionalValue (entry.sha1.map (·.text))),
    ("SHA256", some entry.sha256.text)]

def present (fields : List (String × Option (List Char))) : List (List Char × List Char) :=
  fields.filterMap fun field => field.2.map (field.1.toList, ·)

def controlFields (control : DebControl) : List (List Char × List Char) :=
  present (headFields control) ++ extraFields control ++
    present [("Description", optionalValue control.description)]

def entryFields (entry : PackageEntry) : List (List Char × List Char) :=
  controlFields entry.control ++ present (serverFields entry)

def pushPackagesEntry (entry : PackageEntry) : List Char :=
  (entryFields entry).flatMap fun field => pushControlField field.1 field.2

def buildPackagesText : List PackageEntry → List Char
  | [] => []
  | entry :: rest =>
    pushPackagesEntry entry ++ rest.flatMap fun entry => '\n' :: pushPackagesEntry entry

end Build

section Index

structure IndexScan where
  out : ChecksumTable
  filename : Option (List Char)
  sha256 : Option (List Char)
  size : Option ℕ

def insertPackageStanza (scan : IndexScan) : IndexScan :=
  match scan.filename, scan.sha256, scan.size with
  | some f, some s, some z =>
    if f.isEmpty || s.isEmpty then ⟨scan.out, none, none, none⟩
    else ⟨scan.out.insert f (s, z), none, none, none⟩
  | _, _, _ => ⟨scan.out, none, none, none⟩

def IndexScan.line (scan : IndexScan) (line : List Char) : IndexScan :=
  if isBlank line then insertPackageStanza scan
  else
    match stripPrefix "Filename:".toList line with
    | some v => { scan with filename := some (trim v) }
    | none =>
      match stripPrefix "SHA256:".toList line with
      | some v => { scan with sha256 := some (trim v) }
      | none =>
        match stripPrefix "Size:".toList line with
        | some v => { scan with size := parseUnsigned (2 ^ 64) (trim v) }
        | none => scan

def parsePackagesIndex (packagesText : List Char) : ChecksumTable :=
  (insertPackageStanza ((lines packagesText).foldl IndexScan.line ⟨∅, none, none, none⟩)).out

end Index

section Spec

/-- The stanzas of a text: what stands between the blank lines. -/
def paragraphs (ls : List (List Char)) : List (List (List Char)) :=
  (ls.splitOnP isBlank).filter (!·.isEmpty)

/-- The stanza of an entry: no name twice, and the facts of the server as they are. -/
structure IsStanza (stanza : List (List Char)) (entry : PackageEntry) : Prop where
  unique : (fieldsOf stanza).Pairwise fun f g => eqIgnoreAsciiCase f.1 g.1 = false
  filename : ("Filename".toList, entry.filename) ∈ fieldsOf stanza
  size : ("Size".toList, decimal entry.size) ∈ fieldsOf stanza
  sha256 : ("SHA256".toList, entry.sha256.text) ∈ fieldsOf stanza

def storedChecksums (entries : List PackageEntry) : ChecksumTable :=
  entries.foldl (fun table entry => table.insert entry.filename (entry.sha256.text, entry.size)) ∅

structure IsFaithful (entries : List PackageEntry) : Prop where
  stanzas : List.Forall₂ IsStanza (paragraphs (lines (buildPackagesText entries))) entries
  index : parsePackagesIndex (buildPackagesText entries) = storedChecksums entries

/-- A line of the value behind the first one has blanks and nothing else. -/
def HasBlankLine (value : List Char) : Prop :=
  ∃ line ∈ (lines (normalizeNewlines value)).tail, line ≠ [] ∧ isBlank line = true

def serverNames (entry : PackageEntry) : List String :=
  ["Filename", "Size"] ++ (if entry.md5.isSome then ["MD5sum"] else []) ++
    (if entry.sha1.isSome then ["SHA1"] else []) ++ ["SHA256"]

/-- Entries whose uploaded data leave the stanza to the server. -/
structure IsClean (entry : PackageEntry) : Prop where
  filename : IsPlain entry.filename
  noBlankLine : ∀ field ∈ controlFields entry.control, ¬ HasBlankLine field.2
  extraUnique : ((extraFields entry.control).filter isWritten).Pairwise fun f g =>
    eqIgnoreAsciiCase f.1 g.1 = false
  extraForeign : ∀ field ∈ (extraFields entry.control).filter isWritten,
    ∀ name ∈ serverNames entry, eqIgnoreAsciiCase field.1 name.toList = false

end Spec

section Lines
variable {toLowercase : List Char → List Char}

def entryLines (entry : PackageEntry) : List (List Char) := (entryFields entry).flatMap fieldLines

theorem mem_present {fields : List (String × Option (List Char))} {field : List Char × List Char} :
    field ∈ present fields ↔ ∃ name, (name, some field.2) ∈ fields ∧ field.1 = name.toList := by
  obtain ⟨key, value⟩ := field
  simp only [present, List.mem_filterMap, Prod.exists, Option.map_eq_some_iff, Prod.mk.injEq]
  constructor
  · rintro ⟨name, _, hmem, v, rfl, rfl, rfl⟩
    exact ⟨name, hmem, rfl⟩
  · rintro ⟨name, hmem, rfl⟩
    exact ⟨name, some value, hmem, value, rfl, rfl, rfl⟩

theorem mem_extra_of_mem_extraFields {control : DebControl} {field : List Char × List Char}
    (h : field ∈ extraFields control) : field.1 ∈ control.extra := by
  obtain ⟨entry, hentry, rfl⟩ := List.mem_map.mp ((List.perm_insertionSort _ _).mem_iff.mp h)
  exact AList.mem_keys.mpr (List.mem_map.mpr ⟨entry, hentry, rfl⟩)

/-- The names that stand in the source. -/
def fixedNames : List String :=
  ["Package", "Version", "Architecture", "Maintainer", "Installed-Size", "Depends", "Pre-Depends",
    "Recommends", "Suggests", "Conflicts", "Provides", "Replaces", "Section", "Priority",
    "Homepage", "Source", "Description", "Filename", "Size", "MD5sum", "SHA1", "SHA256"]

theorem isName_of_mem_fixedNames {name : String} (h : name ∈ fixedNames) : IsName name.toList := by
  have hall : (fixedNames.all fun name => !name.toList.contains ':' && !name.toList.contains '\n' &&
      !isIndented name.toList) = true := by decide
  have hname := List.all_eq_true.mp hall name h
  simp only [Bool.and_eq_true, Bool.not_eq_true', List.contains_iff_mem,
    ← Bool.not_eq_true] at hname
  exact ⟨hname.1.1, hname.1.2, by simpa using hname.2⟩

theorem headFields_names (control : DebControl) :
    (headFields control).map Prod.fst = fixedNames.take 16 := rfl

theorem serverFields_names (entry : PackageEntry) :
    (serverFields entry).map Prod.fst = fixedNames.drop 17 := rfl

theorem isName_entryFields {entry : PackageEntry} (h : ExtraNamed toLowercase entry.control) :
    ∀ field ∈ entryFields entry, IsName field.1 := by
  have hfixed : ∀ fields : List (String × Option (List Char)),
      (∀ name ∈ fields.map Prod.fst, name ∈ fixedNames) →
      ∀ field ∈ present fields, IsName field.1 := by
    intro fields hnames field hfield
    obtain ⟨name, hmem, heq⟩ := mem_present.mp hfield
    rw [heq]
    exact isName_of_mem_fixedNames (hnames name (List.mem_map.mpr ⟨_, hmem, rfl⟩))
  intro field hfield
  simp only [entryFields, controlFields, List.mem_append] at hfield
  rcases hfield with ((hfield | hfield) | hfield) | hfield
  · apply hfixed _ _ _ hfield
    rw [headFields_names]
    exact fun name hname => List.mem_of_mem_take hname
  · exact (h _ (mem_extra_of_mem_extraFields hfield)).toIsName
  · exact hfixed _ (by simp [fixedNames]) _ hfield
  · apply hfixed _ _ _ hfield
    rw [serverFields_names]
    exact fun name hname => List.mem_of_mem_drop hname

theorem lines_pushPackagesEntry {entry : PackageEntry} (h : ExtraNamed toLowercase entry.control) :
    lines (pushPackagesEntry entry) = entryLines entry := by
  have hends : ∀ field ∈ entryFields entry, EndsLine (pushControlField field.1 field.2) :=
    fun field _ => endsLine_pushControlField field.1 field.2
  rw [pushPackagesEntry, lines_flatMap hends, entryLines]
  apply List.flatMap_congr
  intro field hfield
  exact lines_pushControlField (isName_entryFields h field hfield) field.2

theorem endsLine_pushPackagesEntry (entry : PackageEntry) : EndsLine (pushPackagesEntry entry) :=
  .flatMap fun field _ => endsLine_pushControlField field.1 field.2

theorem lines_buildPackagesText {entry : PackageEntry} {rest : List PackageEntry}
    (h : ∀ e ∈ entry :: rest, ExtraNamed toLowercase e.control) :
    lines (buildPackagesText (entry :: rest)) =
      entryLines entry ++ rest.flatMap fun e => [] :: entryLines e := by
  obtain ⟨hentry, hrest⟩ := List.forall_mem_cons.mp h
  have hends : ∀ e ∈ rest, EndsLine ('\n' :: pushPackagesEntry e) := by
    intro e _
    have hnl : EndsLine ['\n'] := .inr ⟨[], rfl⟩
    exact hnl.append (endsLine_pushPackagesEntry e)
  rw [buildPackagesText, lines_append (endsLine_pushPackagesEntry entry),
    lines_pushPackagesEntry hentry, lines_flatMap hends]
  congr 1
  apply List.flatMap_congr
  intro e he
  have hline : lines ([] ++ '\n' :: pushPackagesEntry e) = [] :: lines (pushPackagesEntry e) :=
    lines_line _ (by simp)
  rw [← lines_pushPackagesEntry (hrest e he)]
  exact hline

end Lines

section Paragraphs

theorem paragraphs_append {blank : List Char} (h : isBlank blank = true)
    (ls rest : List (List Char)) :
    paragraphs (ls ++ blank :: rest) = paragraphs ls ++ paragraphs rest := by
  rw [paragraphs, List.splitOnP_append_cons _ _ h, List.filter_append]
  rfl

theorem paragraphs_of_not_blank {ls : List (List Char)} (hne : ls ≠ [])
    (h : ∀ line ∈ ls, isBlank line = false) : paragraphs ls = [ls] := by
  simp [paragraphs, List.splitOnP_eq_singleton h, hne]

theorem paragraphs_length_pos {ls : List (List Char)} (h : ∃ line ∈ ls, isBlank line = false) :
    0 < (paragraphs ls).length := by
  induction ls with
  | nil => simp at h
  | cons line ls ih =>
    rw [paragraphs, List.splitOnP_cons_eq_if_modifyHead]
    split
    · rename_i hblank
      rw [List.filter_cons, if_neg (by simp)]
      apply ih
      obtain ⟨l, hl, hnot⟩ := h
      rcases List.mem_cons.mp hl with rfl | hl
      · rw [hblank] at hnot
        cases hnot
      · exact ⟨l, hl, hnot⟩
    · obtain ⟨first, tail, htail⟩ := List.exists_cons_of_ne_nil (List.splitOnP_ne_nil isBlank ls)
      simp [htail]

/-- Blank lines inside, with text before and behind, make more than one stanza. -/
theorem not_blank_of_paragraphs {ls : List (List Char)}
    (hhead : ∀ l ∈ ls.head?, isBlank l = false) (hlast : ∀ l ∈ ls.getLast?, isBlank l = false)
    (h : (paragraphs ls).length ≤ 1) : ∀ l ∈ ls, isBlank l = false := by
  intro l hl
  rw [← Bool.not_eq_true]
  intro hblank
  obtain ⟨before, after, rfl⟩ := List.append_of_mem hl
  have hbefore : 0 < (paragraphs before).length := by
    apply paragraphs_length_pos
    cases before with
    | nil => simp [hblank] at hhead
    | cons b before => exact ⟨b, List.mem_cons_self, hhead b rfl⟩
  have hafter : 0 < (paragraphs after).length := by
    apply paragraphs_length_pos
    rcases List.eq_nil_or_concat after with rfl | ⟨init, a, rfl⟩
    · simp [hblank] at hlast
    · have hconcat : before ++ l :: init.concat a = (before ++ l :: init) ++ [a] := by simp
      exact ⟨a, by simp, hlast a (by rw [hconcat, List.getLast?_concat]; rfl)⟩
  rw [paragraphs_append hblank, List.length_append] at h
  omega

/-- One stanza of each part and no more: each part is one stanza. -/
theorem length_eq_one_of_flatMap {α : Type} {xs : List α} {parts : α → List (List (List Char))}
    (hpos : ∀ x ∈ xs, 0 < (parts x).length) (h : (xs.flatMap parts).length = xs.length) :
    ∀ x ∈ xs, (parts x).length = 1 := by
  have hle : ∀ ys : List α, (∀ y ∈ ys, 0 < (parts y).length) →
      ys.length ≤ (ys.flatMap parts).length := by
    intro ys hys
    induction ys with
    | nil => simp
    | cons y ys ih =>
      obtain ⟨hy, hys⟩ := List.forall_mem_cons.mp hys
      have hrest := ih hys
      rw [List.flatMap_cons, List.length_append, List.length_cons]
      omega
  induction xs with
  | nil => simp
  | cons x xs ih =>
    obtain ⟨hx, hxs⟩ := List.forall_mem_cons.mp hpos
    have hrest := hle xs hxs
    rw [List.flatMap_cons, List.length_append, List.length_cons] at h
    refine List.forall_mem_cons.mpr ⟨by omega, ih hxs (by omega)⟩

theorem paragraphs_flatMap {α : Type} (ls : List (List Char)) (xs : List α)
    (text : α → List (List Char)) :
    paragraphs (ls ++ xs.flatMap fun x => [] :: text x) =
      paragraphs ls ++ xs.flatMap fun x => paragraphs (text x) := by
  induction xs generalizing ls with
  | nil => simp
  | cons x xs ih =>
    have hnil : isBlank [] = true := by decide
    rw [List.flatMap_cons, List.flatMap_cons, List.cons_append, paragraphs_append hnil, ih]

end Paragraphs

section Stanza
variable {toLowercase : List Char → List Char}

theorem isBlank_margin (name first : List Char) :
    isBlank (name ++ ':' :: ' ' :: first) = false :=
  isBlank_eq_false (c := ':') (by simp) (by decide)

theorem fieldLines_not_blank_iff {field : List Char × List Char} :
    (∀ line ∈ fieldLines field, isBlank line = false) ↔ ¬ HasBlankLine field.2 := by
  have hcontinuation : ∀ line, isBlank (continuation line) = true ↔
      line ≠ [] ∧ isBlank line = true := by
    intro line
    rw [continuation]
    cases line with
    | nil => decide
    | cons c line =>
      have hspace : isWhitespace ' ' = true := by decide
      simp only [isBlank_iff, List.isEmpty_cons, List.forall_mem_cons, hspace]
      simp
  rw [fieldLines, HasBlankLine]
  split
  · rename_i hlines
    simp [hlines]
  · rename_i first rest hlines
    simp only [hlines, List.tail_cons, List.forall_mem_cons, isBlank_margin, List.forall_mem_map,
      true_and, not_exists, not_and, ← Bool.not_eq_true (isBlank (continuation _)), hcontinuation]

theorem head_flatMap_fieldLines (fields : List (List Char × List Char)) :
    ∀ l ∈ (fields.flatMap fieldLines).head?, isBlank l = false := by
  induction fields with
  | nil => simp
  | cons field fields ih =>
    rw [List.flatMap_cons]
    cases hlines : fieldLines field with
    | nil => exact ih
    | cons line rest =>
      intro l hl
      obtain rfl := Option.some.inj hl
      rw [fieldLines] at hlines
      split at hlines
      · cases hlines
      · rw [← (List.cons_eq_cons.mp hlines).1]
        exact isBlank_margin _ _

theorem HexDigest.isPlain (digest : HexDigest) : IsPlain digest.text := by
  have hword : ∀ c ∈ digest.text, isWhitespace c = false := fun c hc =>
    isWhitespace_of_isAlphanum (digest.hex c hc)
  refine ⟨digest.ne_nil, trim_of_not_whitespace hword, fun hmem => ?_, fun hmem => ?_⟩
  · exact absurd (hword _ hmem) (by decide)
  · exact absurd (hword _ hmem) (by decide)

theorem isPlain_decimal (n : ℕ) : IsPlain (decimal n) := by
  refine ⟨decimal_ne_nil n, trim_of_not_whitespace (isWhitespace_decimal n), fun hmem => ?_,
    fun hmem => ?_⟩
  · exact absurd (isWhitespace_decimal n _ hmem) (by decide)
  · exact absurd (isWhitespace_decimal n _ hmem) (by decide)

theorem fieldLines_plain {key value : List Char} (h : IsPlain value) :
    fieldLines (key, value) = [key ++ ':' :: ' ' :: value] := by
  rw [fieldLines, lines_normalizeNewlines h]
  rfl

theorem optionalValue_digest (digest : Option HexDigest) :
    optionalValue (digest.map (·.text)) = digest.map (·.text) := by
  cases digest with
  | none => rfl
  | some digest =>
    have hplain := digest.isPlain
    simp [optionalValue, hplain.trimmed, hplain.ne_nil]

/-- The lines that end the stanza of an entry with a plain file name. -/
theorem serverLines {entry : PackageEntry} (h : IsPlain entry.filename) :
    (present (serverFields entry)).flatMap fieldLines =
      ["Filename".toList ++ ':' :: ' ' :: entry.filename,
        "Size".toList ++ ':' :: ' ' :: decimal entry.size] ++
      entry.md5.toList.map (fun digest => "MD5sum".toList ++ ':' :: ' ' :: digest.text) ++
      entry.sha1.toList.map (fun digest => "SHA1".toList ++ ':' :: ' ' :: digest.text) ++
      ["SHA256".toList ++ ':' :: ' ' :: entry.sha256.text] := by
  simp only [serverFields, present, optionalValue_digest]
  cases entry.md5 <;> cases entry.sha1 <;>
    simp [fieldLines_plain h, fieldLines_plain (isPlain_decimal _),
      fieldLines_plain (HexDigest.isPlain _)]

theorem last_entryLines (entry : PackageEntry) :
    ∀ l ∈ (entryLines entry).getLast?, isBlank l = false := by
  have hserver : present (serverFields entry) =
      present ((serverFields entry).take 4) ++ [("SHA256".toList, entry.sha256.text)] := by
    rw [present, present, ← List.take_append_drop 4 (serverFields entry), List.filterMap_append]
    rfl
  intro l hl
  rw [entryLines, entryFields, hserver, ← List.append_assoc, List.flatMap_append,
    List.flatMap_singleton, fieldLines_plain entry.sha256.isPlain, List.getLast?_concat] at hl
  obtain rfl := Option.some.inj hl
  exact isBlank_margin _ _

theorem entryLines_not_blank_iff {entry : PackageEntry} (h : IsPlain entry.filename) :
    (∀ line ∈ entryLines entry, isBlank line = false) ↔
      ∀ field ∈ controlFields entry.control, ¬ HasBlankLine field.2 := by
  have hserver : ∀ line ∈ (present (serverFields entry)).flatMap fieldLines,
      isBlank line = false := by
    rw [serverLines h]
    simp only [List.mem_append, List.mem_cons, List.not_mem_nil, or_false, List.mem_map]
    rintro line ((((rfl | rfl) | ⟨digest, -, rfl⟩) | ⟨digest, -, rfl⟩) | rfl)
    all_goals exact isBlank_margin _ _
  rw [entryLines, entryFields, List.flatMap_append, List.forall_mem_append, and_iff_left hserver]
  simp only [← fieldLines_not_blank_iff, List.mem_flatMap]
  constructor
  · intro hall field hfield line hline
    exact hall line ⟨field, hfield, hline⟩
  · rintro hall line ⟨field, hfield, hline⟩
    exact hall field hfield line hline

theorem toNat_lt_of_toLower {c : Char} (h : c.toLower.toNat < 128) : c.toNat < 128 := by
  rcases toLower_cases c with hc | ⟨n, hn, rfl⟩
  · rwa [hc] at h
  · revert n
    decide

/-- The known names have a lower-case form that `setControlField` knows. -/
theorem lower_mem_controlNames {name : String} (h : name ∈ fixedNames.take 17) :
    (∀ c ∈ name.toList, c.toNat < 128) ∧
      String.ofList (name.toList.map Char.toLower) ∈ controlNames := by
  have hall : ((fixedNames.take 17).all fun name => (name.toList.all fun c => c.toNat < 128) &&
      controlNames.contains (String.ofList (name.toList.map Char.toLower))) = true := by
    decide +kernel
  have hname := List.all_eq_true.mp hall name h
  simpa using hname

/-- An extra name is none of the known ones, in whatever case. -/
theorem eqIgnoreAsciiCase_of_isExtraName (hlower : LowersAscii toLowercase) {key : List Char}
    (hkey : IsExtraName toLowercase key) {name : String} (hname : name ∈ fixedNames.take 17) :
    eqIgnoreAsciiCase key name.toList = false := by
  obtain ⟨hascii, hknown⟩ := lower_mem_controlNames hname
  rw [← Bool.not_eq_true]
  intro heq
  have hmap : key.map Char.toLower = name.toList.map Char.toLower := beq_iff_eq.mp heq
  have hkeyAscii : ∀ c ∈ key, c.toNat < 128 := by
    intro c hc
    apply toNat_lt_of_toLower
    have hmem : c.toLower ∈ name.toList.map Char.toLower := hmap ▸ List.mem_map.mpr ⟨c, hc, rfl⟩
    obtain ⟨d, hd, hdc⟩ := List.mem_map.mp hmem
    have hlt : ∀ n < 128, (Char.ofNat n).toLower.toNat < 128 := by decide +kernel
    have hdlt := hlt d.toNat (hascii d hd)
    rw [Char.ofNat_toNat, hdc] at hdlt
    exact hdlt
  apply hkey.unknown
  rw [hlower key hkeyAscii, hmap]
  exact hknown

theorem eqIgnoreAsciiCase_comm (a b : List Char) :
    eqIgnoreAsciiCase a b = eqIgnoreAsciiCase b a := by
  rw [eqIgnoreAsciiCase, eqIgnoreAsciiCase, Bool.beq_comm]

theorem present_sublist (fields : List (String × Option (List Char))) :
    ((present fields).map Prod.fst).Sublist ((fields.map Prod.fst).map String.toList) := by
  induction fields with
  | nil => exact .slnil
  | cons field fields ih =>
    obtain ⟨name, value⟩ := field
    cases value with
    | none => exact ih.cons _
    | some value => exact ih.cons_cons _

theorem serverNames_eq {entry : PackageEntry} (h : entry.filename ≠ []) :
    ((present (serverFields entry)).filter isWritten).map Prod.fst =
      (serverNames entry).map String.toList := by
  have hdecimal := decimal_ne_nil entry.size
  have hdigest : ∀ digest : HexDigest, digest.text ≠ [] := fun digest => digest.ne_nil
  simp only [serverFields, present, optionalValue_digest, serverNames]
  cases entry.md5 <;> cases entry.sha1 <;>
    simp [List.filter_cons, isWritten, h, hdecimal, hdigest]

/-- The fields with names of the source have different ones, so only the others can clash. -/
theorem entryFields_unique_iff (hlower : LowersAscii toLowercase) {entry : PackageEntry}
    (hextra : ExtraNamed toLowercase entry.control) (hne : entry.filename ≠ []) :
    ((entryFields entry).filter isWritten).Pairwise
        (fun f g => eqIgnoreAsciiCase f.1 g.1 = false) ↔
      ((extraFields entry.control).filter isWritten).Pairwise
        (fun f g => eqIgnoreAsciiCase f.1 g.1 = false) ∧
      ∀ field ∈ (extraFields entry.control).filter isWritten, ∀ name ∈ serverNames entry,
        eqIgnoreAsciiCase field.1 name.toList = false := by
  have hknown : ∀ fields : List (String × Option (List Char)),
      (∀ name ∈ fields.map Prod.fst, name ∈ fixedNames.take 17) →
      ∀ f ∈ (extraFields entry.control).filter isWritten, ∀ g ∈ (present fields).filter isWritten,
        eqIgnoreAsciiCase f.1 g.1 = false := by
    intro fields hnames f hf g hg
    obtain ⟨name, hmem, heq⟩ := mem_present.mp (List.mem_of_mem_filter hg)
    rw [heq]
    have hkey := hextra _ (mem_extra_of_mem_extraFields (List.mem_of_mem_filter hf))
    exact eqIgnoreAsciiCase_of_isExtraName hlower hkey
      (hnames name (List.mem_map.mpr ⟨_, hmem, rfl⟩))
  have hfixed : (present (headFields entry.control ++
      ([("Description", optionalValue entry.control.description)] ++ serverFields entry))).Pairwise
      fun f g => eqIgnoreAsciiCase f.1 g.1 = false := by
    have hnames : (fixedNames.map String.toList).Pairwise
        fun a b => eqIgnoreAsciiCase a b = false := by decide +kernel
    have hsub := present_sublist (headFields entry.control ++
      ([("Description", optionalValue entry.control.description)] ++ serverFields entry))
    exact List.pairwise_map.mp (hnames.sublist hsub)
  have happend : ∀ fields fields' : List (String × Option (List Char)),
      present (fields ++ fields') = present fields ++ present fields' := fun _ _ =>
    List.filterMap_append
  have hfilter := hfixed.filter isWritten
  rw [happend, happend, List.filter_append, List.filter_append] at hfilter
  obtain ⟨hhead, htail, hacross⟩ := List.pairwise_append.mp hfilter
  have hextraHead : ∀ g ∈ (present (headFields entry.control)).filter isWritten,
      ∀ f ∈ (extraFields entry.control).filter isWritten, eqIgnoreAsciiCase g.1 f.1 = false := by
    intro g hg f hf
    rw [eqIgnoreAsciiCase_comm]
    apply hknown _ _ f hf g hg
    rw [headFields_names]
    intro name hname
    exact (List.take_subset_take_left fixedNames (by omega)) hname
  have hextraDescription := hknown [("Description", optionalValue entry.control.description)]
    (by simp [fixedNames])
  have hserver : (∀ f ∈ (extraFields entry.control).filter isWritten,
      ∀ g ∈ (present (serverFields entry)).filter isWritten, eqIgnoreAsciiCase f.1 g.1 = false) ↔
      ∀ field ∈ (extraFields entry.control).filter isWritten, ∀ name ∈ serverNames entry,
        eqIgnoreAsciiCase field.1 name.toList = false := by
    have hnames := serverNames_eq hne
    constructor
    · intro h f hf name hname
      have hmem : name.toList ∈ ((present (serverFields entry)).filter isWritten).map Prod.fst :=
        hnames ▸ List.mem_map.mpr ⟨name, hname, rfl⟩
      obtain ⟨g, hg, heq⟩ := List.mem_map.mp hmem
      rw [← heq]
      exact h f hf g hg
    · intro h f hf g hg
      have hmem : g.1 ∈ (serverNames entry).map String.toList :=
        hnames ▸ List.mem_map.mpr ⟨g, hg, rfl⟩
      obtain ⟨name, hname, heq⟩ := List.mem_map.mp hmem
      rw [← heq]
      exact h f hf name hname
  rw [entryFields, controlFields, List.append_assoc, List.append_assoc, List.filter_append,
    List.filter_append, List.filter_append, List.pairwise_append, List.pairwise_append, ← hserver]
  constructor
  · rintro ⟨-, ⟨hunique, -, hforeign⟩, -⟩
    exact ⟨hunique, fun f hf g hg => hforeign f hf g (List.mem_append_right _ hg)⟩
  · rintro ⟨hunique, hforeign⟩
    refine ⟨hhead, ⟨hunique, htail, fun f hf g hg => ?_⟩, fun g hg f hf => ?_⟩
    · rcases List.mem_append.mp hg with hg | hg
      · exact hextraDescription f hf g hg
      · exact hforeign f hf g hg
    · rcases List.mem_append.mp hf with hf | hf
      · exact hextraHead g hg f hf
      · exact hacross g hg f hf

theorem isStanza_entryLines_iff (hlower : LowersAscii toLowercase) {entry : PackageEntry}
    (hextra : ExtraNamed toLowercase entry.control) (hplain : IsPlain entry.filename) :
    IsStanza (entryLines entry) entry ↔
      ((extraFields entry.control).filter isWritten).Pairwise
        (fun f g => eqIgnoreAsciiCase f.1 g.1 = false) ∧
      ∀ field ∈ (extraFields entry.control).filter isWritten, ∀ name ∈ serverNames entry,
        eqIgnoreAsciiCase field.1 name.toList = false := by
  have hfields := fieldsOf_flatMap (isName_entryFields hextra)
  rw [← entryLines] at hfields
  have hmem : ∀ name value, (name, some value) ∈ serverFields entry → IsPlain value →
      (name.toList, value) ∈ fieldsOf (entryLines entry) := by
    intro name value hserver hvalue
    rw [hfields]
    apply List.mem_map.mpr
    refine ⟨(name.toList, value), List.mem_filter.mpr ⟨?_, ?_⟩, ?_⟩
    · exact List.mem_append_right _ (mem_present.mpr ⟨name, hserver, rfl⟩)
    · simp [isWritten, hvalue.ne_nil]
    · rw [readValue_plain hvalue]
  rw [← entryFields_unique_iff hlower hextra hplain.ne_nil]
  constructor
  · intro h
    have hunique := h.unique
    rw [hfields, List.pairwise_map] at hunique
    exact hunique
  · intro h
    constructor
    · rw [hfields, List.pairwise_map]
      exact h
    · exact hmem "Filename" _ (by simp [serverFields]) hplain
    · exact hmem "Size" _ (by simp [serverFields]) (isPlain_decimal _)
    · exact hmem "SHA256" _ (by simp [serverFields]) entry.sha256.isPlain

end Stanza

section Exactness
variable {toLowercase : List Char → List Char}

theorem line_out {scan : IndexScan} {line : List Char} (h : isBlank line = false) :
    (scan.line line).out = scan.out := by
  rw [IndexScan.line, h, if_neg (by decide)]
  split
  · rfl
  · split
    · rfl
    · split
      · rfl
      · rfl

theorem foldl_line_out {scan : IndexScan} {ls : List (List Char)}
    (h : ∀ line ∈ ls, isBlank line = false) : (ls.foldl IndexScan.line scan).out = scan.out := by
  induction ls generalizing scan with
  | nil => rfl
  | cons line ls ih =>
    obtain ⟨hline, hls⟩ := List.forall_mem_cons.mp h
    rw [List.foldl_cons, ih hls, line_out hline]

/-- A line at the margin sets what its name says. -/
theorem line_margin (scan : IndexScan) {name : List Char} (hname : ':' ∉ name) (value : List Char) :
    scan.line (name ++ ':' :: ' ' :: value) =
      if "Filename".toList = name then { scan with filename := some (trim value) }
      else if "SHA256".toList = name then { scan with sha256 := some (trim value) }
      else if "Size".toList = name then { scan with size := parseUnsigned (2 ^ 64) (trim value) }
      else scan := by
  have hpre : ∀ key : String, ':' ∉ key.toList →
      stripPrefix (key.toList ++ [':']) (name ++ ':' :: ' ' :: value) =
        if key.toList = name then some (' ' :: value) else none := fun key hkey =>
    stripPrefix_name _ hkey hname
  have hfilename := hpre "Filename" (by decide)
  have hsha256 := hpre "SHA256" (by decide)
  have hsize := hpre "Size" (by decide)
  rw [IndexScan.line, isBlank_margin, if_neg (by decide),
    show "Filename:".toList = "Filename".toList ++ [':'] from rfl, hfilename,
    show "SHA256:".toList = "SHA256".toList ++ [':'] from rfl, hsha256,
    show "Size:".toList = "Size".toList ++ [':'] from rfl, hsize]
  by_cases h₁ : "Filename".toList = name
  · simp only [if_pos h₁, trim_space]
  · simp only [if_neg h₁]
    by_cases h₂ : "SHA256".toList = name
    · simp only [if_pos h₂, trim_space]
    · simp only [if_neg h₂]
      by_cases h₃ : "Size".toList = name
      · simp only [if_pos h₃, trim_space]
      · simp only [if_neg h₃]

theorem line_filename (scan : IndexScan) (value : List Char) :
    scan.line ("Filename".toList ++ ':' :: ' ' :: value) =
      { scan with filename := some (trim value) } := by
  rw [line_margin scan (by decide), if_pos rfl]

theorem line_sha256 (scan : IndexScan) (value : List Char) :
    scan.line ("SHA256".toList ++ ':' :: ' ' :: value) =
      { scan with sha256 := some (trim value) } := by
  rw [line_margin scan (by decide), if_neg (by decide), if_pos rfl]

theorem line_size (scan : IndexScan) (value : List Char) :
    scan.line ("Size".toList ++ ':' :: ' ' :: value) =
      { scan with size := parseUnsigned (2 ^ 64) (trim value) } := by
  rw [line_margin scan (by decide), if_neg (by decide), if_neg (by decide), if_pos rfl]

theorem line_digest (scan : IndexScan) {name : List Char} (value : List Char)
    (h : name = "MD5sum".toList ∨ name = "SHA1".toList) :
    scan.line (name ++ ':' :: ' ' :: value) = scan := by
  rcases h with rfl | rfl <;>
    rw [line_margin scan (by decide), if_neg (by decide), if_neg (by decide), if_neg (by decide)]

theorem foldl_entryLines {entry : PackageEntry} (hplain : IsPlain entry.filename)
    (hblank : ∀ line ∈ entryLines entry, isBlank line = false) (scan : IndexScan) :
    (entryLines entry).foldl IndexScan.line scan =
      ⟨scan.out, some entry.filename, some entry.sha256.text, some entry.size⟩ := by
  rw [entryLines, entryFields, List.flatMap_append] at hblank ⊢
  obtain ⟨hcontrol, -⟩ := List.forall_mem_append.mp hblank
  have hout : (((controlFields entry.control).flatMap fieldLines).foldl IndexScan.line scan).out =
      scan.out := foldl_line_out hcontrol
  rw [List.foldl_append, ← hout, serverLines hplain]
  generalize ((controlFields entry.control).flatMap fieldLines).foldl IndexScan.line scan = scan'
  have hsize : parseUnsigned (2 ^ 64) (trim (decimal entry.size)) = some entry.size := by
    rw [(isPlain_decimal _).trimmed]
    exact parseUnsigned_decimal (Nat.lt_trans entry.size_lt (by decide))
  have hskip : ∀ scan : IndexScan, (entry.md5.toList.map (fun digest =>
      "MD5sum".toList ++ ':' :: ' ' :: digest.text) ++ entry.sha1.toList.map (fun digest =>
      "SHA1".toList ++ ':' :: ' ' :: digest.text)).foldl IndexScan.line scan = scan := by
    intro scan
    cases entry.md5 <;> cases entry.sha1 <;>
      simp only [Option.toList_none, Option.toList_some, List.map_nil, List.map_cons,
        List.nil_append, List.cons_append, List.foldl_cons, List.foldl_nil,
        line_digest _ _ (.inl rfl), line_digest _ _ (.inr rfl)]
  rw [List.foldl_append, List.append_assoc, List.foldl_append, hskip]
  simp only [List.foldl_cons, List.foldl_nil, line_filename, line_size, line_sha256, hsize,
    hplain.trimmed, entry.sha256.isPlain.trimmed]

/-- The stanza that is complete goes into the table. -/
theorem insertPackageStanza_entry {entry : PackageEntry} (hplain : IsPlain entry.filename)
    (out : ChecksumTable) :
    insertPackageStanza ⟨out, some entry.filename, some entry.sha256.text, some entry.size⟩ =
      ⟨out.insert entry.filename (entry.sha256.text, entry.size), none, none, none⟩ := by
  have hne := hplain.ne_nil
  have hsha := entry.sha256.ne_nil
  simp [insertPackageStanza, hne, hsha]

theorem foldl_entries {entry : PackageEntry} {rest : List PackageEntry}
    (hplain : ∀ e ∈ entry :: rest, IsPlain e.filename)
    (hblank : ∀ e ∈ entry :: rest, ∀ line ∈ entryLines e, isBlank line = false)
    (scan : IndexScan) :
    (insertPackageStanza ((entryLines entry ++ rest.flatMap fun e => [] :: entryLines e).foldl
      IndexScan.line scan)).out =
      (entry :: rest).foldl (fun table e =>
        table.insert e.filename (e.sha256.text, e.size)) scan.out := by
  induction rest generalizing entry scan with
  | nil =>
    rw [List.flatMap_nil, List.append_nil, foldl_entryLines (hplain entry (by simp))
      (hblank entry (by simp)), insertPackageStanza_entry (hplain entry (by simp))]
    rfl
  | cons e rest ih =>
    obtain ⟨hplain', hplains⟩ := List.forall_mem_cons.mp hplain
    obtain ⟨hblank', hblanks⟩ := List.forall_mem_cons.mp hblank
    have hnil : isBlank [] = true := by decide
    rw [List.foldl_append, foldl_entryLines hplain' hblank', List.flatMap_cons, List.cons_append,
      List.foldl_cons, IndexScan.line, if_pos hnil, insertPackageStanza_entry hplain',
      ih hplains hblanks]
    rfl

theorem parsePackagesIndex_of_clean {entries : List PackageEntry}
    (hextra : ∀ e ∈ entries, ExtraNamed toLowercase e.control)
    (hplain : ∀ e ∈ entries, IsPlain e.filename)
    (hblank : ∀ e ∈ entries, ∀ line ∈ entryLines e, isBlank line = false) :
    parsePackagesIndex (buildPackagesText entries) = storedChecksums entries := by
  cases entries with
  | nil => rfl
  | cons entry rest =>
    rw [parsePackagesIndex, lines_buildPackagesText hextra, foldl_entries hplain hblank]
    rfl

theorem mem_lines_buildPackagesText {entries : List PackageEntry}
    (hextra : ∀ e ∈ entries, ExtraNamed toLowercase e.control) {line : List Char}
    (h : line ∈ lines (buildPackagesText entries)) :
    line = [] ∨ ∃ e ∈ entries, line ∈ entryLines e := by
  cases entries with
  | nil => cases h
  | cons entry rest =>
    rw [lines_buildPackagesText hextra] at h
    rcases List.mem_append.mp h with h | h
    · exact .inr ⟨entry, List.mem_cons_self, h⟩
    · obtain ⟨e, he, h⟩ := List.mem_flatMap.mp h
      rcases List.mem_cons.mp h with rfl | h
      · exact .inl rfl
      · exact .inr ⟨e, List.mem_cons_of_mem _ he, h⟩

/-- What the reader takes for a file name was written without a line end. -/
theorem filename_of_mem_lines {entries : List PackageEntry}
    (hextra : ∀ e ∈ entries, ExtraNamed toLowercase e.control) {line v : List Char}
    (h : line ∈ lines (buildPackagesText entries))
    (hv : stripPrefix "Filename:".toList line = some v) : '\n' ∉ v ∧ '\r' ∉ v := by
  rcases mem_lines_buildPackagesText hextra h with rfl | ⟨e, he, hline⟩
  · cases hv
  · obtain ⟨field, hfield, hline⟩ := List.mem_flatMap.mp hline
    have hname := isName_entryFields (hextra e he) field hfield
    rw [fieldLines] at hline
    split at hline
    · cases hline
    · rename_i first rest hlines
      rcases List.mem_cons.mp hline with rfl | hline
      · have hpre := stripPrefix_name (' ' :: first) (show ':' ∉ "Filename".toList by decide)
          hname.noColon
        rw [show "Filename:".toList = "Filename".toList ++ [':'] from rfl, hpre] at hv
        split at hv
        · obtain rfl := Option.some.inj hv
          have hfirst : first ∈ lines (normalizeNewlines field.2) := hlines ▸ List.mem_cons_self
          have hnl := not_newline_of_mem_lines hfirst
          have hcr := carriage_not_mem_of_mem_lines hfirst
          simp [hnl, hcr]
        · cases hv
      · obtain ⟨l, -, rfl⟩ := List.mem_map.mp hline
        cases hv

/-- The table and the file name that waits for it have plain texts. -/
structure HoldsPlain (scan : IndexScan) : Prop where
  keys : ∀ key ∈ scan.out, IsPlain key
  pending : ∀ f ∈ scan.filename, trim f = f ∧ '\n' ∉ f ∧ '\r' ∉ f

theorem HoldsPlain.insertStanza {scan : IndexScan} (h : HoldsPlain scan) :
    HoldsPlain (insertPackageStanza scan) := by
  unfold insertPackageStanza
  split
  · rename_i f s z hf hs hz
    split
    · exact ⟨h.keys, by simp⟩
    · rename_i hne
      refine ⟨fun key hkey => ?_, by simp⟩
      rcases Finmap.mem_insert.mp hkey with rfl | hkey
      · obtain ⟨htrim, hnl, hcr⟩ := h.pending _ hf
        exact ⟨by simp_all, htrim, hnl, hcr⟩
      · exact h.keys key hkey
  · exact ⟨h.keys, by simp⟩

theorem HoldsPlain.line {entries : List PackageEntry}
    (hextra : ∀ e ∈ entries, ExtraNamed toLowercase e.control) {scan : IndexScan}
    (h : HoldsPlain scan) {line : List Char} (hmem : line ∈ lines (buildPackagesText entries)) :
    HoldsPlain (scan.line line) := by
  rw [IndexScan.line]
  split
  · exact h.insertStanza
  · split
    · rename_i v hv
      obtain ⟨hnl, hcr⟩ := filename_of_mem_lines hextra hmem hv
      refine ⟨h.keys, fun f hf => ?_⟩
      obtain rfl := Option.some.inj hf
      exact ⟨trim_trim v, fun hc => hnl (trim_subset v hc), fun hc => hcr (trim_subset v hc)⟩
    · split
      · exact ⟨h.keys, h.pending⟩
      · split
        · exact ⟨h.keys, h.pending⟩
        · exact h

theorem HoldsPlain.foldl {entries : List PackageEntry}
    (hextra : ∀ e ∈ entries, ExtraNamed toLowercase e.control) {ls : List (List Char)}
    (hls : ∀ line ∈ ls, line ∈ lines (buildPackagesText entries)) {scan : IndexScan}
    (h : HoldsPlain scan) : HoldsPlain (ls.foldl IndexScan.line scan) := by
  induction ls generalizing scan with
  | nil => exact h
  | cons line ls ih =>
    obtain ⟨hmem, hls⟩ := List.forall_mem_cons.mp hls
    exact ih hls (h.line hextra hmem)

/-- Every key of the table that is read back is plain. -/
theorem isPlain_of_mem_parsePackagesIndex {entries : List PackageEntry}
    (hextra : ∀ e ∈ entries, ExtraNamed toLowercase e.control) :
    ∀ key ∈ parsePackagesIndex (buildPackagesText entries), IsPlain key := by
  have hinit : HoldsPlain ⟨∅, none, none, none⟩ :=
    ⟨fun key hkey => absurd hkey Finmap.notMem_empty, by simp⟩
  exact (hinit.foldl hextra fun line hline => hline).insertStanza.keys

theorem paragraphs_buildPackagesText {entries : List PackageEntry}
    (hextra : ∀ e ∈ entries, ExtraNamed toLowercase e.control) :
    paragraphs (lines (buildPackagesText entries)) =
      entries.flatMap fun e => paragraphs (entryLines e) := by
  cases entries with
  | nil => decide
  | cons entry rest =>
    rw [lines_buildPackagesText hextra, paragraphs_flatMap]
    rfl

theorem entryLines_ne_nil (entry : PackageEntry) : entryLines entry ≠ [] := by
  intro hnil
  have hlast : fieldLines ("SHA256".toList, entry.sha256.text) ⊆ entryLines entry := by
    intro line hline
    refine List.mem_flatMap.mpr ⟨_, List.mem_append_right _ ?_, hline⟩
    exact mem_present.mpr ⟨"SHA256", by simp [serverFields], rfl⟩
  rw [hnil, fieldLines_plain entry.sha256.isPlain] at hlast
  simp at hlast

theorem paragraphs_entryLines {entry : PackageEntry}
    (h : ∀ line ∈ entryLines entry, isBlank line = false) :
    paragraphs (entryLines entry) = [entryLines entry] :=
  paragraphs_of_not_blank (entryLines_ne_nil entry) h

theorem paragraphs_entryLines_pos (entry : PackageEntry) :
    0 < (paragraphs (entryLines entry)).length := by
  apply paragraphs_length_pos
  obtain ⟨init, last, hlast⟩ := (List.eq_nil_or_concat _).resolve_left (entryLines_ne_nil entry)
  refine ⟨last, by rw [hlast]; simp, last_entryLines entry last ?_⟩
  rw [hlast]
  simp

theorem storedChecksums_eq (entries : List PackageEntry) :
    storedChecksums entries =
      insertEntries ∅ (entries.map fun e => ⟨e.sha256.text, e.size, e.filename⟩) := by
  rw [storedChecksums, insertEntries, List.foldl_map]

/-- The control data of an ASCII text. -/
def asciiControl (content : String) : DebControl :=
  (parseControl (·.map Char.toLower) content.toList).toOption.getD .default

theorem parseControl_asciiControl (content : String)
    (h : (parseControl (·.map Char.toLower) content.toList).toOption.isSome = true) :
    parseControl (·.map Char.toLower) content.toList = .ok (asciiControl content) := by
  unfold asciiControl
  cases hparse : parseControl (·.map Char.toLower) content.toList with
  | error e => rw [hparse] at h; cases h
  | ok control => rfl

/-- An upload of ten bytes with the given control file. -/
def sampleEntry (content : String) : PackageEntry where
  control := asciiControl content
  filename := "pool/main/a/a/a_1_all.deb".toList
  size := 10
  size_lt := by decide
  sha256 := ⟨"bad".toList, by decide, List.all_eq_true.mp (by decide)⟩
  sha1 := none
  md5 := none

def describedControl : String :=
  "Package: a\nVersion: 1\nArchitecture: all\nBugs: none\nDescription: one\n two\n .\n three\n"

def sizedControl : String := "Package: a\nVersion: 1\nArchitecture: all\nSize: 7\n"

end Exactness

end ArtifactKeeper.Debian
