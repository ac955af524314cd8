import ArtifactKeeper.AgeGate.Packument
import ArtifactKeeper.Occurrence

/-! The age gate over the simple index of a PyPI project, in its HTML and in its JSON form. -/

namespace ArtifactKeeper.AgeGate
open Occurrence (find First Stretches Ordered slice afterLast)

def trimEnd (suffix : List Char) : ℕ → List Char → List Char
  | 0, s => s
  | fuel + 1, s =>
    if suffix <:+ s then trimEnd suffix fuel (s.take (s.length - suffix.length)) else s

/-- `trim_end_matches`: the suffix is taken off as often as it is there. -/
def trimEndMatches (s suffix : List Char) : List Char := trimEnd suffix s.length s

/-- The part after the last dash of a source distribution's name. -/
def afterLastDash (name : List Char) : Option (List Char) :=
  if '-' ∈ name then some (afterLast '-' name) else none

def parseWheelFilename (filename : List Char) : Option (List Char) :=
  let parts := (trimEndMatches filename ".whl".toList).splitOn '-'
  if parts.length < 5 then none else parts[1]?

/-- The version that `PypiHandler::parse_filename` reads, if it accepts the name. -/
def pypiFilenameVersion (filename : List Char) : Option String :=
  (if ".whl".toList <:+ filename then parseWheelFilename filename
    else if ".tar.gz".toList <:+ filename then
      afterLastDash (trimEndMatches filename ".tar.gz".toList)
    else if ".zip".toList <:+ filename then afterLastDash (trimEndMatches filename ".zip".toList)
    else none).map String.ofList

def anchorOpening : List Char := "<a ".toList

def anchorClosing : List Char := "</a>".toList

def hrefOpening : List Char := "href=\"".toList

def extractHrefFilename (anchor : List Char) : Option (List Char) :=
  (find hrefOpening anchor).bind fun hrefStart =>
    let rest := anchor.drop (hrefStart + hrefOpening.length)
    (find ['"'] rest).bind fun hrefEnd =>
      let href := rest.take hrefEnd
      let basename := afterLast '/' href
      let filename := basename.takeWhile fun c => c ≠ '#' ∧ c ≠ '?'
      if filename = [] then none else some filename

def pypiAnchorVersion (anchor : List Char) : Option String :=
  (extractHrefFilename anchor).bind pypiFilenameVersion

structure PypiAnchorSpan where
  start : ℕ
  stop : ℕ
  version : Option String
  deriving DecidableEq, Repr

/-- The loop of the first pass; each turn moves the cursor on, so `fuel` past the length of the
page is never used up. -/
def anchorSpans (html : List Char) : ℕ → ℕ → List PypiAnchorSpan
  | 0, _ => []
  | fuel + 1, cursor =>
    match find anchorOpening (html.drop cursor) with
    | none => []
    | some rel =>
      let start := cursor + rel
      match find anchorClosing (html.drop start) with
      | none => []
      | some endRel =>
        let stop := start + endRel + anchorClosing.length
        ⟨start, stop, pypiAnchorVersion (slice html start stop)⟩ :: anchorSpans html fuel stop

/-- The anchors of the page, and their versions without repetition. -/
def parsePypiSimpleIndexAnchors (html : List Char) :
    List PypiAnchorSpan × List (String × Option Instant) :=
  let spans := anchorSpans html (html.length + 1) 0
  (spans, (spans.filterMap (·.version)).eraseDups.map fun v => (v, none))

def PypiAnchorSpan.dropped (span : PypiAnchorSpan) (blocked : Finset String) : Bool :=
  span.version.any (· ∈ blocked)

/-- The second pass from `cursor` on. It only copies, so it is written for any kind of items. -/
def rebuildFrom {α : Type} (html : List α) (blocked : Finset String) :
    ℕ → List PypiAnchorSpan → List α
  | cursor, [] => html.drop cursor
  | cursor, span :: spans =>
    slice html cursor span.start ++
      (if span.dropped blocked then [] else slice html span.start span.stop) ++
      rebuildFrom html blocked span.stop spans

def rebuildPypiSimpleIndexHtml {α : Type} (html : List α) (spans : List PypiAnchorSpan)
    (blocked : Finset String) : List α :=
  rebuildFrom html blocked 0 spans

/-- The file name of an entry of `files`. -/
def jsonFilename (file : Json) : Option String := (file.get "filename").bind Json.asStr

def jsonFilenames (index : Json) : List String := (index.itemsAt "files").filterMap jsonFilename

def applyPypiSimpleJsonBlocks (index : Json) (blocked : Finset String) : Json :=
  (index.modify "files" (Json.onArray (List.filter fun file =>
    !((jsonFilename file).bind fun f => pypiFilenameVersion f.toList).any (· ∈ blocked)))).modify
    "versions" (Json.onArray (List.filter fun v => !v.asStr.any (· ∈ blocked)))

/-- The text names a version: its first `href="` opens a value whose last path segment, as far as
the first `#` or `?`, is the name of a distribution of that version. -/
def NamesVersion (anchor : List Char) (version : String) : Prop :=
  ∃ before dir name tail after : List Char,
    anchor = before ++ hrefOpening ++ (dir ++ (name ++ tail) ++ '"' :: after) ∧
    First hrefOpening anchor before.length ∧ '"' ∉ dir ++ (name ++ tail) ∧
    '/' ∉ name ++ tail ∧ (∀ c ∈ dir.getLast?, c = '/') ∧
    (∀ c ∈ name, c ≠ '#' ∧ c ≠ '?') ∧ (∀ c ∈ tail.head?, c = '#' ∨ c = '?') ∧
    name ≠ [] ∧ pypiFilenameVersion name = some version

theorem hrefOpening_ne_nil : hrefOpening ≠ [] := by decide

theorem cutAtFragment_iff {basename name : List Char} :
    (basename.takeWhile fun c => c ≠ '#' ∧ c ≠ '?') = name ↔
      ∃ tail, basename = name ++ tail ∧ (∀ c ∈ name, c ≠ '#' ∧ c ≠ '?') ∧
        ∀ c ∈ tail.head?, c = '#' ∨ c = '?' := by
  rw [Occurrence.takeWhile_eq_iff]
  simp [or_iff_not_imp_left]

theorem pypiAnchorVersion_eq_some_iff {anchor : List Char} {version : String} :
    pypiAnchorVersion anchor = some version ↔ NamesVersion anchor version := by
  rw [pypiAnchorVersion, Option.bind_eq_some_iff]
  simp only [extractHrefFilename, Option.bind_eq_some_iff, Occurrence.find_eq_some_iff,
    Option.ite_none_left_eq_some, Option.some.injEq]
  constructor
  · rintro ⟨name, ⟨n, hn, m, hm, hne, hname⟩, hversion⟩
    obtain ⟨hsplit, hlen⟩ := hn.split hrefOpening_ne_nil
    obtain ⟨hrest, hmlen⟩ := hm.split (by simp)
    obtain ⟨tail, hbase, hclean, htail⟩ := cutAtFragment_iff.mp hname
    obtain ⟨dir, hhref, hslash, hdir⟩ := Occurrence.afterLast_eq_iff.mp hbase
    rw [List.append_assoc, List.singleton_append] at hrest
    refine ⟨anchor.take n, dir, name, tail,
      (anchor.drop (n + hrefOpening.length)).drop (m + 1), ?_, by rw [hlen]; exact hn, ?_, hslash,
      hdir, hclean, htail, by rw [← hname]; exact hne, hversion⟩
    · rw [← hhref]
      exact hsplit.trans (congrArg (anchor.take n ++ hrefOpening ++ ·) hrest)
    · rw [← hhref]
      apply Occurrence.first_singleton_iff.mp
      rw [hmlen, ← hrest]
      exact hm
  · rintro ⟨before, dir, name, tail, after, hanchor, hfirst, hquote, hslash, hdir, hclean, htail,
      hne, hversion⟩
    have hrest : anchor.drop (before.length + hrefOpening.length) =
        dir ++ (name ++ tail) ++ '"' :: after := by
      rw [hanchor, ← List.length_append, List.drop_left]
    have hbase : afterLast '/' (dir ++ (name ++ tail)) = name ++ tail :=
      Occurrence.afterLast_eq_iff.mpr ⟨dir, rfl, hslash, hdir⟩
    have hcut := cutAtFragment_iff.mpr ⟨tail, rfl, hclean, htail⟩
    refine ⟨name, ⟨before.length, hfirst, (dir ++ (name ++ tail)).length, ?_, ?_⟩, hversion⟩
    · rw [hrest]
      exact Occurrence.first_singleton_iff.mpr hquote
    · rw [hrest, List.take_left, hbase, hcut]
      exact ⟨hne, rfl⟩

/-! The first pass finds the stretches from `<a ` to `</a>`. -/

def PypiAnchorSpan.region (span : PypiAnchorSpan) : ℕ × ℕ := (span.start, span.stop)

theorem anchorSpans_stretches (html : List Char) {fuel cursor : ℕ}
    (hfuel : html.length < fuel + cursor) :
    Stretches anchorOpening anchorClosing html cursor
      ((anchorSpans html fuel cursor).map (·.region)) := by
  induction fuel generalizing cursor with
  | zero =>
    refine .done fun n hn => ?_
    have hlen := hn.add_length_le (by decide)
    rw [List.length_drop] at hlen
    have hpos : anchorOpening.length = 3 := by decide
    omega
  | succ fuel ih =>
    rw [anchorSpans]
    cases hopen : find anchorOpening (html.drop cursor) with
    | none =>
      exact .done fun n hn => (Occurrence.find_eq_none_iff.mp hopen n hn).elim
    | some rel =>
      have hfirst := Occurrence.find_eq_some_iff.mp hopen
      dsimp only
      cases hclose : find anchorClosing (html.drop (cursor + rel)) with
      | none =>
        refine .done fun n hn m hm => ?_
        obtain rfl := hn.unique hfirst
        exact Occurrence.find_eq_none_iff.mp hclose m hm
      | some endRel =>
        have hlast := Occurrence.find_eq_some_iff.mp hclose
        have hpos : anchorClosing.length = 4 := by decide
        exact .next hfirst hlast (ih (by omega))

/-- A span is not empty, and its version is the one that its text names. -/
theorem of_mem_anchorSpans {html : List Char} {fuel cursor : ℕ} {span : PypiAnchorSpan}
    (h : span ∈ anchorSpans html fuel cursor) :
    span.start < span.stop ∧
      span.version = pypiAnchorVersion (slice html span.start span.stop) := by
  induction fuel generalizing cursor with
  | zero => simp [anchorSpans] at h
  | succ fuel ih =>
    rw [anchorSpans] at h
    split at h
    · cases h
    · dsimp only at h
      split at h
      · cases h
      · rcases List.mem_cons.mp h with rfl | h
        · have hpos : anchorClosing.length = 4 := by decide
          exact ⟨by dsimp only; omega, rfl⟩
        · exact ih h

/-! The second pass keeps what stands outside the dropped spans. -/

theorem rebuildFrom_map {α β : Type} (f : α → β) (html : List α) (blocked : Finset String)
    (cursor : ℕ) (spans : List PypiAnchorSpan) :
    rebuildFrom (html.map f) blocked cursor spans =
      (rebuildFrom html blocked cursor spans).map f := by
  induction spans generalizing cursor with
  | nil => simp [rebuildFrom]
  | cons span spans ih =>
    rw [rebuildFrom, rebuildFrom, ih, Occurrence.slice_map, Occurrence.slice_map]
    split <;> simp

/-- The positions of the page whose characters the filter copies. -/
def keptPositions (html : List Char) (blocked : Finset String) : List ℕ :=
  rebuildPypiSimpleIndexHtml (List.range html.length) (parsePypiSimpleIndexAnchors html).1 blocked

/-- The filtered page is the page at the kept positions. -/
theorem rebuild_eq_keptPositions (html : List Char) (blocked : Finset String) :
    rebuildPypiSimpleIndexHtml html (parsePypiSimpleIndexAnchors html).1 blocked =
      (keptPositions html blocked).map fun i => html.getD i ' ' := by
  have hpage : html = (List.range html.length).map fun i => html.getD i ' ' := by
    apply List.ext_getElem
    · simp
    · intro i hi _
      simp [List.getD_eq_getElem?_getD, List.getElem?_eq_getElem hi]
  rw [keptPositions, rebuildPypiSimpleIndexHtml, rebuildPypiSimpleIndexHtml, ← rebuildFrom_map,
    ← hpage]

theorem mem_rebuildFrom_range {n : ℕ} {blocked : Finset String} {cursor i : ℕ}
    {spans : List PypiAnchorSpan} (hordered : Ordered cursor (spans.map (·.region))) :
    i ∈ rebuildFrom (List.range n) blocked cursor spans ↔ cursor ≤ i ∧ i < n ∧
      ∀ span ∈ spans, span.dropped blocked → ¬ (span.start ≤ i ∧ i < span.stop) := by
  induction spans generalizing cursor with
  | nil => simpa [rebuildFrom] using Occurrence.mem_drop_range
  | cons span spans ih =>
    cases hordered with
    | cons hstart hstop hrest =>
      have hafter : ∀ later ∈ spans, span.stop ≤ later.start := fun later hlater =>
        hrest.start_le later.region (List.mem_map_of_mem hlater)
      rw [rebuildFrom, List.append_assoc, List.mem_append, List.mem_append, ih hrest,
        Occurrence.mem_slice_range, List.forall_mem_cons]
      constructor
      · rintro (⟨hcursor, hi, hn⟩ | hkept | ⟨hi, hn, hlater⟩)
        · exact ⟨hcursor, hn, fun _ => by omega, fun later hl _ => by
            have := hafter later hl
            omega⟩
        · split at hkept
          · cases hkept
          · rename_i hnot
            obtain ⟨hlo, hhi, hn⟩ := Occurrence.mem_slice_range.mp hkept
            exact ⟨by omega, hn, fun hdropped => (hnot hdropped).elim, fun later hl _ => by
              have := hafter later hl
              omega⟩
        · exact ⟨by omega, hn, fun _ => by omega, hlater⟩
      · rintro ⟨hcursor, hn, hspan, hlater⟩
        by_cases hbefore : i < span.start
        · exact .inl ⟨hcursor, hbefore, hn⟩
        · by_cases hinside : i < span.stop
          · have hnot : ¬ span.dropped blocked := fun hdropped => hspan hdropped ⟨by omega, hinside⟩
            refine .inr (.inl ?_)
            rw [if_neg hnot]
            exact Occurrence.mem_slice_range.mpr ⟨by omega, hinside, hn⟩
          · exact .inr (.inr ⟨by omega, hn, hlater⟩)

theorem mem_keptPositions {html : List Char} {blocked : Finset String} {i : ℕ} :
    i ∈ keptPositions html blocked ↔ i < html.length ∧
      ∀ span ∈ (parsePypiSimpleIndexAnchors html).1, span.dropped blocked →
        ¬ (span.start ≤ i ∧ i < span.stop) := by
  have hordered :=
    (anchorSpans_stretches html (show html.length < html.length + 1 + 0 by omega)).ordered
  rw [keptPositions, rebuildPypiSimpleIndexHtml]
  exact (mem_rebuildFrom_range hordered).trans (by simp [parsePypiSimpleIndexAnchors])

/-! The JSON form. -/

/-- The file names that are left are those without a blocked version. -/
theorem mem_jsonFilenames_apply {index : Json} {blocked : Finset String} {name : String} :
    name ∈ jsonFilenames (applyPypiSimpleJsonBlocks index blocked) ↔
      name ∈ jsonFilenames index ∧ ∀ v, pypiFilenameVersion name.toList = some v → v ∉ blocked := by
  have hitems : (applyPypiSimpleJsonBlocks index blocked).itemsAt "files" =
      (index.itemsAt "files").filter fun file =>
        !((jsonFilename file).bind fun f => pypiFilenameVersion f.toList).any (· ∈ blocked) := by
    rw [applyPypiSimpleJsonBlocks, Json.itemsAt_modify _ _ _ _ rfl, if_neg (by decide),
      Json.itemsAt_modify _ _ _ _ rfl, if_pos rfl]
  rw [jsonFilenames, jsonFilenames, hitems]
  simp only [List.mem_filterMap, List.mem_filter]
  constructor
  · rintro ⟨file, ⟨hmem, hkeep⟩, hname⟩
    refine ⟨⟨file, hmem, hname⟩, fun v hv hblocked => ?_⟩
    simp [hname, hv, hblocked] at hkeep
  · rintro ⟨⟨file, hmem, hname⟩, hkeep⟩
    refine ⟨file, ⟨hmem, ?_⟩, hname⟩
    cases hv : pypiFilenameVersion name.toList with
    | none => simp [hname, hv]
    | some v => simp [hname, hv, hkeep v hv]

/-! Both forms of one index. -/

/-- The link of a file and where it stands in the page. -/
structure PageLink where
  file : String
  start : ℕ
  stop : ℕ

/-- One list of files, as a JSON index and as a page with a link for each. -/
structure SimpleIndex where
  json : Json
  html : List Char
  links : List PageLink
  placed : ∀ l ∈ links, l.start < l.stop ∧ l.stop ≤ html.length
  sameFiles : ∀ name, name ∈ jsonFilenames json ↔ name ∈ links.map (·.file)

namespace SimpleIndex
variable (ix : SimpleIndex)

/-- The filtered page still has the whole link. -/
def keepsLink (blocked : Finset String) (l : PageLink) : Prop :=
  ∀ i, l.start ≤ i → i < l.stop → i ∈ keptPositions ix.html blocked

/-- Whatever the blocked versions, the two filters keep links for the same files. -/
def FiltersAgree : Prop :=
  ∀ blocked : Finset String, ∀ l ∈ ix.links,
    ix.keepsLink blocked l ↔ l.file ∈ jsonFilenames (applyPypiSimpleJsonBlocks ix.json blocked)

/-- Cut the page from the left into stretches from `<a ` to the next `</a>`. The versions that the
stretches over a link name are just the version of the link's file. -/
def LinksNameTheirFiles : Prop :=
  ∃ regions, Stretches anchorOpening anchorClosing ix.html 0 regions ∧
    ∀ l ∈ ix.links, ∀ v,
      (∃ r ∈ regions, (r.1 < l.stop ∧ l.start < r.2) ∧ NamesVersion (slice ix.html r.1 r.2) v) ↔
        pypiFilenameVersion l.file.toList = some v

variable {ix}

/-- A link is lost exactly when a dropped span reaches into it. -/
theorem keepsLink_iff {blocked : Finset String} {l : PageLink} (hl : l ∈ ix.links) :
    ix.keepsLink blocked l ↔ ∀ span ∈ (parsePypiSimpleIndexAnchors ix.html).1,
      span.start < l.stop ∧ l.start < span.stop → ¬ span.dropped blocked := by
  obtain ⟨hnonempty, hstop⟩ := ix.placed l hl
  constructor
  · intro hkeeps span hspan hmeets hdropped
    have hpos := (of_mem_anchorSpans hspan).1
    have hkept := hkeeps (max span.start l.start) (by omega) (by omega)
    exact (mem_keptPositions.mp hkept).2 span hspan hdropped (by omega)
  · intro hnone i hlo hhi
    refine mem_keptPositions.mpr ⟨by omega, fun span hspan hdropped hin => ?_⟩
    exact hnone span hspan ⟨by omega, by omega⟩ hdropped

theorem dropped_iff {span : PypiAnchorSpan} {blocked : Finset String} :
    span.dropped blocked ↔ ∃ v ∈ blocked, span.version = some v := by
  cases hversion : span.version with
  | none => simp [PypiAnchorSpan.dropped, hversion]
  | some v => simp [PypiAnchorSpan.dropped, hversion]

/-- A version is named over the link when a span that reaches into it has this version. -/
def NamedOver (ix : SimpleIndex) (l : PageLink) (v : String) : Prop :=
  ∃ span ∈ (parsePypiSimpleIndexAnchors ix.html).1,
    (span.start < l.stop ∧ l.start < span.stop) ∧ span.version = some v

theorem linksNameTheirFiles_iff :
    ix.LinksNameTheirFiles ↔ ∀ l ∈ ix.links, ∀ v,
      ix.NamedOver l v ↔ pypiFilenameVersion l.file.toList = some v := by
  have hstretches : Stretches anchorOpening anchorClosing ix.html 0
      ((parsePypiSimpleIndexAnchors ix.html).1.map (·.region)) :=
    anchorSpans_stretches ix.html (by omega)
  have hnamed : ∀ l v, (∃ r ∈ (parsePypiSimpleIndexAnchors ix.html).1.map (·.region),
      (r.1 < l.stop ∧ l.start < r.2) ∧ NamesVersion (slice ix.html r.1 r.2) v) ↔
      ix.NamedOver l v := by
    intro l v
    constructor
    · rintro ⟨r, hr, hmeets, hnames⟩
      obtain ⟨span, hspan, rfl⟩ := List.mem_map.mp hr
      refine ⟨span, hspan, hmeets, ?_⟩
      rw [(of_mem_anchorSpans hspan).2]
      exact pypiAnchorVersion_eq_some_iff.mpr hnames
    · rintro ⟨span, hspan, hmeets, hversion⟩
      refine ⟨span.region, List.mem_map_of_mem hspan, hmeets, ?_⟩
      rw [(of_mem_anchorSpans hspan).2] at hversion
      exact pypiAnchorVersion_eq_some_iff.mp hversion
  constructor
  · rintro ⟨regions, hregions, hlinks⟩ l hl v
    rw [← hnamed l v, ← hregions.unique hstretches]
    exact hlinks l hl v
  · intro hlinks
    exact ⟨_, hstretches, fun l hl v => (hnamed l v).trans (hlinks l hl v)⟩

theorem keepsLink_iff_namedOver {blocked : Finset String} {l : PageLink} (hl : l ∈ ix.links) :
    ix.keepsLink blocked l ↔ ∀ v ∈ blocked, ¬ ix.NamedOver l v := by
  rw [keepsLink_iff hl]
  constructor
  · rintro hnone v hv ⟨span, hspan, hmeets, hversion⟩
    exact hnone span hspan hmeets (dropped_iff.mpr ⟨v, hv, hversion⟩)
  · intro hnone span hspan hmeets hdropped
    obtain ⟨v, hv, hversion⟩ := dropped_iff.mp hdropped
    exact hnone v hv ⟨span, hspan, hmeets, hversion⟩

theorem keptByJson_iff {blocked : Finset String} {l : PageLink} (hl : l ∈ ix.links) :
    l.file ∈ jsonFilenames (applyPypiSimpleJsonBlocks ix.json blocked) ↔
      ∀ v ∈ blocked, pypiFilenameVersion l.file.toList ≠ some v := by
  have hlisted := (ix.sameFiles l.file).mpr (List.mem_map_of_mem hl)
  rw [mem_jsonFilenames_apply]
  constructor
  · rintro ⟨-, hkeep⟩ v hv hversion
    exact hkeep v hversion hv
  · intro hkeep
    exact ⟨hlisted, fun v hversion hv => hkeep v hv hversion⟩

/-- Blocking one version at a time tells the two forms apart whenever they differ. -/
theorem filtersAgree_iff_linksNameTheirFiles : ix.FiltersAgree ↔ ix.LinksNameTheirFiles := by
  rw [linksNameTheirFiles_iff]
  constructor
  · intro hagree l hl v
    have hone := hagree {v} l hl
    rw [keepsLink_iff_namedOver hl, keptByJson_iff hl] at hone
    simpa using not_congr hone
  · intro hnames blocked l hl
    rw [keepsLink_iff_namedOver hl, keptByJson_iff hl]
    exact forall₂_congr fun v _ => not_congr (hnames l hl v)

end SimpleIndex

/-- Listing and download agree on an npm package exactly when the sort of the versions that stay
returns, which it does where their comparison is transitive; and the two forms of a PyPI index agree
exactly when the page is written so that the stretches over each link name the link's file. -/
theorem listings_agree_iff (sort : VersionSort) (parse : String → Option Instant)
    (existingReviews : ReviewMap) (minAgeDays : ℤ) (now : Instant) (packument : Json)
    (ix : SimpleIndex) :
    ((∃ listed, listNpmPackument sort parse existingReviews minAgeDays now packument =
          some listed ∧ ListingMatchesDownload packument listed
        (fun v => allowsDownload existingReviews minAgeDays now v
          ((parseNpmPublishTimes parse packument).lookup v))) ∧
      ix.FiltersAgree ↔
        (sort.sortBy (downloadable parse existingReviews minAgeDays now packument)).isSome = true ∧
          ix.LinksNameTheirFiles) ∧
    (OrderedBy (downloadable parse existingReviews minAgeDays now packument) →
      (sort.sortBy (downloadable parse existingReviews minAgeDays now packument)).isSome =
        true) := by
  constructor
  · rw [SimpleIndex.filtersAgree_iff_linksNameTheirFiles, ← isSome_listNpmPackument,
      Option.isSome_iff_exists]
    refine and_congr_left' (exists_congr fun listed => and_iff_left_of_imp fun hlisted => ?_)
    exact listNpmPackument_matches sort parse existingReviews minAgeDays now packument hlisted
  · intro hordered
    rw [sort.stable hordered]
    rfl

/-- A page with one attribute value, in the given quotes. -/
def quotedPage (before value after : List Char) (quote : Char) : List Char :=
  before ++ quote :: value ++ quote :: after

theorem quotedPage_length (before value after : List Char) (quote : Char) :
    (quotedPage before value after quote).length =
      before.length + value.length + after.length + 2 := by
  simp only [quotedPage, List.length_append, List.length_cons]
  omega

def oneFilePage (quote : Char) : List Char :=
  quotedPage "<!DOCTYPE html><html><head><title>foo</title></head><body><a href=".toList
    "/packages/foo-1.0.tar.gz".toList ">foo-1.0.tar.gz</a></body></html>".toList quote

theorem oneFilePage_length (quote : Char) : (oneFilePage quote).length = 125 :=
  (quotedPage_length _ _ _ quote).trans (by decide +kernel)

def oneFileJson : Json :=
  .object [("meta", .object [("api-version", .string "1.0")]), ("name", .string "foo"),
    ("files", .array [.object [("filename", .string "foo-1.0.tar.gz"),
      ("url", .string "/packages/foo-1.0.tar.gz"), ("hashes", .object [])]])]

def oneFileLink : PageLink := ⟨"foo-1.0.tar.gz", 58, 111⟩

def oneFileIndex (quote : Char) : SimpleIndex where
  json := oneFileJson
  html := oneFilePage quote
  links := [oneFileLink]
  placed := by
    intro l hl
    rw [oneFilePage_length, List.mem_singleton.mp hl]
    decide
  sameFiles := by
    intro name
    rfl

example : (oneFileIndex '"').LinksNameTheirFiles := by
  have hspans : (parsePypiSimpleIndexAnchors (oneFilePage '"')).1 = [⟨58, 111, some "1.0"⟩] := by
    decide +kernel
  have hversion : pypiFilenameVersion oneFileLink.file.toList = some "1.0" := by decide +kernel
  refine SimpleIndex.linksNameTheirFiles_iff.mpr fun l hl v => ?_
  obtain rfl := List.mem_singleton.mp hl
  change (∃ span ∈ (parsePypiSimpleIndexAnchors (oneFilePage '"')).1, _) ↔ _
  rw [hspans, hversion]
  simp [oneFileLink]

/-- Version 1.0 leaves the JSON index and stays linked in the page in single quotes. -/
theorem singleQuoted_link_stays :
    (oneFileIndex '\'').keepsLink {"1.0"} oneFileLink ∧
      jsonFilenames (applyPypiSimpleJsonBlocks oneFileJson {"1.0"}) = [] ∧
      ¬ (oneFileIndex '\'').FiltersAgree := by
  have hlink : oneFileLink ∈ (oneFileIndex '\'').links := List.mem_singleton_self _
  have hkeeps : (oneFileIndex '\'').keepsLink {"1.0"} oneFileLink := by
    refine (SimpleIndex.keepsLink_iff hlink).mpr ?_
    decide +kernel
  have hempty : jsonFilenames (applyPypiSimpleJsonBlocks oneFileJson {"1.0"}) = [] := by
    decide +kernel
  refine ⟨hkeeps, hempty, fun hagree => ?_⟩
  have hlisted := (hagree {"1.0"} _ hlink).mp hkeeps
  change _ ∈ jsonFilenames (applyPypiSimpleJsonBlocks oneFileJson {"1.0"}) at hlisted
  rw [hempty] at hlisted
  cases hlisted

end ArtifactKeeper.AgeGate
