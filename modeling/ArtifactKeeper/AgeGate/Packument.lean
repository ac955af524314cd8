import ArtifactKeeper.AgeGate.Policy
import ArtifactKeeper.JsonValue
import Mathlib.Algebra.Group.Nat.Defs
import Mathlib.Data.List.Sort

/-! The age gate over an npm packument: the blocked versions leave `versions` and `time`, and
`dist-tags` is put in line with what is left. -/

namespace ArtifactKeeper.AgeGate

/-- `DateTime` parsing, RFC 3339 first and then without an offset, is a library's. -/
def parseIsoTimestamp (parse : String → Option Instant) (value : Json) : Option Instant :=
  value.asStr.bind parse

def parseNpmPublishTimes (parse : String → Option Instant) (packument : Json) :
    List (String × Instant) :=
  (packument.entriesAt "time").filterMap fun e =>
    if e.1 = "created" ∨ e.1 = "modified" then none
    else (parseIsoTimestamp parse e.2).map fun ts => (e.1, ts)

def collectNpmPackumentVersions (packument : Json) (publishTimes : List (String × Instant)) :
    List (String × Option Instant) :=
  (packument.keysAt "versions").map fun v => (v, publishTimes.lookup v)

/-- `str::parse::<u64>`. -/
def parseU64 (s : List Char) : Option ℕ :=
  let digits := match s with
    | '+' :: rest => rest
    | _ => s
  if digits = [] ∨ ¬ digits.all Char.isDigit then none
  else
    let n := digits.foldl (fun n c => 10 * n + (c.toNat - '0'.toNat)) 0
    if n < 2 ^ 64 then some n else none

/-- Two segments, as numbers when both are numbers and as text otherwise. -/
def compareSegment (a b : List Char) : Ordering :=
  match parseU64 a, parseU64 b with
  | some na, some nb => compare na nb
  | _, _ => compare a b

/-- The segments from the left; one that is missing counts as `0`. -/
def compareSegments : List (List Char) → List (List Char) → Ordering
  | [], [] => .eq
  | a :: as, [] => (compareSegment a ['0']).then (compareSegments as [])
  | [], b :: bs => (compareSegment ['0'] b).then (compareSegments [] bs)
  | a :: as, b :: bs => (compareSegment a b).then (compareSegments as bs)

def compareDotSegments (a b : List Char) : Ordering :=
  compareSegments (a.splitOn '.') (b.splitOn '.')

def splitVersionPrerelease (version : List Char) : List Char × Option (List Char) :=
  if '-' ∈ version then
    (version.takeWhile (· ≠ '-'), some ((version.dropWhile (· ≠ '-')).drop 1))
  else (version, none)

def versionCompare (a b : String) : Ordering :=
  let (mainA, preA) := splitVersionPrerelease a.toList
  let (mainB, preB) := splitVersionPrerelease b.toList
  (compareDotSegments mainA mainB).then <| match preA, preB with
    | none, none => .eq
    | none, some _ => .gt
    | some _, none => .lt
    | some pa, some pb => compareDotSegments pa pb

/-- On these versions the comparison is transitive. -/
def OrderedBy (versions : List String) : Prop :=
  ∀ a ∈ versions, ∀ b ∈ versions, ∀ c ∈ versions,
    versionCompare a b ≠ .gt → versionCompare b c ≠ .gt → versionCompare a c ≠ .gt

/-- Newest first, and equal versions in their order. -/
def sortByVersionDesc (versions : List String) : List String :=
  versions.insertionSort fun a b => versionCompare a b ≠ .lt

/-- `slice::sort_by` with the comparison of the versions, newest first. Where that is no total order
on them the sort may panic, which is `none`, and leaves them in any order otherwise. -/
structure VersionSort where
  sortBy : List String → Option (List String)
  perm : ∀ {versions sorted}, sortBy versions = some sorted → sorted.Perm versions
  stable : ∀ {versions}, OrderedBy versions →
    sortBy versions = some (sortByVersionDesc versions)

def reconcileDistTags (packument : Json) (allowed : List String) : Json :=
  packument.modify "dist-tags" <| Json.onObject fun tags =>
    let kept := tags.filter fun e => e.2.asStr.any (· ∈ allowed)
    match allowed.head? with
    | none => kept
    | some latest => Json.insert kept "latest" (.string latest)

/-- The body of the loop over the version keys. -/
def blockVersion (blocked : Finset String) (st : Json × List String) (version : String) :
    Json × List String :=
  if version ∈ blocked then
    ((st.1.modify "versions" (Json.onObject (Json.remove · version))).modify "time"
      (Json.onObject (Json.remove · version)), st.2)
  else (st.1, st.2 ++ [version])

/-- The loop: the packument without the blocked versions, and the versions that stay. -/
def removeBlocked (packument : Json) (blocked : Finset String) : Json × List String :=
  (packument.keysAt "versions").foldl (blockVersion blocked) (packument, [])

/-- The filtered packument and the versions it keeps, newest first; nothing if the sort panics. -/
def applyNpmPackumentBlocks (sort : VersionSort) (packument : Json) (blocked : Finset String) :
    Option (Json × List String) :=
  let st := removeBlocked packument blocked
  (sort.sortBy st.2).map fun allowed => (reconcileDistTags st.1 allowed, allowed)

/-- The listing of a packument: every version classified, and the blocked ones taken out. -/
def listNpmPackument (sort : VersionSort) (parse : String → Option Instant)
    (existingReviews : ReviewMap) (minAgeDays : ℤ) (now : Instant) (packument : Json) :
    Option Json :=
  let versions := collectNpmPackumentVersions packument (parseNpmPublishTimes parse packument)
  (applyNpmPackumentBlocks sort packument
    (classifyVersionsForMetadataListing versions existingReviews minAgeDays now).blocked).map
    Prod.fst

section Blocks
variable {blocked : Finset String}

/-- What the loop does to an object under either of its two keys. -/
theorem entriesAt_blockVersion (st : Json × List String) (version key : String)
    (hkey : key = "versions" ∨ key = "time") :
    (blockVersion blocked st version).1.entriesAt key =
      (st.1.entriesAt key).filter fun e => ¬ (e.1 = version ∧ version ∈ blocked) := by
  rw [blockVersion]
  split
  · rename_i hblocked
    rw [Json.entriesAt_modify _ _ _ _ rfl, Json.entriesAt_modify _ _ _ _ rfl]
    rcases hkey with rfl | rfl <;> simp [Json.remove, hblocked]
  · rename_i hallowed
    simp [hallowed]

theorem entriesAt_foldl_blockVersion (versions : List String) (st : Json × List String)
    (key : String) (hkey : key = "versions" ∨ key = "time") :
    (versions.foldl (blockVersion blocked) st).1.entriesAt key =
      (st.1.entriesAt key).filter fun e => ¬ (e.1 ∈ versions ∧ e.1 ∈ blocked) := by
  induction versions generalizing st with
  | nil => simp
  | cons version versions ih =>
    rw [List.foldl_cons, ih, entriesAt_blockVersion st version key hkey, List.filter_filter]
    apply List.filter_congr
    intro e _
    by_cases he : e.1 = version
    · by_cases hb : version ∈ blocked <;> simp [he, hb]
    · simp [he]

theorem foldl_blockVersion_allowed (versions : List String) (st : Json × List String) :
    (versions.foldl (blockVersion blocked) st).2 =
      st.2 ++ versions.filter fun v => v ∉ blocked := by
  induction versions generalizing st with
  | nil => simp
  | cons version versions ih =>
    rw [List.foldl_cons, ih, blockVersion]
    split
    · rename_i hblocked
      simp [hblocked]
    · rename_i hallowed
      simp [hallowed]

/-- `dist-tags` is the only part that the reconciliation changes. -/
theorem entriesAt_reconcileDistTags (packument : Json) (allowed : List String) (key : String)
    (hkey : key ≠ "dist-tags") :
    (reconcileDistTags packument allowed).entriesAt key = packument.entriesAt key := by
  rw [reconcileDistTags, Json.entriesAt, Json.get_modify, if_neg hkey]
  rfl

/-- A tag that is left, `latest` included, names an allowed version. -/
theorem target_of_reconcileDistTags {packument : Json} {allowed : List String}
    {e : String × Json} (h : e ∈ (reconcileDistTags packument allowed).entriesAt "dist-tags") :
    ∃ v ∈ allowed, e.2.asStr = some v := by
  have hmem := Json.mem_entriesAt_modify h
  have hkept : ∀ e ∈ (packument.entriesAt "dist-tags").filter
      (fun e => e.2.asStr.any (· ∈ allowed)), ∃ v ∈ allowed, e.2.asStr = some v := by
    intro e he
    obtain ⟨-, hany⟩ := List.mem_filter.mp he
    cases hstr : e.2.asStr with
    | none => simp [hstr] at hany
    | some v => exact ⟨v, by simpa [hstr] using hany, rfl⟩
  cases hhead : allowed.head? with
  | none => exact hkept e (by simpa [hhead] using hmem)
  | some latest =>
    simp only [hhead] at hmem
    rcases Json.mem_insert hmem with rfl | hmem
    · exact ⟨latest, List.mem_of_mem_head? hhead, rfl⟩
    · exact hkept e hmem

/-- The versions that stay, in the order of the packument. -/
def survivors (packument : Json) (blocked : Finset String) : List String :=
  (packument.keysAt "versions").filter (· ∉ blocked)

theorem removeBlocked_snd (packument : Json) (blocked : Finset String) :
    (removeBlocked packument blocked).2 = survivors packument blocked := by
  rw [removeBlocked, foldl_blockVersion_allowed, List.nil_append]
  rfl

theorem applyNpmPackumentBlocks_eq_some {sort : VersionSort} {packument filtered : Json}
    {allowed : List String} :
    applyNpmPackumentBlocks sort packument blocked = some (filtered, allowed) ↔
      sort.sortBy (survivors packument blocked) = some allowed ∧
        filtered = reconcileDistTags (removeBlocked packument blocked).1 allowed := by
  rw [applyNpmPackumentBlocks, removeBlocked_snd, Option.map_eq_some_iff]
  constructor
  · rintro ⟨sorted, hsorted, heq⟩
    cases heq
    exact ⟨hsorted, rfl⟩
  · rintro ⟨hsorted, rfl⟩
    exact ⟨allowed, hsorted, rfl⟩

theorem mem_keysAt_reconcileDistTags {packument : Json} {allowed : List String} {key v : String}
    (hkey : key = "versions" ∨ key = "time") :
    v ∈ (reconcileDistTags (removeBlocked packument blocked).1 allowed).keysAt key ↔
      v ∈ packument.keysAt key ∧ ¬ (v ∈ packument.keysAt "versions" ∧ v ∈ blocked) := by
  have hne : key ≠ "dist-tags" := by
    rcases hkey with rfl | rfl <;> decide
  rw [Json.mem_keysAt, entriesAt_reconcileDistTags _ _ _ hne, removeBlocked,
    entriesAt_foldl_blockVersion _ _ _ hkey, Json.mem_keysAt]
  simp only [List.mem_filter, decide_not, Bool.not_eq_true', decide_eq_false_iff_not]
  constructor
  · rintro ⟨e, ⟨hmem, hkeep⟩, rfl⟩
    exact ⟨⟨e, hmem, rfl⟩, hkeep⟩
  · rintro ⟨⟨e, hmem, rfl⟩, hkeep⟩
    exact ⟨e, ⟨hmem, hkeep⟩, rfl⟩

theorem mem_survivors_iff {packument : Json} {allowed : List String} {v : String} :
    v ∈ survivors packument blocked ↔
      v ∈ (reconcileDistTags (removeBlocked packument blocked).1 allowed).keysAt "versions" := by
  rw [mem_keysAt_reconcileDistTags (.inl rfl), survivors, List.mem_filter, decide_eq_true_eq]
  tauto

end Blocks

/-- The listing shows the versions whose download is allowed and nothing that hangs on others. -/
structure ListingMatchesDownload (packument listed : Json) (allows : String → Bool) : Prop where
  versions : ∀ v, v ∈ listed.keysAt "versions" ↔ v ∈ packument.keysAt "versions" ∧ allows v = true
  distTags : ∀ e ∈ listed.entriesAt "dist-tags",
    ∃ v ∈ listed.keysAt "versions", e.2.asStr = some v
  time : ∀ v ∈ packument.keysAt "versions", v ∉ listed.keysAt "versions" →
    v ∉ listed.keysAt "time"

/-- The versions whose download is allowed. -/
def downloadable (parse : String → Option Instant) (existingReviews : ReviewMap) (minAgeDays : ℤ)
    (now : Instant) (packument : Json) : List String :=
  (packument.keysAt "versions").filter fun v => allowsDownload existingReviews minAgeDays now v
    ((parseNpmPublishTimes parse packument).lookup v)

section Listing
variable (sort : VersionSort) (parse : String → Option Instant) (existingReviews : ReviewMap)
  (minAgeDays : ℤ) (now : Instant) (packument : Json)

theorem survivors_eq_downloadable :
    survivors packument (classifyVersionsForMetadataListing (collectNpmPackumentVersions packument
      (parseNpmPublishTimes parse packument)) existingReviews minAgeDays now).blocked =
      downloadable parse existingReviews minAgeDays now packument := by
  refine List.filter_congr fun v hv => ?_
  have hblocked : v ∈ (classifyVersionsForMetadataListing (collectNpmPackumentVersions packument
        (parseNpmPublishTimes parse packument)) existingReviews minAgeDays now).blocked ↔
      allowsDownload existingReviews minAgeDays now v
        ((parseNpmPublishTimes parse packument).lookup v) = false := by
    rw [mem_classify_blocked]
    constructor
    · rintro ⟨publishedAt, hmem, hfalse⟩
      obtain ⟨w, -, hw⟩ := List.mem_map.mp hmem
      cases hw
      exact hfalse
    · intro hfalse
      exact ⟨_, List.mem_map.mpr ⟨v, hv, rfl⟩, hfalse⟩
  simp [hblocked]

/-- If the sort returns, the listing agrees with the downloads. -/
theorem listNpmPackument_matches {listed : Json}
    (h : listNpmPackument sort parse existingReviews minAgeDays now packument = some listed) :
    ListingMatchesDownload packument listed fun v => allowsDownload existingReviews minAgeDays now v
      ((parseNpmPublishTimes parse packument).lookup v) := by
  obtain ⟨⟨filtered, allowed⟩, happly, rfl⟩ := Option.map_eq_some_iff.mp h
  obtain ⟨hsorted, rfl⟩ := applyNpmPackumentBlocks_eq_some.mp happly
  have hsurvive := survivors_eq_downloadable parse existingReviews minAgeDays now packument
  constructor
  · intro v
    rw [← mem_survivors_iff, hsurvive, downloadable, List.mem_filter]
  · intro e he
    obtain ⟨v, hv, htarget⟩ := target_of_reconcileDistTags he
    exact ⟨v, mem_survivors_iff.mp ((sort.perm hsorted).mem_iff.mp hv), htarget⟩
  · intro v hv hremoved htime
    rw [mem_keysAt_reconcileDistTags (.inl rfl)] at hremoved
    rw [mem_keysAt_reconcileDistTags (.inr rfl)] at htime
    exact hremoved ⟨hv, htime.2⟩

theorem isSome_listNpmPackument :
    (listNpmPackument sort parse existingReviews minAgeDays now packument).isSome =
      (sort.sortBy (downloadable parse existingReviews minAgeDays now packument)).isSome := by
  rw [listNpmPackument, applyNpmPackumentBlocks, removeBlocked_snd, survivors_eq_downloadable,
    Option.isSome_map, Option.isSome_map]

end Listing

end ArtifactKeeper.AgeGate
