import ArtifactKeeper.Segments
import ArtifactKeeper.Text
import Mathlib.Data.List.Infix

/-! The cache classifier of the proxy: which paths are cached forever, and that the pointers which
an upstream rewrites in place are none of them as long as no name looks like a part of the
layout. -/

namespace ArtifactKeeper.Proxy.CacheClassifier

open Text Segments

def mutableDefaultTtlSecs : ℤ := 300

inductive Mutability where
  | immutable
  | mutable (defaultTtlSecs : ℤ)
  deriving DecidableEq, Repr

def Mutability.mutableDefault : Mutability := .mutable mutableDefaultTtlSecs

def Mutability.isImmutable : Mutability → Bool
  | .immutable => true
  | .mutable _ => false

/-- The formats with a rule of their own; `other` is any of the rest. -/
inductive RepositoryFormat where
  | maven | gradle | sbt
  | pypi | poetry | conda
  | npm | yarn | pnpm | bower
  | docker | podman | buildx | oras | wasmOci | helmOci
  | cargo
  | debian
  | rpm
  | other
  deriving DecidableEq, Repr

def contains (cs pat : List Char) : Bool := decide (pat <:+: cs)

def endsWith (cs suffix : List Char) : Bool := suffix.isSuffixOf cs

def startsWith (cs pat : List Char) : Bool := pat.isPrefixOf cs

def stripSuffix (suffix cs : List Char) : Option (List Char) :=
  if suffix.isSuffixOf cs then some (cs.take (cs.length - suffix.length)) else none

def lowercase (cs : List Char) : List Char := cs.map Char.toLower

def leaf (path : List Char) : List Char := last '/' path

def artifactExts : List (List Char) :=
  [".jar", ".pom", ".war", ".ear", ".aar", ".zip", ".tar.gz", ".tgz", ".module", ".klib"].map
    String.toList

def sidecarExts : List (List Char) :=
  [".md5", ".sha1", ".sha256", ".sha512", ".asc"].map String.toList

def hasArtifactExtension (leaf : List Char) : Bool :=
  let base := (sidecarExts.findSome? fun s => stripSuffix s leaf).getD leaf
  artifactExts.any fun e => endsWith base e

def pypiExts : List (List Char) :=
  [".whl", ".tar.gz", ".tar.bz2", ".zip", ".egg", ".tgz", ".conda", ".tar.zst"].map String.toList

def isPypiPackageFile (leaf : List Char) : Bool := pypiExts.any fun e => endsWith leaf e

def classifyMaven (lower : List Char) : Mutability :=
  let leaf := leaf lower
  if startsWith leaf "maven-metadata.xml".toList then .mutableDefault
  else if contains lower "-snapshot/".toList && !hasArtifactExtension leaf then .mutableDefault
  else if hasArtifactExtension leaf then .immutable
  else .mutableDefault

def classifyPypi (lower : List Char) : Mutability :=
  if lower = "simple".toList || lower = "simple/".toList || startsWith lower "simple/".toList then
    if isPypiPackageFile (leaf lower) then .immutable else .mutableDefault
  else if isPypiPackageFile (leaf lower) then .immutable
  else .mutableDefault

def classifyNpm (lower : List Char) : Mutability :=
  if contains lower "/-/".toList && endsWith lower ".tgz".toList then .immutable
  else .mutableDefault

def classifyOci (lower : List Char) : Mutability :=
  if (contains lower "/blobs/".toList || contains lower "/manifests/".toList) &&
      contains lower "sha256:".toList then .immutable
  else if contains lower "/blobs/".toList then .immutable
  else .mutableDefault

def classifyCargo (lower : List Char) : Mutability :=
  if (startsWith lower "crates/".toList || contains lower "/crates/".toList) &&
      endsWith lower ".crate".toList then .immutable
  else .mutableDefault

def classifyDebian (lower : List Char) : Mutability :=
  if contains lower "/by-hash/".toList then .immutable
  else if startsWith lower "pool/".toList || contains lower "/pool/".toList then .immutable
  else .mutableDefault

def isAsciiHexdigit (c : Char) : Bool :=
  c.isDigit || ('a' ≤ c && c ≤ 'f') || ('A' ≤ c && c ≤ 'F')

def classifyRpm (lower : List Char) : Mutability :=
  let leaf := leaf lower
  if leaf = "repomd.xml".toList || leaf = "repomd.xml.asc".toList then .mutableDefault
  else if endsWith leaf ".rpm".toList || endsWith leaf ".drpm".toList then .immutable
  else if contains lower "repodata/".toList then
    match splitOnce '-' leaf with
    | some (hash, _) =>
      if 8 ≤ hash.length && hash.all isAsciiHexdigit then .immutable else .mutableDefault
    | none => .mutableDefault
  else .mutableDefault

def classify (format : RepositoryFormat) (path : List Char) : Mutability :=
  let lower := lowercase (path.dropWhile (· == '/'))
  match format with
  | .maven | .gradle | .sbt => classifyMaven lower
  | .pypi | .poetry | .conda => classifyPypi lower
  | .npm | .yarn | .pnpm | .bower => classifyNpm lower
  | .docker | .podman | .buildx | .oras | .wasmOci | .helmOci => classifyOci lower
  | .cargo => classifyCargo lower
  | .debian => classifyDebian lower
  | .rpm => classifyRpm lower
  | .other => .mutableDefault

section Pointers

def isMavenFormat (format : RepositoryFormat) : Prop :=
  format = .maven ∨ format = .gradle ∨ format = .sbt

def isOciFormat (format : RepositoryFormat) : Prop :=
  format = .docker ∨ format = .podman ∨ format = .buildx ∨ format = .oras ∨ format = .wasmOci ∨
    format = .helmOci

/-- Eight digits, a dot, six digits, a dash and a build number: what Maven puts for `SNAPSHOT`. -/
def startsTimestamp (cs : List Char) : Bool :=
  let time := (cs.drop 9).take 6
  let build := cs.drop 16
  (cs.take 8).length == 8 && (cs.take 8).all Char.isDigit && cs[8]? == some '.' &&
    time.length == 6 && time.all Char.isDigit && cs[15]? == some '-' &&
    build.head?.any Char.isDigit &&
    (build.dropWhile Char.isDigit).head?.any fun c => c == '.' || c == '-'

/-- A concrete timestamped artifact of a snapshot, as in `app-1.0-20240101.120000-3.jar`. -/
def isTimestampedArtifact (leaf : List Char) : Bool :=
  (leaf.tails.any fun t => t.head? == some '-' && startsTimestamp t.tail) &&
    hasArtifactExtension (lowercase leaf)

/-- The paths that an upstream rewrites in place. -/
inductive Pointer where
  | manifest (name : List (List Char)) (tag : List Char)
  | tagsList (name : List (List Char))
  | mavenMetadata (path : List Char)
  | snapshot (path : List Char)
  | debianIndex (path : List Char)

def slashed (segments : List (List Char)) : List Char := ['/'].intercalate segments

def Pointer.path : Pointer → List Char
  | .manifest name tag => slashed (["v2".toList] ++ name ++ ["manifests".toList, tag])
  | .tagsList name => slashed (["v2".toList] ++ name ++ ["tags".toList, "list".toList])
  | .mavenMetadata path | .snapshot path | .debianIndex path => path

/-- The characters of the components of a repository name. -/
def isNameChar (c : Char) : Bool := c.isLower || c.isDigit || c == '.' || c == '_' || c == '-'

def isTagChar (c : Char) : Bool := c.isAlphanum || c == '.' || c == '_' || c == '-'

def Pointer.WellFormed : Pointer → RepositoryFormat → Prop
  | .manifest name tag, format =>
    isOciFormat format ∧ (name.all fun c => c.all isNameChar) = true ∧ tag.all isTagChar = true
  | .tagsList name, format => isOciFormat format ∧ (name.all fun c => c.all isNameChar) = true
  | .mavenMetadata path, format =>
    isMavenFormat format ∧ startsWith (leaf path) "maven-metadata.xml".toList = true
  | .snapshot path, format => isMavenFormat format ∧ contains path "-SNAPSHOT/".toList = true ∧
      isTimestampedArtifact (leaf path) = false
  | .debianIndex path, format => format = .debian ∧ startsWith path "dists/".toList = true ∧
      "by-hash".toList ∉ path.splitOn '/'

/-- No name looks like a part of the layout: no component of an image is called `blobs`, no file of
a snapshot has the extension of an artifact, and no directory of an index is called `pool` or
`by-hash` in any case. -/
def Pointer.Distinct : Pointer → Prop
  | .manifest name _ | .tagsList name => "blobs".toList ∉ name
  | .mavenMetadata _ => True
  | .snapshot path => startsWith (lowercase (leaf path)) "maven-metadata.xml".toList = true ∨
      hasArtifactExtension (lowercase (leaf path)) = false
  | .debianIndex path =>
    ∀ s ∈ between '/' path, lowercase s ≠ "pool".toList ∧ lowercase s ≠ "by-hash".toList

end Pointers

section Lowercase

theorem toLower_eq_slash (c : Char) : c.toLower = '/' ↔ c = '/' := toLower_eq_iff (by decide) c

theorem toLower_of_isNameChar {c : Char} (h : isNameChar c = true) : c.toLower = c := by
  apply toLower_of_not_isUpper
  intro hupper
  simp only [isNameChar, Bool.or_eq_true, beq_iff_eq] at h
  simp only [isUpper_eq, isLower_eq, Char.isDigit, Bool.and_eq_true, decide_eq_true_eq,
    UInt32.le_iff_toNat_le, ge_iff_le] at h hupper
  rcases h with (((hlower | hdigit) | rfl) | rfl) | rfl
  · have h := hupper.2.trans_lt (show 'Z'.val.toNat < 'a'.val.toNat by decide)
    omega
  · have h := hdigit.2.trans_lt (show '9'.val.toNat < 'A'.val.toNat by decide)
    omega
  all_goals exact absurd hupper (by decide)

theorem lowercase_of_name {c : List Char} (h : ∀ d ∈ c, isNameChar d = true) : lowercase c = c :=
  (List.map_congr_left fun d hd => toLower_of_isNameChar (h d hd)).trans (List.map_id c)

theorem leaf_lowercase (path : List Char) :
    leaf (lowercase (path.dropWhile (· == '/'))) = lowercase (leaf path) := by
  rw [leaf, lowercase, last_map toLower_eq_slash, last_dropWhile]
  rfl

theorem startsWith_lowercase {cs pat : List Char} (h : startsWith cs pat = true) :
    startsWith (lowercase cs) (lowercase pat) = true := by
  rw [startsWith, List.isPrefixOf_iff_prefix] at h ⊢
  exact h.map Char.toLower

end Lowercase

section Maven

theorem classify_maven {format : RepositoryFormat} (hformat : isMavenFormat format)
    (path : List Char) :
    classify format path = classifyMaven (lowercase (path.dropWhile (· == '/'))) := by
  rcases hformat with rfl | rfl | rfl <;> rfl

theorem isImmutable_classifyMaven (lower : List Char) :
    (classifyMaven lower).isImmutable = false ↔
      startsWith (leaf lower) "maven-metadata.xml".toList = true ∨
        hasArtifactExtension (leaf lower) = false := by
  unfold classifyMaven
  dsimp only
  cases hmeta : startsWith (leaf lower) "maven-metadata.xml".toList with
  | true => simp [Mutability.mutableDefault, Mutability.isImmutable]
  | false =>
    cases hext : hasArtifactExtension (leaf lower) with
    | true => simp [Mutability.isImmutable]
    | false => simp [Mutability.mutableDefault, Mutability.isImmutable]

end Maven

section Oci

theorem classify_oci {format : RepositoryFormat} (hformat : isOciFormat format)
    (path : List Char) :
    classify format path = classifyOci (lowercase (path.dropWhile (· == '/'))) := by
  rcases hformat with rfl | rfl | rfl | rfl | rfl | rfl <;> rfl

/-- Without a digest only the blobs are immutable. -/
theorem isImmutable_classifyOci {lower : List Char} (hcolon : ':' ∉ lower) :
    (classifyOci lower).isImmutable = false ↔ "blobs".toList ∉ between '/' lower := by
  have hdigest : contains lower "sha256:".toList = false := by
    rw [contains, decide_eq_false_iff_not]
    intro hin
    exact hcolon (hin.subset (by decide))
  have hblobs : contains lower "/blobs/".toList = true ↔ "blobs".toList ∈ between '/' lower := by
    rw [contains, decide_eq_true_iff]
    exact enclosed_infix_iff (x := "blobs".toList) (by decide)
  rw [← hblobs, classifyOci, hdigest, Bool.and_false]
  cases contains lower "/blobs/".toList <;>
    simp [Mutability.mutableDefault, Mutability.isImmutable]

/-- The enclosed segments of a path with two segments behind a repository name. -/
theorem between_slashed {name : List (List Char)} {kind reference : List Char}
    (hname : ∀ c ∈ name, '/' ∉ c) (hkind : '/' ∉ kind) (hreference : '/' ∉ reference) :
    between '/' (slashed (["v2".toList] ++ name ++ [kind, reference])) = name ++ [kind] := by
  have hsegments : ∀ c ∈ ["v2".toList] ++ name ++ [kind, reference], '/' ∉ c := by
    intro c hc
    simp only [List.mem_append, List.mem_cons, List.not_mem_nil, or_false] at hc
    rcases hc with (rfl | hc) | rfl | rfl
    · decide
    · exact hname c hc
    · exact hkind
    · exact hreference
  have hsplit : ["v2".toList] ++ name ++ [kind, reference] =
      "v2".toList :: (name ++ [kind] ++ [reference]) := by simp
  rw [between, slashed, List.splitOn_intercalate '/' hsegments (by simp), hsplit, List.tail_cons,
    List.dropLast_concat]

theorem not_colon_slashed {segments : List (List Char)} (h : ∀ c ∈ segments, ':' ∉ c) :
    ':' ∉ slashed segments := by
  induction segments with
  | nil => simp [slashed, List.intercalate]
  | cons c rest ih =>
    have ih := ih fun d hd => h d (List.mem_cons_of_mem _ hd)
    cases rest with
    | nil => simpa [slashed, List.intercalate] using h c List.mem_cons_self
    | cons d rest =>
      show ':' ∉ ['/'].intercalate ([c] ++ d :: rest)
      rw [intercalate_append (by simp) (by simp)]
      simp only [List.mem_append, List.mem_cons, not_or]
      refine ⟨?_, by decide, ih⟩
      simpa [List.intercalate] using h c List.mem_cons_self

theorem not_colon_lowercase {cs : List Char} (h : ':' ∉ cs) :
    ':' ∉ lowercase (cs.dropWhile (· == '/')) := by
  intro hmem
  obtain ⟨d, hd, hlower⟩ := List.mem_map.mp hmem
  obtain rfl := (toLower_eq_iff (by decide) d).mp hlower
  exact h ((List.dropWhile_sublist _).subset hd)

theorem isImmutable_under_name {format : RepositoryFormat} (hformat : isOciFormat format)
    {name : List (List Char)} (hname : (name.all fun c => c.all isNameChar) = true)
    {kind reference : List Char} (hkind : kind.all isTagChar = true)
    (hreference : reference.all isTagChar = true) (hblobs : lowercase kind ≠ "blobs".toList) :
    (classify format (slashed (["v2".toList] ++ name ++ [kind, reference]))).isImmutable = false ↔
      "blobs".toList ∉ name := by
  simp only [List.all_eq_true] at hname hkind hreference
  have hname' {x : Char} (hx : isNameChar x = false) : ∀ c ∈ name, x ∉ c := fun c hc hmem =>
    Bool.false_ne_true (hx.symm.trans (hname c hc x hmem))
  have htag {x : Char} (hx : isTagChar x = false) {cs : List Char}
      (hcs : ∀ d ∈ cs, isTagChar d = true) : x ∉ cs := fun hmem =>
    Bool.false_ne_true (hx.symm.trans (hcs x hmem))
  have hcolon : ':' ∉ slashed (["v2".toList] ++ name ++ [kind, reference]) := by
    apply not_colon_slashed
    intro c hc
    simp only [List.mem_append, List.mem_cons, List.not_mem_nil, or_false] at hc
    rcases hc with (rfl | hc) | rfl | rfl
    · decide
    · exact hname' (by decide) c hc
    · exact htag (by decide) hkind
    · exact htag (by decide) hreference
  have hhead : (slashed (["v2".toList] ++ name ++ [kind, reference])).dropWhile (· == '/') =
      slashed (["v2".toList] ++ name ++ [kind, reference]) := by
    rw [slashed, List.append_assoc, intercalate_append (by simp) (by simp)]
    rfl
  have hlower : name.map lowercase = name :=
    (List.map_congr_left fun c hc => lowercase_of_name (hname c hc)).trans (List.map_id name)
  rw [classify_oci hformat, isImmutable_classifyOci (not_colon_lowercase hcolon), hhead, lowercase,
    between_map toLower_eq_slash, between_slashed (hname' (by decide)) (htag (by decide) hkind)
      (htag (by decide) hreference), List.map_append]
  show "blobs".toList ∉ name.map lowercase ++ [lowercase kind] ↔ _
  rw [hlower, List.mem_append, List.mem_singleton, not_or, and_iff_left hblobs.symm]

end Oci

section Debian

theorem isImmutable_classifyDebian {path : List Char} (hdists : startsWith path "dists/".toList) :
    (classify .debian path).isImmutable = false ↔
      ∀ s ∈ between '/' path, lowercase s ≠ "pool".toList ∧ lowercase s ≠ "by-hash".toList := by
  obtain ⟨rest, rfl⟩ := List.isPrefixOf_iff_prefix.mp hdists
  have hhead : ("dists/".toList ++ rest).dropWhile (· == '/') = "dists/".toList ++ rest := rfl
  have hfound {x : List Char} (hx : '/' ∉ x) :
      contains (lowercase ("dists/".toList ++ rest)) ('/' :: (x ++ ['/'])) = true ↔
        ∃ s ∈ between '/' ("dists/".toList ++ rest), lowercase s = x := by
    rw [contains, decide_eq_true_iff, enclosed_infix_iff hx, lowercase,
      between_map toLower_eq_slash, List.mem_map]
    rfl
  have hpool := hfound (x := "pool".toList) (by decide)
  have hhash := hfound (x := "by-hash".toList) (by decide)
  have hstart : startsWith (lowercase ("dists/".toList ++ rest)) "pool/".toList = false := rfl
  have hclassify : (classify .debian ("dists/".toList ++ rest)).isImmutable = false ↔
      ¬ contains (lowercase ("dists/".toList ++ rest)) "/pool/".toList = true ∧
        ¬ contains (lowercase ("dists/".toList ++ rest)) "/by-hash/".toList = true := by
    show (classifyDebian (lowercase (("dists/".toList ++ rest).dropWhile (· == '/')))).isImmutable
      = false ↔ _
    rw [hhead, classifyDebian, hstart, Bool.false_or]
    cases contains (lowercase ("dists/".toList ++ rest)) "/by-hash/".toList <;>
      cases contains (lowercase ("dists/".toList ++ rest)) "/pool/".toList <;>
        simp [Mutability.mutableDefault, Mutability.isImmutable]
  rw [hclassify]
  refine (and_congr (not_congr hpool) (not_congr hhash)).trans ?_
  constructor
  · rintro ⟨hp, hh⟩ s hs
    exact ⟨fun h => hp ⟨s, hs, h⟩, fun h => hh ⟨s, hs, h⟩⟩
  · intro h
    exact ⟨fun ⟨s, hs, hp⟩ => (h s hs).1 hp, fun ⟨s, hs, hh⟩ => (h s hs).2 hh⟩

end Debian

/-- A pointer that an upstream rewrites is cached as mutable exactly if no name looks like a part
of the layout. -/
theorem classify_pointer_iff (p : Pointer) (format : RepositoryFormat) (h : p.WellFormed format) :
    (classify format p.path).isImmutable = false ↔ p.Distinct := by
  cases p with
  | manifest name tag =>
    obtain ⟨hformat, hname, htag⟩ := h
    exact isImmutable_under_name hformat hname (by decide) htag (by decide)
  | tagsList name =>
    obtain ⟨hformat, hname⟩ := h
    exact isImmutable_under_name hformat hname (by decide) (by decide) (by decide)
  | mavenMetadata path =>
    obtain ⟨hformat, hleaf⟩ := h
    rw [classify_maven hformat, isImmutable_classifyMaven, leaf_lowercase]
    exact iff_of_true (.inl (startsWith_lowercase hleaf)) trivial
  | snapshot path =>
    obtain ⟨hformat, -⟩ := h
    rw [classify_maven hformat, isImmutable_classifyMaven, leaf_lowercase]
    exact Iff.rfl
  | debianIndex path =>
    obtain ⟨rfl, hdists, -⟩ := h
    exact isImmutable_classifyDebian hdists

theorem classify_typical_pointers :
    (classify .docker "v2/library/nginx/manifests/latest".toList).isImmutable = false ∧
      (classify .debian "dists/bookworm/main/binary-amd64/Packages".toList).isImmutable =
        false := by
  have hdocker := classify_pointer_iff
    (.manifest ["library".toList, "nginx".toList] "latest".toList) .docker
    ⟨.inl rfl, by decide, by decide⟩
  have hdebian := classify_pointer_iff
    (.debianIndex "dists/bookworm/main/binary-amd64/Packages".toList) .debian
    ⟨rfl, by decide, by decide +kernel⟩
  have hname : "blobs".toList ∉ ["library".toList, "nginx".toList] := by decide
  have hdirs : ∀ s ∈ between '/' "dists/bookworm/main/binary-amd64/Packages".toList,
      lowercase s ≠ "pool".toList ∧ lowercase s ≠ "by-hash".toList := by decide +kernel
  exact ⟨hdocker.mpr hname, hdebian.mpr hdirs⟩

/-- A tag of the image `blobs/app`, a file of a snapshot that is not unique, and an index of the
suite `pool`. -/
theorem pointers_cached_forever :
    ((Pointer.manifest ["blobs".toList, "app".toList] "latest".toList).WellFormed .docker ∧
      classify .docker "v2/blobs/app/manifests/latest".toList = .immutable) ∧
    ((Pointer.snapshot "g/app/1.0-SNAPSHOT/app-1.0-SNAPSHOT.jar".toList).WellFormed .maven ∧
      classify .maven "g/app/1.0-SNAPSHOT/app-1.0-SNAPSHOT.jar".toList = .immutable) ∧
    (Pointer.debianIndex "dists/pool/Release".toList).WellFormed .debian ∧
      classify .debian "dists/pool/Release".toList = .immutable :=
  ⟨⟨⟨.inl rfl, by decide, by decide⟩, by decide +kernel⟩,
    ⟨⟨.inl rfl, by decide +kernel, by decide +kernel⟩, by decide +kernel⟩,
    ⟨rfl, by decide, by decide +kernel⟩, by decide +kernel⟩

end ArtifactKeeper.Proxy.CacheClassifier
