import ArtifactKeeper.Debian.EncodedSeparator
import ArtifactKeeper.Debian.VirtualDists
import ArtifactKeeper.Segments

/-! The gate of the Debian proxy in front of `dists/`, which reads the distribution, the component
and the architecture off the path that will be fetched, and the path as the origin server reads it,
behind one layer of percent-encoding. -/

namespace ArtifactKeeper.Debian

open Bytes PercentEncoding Text

section Gate

/-- What the proxy asks of a parsed URL; the path has its dot segments resolved. -/
structure Url where
  scheme : List Char
  host : Option (List Char)
  portOrKnownDefault : Option ℕ
  path : List Char
  deriving DecidableEq, Repr

def debianEncodedSeparatorRejected : Response :=
  .status 400
    "Encoded path separators (%2f/%5c) are not permitted in Debian proxy paths".toList

/-- The bytes up to the space, and `DEL`. -/
def isControlOrSpace (c : Char) : Bool := decide (c.toNat ≤ 0x20) || c.toNat == 0x7f

variable (parseUrl : List Char → Option Url)

def normalizedDebianRelpath (baseUrl relative : List Char) (allowEncodedSeparators : Bool) :
    Except Response (List Char) :=
  if !allowEncodedSeparators &&
      hasEncodedPathSeparator decodeUtf8 (utf8 (String.ofList relative)) then
    .error debianEncodedSeparatorRejected
  else if relative.any isControlOrSpace then .error debianFilterDenied
  else
    match parseUrl baseUrl with
    | none => .error debianFilterDenied
    | some base =>
      let full := baseUrl.rdropWhile (· == '/') ++ '/' :: relative.dropWhile (· == '/')
      match parseUrl full with
      | none => .error debianFilterDenied
      | some parsed =>
        if parsed.scheme ≠ base.scheme ∨ parsed.host ≠ base.host ∨
            parsed.portOrKnownDefault ≠ base.portOrKnownDefault then .error debianFilterDenied
        else
          match stripPrefix (base.path.rdropWhile (· == '/')) parsed.path with
          | none => .error debianFilterDenied
          | some r =>
            let rel := r.dropWhile (· == '/')
            if rel.isEmpty then .error debianFilterDenied else .ok rel

/-- The distribution and what follows `dists/{distribution}/` in the normalised path. -/
def normalizedDistsParts (baseUrl distribution rawSuffix : List Char)
    (allowEncodedSeparators : Bool) : Except Response (List Char × List Char) :=
  match normalizedDebianRelpath parseUrl baseUrl
    ("dists/".toList ++ distribution ++ '/' :: rawSuffix) allowEncodedSeparators with
  | .error e => .error e
  | .ok norm =>
    match splitOnce '/' norm with
    | none => .error debianFilterDenied
    | some (root, rest) =>
      if root ≠ "dists".toList then .error debianFilterDenied
      else
        let (dist, suffix) := (splitOnce '/' rest).getD (rest, [])
        if dist.isEmpty then .error debianFilterDenied else .ok (dist, suffix)

/-- The proxy with the URL parser it is built with. -/
def Backend.withUrlParser {σ : Type} (backend : Backend σ) : Backend σ :=
  { backend with normalizedDistsParts := Debian.normalizedDistsParts parseUrl }

end Gate

section Origin

/-- A segment behind one layer of encoding; bytes that are no text are one character each. -/
def originSegment (seg : List Char) : List Char :=
  let bytes := percentDecode (utf8 (String.ofList seg))
  match ofUtf8 bytes with
  | some text => text.toList
  | none => bytes.map fun b => Char.ofNat b.toNat

/-- The path as the origin server reads it. -/
def originPath (path : List Char) : List Char :=
  ['/'].intercalate ((path.splitOn '/').map originSegment)

def compressions : List (List Char) :=
  ["", ".gz", ".xz", ".bz2", ".zst", ".zstd", ".lz4"].map String.toList

/-- The segment is a directory or a file of the indices of an architecture. -/
inductive IndexOf (a : List Char) : List Char → Prop
  | binary : IndexOf a ("binary-".toList ++ a)
  | contents {comp : List Char} : '.' ∉ a → ¬ "udeb-".toList <+: a → comp ∈ compressions →
      IndexOf a ("Contents-".toList ++ (a ++ comp))
  | contentsUdeb {comp : List Char} : '.' ∉ a → comp ∈ compressions →
      IndexOf a ("Contents-udeb-".toList ++ (a ++ comp))
  | components {comp : List Char} : '.' ∉ a → comp ∈ compressions →
      IndexOf a ("Components-".toList ++ (a ++ (".yml".toList ++ comp)))

/-- What is no architecture: these are never gated. -/
def independent : List (List Char) := ["", "all", "source"].map String.toList

def NamesArch (path a : List Char) : Prop :=
  a ∉ independent ∧ ∃ seg ∈ path.splitOn '/', IndexOf a seg

/-- The path is scoped to a component. -/
def NamesComponent (path c : List Char) : Prop :=
  ∃ rest, path = c ++ '/' :: rest ∧ '/' ∉ c ∧ c ≠ "by-hash".toList ∧ ¬ "Contents-".toList <+: c

/-- The path names an architecture or a component outside of the allowlists. -/
def NamesUnselected (filter : DebianRepositoryConfig) (path : List Char) : Prop :=
  (∃ a, NamesArch path a ∧ archSelected filter a = false) ∨
    ∃ c, NamesComponent path c ∧ listSelects filter.components c = false

/-- What the origin server reads off the path is what the gate reads off it as it is sent. A name
that is `*` itself is on an allowlist only together with every other. -/
structure ReadAsSent (suffix : List Char) : Prop where
  arch : ∀ a, NamesArch (originPath suffix) a →
    catchallArch suffix = some a ∨ catchallArch suffix = some ['*']
  component : ∀ c, NamesComponent (originPath suffix) c →
    catchallComponent suffix = some c ∨ catchallComponent suffix = some ['*']

end Origin

section Decision
variable {filter : DebianRepositoryConfig}

theorem debianFilterDecision_eq_ok_iff {distribution component arch : Option (List Char)} :
    debianFilterDecision filter distribution component arch = .ok () ↔
      (∀ d ∈ distribution, listSelects filter.distributionPaths d = true) ∧
        (∀ c ∈ component, listSelects filter.components c = true) ∧
        ∀ a ∈ arch, archSelected filter a = true := by
  have hany : ∀ (p : List Char → Bool) (o : Option (List Char)),
      (∀ x ∈ o, p x = true) ↔ (o.any fun x => !p x) = false := by
    intro p o
    cases o <;> simp
  rw [hany, hany, hany]
  unfold debianFilterDecision
  cases distribution.any fun d => !listSelects filter.distributionPaths d with
  | true => exact ⟨fun h => (by cases h), fun h => (by cases h.1)⟩
  | false =>
    cases component.any fun c => !listSelects filter.components c with
    | true => exact ⟨fun h => (by cases h), fun h => (by cases h.2.1)⟩
    | false =>
      cases arch.any fun a => !archSelected filter a with
      | true => exact ⟨fun h => (by cases h), fun h => (by cases h.2.2)⟩
      | false => exact ⟨fun _ => ⟨rfl, rfl, rfl⟩, fun _ => rfl⟩

theorem listSelects_of_star {list : List (List Char)} (h : listSelects list ['*'] = true)
    (value : List Char) : listSelects list value = true := by
  simp only [listSelects, Bool.or_eq_true, List.any_eq_true] at h ⊢
  rcases h with h | ⟨v, hv, heq⟩
  · exact .inl h
  · refine .inr ⟨v, hv, .inl ?_⟩
    simpa using heq

/-- An allowlist of one name leaves out every other. -/
theorem listSelects_singleton {x value : List Char} (hstar : x ≠ ['*']) (hne : x ≠ value) :
    listSelects [x] value = false := by
  simp [listSelects, hstar, hne]

theorem listSelects_self (x : List Char) : listSelects [x] x = true := by
  simp [listSelects]

end Decision

section Soundness
variable {σ : Type} {backend : Backend σ} {parseUrl : List Char → Option Url}
  {filter : DebianRepositoryConfig} {baseUrl distribution rawSuffix dist suffix : List Char}

/-- A normalised path passes if its distribution is selected, and the component and the
architecture that the gate reads. -/
theorem gateDebianDists_eq_ok_iff
    (hparts : normalizedDistsParts parseUrl baseUrl distribution rawSuffix
      filter.allowEncodedSeparators = .ok (dist, suffix)) :
    gateDebianDists (backend.withUrlParser parseUrl) filter baseUrl distribution rawSuffix =
        .ok () ↔
      listSelects filter.distributionPaths dist = true ∧
        (∀ c ∈ catchallComponent suffix, listSelects filter.components c = true) ∧
        ∀ a ∈ catchallArch suffix, archSelected filter a = true := by
  have hgate : gateDebianDists (backend.withUrlParser parseUrl) filter baseUrl distribution
      rawSuffix = debianFilterDecision filter (some dist) (catchallComponent suffix)
        (catchallArch suffix) := by
    have hbackend : (backend.withUrlParser parseUrl).normalizedDistsParts baseUrl distribution
        rawSuffix filter.allowEncodedSeparators = .ok (dist, suffix) := hparts
    unfold gateDebianDists
    rw [hbackend]
    rfl
  rw [hgate, debianFilterDecision_eq_ok_iff]
  simp

theorem NamesArch.ne_all {path a : List Char} (h : NamesArch path a) : a ≠ "all".toList := by
  rintro rfl
  exact h.1 (by decide)

/-- A name that an allowlist can do without while it selects what the gate reads. -/
theorem exists_allowlist {reading : Option (List Char)} {name : List Char}
    (hne : reading ≠ some name) (hstar : reading ≠ some ['*']) :
    ∃ x, listSelects [x] name = false ∧ ∀ r ∈ reading, listSelects [x] r = true := by
  cases reading with
  | none =>
    refine ⟨'*' :: '*' :: name, listSelects_singleton (by simp) (fun h => ?_), by simp⟩
    have hlength := congrArg List.length h
    simp only [List.length_cons] at hlength
    omega
  | some r =>
    have hr : r ≠ name := fun h => hne (congrArg some h)
    have hrs : r ≠ ['*'] := fun h => hstar (congrArg some h)
    refine ⟨r, listSelects_singleton hrs hr, fun r' hr' => ?_⟩
    obtain rfl := Option.some.inj hr'
    exact listSelects_self r

/-- The gate lets no unselected name through, whatever the allowlists are, exactly if it reads off
the path as it is sent what the origin server reads off it decoded. -/
theorem dists_gate_sound_iff {σ : Type} (backend : Backend σ) (parseUrl : List Char → Option Url)
    (baseUrl distribution rawSuffix : List Char) (allowEncodedSeparators : Bool) :
    (∀ filter : DebianRepositoryConfig, filter.allowEncodedSeparators = allowEncodedSeparators →
      ∀ dist suffix, normalizedDistsParts parseUrl baseUrl distribution rawSuffix
        allowEncodedSeparators = .ok (dist, suffix) →
      NamesUnselected filter (originPath suffix) →
      gateDebianDists (backend.withUrlParser parseUrl) filter baseUrl distribution rawSuffix ≠
        .ok ()) ↔
    ∀ dist suffix, normalizedDistsParts parseUrl baseUrl distribution rawSuffix
      allowEncodedSeparators = .ok (dist, suffix) → ReadAsSent suffix := by
  constructor
  · intro h dist suffix hparts
    constructor
    · intro a ha
      by_contra hnot
      obtain ⟨hne, hstar⟩ := not_or.mp hnot
      obtain ⟨x, hx, hreading⟩ := exists_allowlist hne hstar
      apply h ⟨[], [], [x], allowEncodedSeparators⟩ rfl dist suffix hparts
      · refine .inl ⟨a, ha, ?_⟩
        rw [archSelected, hx, Bool.or_false, beq_eq_false_iff_ne]
        exact ha.ne_all
      · refine (gateDebianDists_eq_ok_iff hparts).mpr ⟨rfl, fun _ _ => rfl, fun r hr => ?_⟩
        rw [archSelected, hreading r hr, Bool.or_true]
    · intro c hc
      by_contra hnot
      obtain ⟨hne, hstar⟩ := not_or.mp hnot
      obtain ⟨x, hx, hreading⟩ := exists_allowlist hne hstar
      apply h ⟨[], [x], [], allowEncodedSeparators⟩ rfl dist suffix hparts
      · exact .inr ⟨c, hc, hx⟩
      · refine (gateDebianDists_eq_ok_iff hparts).mpr ⟨rfl, hreading, fun r _ => ?_⟩
        rw [archSelected]
        exact Bool.or_true _
  · rintro h filter rfl dist suffix hparts hunselected hok
    obtain ⟨-, hcomponent, harch⟩ := (gateDebianDists_eq_ok_iff hparts).mp hok
    have hread := h dist suffix hparts
    rcases hunselected with ⟨a, ha, hfalse⟩ | ⟨c, hc, hfalse⟩
    · have hselected : archSelected filter a = true := by
        rcases hread.arch a ha with hr | hr
        · exact harch a hr
        · have hall := harch _ hr
          rw [archSelected, Bool.or_eq_true] at hall ⊢
          rcases hall with hall | hall
          · exact absurd hall (by decide)
          · exact .inr (listSelects_of_star hall a)
      rw [hselected] at hfalse
      cases hfalse
    · have hselected : listSelects filter.components c = true := by
        rcases hread.component c hc with hr | hr
        · exact hcomponent c hr
        · exact listSelects_of_star (hcomponent _ hr) c
      rw [hselected] at hfalse
      cases hfalse

end Soundness

section Plain

/-- Outside of the escapes the origin server reads what is sent. -/
theorem originSegment_of_not_mem {seg : List Char} (h : '%' ∉ seg) : originSegment seg = seg := by
  have hpercent : 37 ∉ utf8 (String.ofList seg) :=
    fun hmem => h (mem_of_mem_utf8 (b := 37) (by decide) hmem)
  simp only [originSegment, percentDecode_of_not_mem hpercent, ofUtf8_utf8, String.toList_ofList]

theorem originPath_of_not_mem {path : List Char} (h : '%' ∉ path) : originPath path = path := by
  have hsegments : (path.splitOn '/').map originSegment = path.splitOn '/' := by
    refine (List.map_congr_left fun seg hseg => ?_).trans (List.map_id _)
    exact originSegment_of_not_mem fun hmem => h (Segments.mem_of_mem_splitOn hseg hmem)
  rw [originPath, hsegments]
  exact List.intercalate_splitOn '/'

theorem dot_suffix_iff {x y base : List Char} (hy : '.' ∉ y) (hbase : '.' ∉ base) :
    '.' :: x <:+ base ++ '.' :: y ↔ x = y := by
  constructor
  · rintro ⟨lead, hlead⟩
    exact ((List.append_cons_inj_of_notMem hbase hy).mp hlead.symm).2.2.symm
  · rintro rfl
    exact ⟨base, rfl⟩

theorem stripIndexCompressionSuffix_eq (name : List Char) : stripIndexCompressionSuffix name =
    (compressions.tail.find? (·.isSuffixOf name)).elim name
      fun suffix => name.take (name.length - suffix.length) := by
  have htail : compressions.tail =
      [".gz", ".xz", ".bz2", ".zst", ".zstd", ".lz4"].map String.toList := rfl
  rw [htail, stripIndexCompressionSuffix]
  generalize List.find? _ _ = found
  cases found with
  | none => rfl
  | some suffix => rfl

theorem stripIndexCompressionSuffix_append {base comp : List Char} (hbase : '.' ∉ base)
    (hcomp : comp ∈ compressions) : stripIndexCompressionSuffix (base ++ comp) = base := by
  have hdots : ∀ suffix ∈ compressions.tail, ∃ x, suffix = '.' :: x ∧ '.' ∉ x := by
    have hall : compressions.tail.all (fun suffix =>
        suffix.head? = some '.' ∧ '.' ∉ suffix.tail) = true := by decide
    intro suffix hsuffix
    obtain ⟨hhead, htail⟩ := of_decide_eq_true (List.all_eq_true.mp hall suffix hsuffix)
    exact ⟨suffix.tail, List.eq_cons_of_mem_head? hhead, htail⟩
  rcases List.mem_cons.mp hcomp with rfl | hcomp
  · have hnone : compressions.tail.find? (·.isSuffixOf base) = none := by
      rw [List.find?_eq_none]
      intro suffix hsuffix
      obtain ⟨x, rfl, -⟩ := hdots suffix hsuffix
      rw [List.isSuffixOf_iff_suffix]
      exact fun h => hbase (h.subset List.mem_cons_self)
    have hplain : base ++ "".toList = base := List.append_nil base
    rw [hplain, stripIndexCompressionSuffix_eq, hnone, Option.elim_none]
  · have hfind : compressions.tail.find? (·.isSuffixOf (base ++ comp)) = some comp := by
      obtain ⟨y, rfl, hy⟩ := hdots comp hcomp
      have hself : ('.' :: y).isSuffixOf (base ++ '.' :: y) = true :=
        List.isSuffixOf_iff_suffix.mpr (List.suffix_append _ _)
      have hfound : (compressions.tail.find? (·.isSuffixOf (base ++ '.' :: y))).isSome = true :=
        List.find?_isSome.mpr ⟨_, hcomp, hself⟩
      obtain ⟨s, hs⟩ := Option.isSome_iff_exists.mp hfound
      obtain ⟨x, rfl, -⟩ := hdots s (List.mem_of_find?_eq_some hs)
      have hends : ('.' :: x).isSuffixOf (base ++ '.' :: y) = true := by
        have hp := List.find?_some hs
        exact hp
      rw [hs, (dot_suffix_iff hy hbase).mp (List.isSuffixOf_iff_suffix.mp hends)]
    rw [stripIndexCompressionSuffix_eq, hfind, Option.elim_some]
    simp

theorem segmentArch_of_indexOf {a seg : List Char} (h : IndexOf a seg) (hdash : '-' ∉ a) :
    segmentArch seg = some a := by
  have hstrip : ∀ pre rest : List Char, stripPrefix pre (pre ++ rest) = some rest := by
    intro pre rest
    rw [stripPrefix, if_pos (List.isPrefixOf_iff_prefix.mpr (List.prefix_append _ _)),
      List.drop_left]
  have hmiss : ∀ c d : Char, ∀ pre rest : List Char, c ≠ d →
      stripPrefix (c :: pre) (d :: rest) = none := by
    intro c d pre rest hne
    rw [stripPrefix, if_neg]
    rw [List.isPrefixOf_iff_prefix, List.cons_prefix_cons]
    exact fun h => hne h.1
  cases h with
  | binary => rw [segmentArch, hstrip]
  | @contents comp hdot hudeb hcomp =>
    have hbinary : stripPrefix "binary-".toList ("Contents-".toList ++ (a ++ comp)) = none :=
      hmiss 'b' 'C' _ _ (by decide)
    have hsplit : (a.splitOn '-').getLast? = some a := by
      rw [List.splitOn_eq_singleton hdash]
      rfl
    rw [segmentArch, hbinary]
    dsimp only
    rw [hstrip]
    dsimp only
    rw [stripIndexCompressionSuffix_append hdot hcomp, hsplit]
  | @contentsUdeb comp hdot hcomp =>
    have hshape : "Contents-udeb-".toList ++ (a ++ comp) =
        "Contents-".toList ++ (("udeb-".toList ++ a) ++ comp) := by
      simp
    have hbinary : stripPrefix "binary-".toList
        ("Contents-".toList ++ (("udeb-".toList ++ a) ++ comp)) = none :=
      hmiss 'b' 'C' _ _ (by decide)
    have hbase : '.' ∉ "udeb-".toList ++ a := by
      rw [List.mem_append, not_or]
      exact ⟨by decide, hdot⟩
    have hsplit : (("udeb-".toList ++ a).splitOn '-').getLast? = some a := by
      have hudeb : "udeb-".toList ++ a = "udeb".toList ++ '-' :: a := by simp
      rw [hudeb, List.splitOn_append_cons_self, List.splitOn_eq_singleton hdash]
      simp
    rw [segmentArch, hshape, hbinary]
    dsimp only
    rw [hstrip]
    dsimp only
    rw [stripIndexCompressionSuffix_append hbase hcomp, hsplit]
  | @components comp hdot hcomp =>
    have hbinary : stripPrefix "binary-".toList
        ("Components-".toList ++ (a ++ (".yml".toList ++ comp))) = none :=
      hmiss 'b' 'C' _ _ (by decide)
    have hcontents : stripPrefix "Contents-".toList
        ("Components-".toList ++ (a ++ (".yml".toList ++ comp))) = none := by
      rw [stripPrefix, if_neg]
      simp [List.isPrefixOf]
    have htake : (a ++ (".yml".toList ++ comp)).takeWhile (· != '.') = a := by
      have hall : ∀ c ∈ a, (c != '.') = true := fun c hc => bne_iff_ne.mpr fun h => hdot (h ▸ hc)
      rw [List.takeWhile_append_of_pos hall]
      simp
    rw [segmentArch, hbinary]
    dsimp only
    rw [hcontents]
    dsimp only
    rw [hstrip, Option.map_some, htake]

/-- Without escapes, and with one index of an architecture whose name has no hyphen, the gate reads
what the origin server reads. -/
theorem readAsSent_of_plain {suffix : List Char} (hpercent : '%' ∉ suffix)
    (hone : ∀ s ∈ suffix.splitOn '/', ∀ t ∈ suffix.splitOn '/', (segmentArch s).isSome →
      (segmentArch t).isSome → s = t)
    (hdash : ∀ a, NamesArch suffix a → '-' ∉ a) : ReadAsSent suffix := by
  constructor
  · intro a ha
    rw [originPath_of_not_mem hpercent] at ha
    obtain ⟨hreal, seg, hseg, hindex⟩ := ha
    have hread := segmentArch_of_indexOf hindex (hdash a ⟨hreal, seg, hseg, hindex⟩)
    have hfound : (suffix.splitOn '/').findSome? segmentArch = some a := by
      have hsome : (segmentArch seg).isSome = true := by rw [hread, Option.isSome_some]
      obtain ⟨b, hb⟩ := Option.isSome_iff_exists.mp
        (List.findSome?_isSome_iff.mpr ⟨seg, hseg, hsome⟩)
      obtain ⟨t, ht, hbt⟩ := List.exists_of_findSome?_eq_some hb
      obtain rfl := hone seg hseg t ht hsome (by rw [hbt, Option.isSome_some])
      rw [hb, ← hbt, hread]
    have hne : ∀ x ∈ independent, a ≠ x := fun x hx h => hreal (h ▸ hx)
    have hgated : (a.isEmpty || decide (a = "all".toList) || decide (a = "source".toList)) =
        false := by
      rw [Bool.or_eq_false_iff, Bool.or_eq_false_iff, decide_eq_false_iff_not,
        decide_eq_false_iff_not, List.isEmpty_eq_false_iff]
      exact ⟨⟨hne [] (by decide), hne "all".toList (by decide)⟩, hne "source".toList (by decide)⟩
    left
    rw [catchallArch, hfound, Option.filter_some, hgated]
    rfl
  · rintro c ⟨rest, hpath, hslash, hbyHash, hcontents⟩
    rw [originPath_of_not_mem hpercent] at hpath
    left
    rw [catchallComponent, hpath, splitOnce_of_not_mem rest hslash]
    have hnot : ¬ (decide (c = "by-hash".toList) || "Contents-".toList.isPrefixOf c) = true := by
      rw [Bool.or_eq_true, decide_eq_true_eq, List.isPrefixOf_iff_prefix]
      exact not_or.mpr ⟨hbyHash, hcontents⟩
    exact if_neg hnot

end Plain

/-- `Url::parse` on URLs that have no port, query or dot segment. -/
def plainUrl (text : List Char) : Option Url :=
  (stripPrefix "http://".toList text).map fun rest =>
    { scheme := "http".toList
      host := some (rest.takeWhile (· != '/'))
      portOrKnownDefault := some 80
      path := if (rest.dropWhile (· != '/')).isEmpty then ['/'] else rest.dropWhile (· != '/') }

def amd64Only : DebianRepositoryConfig := ⟨[], ["main".toList], ["amd64".toList], false⟩

/-- `main/binary%2Darm64/Packages` is the index of an architecture that is not selected. -/
theorem encoded_index_passes :
    normalizedDistsParts plainUrl "http://deb.debian.org/debian".toList "bookworm".toList
        "main/binary%2Darm64/Packages".toList false =
      .ok ("bookworm".toList, "main/binary%2Darm64/Packages".toList) ∧
    NamesUnselected amd64Only (originPath "main/binary%2Darm64/Packages".toList) ∧
    gateDebianDists (poisonedBackend.withUrlParser plainUrl) amd64Only
      "http://deb.debian.org/debian".toList "bookworm".toList
      "main/binary%2Darm64/Packages".toList = .ok () := by
  refine ⟨by decide +kernel, .inl ⟨"arm64".toList, ⟨by decide, ?_⟩, by decide⟩, by decide +kernel⟩
  have hpath : originPath "main/binary%2Darm64/Packages".toList =
      "main/binary-arm64/Packages".toList := by decide +kernel
  rw [hpath]
  exact ⟨"binary-arm64".toList, by decide, .binary⟩

end ArtifactKeeper.Debian
