import ArtifactKeeper.Pypi.VersionReading

/-! Which versions of PEP 440 the canonical text takes for the same, and which of them are. -/

namespace ArtifactKeeper.Pypi
open Text Segments

section Zeros

theorem rdropWhile_cons (n : ℕ) (ns : List ℕ) : (n :: ns).rdropWhile (· = 0) =
    if ns.rdropWhile (· = 0) = [] then [n].rdropWhile (· = 0)
    else n :: ns.rdropWhile (· = 0) := by
  simp only [List.rdropWhile, List.reverse_cons, List.dropWhile_append, List.isEmpty_iff,
    List.reverse_eq_nil_iff, List.nil_append, List.reverse_nil]
  split <;> simp

/-- The loop leaves one zero where nothing else would be left. -/
theorem popZeros_eq {nums : List ℕ} (hne : nums ≠ []) :
    popZeros nums = if nums.rdropWhile (· = 0) = [] then [0] else nums.rdropWhile (· = 0) := by
  obtain ⟨n, ns, rfl⟩ := List.exists_cons_of_ne_nil hne
  rw [popZeros, rdropWhile_cons]
  by_cases hns : ns.rdropWhile (· = 0) = []
  · by_cases hn : n = 0 <;> simp [hns, hn, List.rdropWhile_singleton]
  · simp [hns]

theorem popZeros_popZeros (nums : List ℕ) : popZeros (popZeros nums) = popZeros nums := by
  cases nums with
  | nil => rfl
  | cons n ns => rw [popZeros, popZeros, List.rdropWhile_idempotent]

theorem rdropWhile_popZeros {nums : List ℕ} (hne : nums ≠ []) :
    (popZeros nums).rdropWhile (· = 0) = nums.rdropWhile (· = 0) := by
  rw [popZeros_eq hne]
  split
  · next h => rw [h]; rfl
  · exact List.rdropWhile_idempotent _ _

theorem popZeros_eq_iff {nums nums' : List ℕ} (hne : nums ≠ []) (hne' : nums' ≠ []) :
    popZeros nums = popZeros nums' ↔ nums.rdropWhile (· = 0) = nums'.rdropWhile (· = 0) := by
  constructor
  · intro h
    rw [← rdropWhile_popZeros hne, h, rdropWhile_popZeros hne']
  · intro h
    rw [popZeros_eq hne, popZeros_eq hne', h]

theorem mem_rdropWhile {nums : List ℕ} {n : ℕ} (hn : n ∈ nums) (hzero : n ≠ 0) :
    n ∈ nums.rdropWhile (· = 0) := by
  rw [← List.rdropWhile_append_rtakeWhile (p := (· = 0)) (l := nums)] at hn
  rcases List.mem_append.mp hn with hn | hn
  · exact hn
  · exact absurd (List.mem_rtakeWhile_imp hn) (by simpa using hzero)

end Zeros

section Decoding

namespace Spelling
variable {a b : Spelling}

/-- The local version can be told from what stands in front of it. -/
theorem parts_of_text (htext : a.text = b.text) :
    a.publicText = b.publicText ∧ a.taken.localTexts = b.taken.localTexts := by
  have hbody : a.publicText ++ localText a.localSegments =
      b.publicText ++ localText b.localSegments := by
    rw [← dropWhile_core, ← dropWhile_core, ← trim_text, ← trim_text, htext]
  have hsplit := a.splitOnce_plus
  rw [hbody, b.splitOnce_plus] at hsplit
  rcases ha : a.localSegments with _ | ⟨first, rest⟩ <;>
    rcases hb : b.localSegments with _ | ⟨first', rest'⟩ <;> rw [ha, hb] at hsplit
  · rw [ha, hb, localText, List.append_nil, List.append_nil] at hbody
    exact ⟨hbody, by simp [taken, ha, hb]⟩
  · cases hsplit
  · cases hsplit
  · obtain ⟨hpublic, hlocal⟩ := Prod.mk.inj (Option.some.inj hsplit)
    have hparts := congrArg (List.splitOnP isVersionSeparator) hlocal
    dsimp only [localText, List.tail_cons] at hparts
    rw [splitOnP_segments, splitOnP_segments] at hparts
    exact ⟨hpublic.symm, by simp [taken, ha, hb, hparts]⟩

/-- A text is taken in one way only. -/
theorem taken_of_text (ha : a.suffix.Readable) (htext : a.text = b.text) : a.taken = b.taken := by
  obtain ⟨hpublic, hlocal⟩ := parts_of_text htext
  have hepoch := splitEpoch_epochText a.epoch a.isPlain_body
  rw [← publicText, hpublic, publicText, splitEpoch_epochText b.epoch b.isPlain_body] at hepoch
  obtain ⟨hepoch, hbody⟩ := Prod.mk.inj (Option.some.inj hepoch)
  have hrelease := splitRelease_releaseText a.major a.minor a.suffix.endsRelease
  rw [← hbody, splitRelease_releaseText b.major b.minor b.suffix.endsRelease] at hrelease
  obtain ⟨hrelease, hsuffix⟩ := Prod.mk.inj (Option.some.inj hrelease)
  have hnumbers : a.numbers = b.numbers := by
    have hdigits := splitOn_releaseText a.major a.minor
    rw [← hrelease, splitOn_releaseText] at hdigits
    have hvalues := congrArg (List.map fun cs => Nat.ofDigitChars 10 cs 0) hdigits
    rw [List.map_map, List.map_map] at hvalues
    exact hvalues.symm
  have hheard : a.suffix.heard = b.suffix.heard := by
    have hread := (a.suffix.read_iff a.suffix.heard).mpr ⟨ha, rfl⟩
    rw [← hsuffix, b.suffix.read_iff] at hread
    exact hread.2
  refine Taken.ext (decimal_injective hepoch.symm) ?_ hheard hlocal
  rw [taken, taken, hnumbers]

end Spelling

end Decoding

section Normal

def PreLetter.label : PreLetter → PreLabel
  | .a => .a
  | .b => .b
  | .rc => .rc

/-- The qualifiers as they are written out. -/
def Qualifiers.suffix (q : Qualifiers) : Suffix where
  pre := q.pre.map fun p => ⟨none, p.1.label, none, some (.ofNat p.2)⟩
  post := q.post.map fun n => .labelled ⟨some .dot, .post, none, some (.ofNat n)⟩
  dev := q.dev.map fun n => ⟨some .dot, .dev, none, some (.ofNat n)⟩
  pre_before_implicit := by
    intro p n _ hpost
    obtain ⟨m, -, hm⟩ := Option.map_eq_some_iff.mp hpost
    cases hm

theorem Qualifiers.map_post_suffix (q : Qualifiers) : q.suffix.post.map Post.value = q.post := by
  rw [suffix, Option.map_map]
  cases q.post <;> simp [Post.value, Qualifier.value]

theorem Qualifiers.post_suffix_ne (q : Qualifiers) (n : Numeral) :
    q.suffix.post ≠ some (.implicit n) := by
  intro h
  obtain ⟨m, -, hm⟩ := Option.map_eq_some_iff.mp h
  cases hm

theorem Qualifiers.text_suffix (q : Qualifiers) : q.suffix.text = qualifiersText q := by
  obtain ⟨pre, post, dev⟩ := q
  have hletter : ∀ l : PreLetter, l.label.text = l.text := fun l => by cases l <;> rfl
  rcases pre with _ | ⟨l, m⟩ <;> rcases post with _ | n <;> rcases dev with _ | d <;>
    simp [suffix, Suffix.text, qualifiersText, Qualifier.text, Post.text, separatorText, numberText,
      Numeral.ofNat, hletter, PostLabel.text, DevLabel.text, Separator.char]

theorem Qualifiers.heard_suffix (q : Qualifiers) : q.suffix.heard = q := by
  obtain ⟨pre, post, dev⟩ := q
  have hletter : ∀ l : PreLetter, l.label.letter = l := fun l => by cases l <;> rfl
  rcases pre with _ | ⟨l, m⟩ <;> rcases post with _ | n <;> rcases dev with _ | d <;>
    simp [suffix, Suffix.heard, Post.value, Qualifier.value, hletter]

theorem Qualifiers.readable_suffix {q : Qualifiers} (hpre : ∀ p ∈ q.pre, p.2 < 2 ^ 64)
    (hpost : ∀ n ∈ q.post, n < 2 ^ 64) (hdev : ∀ n ∈ q.dev, n < 2 ^ 64) : q.suffix.Readable := by
  obtain ⟨pre, post, dev⟩ := q
  rw [Suffix.readable_iff]
  rcases pre with _ | ⟨l, m⟩ <;> rcases post with _ | n <;> rcases dev with _ | d <;>
    simp_all [-Nat.reducePow, suffix, Post.value, Qualifier.value, Qualifier.Apart]

/-- What has been read is read again. -/
theorem Suffix.Readable.heard {x : Suffix} (h : x.Readable) : x.heard.suffix.Readable := by
  obtain ⟨pre, post, dev, hx⟩ := x
  have hdev : ∀ n ∈ dev.map Qualifier.value, n < 2 ^ 64 := by
    rintro n hn
    obtain ⟨d, hd, rfl⟩ := Option.map_eq_some_iff.mp hn
    exact h.dev_fits d hd
  rcases pre with _ | q
  · refine Qualifiers.readable_suffix (by simp [Suffix.heard]) ?_ hdev
    rintro n hn
    obtain ⟨p, hp, rfl⟩ := Option.map_eq_some_iff.mp hn
    exact h.post_fits p hp
  · rcases post with _ | n | p
    · refine Qualifiers.readable_suffix ?_ (by simp [Suffix.heard]) hdev
      rintro _ ⟨⟩
      exact h.pre_fits q rfl
    · refine Qualifiers.readable_suffix ?_ (by simp [Suffix.heard]) hdev
      rintro _ ⟨⟩
      exact h.post_fits _ rfl
    · refine Qualifiers.readable_suffix ?_ ?_ hdev
      · rintro _ ⟨⟩
        exact h.pre_fits q rfl
      · rintro _ ⟨⟩
        exact h.post_fits _ rfl

namespace Spelling
variable (a : Spelling)

/-- The spelling that is written out. -/
def normal : Spelling where
  before := []
  v := false
  epoch := some (.ofNat ((a.epoch.map Numeral.value).getD 0))
  major := .ofNat (fitted a.major.value)
  minor := ((a.minor.map fun n => fitted n.value).rdropWhile (· = 0)).map .ofNat
  suffix := a.suffix.heard.suffix
  localSegments := a.localSegments.map fun parts =>
    (parts.1, parts.2.map fun part => (.dot, part.2))
  after := []
  before_space := by simp
  after_space := by simp

theorem intercalate_cons (sep part : List Char) (parts : List (List Char)) :
    sep.intercalate (part :: parts) = part ++ parts.flatMap (sep ++ ·) := by
  induction parts generalizing part with
  | nil => simp
  | cons next parts ih =>
    rw [List.intercalate_cons_cons, ih, List.flatMap_cons, List.append_assoc, List.append_assoc]

theorem text_normal : a.normal.text = a.taken.text := by
  have hrelease : releaseText a.normal.major a.normal.minor =
      ['.'].intercalate (a.taken.release.map decimal) := by
    simp [normal, releaseText, taken, numbers, popZeros, intercalate_cons, Numeral.ofNat,
      List.flatMap_map, Function.comp_def]
  have hlocal : localText a.normal.localSegments = localTextsText a.taken.localTexts := by
    rcases h : a.localSegments with _ | ⟨first, rest⟩
    · simp [normal, h, localText, localTextsText, taken]
    · simp [normal, h, localText, localTextsText, taken, segmentsOf, intercalate_cons,
        List.flatMap_map, Separator.char]
  have hsuffix : a.normal.suffix.text = qualifiersText a.taken.qualifiers :=
    a.suffix.heard.text_suffix
  have hepoch : epochText a.normal.epoch = decimal a.taken.epoch ++ ['!'] := rfl
  rw [text, core, publicText, hrelease, hlocal, hsuffix, hepoch, Taken.text]
  simp [normal]

theorem numbers_normal : a.normal.numbers = popZeros (a.numbers.map fitted) := by
  simp [normal, numbers, popZeros, Function.comp_def]

theorem map_fitted_numbers : (popZeros (a.numbers.map fitted)).map fitted =
    popZeros (a.numbers.map fitted) := by
  refine (List.map_congr_left fun n hn => ?_).trans (List.map_id _)
  have hfits : n < 2 ^ 64 := by
    rcases List.mem_cons.mp hn with rfl | hn
    · exact fitted_lt _
    · obtain ⟨m, -, rfl⟩ := List.mem_map.mp ((List.rdropWhile_prefix _ _).subset hn)
      exact fitted_lt m
  exact fitted_of_lt hfits

theorem taken_normal : a.normal.taken = a.taken := by
  refine Taken.ext ?_ ?_ a.suffix.heard.heard_suffix ?_
  · simp [taken, normal]
  · rw [taken, numbers_normal, map_fitted_numbers, taken, popZeros_popZeros]
  · rcases h : a.localSegments with _ | ⟨first, rest⟩ <;>
      simp [taken, normal, h, segmentsOf]

end Spelling

theorem taken_text_injective {a b : Spelling} (ha : a.suffix.Readable)
    (htext : a.taken.text = b.taken.text) : a.taken = b.taken := by
  rw [← Spelling.text_normal, ← Spelling.text_normal] at htext
  rw [← a.taken_normal, ← b.taken_normal]
  exact Spelling.taken_of_text ha.heard htext

end Normal

section Sound

namespace Spelling

/-- The release is read as it is meant, and so are the qualifiers. -/
structure Sound (a : Spelling) : Prop where
  readable : a.suffix.Readable
  release_fits : ∀ n ∈ a.numbers, n < 2 ^ 64
  no_implicit : ∀ q ∈ a.suffix.pre, ∀ n, a.suffix.post ≠ some (.implicit n)

/-- The segments of the local versions are written in the same way. -/
def LocalAlike (a b : Spelling) : Prop := a.taken.localTexts = b.taken.localTexts

variable {a b : Spelling}

theorem LocalAlike.localKeys (h : LocalAlike a b) : a.version.localKeys = b.version.localKeys := by
  have hkeys : ∀ c : Spelling, c.version.localKeys =
      c.taken.localTexts.map (List.map fun cs : List Char =>
        if cs.all Char.isDigit then .number (Nat.ofDigitChars 10 cs 0) else .letters cs) := by
    intro c
    rw [version, taken, Option.map_map]
    cases c.localSegments with
    | none => rfl
    | some parts =>
      simp only [Option.map_some, Function.comp_apply, List.map_map]
      rfl
  rw [hkeys, hkeys, h]

theorem numbers_ne_nil (a : Spelling) : a.numbers ≠ [] := List.cons_ne_nil _ _

theorem Sound.map_fitted (h : a.Sound) : a.numbers.map fitted = a.numbers :=
  (List.map_congr_left fun n hn => fitted_of_lt (h.release_fits n hn)).trans (List.map_id _)

theorem Sound.heard (h : a.Sound) :
    a.suffix.heard = ⟨a.version.pre, a.version.post, a.version.dev⟩ := by
  have himplicit := h.no_implicit
  rw [version, Suffix.heard]
  rcases hpre : a.suffix.pre with _ | q
  · rfl
  · rcases hpost : a.suffix.post with _ | n | p
    · rfl
    · exact absurd hpost (himplicit q hpre n)
    · rfl

/-- Sound spellings are taken for the same if they spell the same version, the local versions
alike. -/
theorem Sound.taken_eq_iff (ha : a.Sound) (hb : b.Sound) :
    a.taken = b.taken ↔ a.version = b.version ∧ LocalAlike a b := by
  have hrelease : a.taken.release = b.taken.release ↔ a.version.release = b.version.release := by
    rw [taken, taken, ha.map_fitted, hb.map_fitted]
    exact popZeros_eq_iff a.numbers_ne_nil b.numbers_ne_nil
  constructor
  · intro h
    have hqualifiers : a.suffix.heard = b.suffix.heard := congrArg Taken.qualifiers h
    rw [ha.heard, hb.heard, Qualifiers.mk.injEq] at hqualifiers
    have hlocal : LocalAlike a b := congrArg Taken.localTexts h
    exact ⟨Version.ext (congrArg Taken.epoch h) (hrelease.mp (congrArg Taken.release h))
      hqualifiers.1 hqualifiers.2.1 hqualifiers.2.2 hlocal.localKeys, hlocal⟩
  · rintro ⟨h, hlocal⟩
    refine Taken.ext (congrArg Version.epoch h) (hrelease.mpr (congrArg Version.release h)) ?_
      hlocal
    exact ha.heard.trans (h ▸ hb.heard.symm)

theorem sound_of_readable (a : Spelling) {q : Qualifiers} (h : q.suffix.Readable) :
    Sound { a.normal with suffix := q.suffix } where
  readable := h
  release_fits := by
    change ∀ n ∈ a.normal.numbers, n < 2 ^ 64
    rw [numbers_normal, ← map_fitted_numbers]
    intro n hn
    obtain ⟨m, -, rfl⟩ := List.mem_map.mp hn
    exact fitted_lt m
  no_implicit := fun _ _ n => q.post_suffix_ne n

/-- A spelling is sound if what is written out is still the same version. -/
theorem sound_of_version_normal (hreadable : a.suffix.Readable)
    (h : a.version = a.normal.version) : a.Sound where
  readable := hreadable
  release_fits := by
    intro n hn
    by_contra hbig
    have hrelease : a.numbers.rdropWhile (· = 0) =
        (a.numbers.map fitted).rdropWhile (· = 0) := by
      have hnormal : a.numbers.rdropWhile (· = 0) = a.normal.numbers.rdropWhile (· = 0) :=
        congrArg Version.release h
      rw [hnormal, numbers_normal, rdropWhile_popZeros (by simp [numbers])]
    have hmem := mem_rdropWhile hn (by rintro rfl; exact hbig (by decide))
    rw [hrelease] at hmem
    obtain ⟨m, -, hm⟩ := List.mem_map.mp ((List.rdropWhile_prefix _ _).subset hmem)
    exact hbig (hm ▸ fitted_lt m)
  no_implicit := by
    intro q hpre n hpost
    have hheard : a.suffix.heard.post = none := by
      rw [Suffix.heard, hpost, Option.mem_def.mp hpre]
    have hlost : a.version.post = none :=
      (congrArg Version.post h).trans ((Qualifiers.map_post_suffix _).trans hheard)
    rw [version, hpost] at hlost
    cases hlost

end Spelling

end Sound

section Decides

theorem Spelling.map_toLower_text (a : Spelling) : a.text.map Char.toLower = a.text := by
  have hspace : ∀ c ∈ [' ', '\t', '\n', '\r', '\x0b', '\x0c'], c.toLower = c :=
    List.all_iff_forall_prop.mp rfl
  refine (List.map_congr_left fun c hc => ?_).trans (List.map_id _)
  simp only [text, List.mem_append] at hc
  rcases hc with hc | hc | hc
  · exact hspace c (a.before_space c hc)
  · rcases a.isPlain_core c hc with h | rfl | rfl
    · exact h.toLower
    · rfl
    · rfl
  · exact hspace c (a.after_space c hc)

def Spelling.written (a : Spelling) : Written := ⟨a.text, a, a.map_toLower_text⟩

/-- Both versions have a canonical text, which is the same one if and only if they are the same
version. -/
def DecidesEquality (a b : Written) : Prop :=
  canonicalVersion a.text ≠ none ∧ canonicalVersion b.text ≠ none ∧
    (canonicalVersion a.text = canonicalVersion b.text ↔ a.version = b.version)

theorem canonicalVersion_ne_none_iff (w : Written) :
    canonicalVersion w.text ≠ none ↔ w.spelling.suffix.Readable := by
  rw [Option.ne_none_iff_exists']
  simp only [canonicalVersion_iff]
  exact ⟨fun ⟨_, h, _⟩ => h, fun h => ⟨_, h, rfl⟩⟩

theorem canonicalVersion_eq_iff {a b : Written} (ha : a.spelling.suffix.Readable)
    (hb : b.spelling.suffix.Readable) :
    canonicalVersion a.text = canonicalVersion b.text ↔ a.spelling.taken = b.spelling.taken := by
  rw [(canonicalVersion_iff a _).mpr ⟨ha, rfl⟩, (canonicalVersion_iff b _).mpr ⟨hb, rfl⟩,
    Option.some.injEq]
  exact ⟨taken_text_injective ha, congrArg Taken.text⟩

theorem decidesEquality_iff (a b : Written) :
    DecidesEquality a b ↔ a.spelling.suffix.Readable ∧ b.spelling.suffix.Readable ∧
      (a.spelling.taken = b.spelling.taken ↔ a.version = b.version) := by
  rw [DecidesEquality, canonicalVersion_ne_none_iff, canonicalVersion_ne_none_iff]
  refine and_congr_right fun ha => and_congr_right fun hb => ?_
  rw [canonicalVersion_eq_iff ha hb]

theorem decidesEquality_sound_iff {a b : Written} (ha : a.spelling.Sound) (hb : b.spelling.Sound) :
    DecidesEquality a b ↔ (a.version = b.version → a.spelling.LocalAlike b.spelling) := by
  rw [decidesEquality_iff, ha.taken_eq_iff hb]
  simp only [ha.readable, hb.readable, true_and, Written.version]
  tauto

/-- A version that is decided rightly against the sound ones is sound. -/
theorem sound_of_decidesEquality {a : Written}
    (h : ∀ b : Written, b.spelling.Sound → a.spelling.LocalAlike b.spelling → DecidesEquality a b) :
    a.spelling.Sound := by
  have hlocal : a.spelling.LocalAlike a.spelling.normal :=
    congrArg Taken.localTexts a.spelling.taken_normal.symm
  have hreadable : a.spelling.suffix.Readable := by
    have hempty : (Qualifiers.mk none none none).suffix.Readable :=
      Qualifiers.readable_suffix (by simp) (by simp) (by simp)
    have hsound := h (Spelling.written _) (a.spelling.sound_of_readable hempty) hlocal
    exact ((decidesEquality_iff _ _).mp hsound).1
  have hnormal := h a.spelling.normal.written (a.spelling.sound_of_readable hreadable.heard) hlocal
  refine Spelling.sound_of_version_normal hreadable ?_
  exact ((decidesEquality_iff _ _).mp hnormal).2.2.mp a.spelling.taken_normal.symm

/-- For two versions the canonical texts are right if and only if both are read, and what is taken
of them is the same exactly if they are the same. For sound spellings that is so unless the same
local version is written in two ways, and no other spelling is right against all sound ones. -/
theorem canonical_version_decides_iff (a b : Written) :
    (DecidesEquality a b ↔ a.spelling.suffix.Readable ∧ b.spelling.suffix.Readable ∧
      (a.spelling.taken = b.spelling.taken ↔ a.version = b.version)) ∧
    (a.spelling.Sound → b.spelling.Sound →
      (DecidesEquality a b ↔ (a.version = b.version → a.spelling.LocalAlike b.spelling))) ∧
    ((∀ b : Written, b.spelling.Sound → a.spelling.LocalAlike b.spelling →
      DecidesEquality a b) ↔ a.spelling.Sound) :=
  ⟨decidesEquality_iff a b, decidesEquality_sound_iff,
    sound_of_decidesEquality, fun ha _ hb hlocal =>
      (decidesEquality_sound_iff ha hb).mpr fun _ => hlocal⟩

/-- `1.N` with a suffix and a local version. -/
def onePoint (minor : ℕ) (suffix : Suffix)
    (localSegments : Option (Segment × List (Separator × Segment))) : Spelling where
  before := []
  v := false
  epoch := none
  major := .ofNat 1
  minor := [.ofNat minor]
  suffix := suffix
  localSegments := localSegments
  after := []
  before_space := by simp
  after_space := by simp

theorem canonical_version_misjudges :
    (¬ ∀ a b : Written, DecidesEquality a b) ∧
    (∃ a : Written, a.text = "1.0a1-1".toList ∧ canonicalVersion a.text = none) ∧
    (∃ a b : Written, a.text = "1.18446744073709551616".toList ∧ b.text = "1.0".toList ∧
      canonicalVersion a.text = canonicalVersion b.text ∧ a.version ≠ b.version) ∧
    (∃ a b : Written, a.text = "1.0a--1".toList ∧ b.text = "1.0a1".toList ∧
      canonicalVersion a.text = canonicalVersion b.text ∧ a.version ≠ b.version) ∧
    ∃ a b : Written, a.text = "1.0+01".toList ∧ b.text = "1.0+1".toList ∧
      canonicalVersion a.text ≠ canonicalVersion b.text ∧ a.version = b.version := by
  have hunread : ∃ a : Written, a.text = "1.0a1-1".toList ∧ canonicalVersion a.text = none :=
    ⟨(onePoint 0 ⟨some ⟨none, .a, none, some (.ofNat 1)⟩, some (.implicit (.ofNat 1)), none,
      by simp⟩ none).written, by decide, by decide⟩
  refine ⟨fun h => ?_, hunread, ?_, ?_, ?_⟩
  · obtain ⟨a, -, hnone⟩ := hunread
    exact (h a a).1 hnone
  · exact ⟨(onePoint (2 ^ 64) ⟨none, none, none, by simp⟩ none).written,
      (onePoint 0 ⟨none, none, none, by simp⟩ none).written,
      by decide, by decide, by decide, by decide⟩
  · exact ⟨(onePoint 0 ⟨some ⟨none, .a, some .hyphen, none⟩, some (.implicit (.ofNat 1)), none,
        by simp⟩ none).written,
      (onePoint 0 ⟨some ⟨none, .a, none, some (.ofNat 1)⟩, none, none, by simp⟩ none).written,
      by decide, by decide, by decide, by decide⟩
  · exact ⟨(onePoint 0 ⟨none, none, none, by simp⟩
        (some (⟨['0', '1'], by simp, List.all_iff_forall_prop.mp rfl⟩, []))).written,
      (onePoint 0 ⟨none, none, none, by simp⟩
        (some (⟨['1'], by simp, List.all_iff_forall_prop.mp rfl⟩, []))).written,
      by decide, by decide, by decide, by decide⟩

end Decides

end ArtifactKeeper.Pypi
