import ArtifactKeeper.Rubygems.MarshalSize

/-! What the two documents mean to a client, and that it reads just this from the bytes as long as
every length fits into the format. -/

namespace ArtifactKeeper.Rubygems

open Bytes Marshal

section Values

/-- A string in UTF-8. -/
def rubyString (s : String) : Value := .withIvars (.string (utf8 s)) [(utf8 "E", .bool true)]

def gemVersion (version : String) : Value :=
  .userMarshal (utf8 "Gem::Version") (.array [rubyString version])

def gemConstraint (c : String × String) : Value := .array [rubyString c.1, gemVersion c.2]

def gemRequirement (constraints : List (String × String)) : Value :=
  .userMarshal (utf8 "Gem::Requirement") (.array [.array (constraints.map gemConstraint)])

def gemDependency (dep : GemDependency) : Value :=
  let constraints := parseRequirementConstraints dep.requirements
  .object (utf8 "Gem::Dependency")
    [(utf8 "@name", rubyString dep.name), (utf8 "@requirement", gemRequirement constraints),
      (utf8 "@type", .symbol (utf8 dep.typeName)), (utf8 "@prerelease", .bool false),
      (utf8 "@version_requirements", gemRequirement constraints)]

/-- An entry of the index. -/
def specTuple (spec : String × String × String) : Value :=
  .array [rubyString spec.1, gemVersion spec.2.1, rubyString spec.2.2]

/-- The fields of a gemspec in the order of `Gem::Specification#_dump`. -/
def specFields (spec : GemSpec) : List Value :=
  [rubyString "3.0.0", .fixnum 4, rubyString spec.name, gemVersion spec.version, .nil,
    rubyString (spec.summary.getD ""), gemRequirement spec.requiredRuby,
    gemRequirement [(">=", "0")], .nil,
    .array ((spec.dependencies.getD []).map gemDependency), rubyString "", .nil,
    .array ((spec.authors.getD []).map rubyString), .nil, .nil, .bool true,
    rubyString (spec.platform.getD "ruby"), .array [], .hash []]

theorem size_le_sum {α : Type} {f : α → ℕ} {xs : List α} {x : α} (h : x ∈ xs) :
    f x ≤ (xs.map f).sum :=
  List.single_le_sum (fun _ _ => Nat.zero_le _) _ (List.mem_map_of_mem h)

theorem length_le_sum {α : Type} {f : α → ℕ} (h : ∀ x, 0 < f x) (xs : List α) :
    xs.length ≤ (xs.map f).sum := by
  rw [← List.length_map f]
  apply List.length_le_sum_of_one_le
  intro n hn
  obtain ⟨x, -, rfl⟩ := List.mem_map.mp hn
  exact h x

theorem emits_writeUtf8String {s : String} (h : (utf8 s).length < 2 ^ 32) (depth : ℕ)
    (w : MarshalWriter) :
    Emits w (readObject (depth + 2)) (rubyString s) (w.writeUtf8String s) := by
  apply emits_object 0x49 .ivar rfl
  apply (emits_object 0x22 .string rfl ((emits_blob h _).map _)).bind
  apply (emits_count (n := 1) (by norm_num) _).bind
  exact ((emits_ivar "E" (by decide) (emits_writeBool true depth _)).cons Emits.nil).map _

theorem emits_writeGemVersion {version : String} (h : (utf8 version).length < 2 ^ 32) (depth : ℕ)
    (w : MarshalWriter) :
    Emits w (readObject (depth + 4)) (gemVersion version) (w.writeGemVersion version) := by
  apply emits_object 0x55 .userMarshal rfl
  apply (emits_writeSymbol "Gem::Version" (by decide) _).bind
  exact (emits_array (n := 1) (by norm_num)
    ((emits_writeUtf8String h depth _).cons Emits.nil)).map _

theorem length_le_stringSize (s : String) : (utf8 s).length ≤ stringSize s := by
  rw [stringSize]
  omega

theorem length_le_versionSize (version : String) : (utf8 version).length ≤ versionSize version :=
  (length_le_stringSize version).trans (Nat.le_add_right _ _)

theorem emits_writeGemRequirement {constraints : List (String × String)}
    (h : requirementSize constraints < 2 ^ 32) (depth : ℕ) (w : MarshalWriter) :
    Emits w (readObject (depth + 8)) (gemRequirement constraints)
      (w.writeGemRequirement constraints) := by
  rw [requirementSize] at h
  have hlength := length_le_sum (f := constraintSize) (fun _ => Nat.succ_pos _) constraints
  have hpair : ∀ c ∈ constraints, ∀ w : MarshalWriter,
      Emits w (readObject (depth + 5)) (gemConstraint c)
        (((w.writeArrayHeader 2).writeUtf8String c.1).writeGemVersion c.2) := by
    intro c hc w
    have hsize := size_le_sum (f := constraintSize) hc
    rw [constraintSize] at hsize
    have hop := length_le_stringSize c.1
    have hversion := length_le_versionSize c.2
    exact emits_array (n := 2) (by norm_num) ((emits_writeUtf8String (by omega) _ _).cons
      ((emits_writeGemVersion (by omega) _ _).cons Emits.nil))
  apply emits_object 0x55 .userMarshal rfl
  apply (emits_writeSymbol "Gem::Requirement" (by decide) _).bind
  have hlist := emits_list (by omega) hpair
  exact (emits_array (n := 1) (by norm_num) ((hlist _).cons Emits.nil)).map _

theorem emits_writeGemDependency {dep : GemDependency} (h : dependencySize dep < 2 ^ 32)
    (depth : ℕ) (w : MarshalWriter) :
    Emits w (readObject (depth + 9)) (gemDependency dep)
      (w.writeGemDependency dep.name (parseRequirementConstraints dep.requirements) dep.dev) := by
  rw [dependencySize] at h
  have hname := length_le_stringSize dep.name
  apply emits_object 0x6f .object rfl
  apply (emits_writeSymbol "Gem::Dependency" (by decide) _).bind
  apply (emits_count (n := 5) (by norm_num) _).bind
  apply Emits.map
  apply (emits_ivar "@name" (by decide) (emits_writeUtf8String (by omega) _ _)).cons
  apply (emits_ivar "@requirement" (by decide) (emits_writeGemRequirement (by omega) _ _)).cons
  apply (emits_ivar "@type" (by decide)
    (emits_symbolValue dep.typeName (typeName_known dep) _ _)).cons
  apply (emits_ivar "@prerelease" (by decide) (emits_writeBool false _ _)).cons
  exact (emits_ivar "@version_requirements" (by decide)
    (emits_writeGemRequirement (by omega) _ _)).cons Emits.nil

theorem emits_marshalFields {spec : GemSpec} (h : quickSpecSize spec < 2 ^ 32) (depth : ℕ) :
    Emits .new (readObject (depth + 11)) (.array (specFields spec)) (marshalFields spec) := by
  rw [quickSpecSize, fieldsSize] at h
  have hname := length_le_stringSize spec.name
  have hversion := length_le_versionSize spec.version
  have hsummary := length_le_stringSize (spec.summary.getD "")
  have hplatform := length_le_stringSize (spec.platform.getD "ruby")
  have hdeps := length_le_sum (f := dependencySize) (fun _ => Nat.succ_pos _)
    (spec.dependencies.getD [])
  have hauthors := length_le_sum (f := stringSize) (fun _ => Nat.succ_pos _)
    (spec.authors.getD [])
  have hdep : ∀ dep ∈ spec.dependencies.getD [], dependencySize dep < 2 ^ 32 := fun dep hdep =>
    (size_le_sum hdep).trans_lt (by omega)
  have hauthor : ∀ author ∈ spec.authors.getD [], (utf8 author).length < 2 ^ 32 :=
    fun author hauthor => ((length_le_stringSize author).trans (size_le_sum hauthor)).trans_lt
      (by omega)
  apply emits_array (n := 19) (by norm_num)
  apply (emits_writeUtf8String (by decide) _ _).cons
  apply (emits_writeFixnum (n := 4) (by norm_num) (by norm_num) _ _).cons
  apply (emits_writeUtf8String (by omega) _ _).cons
  apply (emits_writeGemVersion (by omega) _ _).cons
  apply (emits_writeNil _ _).cons
  apply (emits_writeUtf8String (by omega) _ _).cons
  apply (emits_writeGemRequirement (by omega) _ _).cons
  apply (emits_writeGemRequirement (by omega) _ _).cons
  apply (emits_writeNil _ _).cons
  apply (emits_list (by omega) (fun dep hmem => emits_writeGemDependency (hdep dep hmem) _) _).cons
  apply (emits_writeUtf8String (by decide) _ _).cons
  apply (emits_writeNil _ _).cons
  apply (emits_list (by omega) (fun author hmem => emits_writeUtf8String (hauthor author hmem) _)
    _).cons
  apply (emits_writeNil _ _).cons
  apply (emits_writeNil _ _).cons
  apply (emits_writeBool true _ _).cons
  apply (emits_writeUtf8String (by omega) _ _).cons
  apply (emits_array (n := 0) (by norm_num) Emits.nil).cons
  exact (emits_writeEmptyHash _ _).cons Emits.nil

end Values

section Documents

theorem load_of_emits {w : MarshalWriter} {v : Value} {depth : ℕ}
    (h : Emits .new (readObject depth) v w) (hdepth : w.out.length = depth) :
    load w.out = some (v, []) := by
  obtain ⟨-, bs, hout, hreads⟩ := h (List.nil_subset _)
  have hout : w.out = 0x04 :: 0x08 :: bs := hout
  have hread := hreads []
  rw [List.append_nil, ← hdepth, hout] at hread
  rw [hout]
  show Option.map _ ((readObject (0x04 :: 0x08 :: bs).length).run ⟨bs, MarshalWriter.new.table⟩) = _
  rw [hread]
  rfl

/-- One entry of the index. -/
def writeSpec (w : MarshalWriter) (spec : String × String × String) : MarshalWriter :=
  (((w.writeArrayHeader 3).writeUtf8String spec.1).writeGemVersion spec.2.1).writeUtf8String
    spec.2.2

theorem marshalSpecsIndex_eq (specs : List (String × String × String)) :
    marshalSpecsIndex specs =
      (specs.foldl writeSpec (MarshalWriter.new.writeArrayHeader specs.length)).out := rfl

theorem grows_writeSpec (spec : String × String × String) (w : MarshalWriter) :
    Grows w (stringSize spec.1 + versionSize spec.2.1 + stringSize spec.2.2 + 2)
      ["E", "Gem::Version"] (writeSpec w spec) :=
  (((grows_writeSmallHeader (n := 3) (by norm_num) w).trans (grows_writeUtf8String spec.1 _)).trans
    ((grows_writeGemVersion spec.2.1 _).trans (grows_writeUtf8String spec.2.2 _))).congr
    (by omega) (fun sym => by simp; tauto)

theorem emits_writeSpec {spec : String × String × String} (hname : (utf8 spec.1).length < 2 ^ 32)
    (hversion : (utf8 spec.2.1).length < 2 ^ 32) (hplatform : (utf8 spec.2.2).length < 2 ^ 32)
    (depth : ℕ) (w : MarshalWriter) :
    Emits w (readObject (depth + 5)) (specTuple spec) (writeSpec w spec) := by
  apply emits_array (n := 3) (by norm_num)
  apply (emits_writeUtf8String hname _ _).cons
  apply (emits_writeGemVersion hversion _ _).cons
  exact (emits_writeUtf8String hplatform _ _).cons Emits.nil

theorem six_le_stringSize (s : String) : 6 ≤ stringSize s := Nat.le_add_left _ _

/-- The index as a client sees it, for every number of entries that the format can count. -/
theorem load_marshalSpecsIndex_iff {specs : List (String × String × String)}
    (hshort : ∀ spec ∈ specs, (utf8 spec.1).length < 2 ^ 32 ∧ (utf8 spec.2.1).length < 2 ^ 32 ∧
      (utf8 spec.2.2).length < 2 ^ 32) :
    load (marshalSpecsIndex specs) = some (.array (specs.map specTuple), []) ↔
      specs.length < 2 ^ 32 := by
  have hentries := Grows.foldl specs (fun spec _ => grows_writeSpec spec)
    (MarshalWriter.new.writeArrayHeader specs.length)
  rw [marshalSpecsIndex_eq]
  constructor
  · intro h
    obtain ⟨bs, hout⟩ := hentries.out
    rw [← hout] at h
    have hlt := length_lt_of_load h
    rwa [List.length_map] at hlt
  · intro hlength
    cases specs with
    | nil => exact load_of_emits (@emits_list _ 3 _ _ _ hlength (by simp) _) rfl
    | cons spec specs =>
      have hgrows := (grows_writeArrayHeader (spec :: specs).length .new).trans hentries
      have hsize := hgrows.length (List.nil_subset _)
      have hname := six_le_stringSize spec.1
      rw [List.map_cons, List.sum_cons] at hsize
      change _ + 0 = 2 + _ + _ at hsize
      obtain ⟨depth, hdepth⟩ : ∃ depth, ((spec :: specs).foldl writeSpec
          (MarshalWriter.new.writeArrayHeader (spec :: specs).length)).out.length = depth + 6 :=
        ⟨_, (Nat.sub_add_cancel (by omega)).symm⟩
      refine load_of_emits (emits_list hlength (fun entry hentry => ?_) _) hdepth
      obtain ⟨hname, hversion, hplatform⟩ := hshort entry hentry
      exact emits_writeSpec hname hversion hplatform depth

-- what Ruby itself dumps for this index
example : marshalSpecsIndex [("dtf-marker", "1.0.0", "ruby")] =
    [0x04, 0x08, 0x5b, 0x06, 0x5b, 0x08, 0x49, 0x22, 0x0f, 0x64, 0x74, 0x66, 0x2d, 0x6d,
      0x61, 0x72, 0x6b, 0x65, 0x72, 0x06, 0x3a, 0x06, 0x45, 0x54, 0x55, 0x3a, 0x11, 0x47,
      0x65, 0x6d, 0x3a, 0x3a, 0x56, 0x65, 0x72, 0x73, 0x69, 0x6f, 0x6e, 0x5b, 0x06, 0x49,
      0x22, 0x0a, 0x31, 0x2e, 0x30, 0x2e, 0x30, 0x06, 0x3b, 0x00, 0x54, 0x49, 0x22, 0x09,
      0x72, 0x75, 0x62, 0x79, 0x06, 0x3b, 0x00, 0x54] := by
  decide +kernel

/-- The gemspec as a client sees it: an object that carries the stream of the fields. -/
def QuickSpecReadsBack (spec : GemSpec) : Prop :=
  ∃ payload,
    load (marshalQuickSpec spec) =
      some (.userDefined (utf8 "Gem::Specification") payload, []) ∧
    load payload = some (.array (specFields spec), [])

theorem load_marshalFields {spec : GemSpec} (h : quickSpecSize spec < 2 ^ 32) :
    load (marshalFields spec).out = some (.array (specFields spec), []) := by
  have hlength := length_marshalFields spec
  have hname := six_le_stringSize spec.name
  have hsummary := six_le_stringSize (spec.summary.getD "")
  obtain ⟨depth, hdepth⟩ : ∃ depth, (marshalFields spec).out.length = depth + 11 :=
    ⟨_, (Nat.sub_add_cancel (by rw [hlength, quickSpecSize, fieldsSize]; omega)).symm⟩
  exact load_of_emits (emits_marshalFields h depth) hdepth

/-- A payload whose length does not fit is cut after its first bytes, and the rest is left over. -/
theorem load_marshalQuickSpec_big {spec : GemSpec} (h : 2 ^ 32 ≤ quickSpecSize spec)
    (v : Value) : load (marshalQuickSpec spec) ≠ some (v, []) := by
  intro hload
  have hlength := length_marshalFields spec
  obtain ⟨-, bs, hout, hsymbol⟩ := emits_writeSymbol "Gem::Specification" (by decide)
    (MarshalWriter.new.push 0x75) (List.nil_subset _)
  obtain ⟨b, tail, hlong, k, hk, hcount⟩ := reads_longBytes_big
    (t := ((MarshalWriter.new.push 0x75).writeSymbol "Gem::Specification").table)
    (n := (marshalFields spec).out.length) (by omega)
  have hstream : marshalQuickSpec spec =
      0x04 :: 0x08 :: 0x75 :: (bs ++ ([b] ++ (tail ++ (marshalFields spec).out))) := by
    show ((MarshalWriter.new.push 0x75).writeSymbol "Gem::Specification").out ++
      longBytes (marshalFields spec).out.length ++ (marshalFields spec).out = _
    rw [hout, hlong]
    simp [MarshalWriter.new, MarshalWriter.push, MarshalWriter.extend]
  rw [hstream] at hload
  obtain ⟨⟨v', s⟩, hread, hrest⟩ := Option.map_eq_some_iff.mp hload
  obtain ⟨-, hinput⟩ := Prod.mk.inj hrest
  obtain ⟨tag, s₁, htag, hread⟩ := bind_run_eq_some hread
  obtain ⟨rfl, rfl⟩ := Prod.mk.inj (Option.some.inj htag)
  obtain ⟨name, s₂, hname, hread⟩ := bind_run_eq_some hread
  obtain ⟨rfl, rfl⟩ := Prod.mk.inj (Option.some.inj ((hsymbol _).symm.trans hname))
  obtain ⟨payload, hblob, -⟩ := map_run_eq_some hread
  obtain ⟨n, s₃, hn, hbytes⟩ := bind_run_eq_some hblob
  obtain ⟨rfl, rfl⟩ := Prod.mk.inj (Option.some.inj ((hcount.count _).symm.trans hn))
  obtain ⟨-, hdrop⟩ := readBytes_eq_some hbytes
  -- what is behind the first bytes of the payload is never empty
  have hleft := congrArg List.length (hdrop.symm.trans hinput)
  simp only [List.length_drop, List.length_append, List.length_nil] at hleft
  omega

theorem quickSpecReadsBack_iff (spec : GemSpec) :
    QuickSpecReadsBack spec ↔ quickSpecSize spec < 2 ^ 32 := by
  constructor
  · rintro ⟨payload, hload, -⟩
    by_contra hbig
    exact load_marshalQuickSpec_big (not_lt.mp hbig) _ hload
  · intro h
    have hlength := length_marshalFields spec
    refine ⟨(marshalFields spec).out, ?_, load_marshalFields h⟩
    obtain ⟨depth, hdepth⟩ : ∃ depth, (marshalQuickSpec spec).length = depth + 1 := by
      refine Nat.exists_eq_add_one.mpr ?_
      show 0 < (_ ++ (marshalFields spec).out).length
      rw [List.length_append, hlength, quickSpecSize]
      omega
    refine load_of_emits (emits_object 0x75 .userDefined rfl ?_) hdepth
    apply (emits_writeSymbol "Gem::Specification" (by decide) _).bind
    exact (emits_blob (by rw [hlength]; exact h) _).map _

/-- Both documents and every number of 32 bits are read back as what they were written for, an
index exactly if its entries and a gemspec exactly if its bytes are fewer than `2 ^ 32`. -/
theorem marshal_reads_back_iff (specs : List (String × String × String))
    (hshort : ∀ spec ∈ specs, (utf8 spec.1).length < 2 ^ 31 ∧ (utf8 spec.2.1).length < 2 ^ 31 ∧
      (utf8 spec.2.2).length < 2 ^ 31)
    (spec : GemSpec) (t : List (List UInt8)) (n : ℤ) (hlow : -2 ^ 31 ≤ n) (hhigh : n < 2 ^ 31) :
    (load (marshalSpecsIndex specs) = some (.array (specs.map specTuple), []) ↔
        specs.length < 2 ^ 32) ∧
      (QuickSpecReadsBack spec ↔ quickSpecSize spec < 2 ^ 32) ∧
      Reads t readLong (longBytes n) t n := by
  refine ⟨load_marshalSpecsIndex_iff fun entry hentry => ?_, quickSpecReadsBack_iff spec,
    reads_longBytes (by omega) (by omega)⟩
  obtain ⟨hname, hversion, hplatform⟩ := hshort entry hentry
  exact ⟨by omega, by omega, by omega⟩

theorem marshal_reads_back_golden :
    load (marshalSpecsIndex [("dtf-marker", "1.0.0", "ruby")]) =
        some (.array [specTuple ("dtf-marker", "1.0.0", "ruby")], []) ∧
      Reads [] readLong (longBytes (-2 ^ 31)) [] (-2 ^ 31) := by
  have h := marshal_reads_back_iff [("dtf-marker", "1.0.0", "ruby")] (by simp; decide)
    ⟨"dtf-marker", "1.0.0", none, none, none, none, none⟩ [] (-2 ^ 31) (by decide) (by decide)
  exact ⟨h.1.mpr (by decide), h.2.2⟩

/-- The strings of a gemspec. -/
def GemSpec.strings (spec : GemSpec) : List String :=
  [spec.name, spec.version] ++ spec.platform.toList ++ spec.authors.getD [] ++
    spec.summary.toList ++ spec.requiredRubyVersion.toList ++
    (spec.dependencies.getD []).flatMap fun dep => [dep.name, dep.requirements, dep.depType]

/-- `1,1,…,1`, with `n` commas. -/
def ones : ℕ → List Char
  | 0 => ['1']
  | n + 1 => '1' :: ',' :: ones n

theorem splitOn_ones (n : ℕ) : (ones n).splitOn ',' = List.replicate (n + 1) ['1'] := by
  induction n with
  | zero => rfl
  | succ n ih =>
    rw [ones, List.splitOn_cons_eq_if_modifyHead, if_neg (by decide),
      List.splitOn_cons_eq_if_modifyHead, if_pos (by decide), ih]
    rfl

theorem length_ones (n : ℕ) : (utf8 (String.ofList (ones n))).length = 2 * n + 1 := by
  show (List.utf8Encode (ones n)).size = 2 * n + 1
  induction n with
  | zero => rfl
  | succ n ih =>
    have hcons : ∀ (c : Char) (cs : List Char), (List.utf8Encode (c :: cs)).size =
        (List.utf8Encode [c]).size + (List.utf8Encode cs).size := by
      intro c cs
      rw [List.utf8Encode_cons, ByteArray.size_append]
    rw [ones, hcons, hcons ',', ih]
    show 1 + (1 + (2 * n + 1)) = 2 * (n + 1) + 1
    omega

theorem parseRequirementConstraints_ones (n : ℕ) :
    parseRequirementConstraints (String.ofList (ones n)) = List.replicate (n + 1) ("=", "1") := by
  have hone : parseConstraint ['1'] = some ("=", "1") := by decide +kernel
  rw [parseRequirementConstraints, String.toList_ofList, splitOn_ones,
    List.filterMap_replicate_of_some hone]
  rfl

/-- A gem with one dependency, on any of the versions. -/
def onesSpec (n : ℕ) : GemSpec :=
  ⟨"a", "1.0", none, none, none, none, some [⟨"b", String.ofList (ones n), "runtime"⟩]⟩

theorem le_dependencySize_ones (n : ℕ) :
    42 * (n + 1) ≤ dependencySize ⟨"b", String.ofList (ones n), "runtime"⟩ := by
  have hop : 7 ≤ stringSize "=" := by decide +kernel
  have hversion : 12 ≤ versionSize "1" := by decide +kernel
  have hconstraint : 21 ≤ constraintSize ("=", "1") := by
    show 21 ≤ stringSize "=" + versionSize "1" + 2
    omega
  have hsum : ((List.replicate (n + 1) ("=", "1")).map constraintSize).sum =
      (n + 1) * constraintSize ("=", "1") := by
    rw [List.map_replicate, List.sum_replicate]
    rfl
  have hmul : (n + 1) * 21 ≤ (n + 1) * constraintSize ("=", "1") :=
    Nat.mul_le_mul_left _ hconstraint
  show _ ≤ stringSize "b" +
    2 * requirementSize (parseRequirementConstraints (String.ofList (ones n))) + 17
  rw [parseRequirementConstraints_ones, requirementSize, hsum]
  omega

theorem le_quickSpecSize_ones (n : ℕ) : 42 * (n + 1) ≤ quickSpecSize (onesSpec n) := by
  have hdep := le_dependencySize_ones n
  show _ ≤ fieldsSize _ + _ + 2
  rw [fieldsSize]
  show _ ≤ _ + _ + _ + _ + _ + _ +
    (_ + (dependencySize ⟨"b", String.ofList (ones n), "runtime"⟩ + 0)) + _ + _ + _ + _ + _ + _
  omega

theorem huge_requirements_not_read_back :
    ¬ ((∀ specs : List (String × String × String),
        (∀ spec ∈ specs, (utf8 spec.1).length < 2 ^ 31 ∧ (utf8 spec.2.1).length < 2 ^ 31 ∧
          (utf8 spec.2.2).length < 2 ^ 31) →
        load (marshalSpecsIndex specs) = some (.array (specs.map specTuple), [])) ∧
      (∀ spec : GemSpec, (∀ s ∈ spec.strings, (utf8 s).length < 2 ^ 31) →
        QuickSpecReadsBack spec) ∧
      ∀ (t : List (List UInt8)) (n : ℤ), -2 ^ 31 ≤ n → n < 2 ^ 31 →
        Reads t readLong (longBytes n) t n) := by
  rintro ⟨-, h, -⟩
  have hshort : ∀ n, 2 * n + 1 < 2 ^ 31 → ∀ s ∈ (onesSpec n).strings,
      (utf8 s).length < 2 ^ 31 := by
    intro n hn s hs
    have hmem : s = "a" ∨ s = "1.0" ∨ s = "b" ∨ s = String.ofList (ones n) ∨ s = "runtime" := by
      simpa [GemSpec.strings, onesSpec] using hs
    rcases hmem with rfl | rfl | rfl | rfl | rfl
    · decide +kernel
    · decide +kernel
    · decide +kernel
    · rwa [length_ones]
    · decide +kernel
  have hread := h (onesSpec (2 ^ 27 - 1)) (hshort _ (by norm_num))
  have hlt := (quickSpecReadsBack_iff _).mp hread
  have hle := le_quickSpecSize_ones (2 ^ 27 - 1)
  omega

end Documents

end ArtifactKeeper.Rubygems
