import ArtifactKeeper.Rubygems.MarshalReadBack
import Mathlib.Algebra.Order.BigOperators.Group.List
import Mathlib.Tactic.Tauto

/-! How many bytes the parts of a gemspec take in the stream. The first use of a symbol spells it
out and every later one takes two bytes. -/

namespace ArtifactKeeper.Rubygems

open Bytes Marshal

section Sizes

def longSize (n : ℕ) : ℕ := (longBytes n).length

def stringSize (s : String) : ℕ := (utf8 s).length + longSize (utf8 s).length + 6

def versionSize (version : String) : ℕ := stringSize version + 5

def constraintSize (c : String × String) : ℕ := stringSize c.1 + versionSize c.2 + 2

def requirementSize (constraints : List (String × String)) : ℕ :=
  longSize constraints.length + (constraints.map constraintSize).sum + 6

def dependencySize (dep : GemDependency) : ℕ :=
  stringSize dep.name + 2 * requirementSize (parseRequirementConstraints dep.requirements) + 17

def nameBytes (symbols : List String) : ℕ := (symbols.map fun sym => (utf8 sym).length).sum

/-- The symbols of a dependency beside its type. -/
def dependencySymbols : List String :=
  ["Gem::Dependency", "@name", "@requirement", "@type", "@prerelease", "@version_requirements"]

/-- The symbols that a gemspec needs. -/
def specSymbols (spec : GemSpec) : List String :=
  let deps := spec.dependencies.getD []
  ["E", "Gem::Version", "Gem::Requirement"] ++
    (if deps.isEmpty then [] else dependencySymbols) ++
    (if deps.any GemDependency.dev then ["development"] else []) ++
    (if deps.any fun dep => !dep.dev then ["runtime"] else [])

/-- The fields of a gemspec, with two bytes for every symbol. -/
def fieldsSize (spec : GemSpec) : ℕ :=
  let deps := spec.dependencies.getD []
  let authors := spec.authors.getD []
  stringSize "3.0.0" + stringSize spec.name + versionSize spec.version +
    stringSize (spec.summary.getD "") + requirementSize spec.requiredRuby +
    requirementSize [(">=", "0")] + (longSize deps.length + (deps.map dependencySize).sum) +
    stringSize "" + (longSize authors.length + (authors.map stringSize).sum) +
    stringSize (spec.platform.getD "ruby") + 16

/-- The bytes that the stream of the fields takes with its version and its symbols in full. -/
def quickSpecSize (spec : GemSpec) : ℕ := fieldsSize spec + nameBytes (specSymbols spec) + 2

end Sizes

section Growth

variable {w w₁ w₂ : MarshalWriter}

/-- Between two states the writer adds `size` bytes, with each new symbol of `mentioned` as long as
its name on top. -/
structure Grows (w : MarshalWriter) (size : ℕ) (mentioned : List String) (w' : MarshalWriter) :
    Prop where
  out : w.out <+: w'.out
  known : mentioned ⊆ symbolNames
  symbols : ∀ sym, sym ∈ w'.symbols ↔ sym ∈ w.symbols ∨ sym ∈ mentioned
  length : w.Known →
    w'.out.length + nameBytes w.symbols = w.out.length + size + nameBytes w'.symbols

theorem Grows.known_of_known {size : ℕ} {mentioned : List String}
    (h : Grows w size mentioned w₁) (hw : w.Known) : w₁.Known := by
  intro sym hsym
  cases (h.symbols sym).mp hsym with
  | inl hold => exact hw hold
  | inr hnew => exact h.known hnew

theorem Grows.refl (w : MarshalWriter) : Grows w 0 [] w where
  out := List.prefix_rfl
  known := List.nil_subset _
  symbols := by simp
  length _ := rfl

theorem Grows.trans {m n : ℕ} {S T : List String} (h : Grows w m S w₁) (h' : Grows w₁ n T w₂) :
    Grows w (m + n) (S ++ T) w₂ where
  out := h.out.trans h'.out
  known := List.append_subset.mpr ⟨h.known, h'.known⟩
  symbols sym := by rw [h'.symbols, h.symbols, List.mem_append, or_assoc]
  length hw := by
    have hm := h.length hw
    have hn := h'.length (h.known_of_known hw)
    omega

theorem Grows.congr {m n : ℕ} {S T : List String} (h : Grows w m S w₁) (hsize : m = n)
    (hST : ∀ sym, sym ∈ S ↔ sym ∈ T) : Grows w n T w₁ where
  out := h.out
  known := fun sym hsym => h.known ((hST sym).mpr hsym)
  symbols sym := by rw [h.symbols, hST]
  length := hsize ▸ h.length

theorem Grows.foldl {α : Type} {size : α → ℕ} {mentioned : α → List String}
    {write : MarshalWriter → α → MarshalWriter} (xs : List α)
    (h : ∀ x ∈ xs, ∀ w, Grows w (size x) (mentioned x) (write w x)) (w : MarshalWriter) :
    Grows w (xs.map size).sum (xs.flatMap mentioned) (xs.foldl write w) := by
  induction xs generalizing w with
  | nil => exact Grows.refl w
  | cons x xs ih =>
    obtain ⟨hx, hxs⟩ := List.forall_mem_cons.mp h
    rw [List.map_cons, List.sum_cons, List.flatMap_cons]
    exact (hx w).trans (ih hxs (write w x))

theorem grows_extend (w : MarshalWriter) (bytes : List UInt8) :
    Grows w bytes.length [] (w.extend bytes) where
  out := List.prefix_append _ _
  known := List.nil_subset _
  symbols := by simp [MarshalWriter.extend]
  length _ := by simp [MarshalWriter.extend]

theorem longSize_small {n : ℕ} (h : n < 123) : longSize n = 1 := by
  rw [longSize, longBytes]
  split_ifs with hzero hsmall hneg
  · rfl
  · rfl
  · rfl
  · omega

theorem grows_writeSymbol (sym : String) (hsym : sym ∈ symbolNames) (w : MarshalWriter) :
    Grows w 2 [sym] (w.writeSymbol sym) := by
  rw [MarshalWriter.writeSymbol]
  split_ifs with h
  · refine ⟨?_, List.cons_subset.mpr ⟨hsym, List.nil_subset _⟩, ?_, ?_⟩
    · exact (grows_extend w [0x3b]).out.trans (grows_extend _ _).out
    · intro other
      show other ∈ w.symbols ↔ other ∈ w.symbols ∨ other ∈ [sym]
      rw [List.mem_singleton]
      exact ⟨.inl, fun hor => hor.elim id fun heq => heq ▸ h⟩
    · intro hw
      have hidx : w.symbols.idxOf sym < w.symbols.length := List.idxOf_lt_length_of_mem h
      have hlength := hw.length_le
      have hone := longSize_small (n := w.symbols.idxOf sym) (by omega)
      rw [longSize] at hone
      show (w.out ++ [0x3b] ++ longBytes (w.symbols.idxOf sym)).length + nameBytes w.symbols =
        w.out.length + 2 + nameBytes w.symbols
      rw [List.length_append, List.length_append, hone]
      rfl
  · refine ⟨?_, List.cons_subset.mpr ⟨hsym, List.nil_subset _⟩, ?_, ?_⟩
    · exact ((grows_extend w [0x3a]).out.trans (grows_extend _ _).out).trans (grows_extend _ _).out
    · intro other
      exact List.mem_append
    · intro hw
      have hone := longSize_small (length_utf8_symbolNames hsym)
      rw [longSize] at hone
      show (w.out ++ [0x3a] ++ longBytes (utf8 sym).length ++ utf8 sym).length +
        nameBytes w.symbols = w.out.length + 2 + nameBytes (w.symbols ++ [sym])
      simp only [List.length_append, hone, List.length_singleton, nameBytes, List.map_append,
        List.sum_append, List.map_cons, List.map_nil, List.sum_singleton]
      omega

theorem grows_push (b : UInt8) (w : MarshalWriter) : Grows w 1 [] (w.push b) := grows_extend w [b]

theorem grows_writeLong (n : ℕ) (w : MarshalWriter) : Grows w (longSize n) [] (w.writeLong n) :=
  grows_extend w (longBytes n)

theorem grows_writeSmall {n : ℕ} (h : n < 123) (w : MarshalWriter) : Grows w 1 [] (w.writeLong n) :=
  longSize_small h ▸ grows_writeLong n w

theorem grows_writeArrayHeader (n : ℕ) (w : MarshalWriter) :
    Grows w (longSize n + 1) [] (w.writeArrayHeader n) :=
  ((grows_push 0x5b w).trans (grows_writeLong n _)).congr (by omega) (by simp)

theorem grows_writeSmallHeader {n : ℕ} (h : n < 123) (w : MarshalWriter) :
    Grows w 2 [] (w.writeArrayHeader n) :=
  (grows_writeArrayHeader n w).congr (by rw [longSize_small h]) (by simp)

theorem grows_writeUtf8String (s : String) (w : MarshalWriter) :
    Grows w (stringSize s) ["E"] (w.writeUtf8String s) := by
  have hopen := ((grows_push 0x49 w).trans (grows_push 0x22 _)).trans
    ((grows_writeLong (utf8 s).length _).trans (grows_extend _ (utf8 s)))
  have hivar := (hopen.trans (grows_writeSmall (n := 1) (by norm_num) _)).trans
    ((grows_writeSymbol "E" (by decide) _).trans (grows_push 0x54 _))
  exact hivar.congr (by rw [stringSize]; omega) (by simp)

theorem grows_writeGemVersion (version : String) (w : MarshalWriter) :
    Grows w (versionSize version) ["Gem::Version", "E"] (w.writeGemVersion version) := by
  have hclass := (grows_push 0x55 w).trans (grows_writeSymbol "Gem::Version" (by decide) _)
  have hdata := (hclass.trans (grows_writeSmallHeader (n := 1) (by norm_num) _)).trans
    (grows_writeUtf8String version _)
  exact hdata.congr (by rw [versionSize]; omega) (by simp)

theorem grows_writeGemRequirement {constraints : List (String × String)} (h : constraints ≠ [])
    (w : MarshalWriter) :
    Grows w (requirementSize constraints) ["Gem::Requirement", "E", "Gem::Version"]
      (w.writeGemRequirement constraints) := by
  have hclass := (grows_push 0x55 w).trans (grows_writeSymbol "Gem::Requirement" (by decide) _)
  have hheaders := (hclass.trans (grows_writeSmallHeader (n := 1) (by norm_num) _)).trans
    (grows_writeArrayHeader constraints.length _)
  have hpair : ∀ c ∈ constraints, ∀ w : MarshalWriter, Grows w (constraintSize c)
      ["E", "Gem::Version"]
      (((w.writeArrayHeader 2).writeUtf8String c.1).writeGemVersion c.2) := by
    intro c _ w
    have hop := (grows_writeSmallHeader (n := 2) (by norm_num) w).trans
      (grows_writeUtf8String c.1 _)
    exact (hop.trans (grows_writeGemVersion c.2 _)).congr (by rw [constraintSize]; omega)
      (by simp [or_comm])
  refine (hheaders.trans (Grows.foldl constraints hpair _)).congr
    (by rw [requirementSize]; omega) ?_
  obtain ⟨c, hc⟩ := List.exists_mem_of_ne_nil _ h
  intro sym
  simp only [List.nil_append, List.append_nil, List.singleton_append, List.mem_cons,
    List.mem_flatMap, List.not_mem_nil, or_false]
  exact or_congr_right ⟨fun h => h.choose_spec.2, fun hsym => ⟨c, hc, hsym⟩⟩

theorem parseRequirementConstraints_ne_nil (req : String) :
    parseRequirementConstraints req ≠ [] := by
  rw [parseRequirementConstraints]
  split_ifs with h
  · exact List.cons_ne_nil _ _
  · exact fun hnil => h (List.isEmpty_iff.mpr hnil)

theorem requiredRuby_ne_nil (spec : GemSpec) : spec.requiredRuby ≠ [] := by
  rw [GemSpec.requiredRuby]
  cases spec.requiredRubyVersion with
  | none => exact List.cons_ne_nil _ _
  | some req => exact parseRequirementConstraints_ne_nil req

/-- The name of the type of a dependency. -/
def GemDependency.typeName (dep : GemDependency) : String :=
  if dep.dev then "development" else "runtime"

theorem typeName_known (dep : GemDependency) : dep.typeName ∈ symbolNames := by
  rw [GemDependency.typeName]
  split_ifs <;> decide

theorem grows_writeGemDependency (dep : GemDependency) (w : MarshalWriter) :
    Grows w (dependencySize dep)
      (dependencySymbols ++ ["E", "Gem::Version", "Gem::Requirement", dep.typeName])
      (w.writeGemDependency dep.name (parseRequirementConstraints dep.requirements) dep.dev) := by
  have hne := parseRequirementConstraints_ne_nil dep.requirements
  have hclass := ((grows_push 0x6f w).trans
    (grows_writeSymbol "Gem::Dependency" (by decide) _)).trans
    (grows_writeSmall (n := 5) (by norm_num) _)
  have hname := hclass.trans ((grows_writeSymbol "@name" (by decide) _).trans
    (grows_writeUtf8String dep.name _))
  have hrequirement := hname.trans ((grows_writeSymbol "@requirement" (by decide) _).trans
    (grows_writeGemRequirement hne _))
  have htype := hrequirement.trans ((grows_writeSymbol "@type" (by decide) _).trans
    (grows_writeSymbol dep.typeName (typeName_known dep) _))
  have hprerelease := htype.trans ((grows_writeSymbol "@prerelease" (by decide) _).trans
    (grows_push 0x46 _))
  have hversion := hprerelease.trans
    ((grows_writeSymbol "@version_requirements" (by decide) _).trans
      (grows_writeGemRequirement hne _))
  refine hversion.congr (by rw [dependencySize]; omega) fun sym => ?_
  simp only [dependencySymbols, List.mem_append, List.mem_cons, List.not_mem_nil, or_false,
    false_or]
  grind

theorem mem_specSymbols {spec : GemSpec} {sym : String} :
    sym ∈ specSymbols spec ↔ sym ∈ ["E", "Gem::Version", "Gem::Requirement"] ∨
      ∃ dep ∈ spec.dependencies.getD [], sym ∈ dependencySymbols ∨ sym = dep.typeName := by
  have htype : ∀ dep : GemDependency, sym = dep.typeName ↔
      dep.dev = true ∧ sym = "development" ∨ dep.dev = false ∧ sym = "runtime" := by
    intro dep
    rw [GemDependency.typeName]
    cases dep.dev <;> simp
  unfold specSymbols
  generalize spec.dependencies.getD [] = deps
  simp only [htype, List.mem_append, or_assoc]
  refine or_congr_right ⟨?_, ?_⟩
  · rintro (hsym | hsym | hsym)
    · cases deps with
      | nil => simp at hsym
      | cons dep deps => exact ⟨dep, List.mem_cons_self, .inl hsym⟩
    · split_ifs at hsym with hany
      · obtain ⟨dep, hdep, hdev⟩ := List.any_eq_true.mp hany
        exact ⟨dep, hdep, .inr (.inl ⟨hdev, List.mem_singleton.mp hsym⟩)⟩
      · exact absurd hsym List.not_mem_nil
    · split_ifs at hsym with hany
      · obtain ⟨dep, hdep, hdev⟩ := List.any_eq_true.mp hany
        exact ⟨dep, hdep, .inr (.inr ⟨by simpa using hdev, List.mem_singleton.mp hsym⟩)⟩
      · exact absurd hsym List.not_mem_nil
  · rintro ⟨dep, hdep, hsym | ⟨hdev, rfl⟩ | ⟨hdev, rfl⟩⟩
    · left
      rw [if_neg (by simpa using List.ne_nil_of_mem hdep)]
      exact hsym
    · right; left
      rw [if_pos (List.any_eq_true.mpr ⟨dep, hdep, hdev⟩)]
      exact List.mem_singleton_self _
    · right; right
      rw [if_pos (List.any_eq_true.mpr ⟨dep, hdep, by simpa using hdev⟩)]
      exact List.mem_singleton_self _

theorem nodup_specSymbols (spec : GemSpec) : (specSymbols spec).Nodup := by
  rw [specSymbols]
  split_ifs <;> decide

/-- What the fields add to a new stream. -/
theorem grows_marshalFields (spec : GemSpec) :
    Grows MarshalWriter.new (fieldsSize spec) (specSymbols spec) (marshalFields spec) := by
  have hversion := (((((grows_writeSmallHeader (n := 19) (by norm_num) MarshalWriter.new).trans
    (grows_writeUtf8String "3.0.0" _)).trans ((grows_push 0x69 _).trans
    (grows_writeSmall (n := 4) (by norm_num) _))).trans (grows_writeUtf8String spec.name _)).trans
    (grows_writeGemVersion spec.version _)).trans (grows_push 0x30 _)
  have hsummary := hversion.trans (grows_writeUtf8String (spec.summary.getD "") _)
  have hrequirements := ((hsummary.trans
    (grows_writeGemRequirement (requiredRuby_ne_nil spec) _)).trans
    (grows_writeGemRequirement (List.cons_ne_nil (">=", "0") []) _)).trans (grows_push 0x30 _)
  have hdependencies := (hrequirements.trans
    (grows_writeArrayHeader (spec.dependencies.getD []).length _)).trans
    (Grows.foldl (spec.dependencies.getD []) (fun dep _ => grows_writeGemDependency dep) _)
  have hauthors := (((hdependencies.trans (grows_writeUtf8String "" _)).trans
    (grows_push 0x30 _)).trans (grows_writeArrayHeader (spec.authors.getD []).length _)).trans
    (Grows.foldl (spec.authors.getD []) (fun author _ => grows_writeUtf8String author) _)
  have hplatform := (((hauthors.trans (grows_push 0x30 _)).trans (grows_push 0x30 _)).trans
    (grows_push 0x54 _)).trans (grows_writeUtf8String (spec.platform.getD "ruby") _)
  have hall := hplatform.trans ((grows_writeSmallHeader (n := 0) (by norm_num) _).trans
    ((grows_push 0x7b _).trans (grows_writeSmall (n := 0) (by norm_num) _)))
  refine hall.congr ?_ fun sym => ?_
  · rw [fieldsSize]
    omega
  · rw [mem_specSymbols]
    simp only [List.mem_append, List.mem_flatMap, List.mem_cons, List.not_mem_nil, or_false,
      false_or]
    by_cases hbase : sym = "E" ∨ sym = "Gem::Version" ∨ sym = "Gem::Requirement"
    · rcases hbase with rfl | rfl | rfl <;> simp
    · obtain ⟨hne₁, hne₂, hne₃⟩ := by simpa only [not_or] using hbase
      simp only [hne₁, hne₂, hne₃, false_or, and_false, exists_false, or_false]

theorem nameBytes_eq_of_mem {S T : List String} (hS : S.Nodup) (hT : T.Nodup)
    (h : ∀ sym, sym ∈ S ↔ sym ∈ T) : nameBytes S = nameBytes T := by
  have hperm : S.Perm T := (List.perm_ext_iff_of_nodup hS hT).mpr h
  exact (hperm.map _).sum_eq

theorem length_marshalFields (spec : GemSpec) :
    (marshalFields spec).out.length = quickSpecSize spec := by
  have hgrows := grows_marshalFields spec
  have hnames : nameBytes (marshalFields spec).symbols = nameBytes (specSymbols spec) := by
    apply nameBytes_eq_of_mem (marshalFields spec).nodup (nodup_specSymbols spec)
    intro sym
    rw [hgrows.symbols]
    exact or_iff_right List.not_mem_nil
  have hlength := hgrows.length (List.nil_subset _)
  change (marshalFields spec).out.length + 0 = 2 + fieldsSize spec + _ at hlength
  rw [quickSpecSize]
  omega

end Growth

end ArtifactKeeper.Rubygems
