import ArtifactKeeper.Auth.ApiToken
import ArtifactKeeper.JsonValue
import ArtifactKeeper.Wildcard

/-! What repository selectors select, how they are read from JSON, and the scope that a stored
selector gives to a token. -/

namespace ArtifactKeeper.Auth
variable {τ : Type}

section FromValue

/-- `HashMap<String, String>`. -/
def labelsFromValue : Json → Option (List (String × String))
  | .object entries => entries.mapM fun e => e.2.asStr.map fun v => (e.1, v)
  | _ => none

/-- `Vec<String>`. -/
def stringsFromValue : Json → Option (List String)
  | .array items => items.mapM Json.asStr
  | _ => none

/-- `Option<String>`. -/
def patternFromValue : Json → Option (Option String)
  | .null => some none
  | .string s => some (some s)
  | _ => none

/-- `Vec<Uuid>`, for any `Uuid::parse_str`. -/
def uuidsFromValue (parseUuid : String → Option Uuid) : Json → Option (List Uuid)
  | .array items => items.mapM fun j => j.asStr.bind parseUuid
  | _ => none

/-- A field with `#[serde(default)]`. -/
def fieldOrDefault {β : Type} (default : β) (fromValue : Json → Option β) :
    Option Json → Option β
  | none => some default
  | some j => fromValue j

/-- `serde_json::from_value::<RepoSelector>`: an object with any of the four fields and others that
are ignored, or an array of at most the four in their order. -/
def RepoSelector.fromValue (parseUuid : String → Option Uuid) (json : Json) :
    Option RepoSelector := do
  let field ← match json with
    | .object entries => some fun (_ : ℕ) (key : String) => entries.lookup key
    | .array items =>
      if items.length ≤ 4 then some fun (i : ℕ) (_ : String) => items[i]? else none
    | _ => none
  let matchLabels ← fieldOrDefault [] labelsFromValue (field 0 "match_labels")
  let matchFormats ← fieldOrDefault [] stringsFromValue (field 1 "match_formats")
  let matchPattern ← fieldOrDefault none patternFromValue (field 2 "match_pattern")
  let matchRepos ← fieldOrDefault [] (uuidsFromValue parseUuid) (field 3 "match_repos")
  return ⟨matchLabels, matchFormats, matchPattern, matchRepos⟩

end FromValue

section Selects
variable (lower : String → String) (labels : List LabelRow)

/-- The row passes the formats and the labels of the selector. -/
structure RepoSelector.Filters (s : RepoSelector) (r : RepoRow) : Prop where
  formats : s.matchFormats ≠ [] → lower r.format ∈ s.matchFormats.map lower
  labels : ∀ kv ∈ s.matchLabels, ⟨r.id, kv.1, kv.2⟩ ∈ labels

/-- A name pattern, in which only `*` is a wildcard. -/
def nameMatches (pattern name : String) : Prop :=
  Wildcard.Matches (fun c => c == '*') pattern.toList name.toList

/-- The same pattern as `LIKE` reads it after the translation, `%` a wildcard as well. -/
def likeMatches (pattern name : String) : Prop :=
  Wildcard.Matches (fun c => c == '*' || c == '%') pattern.toList name.toList

/-- The row passes every field that is not empty. -/
structure RepoSelector.Selects (s : RepoSelector) (r : RepoRow) : Prop
    extends s.Filters lower labels r where
  repos : s.matchRepos ≠ [] → r.id ∈ s.matchRepos
  pattern : ∀ p, s.matchPattern = some p → nameMatches p r.key

/-- A selector with explicit repositories lists only such as pass its other fields; in one without,
no `%` of the pattern lets through a name that `*` alone does not. -/
def RepoSelector.Plain (repositories : List RepoRow) (s : RepoSelector) : Prop :=
  if s.matchRepos = [] then
    ∀ p, s.matchPattern = some p → ∀ r ∈ repositories, s.Filters lower labels r →
      likeMatches p r.key → nameMatches p r.key
  else ∀ r ∈ repositories, r.id ∈ s.matchRepos →
    s.Filters lower labels r ∧ ∀ p, s.matchPattern = some p → nameMatches p r.key

end Selects

section Like
variable {part rest : List Char} {parts : List (List Char)}

theorem afterFirst_some {text : List Char} (h : afterFirst part text = some rest) :
    ∃ skipped, text = skipped ++ part ++ rest := by
  induction text with
  | nil =>
    simp only [afterFirst, List.isEmpty_iff, Option.ite_none_right_eq_some,
      Option.some.injEq] at h
    obtain ⟨rfl, rfl⟩ := h
    exact ⟨[], rfl⟩
  | cons c text ih =>
    rw [afterFirst] at h
    split at h
    · next hpre =>
      obtain ⟨tail, htail⟩ := List.isPrefixOf_iff_prefix.mp hpre
      rw [← htail, List.drop_left, Option.some.injEq] at h
      exact ⟨[], by rw [← htail, h, List.nil_append]⟩
    · obtain ⟨skipped, rfl⟩ := ih h
      exact ⟨c :: skipped, by simp⟩

/-- What follows any occurrence ends what follows the first. -/
theorem afterFirst_occurrence (part skipped rest : List Char) :
    ∃ before, afterFirst part (skipped ++ part ++ rest) = some (before ++ rest) := by
  induction skipped with
  | nil =>
    rw [List.nil_append]
    cases htext : part ++ rest with
    | nil =>
      obtain ⟨rfl, rfl⟩ := List.append_eq_nil_iff.mp htext
      exact ⟨[], rfl⟩
    | cons c text =>
      have hpre : part.isPrefixOf (c :: text) = true :=
        List.isPrefixOf_iff_prefix.mpr ⟨rest, htext⟩
      rw [afterFirst, if_pos hpre, ← htext, List.drop_left]
      exact ⟨[], rfl⟩
  | cons c skipped ih =>
    rw [List.cons_append, List.cons_append, afterFirst]
    split
    · next hpre =>
      obtain ⟨tail, htail⟩ := List.isPrefixOf_iff_prefix.mp hpre
      rw [← htail, List.drop_left]
      -- an earlier occurrence leaves more of the text
      have hlen : rest.length ≤ tail.length := by
        have hsum := congrArg List.length htail
        simp only [List.length_append, List.length_cons] at hsum
        omega
      have hsuffix : rest <:+ tail := by
        have hwhole : rest <:+ c :: (skipped ++ part ++ rest) := ⟨c :: (skipped ++ part), by simp⟩
        exact List.suffix_of_suffix_length_le hwhole ⟨part, htail⟩ hlen
      obtain ⟨before, rfl⟩ := hsuffix
      exact ⟨before, rfl⟩
    · exact ih

theorem likeLoop_iff {text : List Char} (hne : parts ≠ []) :
    likeLoop false parts text = true ↔ Wildcard.After parts text := by
  induction parts generalizing text with
  | nil => exact (hne rfl).elim
  | cons part more ih =>
    rw [likeLoop]
    by_cases hempty : part = []
    · subst hempty
      rw [if_pos List.isEmpty_nil]
      by_cases hmore : more = []
      · subst hmore
        simp [likeLoop, Wildcard.after_singleton]
      · rw [ih hmore, Wildcard.after_nil_cons hmore]
    · rw [if_neg (by simpa using hempty), if_neg (by decide)]
      by_cases hmore : more = []
      · subst hmore
        rw [if_pos List.isEmpty_nil, List.isSuffixOf_iff_suffix, Wildcard.after_singleton]
      · rw [if_neg (by simpa using hmore)]
        constructor
        · intro h
          split at h
          · next rest hrest =>
            obtain ⟨skipped, rfl⟩ := afterFirst_some hrest
            exact ⟨skipped, rest, rfl, (ih hmore).mp h⟩
          · cases h
        · rintro ⟨skipped, rest, rfl, h⟩
          obtain ⟨before, hbefore⟩ := afterFirst_occurrence part skipped rest
          rw [hbefore]
          exact (ih hmore).mpr (h.append hmore before)

/-- The loop from the first part on, which stands at the start. -/
theorem likeLoop_true_iff {text : List Char} (hne : parts ≠ []) :
    likeLoop true (part :: parts) text = true ↔ Wildcard.MatchesParts (part :: parts) text := by
  rw [likeLoop]
  by_cases hempty : part = []
  · subst hempty
    rw [if_pos List.isEmpty_nil, likeLoop_iff hne]
    simp [Wildcard.MatchesParts]
  · rw [if_neg (by simpa using hempty), if_pos rfl]
    constructor
    · intro h
      split at h
      · next hpre =>
        obtain ⟨rest, rfl⟩ := List.isPrefixOf_iff_prefix.mp hpre
        rw [List.drop_left, likeLoop_iff hne] at h
        exact ⟨rest, rfl, h⟩
      · cases h
    · rintro ⟨rest, rfl, h⟩
      rw [if_pos (List.isPrefixOf_iff_prefix.mpr (List.prefix_append _ _)), List.drop_left,
        likeLoop_iff hne]
      exact h

theorem sqlLikeMatch_eq (value pattern : String) :
    sqlLikeMatch value pattern = true ↔
      Wildcard.Matches (fun c => c == '%') pattern.toList value.toList := by
  rw [Wildcard.matches_iff_matchesParts, sqlLikeMatch]
  cases hparts : pattern.toList.splitOn '%' with
  | nil => exact absurd hparts (List.splitOn_ne_nil _ _)
  | cons part parts =>
    by_cases hone : parts = []
    · subst hone
      have hpart : pattern.toList = part := by
        have hjoin : ['%'].intercalate (pattern.toList.splitOn '%') = pattern.toList :=
          List.intercalate_splitOn '%'
        rw [hparts] at hjoin
        simpa using hjoin.symm
      simp [Wildcard.MatchesParts, Wildcard.After, ← hpart, String.toList_inj]
    · have hlen : (part :: parts).length ≠ 1 := by
        simpa using hone
      rw [if_neg hlen, likeLoop_true_iff hone]

/-- `sql_like_match` on a translated pattern. -/
theorem sqlLikeMatch_globToLike (name pattern : String) :
    sqlLikeMatch name (globToLike pattern) = true ↔ likeMatches pattern name := by
  rw [sqlLikeMatch_eq, globToLike, String.toList_ofList, likeMatches]
  refine Wildcard.matches_map (fun c => ?_) fun c hc => ?_
  · by_cases hc : c = '*' <;> simp [hc]
  · simp only [Bool.or_eq_false_iff, beq_eq_false_iff_ne] at hc
    rw [if_neg hc.1]

theorem likeMatches_of_nameMatches {pattern name : String} (h : nameMatches pattern name) :
    likeMatches pattern name :=
  h.mono fun c hc => by simp_all

end Like

section Rows
variable {lower : String → String} {repositories : List RepoRow} {labels : List LabelRow}
  {s : RepoSelector} {r : RepoRow}

theorem hasAllLabels_iff {wanted : List (String × String)} {repo : Uuid} (hne : wanted ≠ []) :
    hasAllLabels labels wanted repo = true ↔ ∀ kv ∈ wanted, ⟨repo, kv.1, kv.2⟩ ∈ labels := by
  have hall : (wanted.all fun kv => labels.any fun l =>
      l.repositoryId == repo && l.labelKey == kv.1 && l.labelValue == kv.2) = true ↔
      ∀ kv ∈ wanted, ⟨repo, kv.1, kv.2⟩ ∈ labels := by
    simp only [List.all_eq_true, List.any_eq_true, Bool.and_eq_true, beq_iff_eq]
    refine forall₂_congr fun kv _ => ⟨?_, fun h => ⟨_, h, ⟨rfl, rfl⟩, rfl⟩⟩
    rintro ⟨⟨_, _, _⟩, hl, ⟨rfl, rfl⟩, rfl⟩
    exact hl
  rw [hasAllLabels, Bool.and_eq_true, hall, and_iff_right_iff_imp]
  intro h
  obtain ⟨kv, hkv⟩ := List.exists_mem_of_ne_nil wanted hne
  exact List.any_eq_true.mpr ⟨_, h kv hkv, beq_self_eq_true _⟩

/-- The filters as the code applies them. -/
theorem filters_iff : s.Filters lower labels r ↔
    ((s.matchFormats.isEmpty || (s.matchFormats.map lower).contains (lower r.format)) = true ∧
      (s.matchLabels.isEmpty || hasAllLabels labels s.matchLabels r.id) = true) := by
  have hformats : (s.matchFormats.isEmpty ||
      (s.matchFormats.map lower).contains (lower r.format)) = true ↔
      (s.matchFormats ≠ [] → lower r.format ∈ s.matchFormats.map lower) := by
    rw [Bool.or_eq_true, List.isEmpty_iff, List.contains_iff_mem, or_iff_not_imp_left]
  have hlabels : (s.matchLabels.isEmpty || hasAllLabels labels s.matchLabels r.id) = true ↔
      ∀ kv ∈ s.matchLabels, ⟨r.id, kv.1, kv.2⟩ ∈ labels := by
    by_cases hnil : s.matchLabels = []
    · simp [hnil]
    · rw [Bool.or_eq_true, List.isEmpty_iff, or_iff_right hnil, hasAllLabels_iff hnil]
  rw [hformats, hlabels]
  exact ⟨fun h => ⟨h.formats, h.labels⟩, fun h => ⟨h.1, h.2⟩⟩

theorem mem_resolveRows_listed (hrepos : s.matchRepos ≠ []) :
    r ∈ resolveRows lower repositories labels s ↔ r ∈ repositories ∧ r.id ∈ s.matchRepos := by
  have hne : (!s.matchRepos.isEmpty) = true := by simpa using hrepos
  rw [resolveRows, if_pos hne, List.mem_filter, List.contains_iff_mem]

theorem mem_resolveRows_filtered (hrepos : s.matchRepos = []) :
    r ∈ resolveRows lower repositories labels s ↔ r ∈ repositories ∧ s.isEmpty = false ∧
      s.Filters lower labels r ∧ ∀ p, s.matchPattern = some p → likeMatches p r.key := by
  have hempty : s.isEmpty =
      (s.matchLabels.isEmpty && s.matchFormats.isEmpty && s.matchPattern.isNone) := by
    simp [RepoSelector.isEmpty, hrepos]
  rw [resolveRows, if_neg (by simp [hrepos]), ← hempty]
  cases s.isEmpty with
  | true => simp
  | false =>
    rw [if_neg (by decide), List.mem_filter, Bool.and_eq_true, Bool.and_eq_true, filters_iff]
    cases s.matchPattern with
    | none =>
      simp only [reduceCtorEq, false_implies, implies_true]
      tauto
    | some p =>
      simp only [sqlLikeMatch_globToLike, Option.some.injEq, forall_eq']
      tauto

/-- The code returns the rows that pass every field exactly for the plain selectors. -/
theorem resolveRows_exact_iff :
    (∀ r, r ∈ resolveRows lower repositories labels s ↔
      r ∈ repositories ∧ s.isEmpty = false ∧ s.Selects lower labels r) ↔
    s.Plain lower labels repositories := by
  unfold RepoSelector.Plain
  split
  · next hrepos =>
    simp only [mem_resolveRows_filtered hrepos]
    constructor
    · intro h p hp r hr hfilters hlike
      have hmem := (h r).mp ⟨hr, by simp [RepoSelector.isEmpty, hp], hfilters, fun p' hp' => by
        rwa [← Option.some.inj (hp.symm.trans hp')]⟩
      exact hmem.2.2.pattern p hp
    · intro h r
      constructor
      · rintro ⟨hr, hempty, hfilters, hlike⟩
        exact ⟨hr, hempty, hfilters, fun hne => (hne hrepos).elim,
          fun p hp => h p hp r hr hfilters (hlike p hp)⟩
      · rintro ⟨hr, hempty, hselects⟩
        exact ⟨hr, hempty, hselects.toFilters,
          fun p hp => likeMatches_of_nameMatches (hselects.pattern p hp)⟩
  · next hrepos =>
    simp only [mem_resolveRows_listed hrepos]
    constructor
    · intro h r hr hid
      have hselects := ((h r).mp ⟨hr, hid⟩).2.2
      exact ⟨hselects.toFilters, hselects.pattern⟩
    · intro h r
      constructor
      · rintro ⟨hr, hid⟩
        obtain ⟨hfilters, hpattern⟩ := h r hr hid
        exact ⟨hr, by simp [RepoSelector.isEmpty, hrepos], hfilters, fun _ => hid, hpattern⟩
      · rintro ⟨hr, -, hselects⟩
        exact ⟨hr, hselects.repos hrepos⟩

end Rows

/-- A stored selector leaves a token unrestricted if it is empty or cannot be read. -/
theorem tokenRepoIds_selector {lower : String → String} {db : TokenDb} {row : ApiTokenRow}
    {json : Option RepoSelector} (hrow : row.repoSelector = some json) :
    tokenRepoIds lower db row = none ↔ ∀ s, json = some s → s.isEmpty = true := by
  rw [tokenRepoIds, hrow]
  cases json with
  | none => simp [RepoSelector.default, RepoSelector.isEmpty]
  | some s => simp

/-- Selectors are conjunctions exactly as long as they are plain, and scopes fail closed exactly on
the documents that can be read. -/
theorem selector_scope_iff (X : TokenText τ) (lower : String → String)
    (parseUuid : String → Option Uuid) :
    (∀ repositories labels s,
      (∀ r, r ∈ resolveRows lower repositories labels s ↔
        r ∈ repositories ∧ s.isEmpty = false ∧ s.Selects lower labels r) ↔
      s.Plain lower labels repositories) ∧
    ∀ db now token row json v, storedToken X db token = some row →
      row.repoSelector = some (RepoSelector.fromValue parseUuid json) →
      validateApiToken X lower db now token = .ok v →
      ((v.allowedRepoIds = .admin →
        ∃ s, RepoSelector.fromValue parseUuid json = some s ∧ s.isEmpty = true) ↔
      (RepoSelector.fromValue parseUuid json).isSome = true) := by
  refine ⟨fun repositories labels s => resolveRows_exact_iff, ?_⟩
  intro db now token row json v hstored hrow hv
  obtain ⟨row', hstored', -, -, -, -, hscope⟩ := validateApiToken_ok hv
  obtain rfl := Option.some.inj (hstored.symm.trans hstored')
  have hadmin : v.allowedRepoIds = .admin ↔ tokenRepoIds lower db row = none := by
    rw [hscope]
    cases tokenRepoIds lower db row <;> simp [AccessScope.ofOption]
  rw [hadmin, tokenRepoIds_selector hrow]
  cases RepoSelector.fromValue parseUuid json with
  | none => simp
  | some s => simp

/-- A selector that lists repository 7, which is a docker repository, and asks for maven. -/
def mavenLibs : RepoSelector := ⟨[], ["maven"], none, [7]⟩

/-- Two repositories and a token with the selector in its row. -/
def storedSelector (selector : Option RepoSelector) : TokenDb :=
  { twoRepos with
    apiTokens := [{ ciTokenRow with repoSelector := some selector }]
    apiTokens_pk := List.nodup_singleton _
    tokenRepos_token := by simp [twoRepos] }

/-- Labels as an array where an object belongs. -/
def brokenSelector : Json := .object [("match_repos", .array [.string "7"]),
  ("match_labels", .array [])]

theorem repoSelector_fails_open :
    (⟨7, "libs", "docker"⟩ ∈ resolveRows id twoRepos.repositories [] mavenLibs ∧
      ¬ mavenLibs.Selects id [] ⟨7, "libs", "docker"⟩) ∧
    RepoSelector.fromValue String.toNat? brokenSelector = none ∧
    ∃ v, validateApiToken plainTokenText id
        (storedSelector (RepoSelector.fromValue String.toNat? brokenSelector)) 0 ciToken = .ok v ∧
      v.allowedRepoIds = .admin := by
  refine ⟨⟨by decide, fun h => ?_⟩, rfl, _, rfl, rfl⟩
  exact absurd (h.formats (by decide)) (by decide)

/-- One format and nothing else. -/
def dockerOnly : Json := .object [("match_formats", .array [.string "docker"])]

theorem docker_scope_closed :
    ((∀ r, r ∈ resolveRows id twoRepos.repositories [] ⟨[], ["docker"], none, []⟩ ↔
      r ∈ twoRepos.repositories ∧ RepoSelector.isEmpty ⟨[], ["docker"], none, []⟩ = false ∧
        RepoSelector.Selects id [] ⟨[], ["docker"], none, []⟩ r)) ∧
    ∃ v, validateApiToken plainTokenText id
        (storedSelector (RepoSelector.fromValue String.toNat? dockerOnly)) 0 ciToken = .ok v ∧
      (v.allowedRepoIds = .admin →
        ∃ s, RepoSelector.fromValue String.toNat? dockerOnly = some s ∧ s.isEmpty = true) := by
  obtain ⟨hrows, hscope⟩ := selector_scope_iff plainTokenText id String.toNat?
  have hopen := hscope (storedSelector (RepoSelector.fromValue String.toNat? dockerOnly)) 0 ciToken
    _ dockerOnly _ rfl rfl rfl
  refine ⟨(hrows _ _ _).mpr ?_, _, rfl, hopen.mpr rfl⟩
  unfold RepoSelector.Plain
  rw [if_pos rfl]
  nofun

end ArtifactKeeper.Auth
