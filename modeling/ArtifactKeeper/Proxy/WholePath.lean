import ArtifactKeeper.LookRegex
import ArtifactKeeper.Proxy.RoutingRules
import ArtifactKeeper.Segments

/-! Which routing rules rewrite only such paths as their patterns match from the first character to
the last. -/

namespace ArtifactKeeper.Proxy.RoutingRules
open LookRegex

/-- The regex crate with the meaning of its patterns. A match is found wherever one of the
alternatives at the top of the pattern matches a part of the path. An anchor put before a pattern
binds to its first alternative, and a `$` put behind to the last: as the end of the text, as the end
of a line after `(?m)`, and as nothing in a comment. -/
structure SyntaxEngine (R : Type) extends RegexEngine R where
  alternatives : R → List (List (Regex Char))
  closing : R → List (Regex Char)
  captures_isSome : ∀ re path, (captures re path).isSome = true ↔ Found (alternatives re) path
  closing_zeroWidth : ∀ re, ∀ r ∈ closing re, ZeroWidth r
  anchored_alternatives : ∀ {pattern re re'}, new pattern = .ok re →
    new ('^' :: (pattern ++ ['$'])) = .ok re' →
      alternatives re' = pin (closing re) (alternatives re)

variable {R : Type} (engine : SyntaxEngine R)

/-- The pattern, read as a regular expression, matches the path from its first character to its
last. -/
def MatchesPath (rule : RoutingRule) (path : List Char) : Prop :=
  ∃ re, engine.new rule.pathPattern = .ok re ∧ Whole (engine.alternatives re) path

/-- The rules before this one leave the path alone, and this one rewrites it. -/
def RewrittenBy (rules : List RoutingRule) (path : List Char) (rule : RoutingRule) : Prop :=
  ∃ before after, rules = before ++ rule :: after ∧
    applyRoutingRules engine.toRegexEngine path before = none ∧
    applyRoutingRules engine.toRegexEngine path [rule] ≠ none

/-- The alternatives of the text that is compiled for a rule whose pattern reads as `re`. -/
def compiledAlternatives (rule : RoutingRule) (re : R) : List (List (Regex Char)) :=
  if ['^'].isPrefixOf rule.pathPattern then engine.alternatives re
  else pin (engine.closing re) (engine.alternatives re)

/-- If a text is compiled for the rule, the pattern is a regular expression by itself, and every
alternative of the compiled text reaches from one end of the path to the other. -/
def SpansPath (rule : RoutingRule) : Prop :=
  ∀ re', engine.new (anchored rule) = .ok re' → ∃ re, engine.new rule.pathPattern = .ok re ∧
    ∀ factors ∈ compiledAlternatives engine rule re, Spans factors

/-- The pattern is a regular expression without repetition, with ends of the path only around its
alternatives. -/
def BarePattern (rule : RoutingRule) : Prop :=
  ∃ re, engine.new rule.pathPattern = .ok re ∧ engine.closing re = [.stop] ∧
    ∀ factors ∈ engine.alternatives re, Bare factors

section Rewritten
variable {engine : SyntaxEngine R} {rule : RoutingRule} {rules : List RoutingRule}
  {path : List Char}

theorem applyRoutingRules_cons_of_none
    (h : applyRoutingRules engine.toRegexEngine path [rule] = none) :
    applyRoutingRules engine.toRegexEngine path (rule :: rules) =
      applyRoutingRules engine.toRegexEngine path rules := by
  rw [applyRoutingRules] at h ⊢
  cases hnew : engine.new (anchored rule) with
  | error e => rfl
  | ok re =>
    rw [hnew] at h
    dsimp only at h ⊢
    cases hcaps : engine.captures re path with
    | none => rfl
    | some caps =>
      rw [hcaps] at h
      cases h

theorem applyRoutingRules_cons_of_ne_none
    (h : applyRoutingRules engine.toRegexEngine path [rule] ≠ none) :
    applyRoutingRules engine.toRegexEngine path (rule :: rules) =
      applyRoutingRules engine.toRegexEngine path [rule] := by
  rw [applyRoutingRules] at h
  rw [applyRoutingRules, applyRoutingRules]
  cases hnew : engine.new (anchored rule) with
  | error e =>
    rw [hnew] at h
    exact (h rfl).elim
  | ok re =>
    rw [hnew] at h
    dsimp only at h ⊢
    cases hcaps : engine.captures re path with
    | none =>
      rw [hcaps] at h
      exact (h rfl).elim
    | some caps => rfl

/-- What is returned for a path is the rewrite by one of the rules. -/
theorem exists_rewrittenBy (h : applyRoutingRules engine.toRegexEngine path rules ≠ none) :
    ∃ rule, RewrittenBy engine rules path rule ∧
      applyRoutingRules engine.toRegexEngine path rules =
        applyRoutingRules engine.toRegexEngine path [rule] := by
  induction rules with
  | nil => exact (h rfl).elim
  | cons rule rules ih =>
    by_cases hrule : applyRoutingRules engine.toRegexEngine path [rule] = none
    · rw [applyRoutingRules_cons_of_none hrule] at h ⊢
      obtain ⟨other, ⟨before, after, rfl, hbefore, hother⟩, heq⟩ := ih h
      exact ⟨other, ⟨rule :: before, after, rfl,
        (applyRoutingRules_cons_of_none hrule).trans hbefore, hother⟩, heq⟩
    · exact ⟨rule, ⟨[], rules, rfl, rfl, hrule⟩, applyRoutingRules_cons_of_ne_none hrule⟩

/-- A rule rewrites a path if the compiled text matches a part of it. -/
theorem rewrites_iff : applyRoutingRules engine.toRegexEngine path [rule] ≠ none ↔
    ∃ re', engine.new (anchored rule) = .ok re' ∧ Found (engine.alternatives re') path := by
  rw [applyRoutingRules]
  cases hnew : engine.new (anchored rule) with
  | error e => simp [applyRoutingRules]
  | ok re =>
    have hfound := engine.captures_isSome re path
    dsimp only
    cases hcaps : engine.captures re path with
    | none =>
      rw [hcaps] at hfound
      simpa [applyRoutingRules] using hfound
    | some caps =>
      rw [hcaps] at hfound
      simpa using hfound

/-- The compiled text of a rule whose pattern is a regular expression. -/
theorem alternatives_compiled {re re' : R} (hnew : engine.new rule.pathPattern = .ok re)
    (hnew' : engine.new (anchored rule) = .ok re') :
    engine.alternatives re' = compiledAlternatives engine rule re := by
  unfold anchored at hnew'
  unfold compiledAlternatives
  split at hnew'
  · next h =>
    rw [hnew, Except.ok.injEq] at hnew'
    rw [if_pos h, hnew']
  · next h => rw [if_neg h, engine.anchored_alternatives hnew hnew']

theorem matches_of_mem_compiled {re : R} {factors : List (Regex Char)}
    (hmem : factors ∈ compiledAlternatives engine rule re)
    (h : Matches (seq factors) [] path []) : Whole (engine.alternatives re) path := by
  unfold compiledAlternatives at hmem
  split at hmem
  · exact ⟨factors, hmem, h⟩
  · exact matches_of_mem_pin (engine.closing_zeroWidth re) hmem h

theorem matchesPath_of_spansPath (hspans : SpansPath engine rule)
    (hrewrites : applyRoutingRules engine.toRegexEngine path [rule] ≠ none) :
    MatchesPath engine rule path := by
  obtain ⟨re', hnew', factors, hmem, hpart⟩ := rewrites_iff.mp hrewrites
  obtain ⟨re, hnew, hspans⟩ := hspans re' hnew'
  rw [alternatives_compiled hnew hnew'] at hmem
  exact ⟨re, hnew, matches_of_mem_compiled hmem (hpart.whole (hspans factors hmem))⟩

theorem bare_of_mem_compiled {re : R} {factors : List (Regex Char)}
    (hclosing : engine.closing re = [.stop])
    (hbare : ∀ factors ∈ engine.alternatives re, Bare factors)
    (hmem : factors ∈ compiledAlternatives engine rule re) : Bare factors := by
  unfold compiledAlternatives at hmem
  split at hmem
  · exact hbare factors hmem
  · rw [hclosing] at hmem
    exact bare_of_mem_pin hbare hmem

/-- A loose end of a bare pattern is found in paths that are longer than what the pattern
matches. -/
theorem spansPath_of_bare (hbare : BarePattern engine rule)
    (hwhole : ∀ path, applyRoutingRules engine.toRegexEngine path [rule] ≠ none →
      MatchesPath engine rule path) : SpansPath engine rule := by
  obtain ⟨re, hnew, hclosing, hbare⟩ := hbare
  intro re' hnew'
  refine ⟨re, hnew, fun factors hmem => ?_⟩
  by_contra hopen
  obtain ⟨n, hn⟩ := exists_length_le hbare
  obtain ⟨path, hlong, hpart⟩ :=
    (bare_of_mem_compiled hclosing hbare hmem).exists_long hopen 'a' n
  rw [← alternatives_compiled hnew hnew'] at hmem
  obtain ⟨re₁, hre₁, hmatch⟩ := hwhole path (rewrites_iff.mpr ⟨re', hnew', factors, hmem, hpart⟩)
  obtain rfl : re = re₁ := by simpa [hnew] using hre₁
  exact absurd (hn path hmatch) (by omega)

/-- A pattern with a single alternative that does not begin with `^` is pinned as it should be. -/
theorem spansPath_of_single {re : R} {factors : List (Regex Char)}
    (hplain : ['^'].isPrefixOf rule.pathPattern = false)
    (hnew : engine.new rule.pathPattern = .ok re) (hsingle : engine.alternatives re = [factors])
    (hclosing : engine.closing re = [.stop]) : SpansPath engine rule := by
  intro re' _
  refine ⟨re, hnew, fun other hmem => ?_⟩
  rw [compiledAlternatives, hplain, hclosing, hsingle] at hmem
  exact spans_of_mem_pin hmem

end Rewritten

/-- In any list of rules a rule rewrites a path only if its pattern matches the whole path, if every
alternative of the compiled text spans the path; and for a bare pattern only if. -/
theorem rewritten_whole_of_spans (rule : RoutingRule) :
    (SpansPath engine rule →
        ∀ rules path, RewrittenBy engine rules path rule → MatchesPath engine rule path) ∧
      (BarePattern engine rule →
        (∀ rules path, RewrittenBy engine rules path rule → MatchesPath engine rule path) →
          SpansPath engine rule) := by
  constructor
  · rintro hspans rules path ⟨before, after, -, -, hrewrites⟩
    exact matchesPath_of_spansPath hspans hrewrites
  · intro hbare hwhole
    exact spansPath_of_bare hbare fun path hrewrites =>
      hwhole [rule] path ⟨[], [], rfl, rfl, hrewrites⟩

section Words

/-- `^` and `$` are the ends of the text, any other character stands for itself. -/
def factor (c : Char) : Regex Char :=
  if c = '^' then .start else if c = '$' then .stop else .one (· = c)

/-- What an alternative of such characters matches at a place of the text. -/
def matchAt : List Char → Bool → List Char → Option (List Char)
  | [], _, _ => some []
  | c :: cs, atStart, rest =>
    if c = '^' then if atStart then matchAt cs atStart rest else none
    else if c = '$' then if rest.isEmpty then matchAt cs atStart rest else none
    else
      match rest with
      | d :: rest => if d = c then (matchAt cs false rest).map (d :: ·) else none
      | [] => none

theorem matchAt_iff {cs pre rest mid : List Char} :
    matchAt cs pre.isEmpty rest = some mid ↔
      ∃ post, rest = mid ++ post ∧ Matches (seq (cs.map factor)) pre mid post := by
  induction cs generalizing pre rest mid with
  | nil =>
    show some [] = some mid ↔ _
    rw [Option.some.injEq]
    constructor
    · rintro rfl
      exact ⟨rest, rfl, .empty⟩
    · rintro ⟨post, -, h⟩
      exact (matches_seq_nil.mp h).symm
  | cons c cs ih =>
    rw [List.map_cons, matchAt.eq_def]
    dsimp only
    have hlater : ∀ d, (pre ++ [d]).isEmpty = false := by simp
    have hzero : ∀ {r : Regex Char}, ZeroWidth r → ((∃ post, rest = mid ++ post ∧
        Matches (seq (r :: cs.map factor)) pre mid post) ↔
        Matches r pre [] rest ∧ ∃ post, rest = mid ++ post ∧
          Matches (seq (cs.map factor)) pre mid post) := by
      intro r hr
      constructor
      · rintro ⟨post, rfl, h⟩
        obtain ⟨x, y, rfl, hmatch, hrest⟩ := matches_seq_cons.mp h
        obtain rfl := hr hmatch
        rw [List.append_nil] at hrest
        exact ⟨hmatch, post, rfl, hrest⟩
      · rintro ⟨hmatch, post, rfl, hrest⟩
        exact ⟨post, rfl, matches_seq_cons.mpr ⟨[], mid, rfl, hmatch, by simpa using hrest⟩⟩
    by_cases hstart : c = '^'
    · subst hstart
      rw [if_pos rfl, show factor '^' = .start from rfl, hzero fun h => by cases h; rfl]
      cases pre with
      | nil =>
        rw [← ih]
        exact ⟨fun h => ⟨.start, h⟩, And.right⟩
      | cons a pre =>
        constructor
        · intro h
          cases h
        · rintro ⟨h, -⟩
          cases h
    · rw [if_neg hstart]
      by_cases hstop : c = '$'
      · subst hstop
        rw [if_pos rfl, show factor '$' = .stop from rfl, hzero fun h => by cases h; rfl]
        cases rest with
        | nil =>
          rw [← ih]
          exact ⟨fun h => ⟨.stop, h⟩, And.right⟩
        | cons d rest =>
          constructor
          · intro h
            cases h
          · rintro ⟨h, -⟩
            cases h
      · rw [if_neg hstop, show factor c = .one (· = c) by rw [factor, if_neg hstart, if_neg hstop]]
        constructor
        · intro h
          cases rest with
          | nil => cases h
          | cons d rest =>
            dsimp only at h
            split at h
            · next hd =>
              subst hd
              obtain ⟨tail, htail, rfl⟩ := Option.map_eq_some_iff.mp h
              rw [← hlater d] at htail
              obtain ⟨post, rfl, hmatch⟩ := ih.mp htail
              exact ⟨post, rfl, matches_seq_cons.mpr ⟨[d], tail, rfl, .one (by simp), hmatch⟩⟩
            · cases h
        · rintro ⟨post, rfl, h⟩
          obtain ⟨x, y, rfl, hone, hrest⟩ := matches_seq_cons.mp h
          generalize hbehind : y ++ post = behind at hone
          cases hone with
          | one haccepts =>
            obtain rfl : _ = c := by simpa using haccepts
            have htail := ih.mpr ⟨post, rfl, hrest⟩
            rw [hlater] at htail
            simp [htail]

/-- The regex crate on patterns of plain characters, `^`, `$` and `|`: the first place at which an
alternative matches. -/
def findMatch (alternatives : List (List Char)) (path : List Char) : Option (List Char) :=
  (List.range (path.length + 1)).findSome? fun k =>
    alternatives.findSome? fun cs => matchAt cs (path.take k).isEmpty (path.drop k)

theorem findMatch_some {alternatives : List (List Char)} {path mid : List Char}
    (h : findMatch alternatives path = some mid) : ∃ cs ∈ alternatives, ∃ pre post,
      path = pre ++ mid ++ post ∧ Matches (seq (cs.map factor)) pre mid post := by
  obtain ⟨k, -, hk⟩ := List.exists_of_findSome?_eq_some h
  obtain ⟨cs, hcs, hmatch⟩ := List.exists_of_findSome?_eq_some hk
  obtain ⟨post, hdrop, hmatch⟩ := matchAt_iff.mp hmatch
  refine ⟨cs, hcs, path.take k, post, ?_, hmatch⟩
  rw [List.append_assoc, ← hdrop, List.take_append_drop]

theorem findMatch_isSome {alternatives : List (List Char)} {path : List Char} :
    (findMatch alternatives path).isSome = true ↔
      Found (alternatives.map (·.map factor)) path := by
  constructor
  · intro h
    obtain ⟨mid, hmid⟩ := Option.isSome_iff_exists.mp h
    obtain ⟨cs, hcs, pre, post, hpath, hmatch⟩ := findMatch_some hmid
    exact ⟨_, List.mem_map_of_mem hcs, pre, mid, post, hpath, hmatch⟩
  · rintro ⟨_, hmem, pre, mid, post, rfl, hmatch⟩
    obtain ⟨cs, hcs, rfl⟩ := List.mem_map.mp hmem
    rw [findMatch, List.findSome?_isSome_iff]
    refine ⟨pre.length, List.mem_range.mpr (by simp only [List.length_append]; omega),
      List.findSome?_isSome_iff.mpr ⟨cs, hcs, ?_⟩⟩
    have hat := matchAt_iff.mpr ⟨post, rfl, hmatch⟩
    simp [hat]

theorem closeLast_modifyHead {r : Regex Char} {closing : List (Regex Char)}
    (alternatives : List (List (Regex Char))) :
    closeLast closing (alternatives.modifyHead (r :: ·)) =
      (closeLast closing alternatives).modifyHead (r :: ·) := by
  cases alternatives with
  | nil => rfl
  | cons factors rest => cases rest <;> rfl

theorem map_modifyHead_factor (c : Char) (alternatives : List (List Char)) :
    (alternatives.modifyHead (c :: ·)).map (·.map factor) =
      (alternatives.map (·.map factor)).modifyHead (factor c :: ·) := by
  cases alternatives <;> rfl

theorem splitOn_append_dollar (cs : List Char) :
    ((cs ++ ['$']).splitOn '|').map (·.map factor) =
      closeLast [.stop] ((cs.splitOn '|').map (·.map factor)) := by
  induction cs with
  | nil => rfl
  | cons c cs ih =>
    rw [List.cons_append, List.splitOn_cons_eq_if_modifyHead, List.splitOn_cons_eq_if_modifyHead]
    split
    · rw [List.map_cons, ih, List.map_cons]
      obtain ⟨first, rest, hsplit⟩ := List.exists_cons_of_ne_nil (List.splitOn_ne_nil '|' cs)
      rw [hsplit]
      rfl
    · rw [map_modifyHead_factor, ih, map_modifyHead_factor, closeLast_modifyHead]

def isMeta (c : Char) : Bool :=
  c ∈ ['.', '\\', '+', '*', '?', '(', ')', '[', ']', '{', '}']

def wordsEngine : SyntaxEngine (List (List Char)) where
  new pattern := if pattern.any isMeta then .error [] else .ok (pattern.splitOn '|')
  capturesLen _ := 1
  captures re path := (findMatch re path).map fun mid => [some mid]
  capturesLen_pos _ := Nat.one_pos
  captures_length h := by
    obtain ⟨mid, -, rfl⟩ := Option.map_eq_some_iff.mp h
    rfl
  captures_infix h hvalue := by
    obtain ⟨mid, hmid, rfl⟩ := Option.map_eq_some_iff.mp h
    obtain ⟨-, -, pre, post, rfl, -⟩ := findMatch_some hmid
    obtain rfl := Option.some.inj (List.mem_singleton.mp hvalue)
    exact ⟨pre, post, rfl⟩
  alternatives re := re.map (·.map factor)
  closing _ := [.stop]
  captures_isSome re path := by
    rw [Option.isSome_map]
    exact findMatch_isSome
  closing_zeroWidth _ r hr := by
    obtain rfl := List.mem_singleton.mp hr
    exact zeroWidth_stop
  anchored_alternatives {pattern _ _} h h' := by
    split at h
    · cases h
    · split at h'
      · cases h'
      · obtain rfl := Except.ok.inj h
        obtain rfl := Except.ok.inj h'
        rw [List.splitOn_cons_eq_if_modifyHead, if_neg (by decide), map_modifyHead_factor,
          splitOn_append_dollar, ← closeLast_modifyHead]
        rfl

/-- `^foo` rewrites `foobar`, and `foo|bar` rewrites `foox`. -/
theorem part_rewritten :
    (RewrittenBy wordsEngine [⟨"^foo".toList, "x".toList⟩] "foobar".toList
        ⟨"^foo".toList, "x".toList⟩ ∧
      ¬ MatchesPath wordsEngine ⟨"^foo".toList, "x".toList⟩ "foobar".toList) ∧
    RewrittenBy wordsEngine [⟨"foo|bar".toList, "x".toList⟩] "foox".toList
        ⟨"foo|bar".toList, "x".toList⟩ ∧
      ¬ MatchesPath wordsEngine ⟨"foo|bar".toList, "x".toList⟩ "foox".toList := by
  have hpart : ∀ {pattern path : List Char}, pattern.any isMeta = false →
      (∀ cs ∈ pattern.splitOn '|', matchAt cs true path ≠ some path) →
      ¬ MatchesPath wordsEngine ⟨pattern, "x".toList⟩ path := by
    rintro pattern path hplain hnone ⟨re, hnew, factors, hmem, hmatch⟩
    have hre : Except.ok (pattern.splitOn '|') = (.ok re : Except (List Char) _) := by
      rw [← hnew]
      exact (if_neg (by simp [hplain])).symm
    obtain rfl := Except.ok.inj hre
    obtain ⟨cs, hcs, rfl⟩ := List.mem_map.mp hmem
    exact hnone cs hcs (matchAt_iff.mpr ⟨[], (List.append_nil _).symm, hmatch⟩)
  refine ⟨⟨⟨[], [], rfl, rfl, ?_⟩, ?_⟩, ⟨[], [], rfl, rfl, ?_⟩, ?_⟩
  · decide
  · exact hpart (by decide) (by decide)
  · decide
  · exact hpart (by decide) (by decide)

end Words

end ArtifactKeeper.Proxy.RoutingRules
