import ArtifactKeeper.ReplaceAll
import ArtifactKeeper.Text
import Mathlib.Algebra.Group.Nat.Defs

/-! Routing rules of remote repositories: a pattern on the request path and a template in which the
captured groups are put one after the other, the last one first. -/

namespace ArtifactKeeper.Proxy.RoutingRules

open Text ReplaceAll

structure RoutingRule where
  pathPattern : List Char
  rewriteTo : List Char
  deriving DecidableEq, Repr

abbrev Captures := List (Option (List Char))

/-- The regex crate. A match has one entry for each group of the pattern, the whole match being
group 0, and what a group has captured is a part of the path. -/
structure RegexEngine (R : Type) where
  new : List Char → Except (List Char) R
  capturesLen : R → ℕ
  captures : R → List Char → Option Captures
  capturesLen_pos : ∀ re, 0 < capturesLen re
  captures_length : ∀ {re path caps}, captures re path = some caps → caps.length = capturesLen re
  captures_infix : ∀ {re path caps value}, captures re path = some caps → some value ∈ caps →
    value <:+: path

variable {R : Type} (engine : RegexEngine R)

def anchored (rule : RoutingRule) : List Char :=
  if ['^'].isPrefixOf rule.pathPattern then rule.pathPattern
  else '^' :: (rule.pathPattern ++ ['$'])

/-- `format!("${}", i)`. -/
def placeholder (i : ℕ) : List Char := '$' :: decimal i

/-- What a group has captured, and nothing if it took no part in the match. -/
def groupValue (caps : Captures) (i : ℕ) : List Char := (caps[i]?.join).getD []

/-- The groups from `caps.len() - 1` down to `0`. -/
def groupsDown (caps : Captures) : List ℕ := (List.range caps.length).reverse

def rewrite (caps : Captures) (rewriteTo : List Char) : List Char :=
  (groupsDown caps).foldl (fun result i => replaceAll (placeholder i) (groupValue caps i) result)
    rewriteTo

def applyRoutingRules (path : List Char) : List RoutingRule → Option (List Char)
  | [] => none
  | rule :: rules =>
    match engine.new (anchored rule) with
    | .error _ => applyRoutingRules path rules
    | .ok re =>
      match engine.captures re path with
      | some caps => some (rewrite caps rule.rewriteTo)
      | none => applyRoutingRules path rules

section Template

/-- A template as the pattern `\$(\d+)` reads it. -/
inductive Token where
  | literal (c : Char)
  | reference (digits : List Char)
  deriving DecidableEq, Repr

/-- From the left, with the longest run of digits behind every `$`. `isNd` is `\d`, which is any
decimal digit of Unicode; `skip` more characters belong to the reference before. -/
def tokenizeFrom (isNd : Char → Bool) : ℕ → List Char → List Token
  | _, [] => []
  | skip + 1, _ :: rest => tokenizeFrom isNd skip rest
  | 0, c :: rest =>
    let digits := rest.takeWhile isNd
    if c = '$' ∧ digits ≠ [] then .reference digits :: tokenizeFrom isNd digits.length rest
    else .literal c :: tokenizeFrom isNd 0 rest

def tokenize (isNd : Char → Bool) (template : List Char) : List Token :=
  tokenizeFrom isNd 0 template

/-- `cap[1].parse().unwrap_or(0)`. -/
def refNumber (digits : List Char) : ℕ := (parseUnsigned (2 ^ 64) digits).getD 0

def references (tokens : List Token) : List (List Char) :=
  tokens.filterMap fun
    | .literal _ => none
    | .reference digits => some digits

def validateRoutingRule (isNd : Char → Bool) (rule : RoutingRule) : Except (List Char) Unit :=
  match engine.new (anchored rule) with
  | .error e => .error ("invalid regex: ".toList ++ e)
  | .ok re =>
    let groupCount := engine.capturesLen re - 1
    match ((references (tokenize isNd rule.rewriteTo)).map refNumber).find? (groupCount < ·) with
    | some n => .error ("rewrite_to references $".toList ++ decimal n ++
        "  but pattern only has ".toList ++ decimal groupCount ++ " capture group(s)".toList)
    | none => .ok ()

/-- The text of a template in which the references from `k` on are replaced. -/
def Token.render (caps : Captures) (k : ℕ) : Token → List Char
  | .literal c => [c]
  | .reference digits =>
    if k ≤ refNumber digits then groupValue caps (refNumber digits) else '$' :: digits

def render (caps : Captures) (k : ℕ) (tokens : List Token) : List Char :=
  tokens.flatMap (Token.render caps k)

/-- The single substitution: every reference by its group, from the left, and nothing else. -/
def substitute (caps : Captures) (tokens : List Token) : List Char :=
  tokens.flatMap fun
    | .literal c => [c]
    | .reference digits => groupValue caps (refNumber digits)

/-- How many references a template has to group `k`. -/
def refCount (k : ℕ) (tokens : List Token) : ℕ :=
  ((references tokens).map refNumber).count k

/-- Every reference is written as its number is. -/
def Canonical (tokens : List Token) : Prop :=
  ∀ digits ∈ references tokens, digits = decimal (refNumber digits)

instance (tokens : List Token) : Decidable (Canonical tokens) :=
  inferInstanceAs (Decidable (∀ digits ∈ references tokens, _))

/-- When the references above `k` are replaced, nothing reads like a reference to `k` but those of
the template. -/
def Clear (caps : Captures) (tokens : List Token) : Prop :=
  ∀ k < caps.length, occurrences (placeholder k) (render caps (k + 1) tokens) = refCount k tokens

instance (caps : Captures) (tokens : List Token) : Decidable (Clear caps tokens) :=
  inferInstanceAs (Decidable (∀ k < caps.length, _))

/-- The text of the loop once the groups from `k` on are done. -/
def textFrom (caps : Captures) (rewriteTo : List Char) (k : ℕ) : List Char :=
  (List.range' k (caps.length - k)).reverse.foldl
    (fun result i => replaceAll (placeholder i) (groupValue caps i) result) rewriteTo

/-- Every step of the loop puts the group in as often as the template refers to it. -/
def StepsExact (caps : Captures) (rewriteTo : List Char) (tokens : List Token) : Prop :=
  ∀ k < caps.length,
    occurrences (placeholder k) (textFrom caps rewriteTo (k + 1)) = refCount k tokens

end Template

section Tokens
variable {isNd : Char → Bool} {caps : Captures}

/-- Read back without any replacement, the tokens are the template. -/
theorem render_tokenizeFrom (k skip : ℕ) (template : List Char)
    (h : ∀ digits ∈ references (tokenizeFrom isNd skip template), refNumber digits < k) :
    render caps k (tokenizeFrom isNd skip template) = template.drop skip := by
  induction template generalizing skip with
  | nil => cases skip <;> rfl
  | cons c rest ih =>
    cases skip with
    | succ skip => exact ih skip h
    | zero =>
      rw [tokenizeFrom] at h ⊢
      by_cases href : c = '$' ∧ rest.takeWhile isNd ≠ []
      · rw [if_pos href] at h ⊢
        have hdigits := h (rest.takeWhile isNd) List.mem_cons_self
        have hrest := ih (rest.takeWhile isNd).length
          fun digits hmem => h digits (List.mem_cons_of_mem _ hmem)
        have htake := List.prefix_iff_eq_take.mp (List.takeWhile_prefix isNd (l := rest))
        rw [render] at hrest
        rw [render, List.flatMap_cons, hrest, Token.render, if_neg (by omega), List.drop_zero,
          href.1, List.cons_append]
        congr 1
        conv_lhs => arg 1; rw [htake]
        exact List.take_append_drop _ rest
      · rw [if_neg href] at h ⊢
        have hrest := ih 0 h
        rw [render] at hrest
        rw [render, List.flatMap_cons, hrest]
        rfl

theorem refCount_reference (k : ℕ) (digits : List Char) (tokens : List Token) :
    refCount k (.reference digits :: tokens) =
      (if refNumber digits = k then 1 else 0) + refCount k tokens := by
  show (refNumber digits :: (references tokens).map refNumber).count k = _
  rw [List.count_cons, Nat.add_comm]
  simp [refCount]

theorem dollar_not_mem_decimal (n : ℕ) : '$' ∉ decimal n := fun h =>
  absurd (isDigit_of_mem_decimal h) (by decide)

theorem canonical_cons {t : Token} {tokens : List Token} (h : Canonical (t :: tokens)) :
    Canonical tokens := fun digits hmem => h digits (by
  cases t with
  | literal c => exact hmem
  | reference ds => exact List.mem_cons_of_mem _ hmem)

/-- A reference to `k` stands in the text before step `k`. -/
theorem refCount_cons_le {k : ℕ} {t : Token} {tokens : List Token} (h : Canonical (t :: tokens))
    (ys : List Char) :
    refCount k (t :: tokens) ≤
      startsIn (placeholder k) (t.render caps (k + 1)) ys + refCount k tokens := by
  cases t with
  | literal c => exact Nat.le_add_left _ _
  | reference digits =>
    rw [refCount_reference]
    by_cases hk : refNumber digits = k
    · have htext : Token.render caps (k + 1) (.reference digits) = placeholder k := by
        rw [Token.render, if_neg (by omega), h digits List.mem_cons_self, hk]
        rfl
      rw [if_pos hk, htext, placeholder, startsIn_self (dollar_not_mem_decimal k)]
    · rw [if_neg hk]
      omega

theorem refCount_le_occurrences {k : ℕ} {tokens : List Token} (h : Canonical tokens) :
    refCount k tokens ≤ occurrences (placeholder k) (render caps (k + 1) tokens) := by
  induction tokens with
  | nil => exact Nat.zero_le _
  | cons t tokens ih =>
    have hrest := ih (canonical_cons h)
    have hhead := @refCount_cons_le caps k t tokens h (render caps (k + 1) tokens)
    rw [render, List.flatMap_cons, occurrences_append]
    rw [render] at hrest hhead
    omega

/-- One step of the loop, if only the references of the template read like the group. -/
theorem replaceAll_render {k : ℕ} {tokens : List Token} (h : Canonical tokens)
    (hclear : occurrences (placeholder k) (render caps (k + 1) tokens) = refCount k tokens) :
    replaceAll (placeholder k) (groupValue caps k) (render caps (k + 1) tokens) =
      render caps k tokens := by
  induction tokens with
  | nil => rfl
  | cons t tokens ih =>
    have hrest := @refCount_le_occurrences caps k tokens (canonical_cons h)
    have hhead := @refCount_cons_le caps k t tokens h (render caps (k + 1) tokens)
    have hsplit : occurrences (placeholder k) (render caps (k + 1) (t :: tokens)) =
        startsIn (placeholder k) (t.render caps (k + 1)) (render caps (k + 1) tokens) +
          occurrences (placeholder k) (render caps (k + 1) tokens) := by
      rw [render, List.flatMap_cons, occurrences_append]
      rfl
    have ih := ih (canonical_cons h)
    show replaceAll _ _ (t.render caps (k + 1) ++ render caps (k + 1) tokens) =
      t.render caps k ++ render caps k tokens
    cases t with
    | literal c =>
      have hcount : refCount k (.literal c :: tokens) = refCount k tokens := rfl
      rw [replaceAll_append_of_none _ (by omega), ih (by omega)]
      rfl
    | reference digits =>
      rw [refCount_reference] at hclear hhead
      by_cases hk : refNumber digits = k
      · have htext : Token.render caps (k + 1) (.reference digits) = placeholder k := by
          rw [Token.render, if_neg (by omega), h digits List.mem_cons_self, hk]
          rfl
        rw [if_pos hk] at hclear hhead
        rw [htext, placeholder, replaceAll_append_self]
        rw [show '$' :: decimal k = placeholder k from rfl, ih (by omega), Token.render,
          if_pos (by omega), hk]
      · rw [if_neg hk] at hclear hhead
        rw [replaceAll_append_of_none _ (by omega), ih (by omega)]
        congr 1
        rw [Token.render, Token.render]
        by_cases hlt : k + 1 ≤ refNumber digits
        · rw [if_pos hlt, if_pos (by omega)]
        · rw [if_neg hlt, if_neg (by omega)]

theorem render_zero (tokens : List Token) : render caps 0 tokens = substitute caps tokens := by
  refine List.flatMap_congr fun t _ => ?_
  cases t with
  | literal c => rfl
  | reference digits => rw [Token.render, if_pos (Nat.zero_le _)]

end Tokens

section Loop
variable {caps : Captures} {rewriteTo : List Char} {tokens : List Token}

theorem textFrom_length : textFrom caps rewriteTo caps.length = rewriteTo := by
  rw [textFrom, Nat.sub_self]
  rfl

theorem textFrom_step {k : ℕ} (hk : k < caps.length) : textFrom caps rewriteTo k =
    replaceAll (placeholder k) (groupValue caps k) (textFrom caps rewriteTo (k + 1)) := by
  have hcount : caps.length - k = (caps.length - (k + 1)) + 1 := by omega
  rw [textFrom, hcount, List.range'_succ, List.reverse_cons, List.foldl_append]
  rfl

theorem textFrom_zero : textFrom caps rewriteTo 0 = rewrite caps rewriteTo := by
  rw [textFrom, rewrite, groupsDown, List.range_eq_range', Nat.sub_zero]

/-- As long as the steps down to `j` are exact, on one side or the other, the text is the template
with just the references from `j` on replaced. -/
theorem textFrom_eq_render (h : Canonical tokens)
    (htext : render caps caps.length tokens = rewriteTo) (d : ℕ) (hd : d ≤ caps.length)
    (hsteps : ∀ k < caps.length, caps.length - d ≤ k →
      (occurrences (placeholder k) (textFrom caps rewriteTo (k + 1)) = refCount k tokens ∨
        occurrences (placeholder k) (render caps (k + 1) tokens) = refCount k tokens)) :
    textFrom caps rewriteTo (caps.length - d) = render caps (caps.length - d) tokens := by
  induction d with
  | zero => rw [Nat.sub_zero, textFrom_length, htext]
  | succ d ih =>
    have ih := ih (by omega) fun k hk hdk => hsteps k hk (by omega)
    have hnext : caps.length - (d + 1) + 1 = caps.length - d := by omega
    have hclear := hsteps (caps.length - (d + 1)) (by omega) le_rfl
    rw [hnext, ih, or_self, ← hnext] at hclear
    rw [textFrom_step (by omega), hnext, ih, ← hnext, replaceAll_render h hclear]

theorem stepsExact_iff (h : Canonical tokens) (htext : render caps caps.length tokens = rewriteTo) :
    StepsExact caps rewriteTo tokens ↔ Clear caps tokens := by
  constructor
  · intro hsteps k hk
    have hsame := textFrom_eq_render h htext (caps.length - (k + 1)) (by omega)
      fun j hj _ => .inl (hsteps j hj)
    rw [show caps.length - (caps.length - (k + 1)) = k + 1 by omega] at hsame
    rw [← hsame]
    exact hsteps k hk
  · intro hclear k hk
    have hsame := textFrom_eq_render h htext (caps.length - (k + 1)) (by omega)
      fun j hj _ => .inr (hclear j hj)
    rw [show caps.length - (caps.length - (k + 1)) = k + 1 by omega] at hsame
    rw [hsame]
    exact hclear k hk

theorem rewrite_eq_substitute (h : Canonical tokens)
    (htext : render caps caps.length tokens = rewriteTo) (hclear : Clear caps tokens) :
    rewrite caps rewriteTo = substitute caps tokens := by
  have hsame := textFrom_eq_render h htext caps.length le_rfl fun k hk _ => .inr (hclear k hk)
  rw [Nat.sub_self, textFrom_zero, render_zero] at hsame
  exact hsame

end Loop

section Rules
variable {engine : RegexEngine R} {isNd : Char → Bool} {rule : RoutingRule} {path : List Char}
  {re : R} {caps : Captures}

/-- The rule does not compile or does not match. -/
def Skips (engine : RegexEngine R) (path : List Char) (rule : RoutingRule) : Prop :=
  ∀ re, engine.new (anchored rule) = .ok re → engine.captures re path = none

/-- The first rule that matches rewrites the path. -/
theorem applyRoutingRules_eq {before : List RoutingRule} (after : List RoutingRule)
    (hbefore : ∀ r ∈ before, Skips engine path r) (hnew : engine.new (anchored rule) = .ok re)
    (hcaps : engine.captures re path = some caps) :
    applyRoutingRules engine path (before ++ rule :: after) =
      some (rewrite caps rule.rewriteTo) := by
  induction before with
  | nil => simp [applyRoutingRules, hnew, hcaps]
  | cons r before ih =>
    have ih := ih fun q hq => hbefore q (List.mem_cons_of_mem _ hq)
    have hskips := hbefore r List.mem_cons_self
    rw [List.cons_append, applyRoutingRules]
    cases hcompiled : engine.new (anchored r) with
    | error e => exact ih
    | ok re' =>
      dsimp only
      rw [hskips re' hcompiled]
      exact ih

/-- A validated template refers to groups of the pattern only. -/
theorem refNumber_lt_of_valid (hvalid : validateRoutingRule engine isNd rule = .ok ())
    (hnew : engine.new (anchored rule) = .ok re) (hcaps : engine.captures re path = some caps)
    {digits : List Char} (h : digits ∈ references (tokenize isNd rule.rewriteTo)) :
    refNumber digits < caps.length := by
  have hpos := engine.capturesLen_pos re
  rw [engine.captures_length hcaps]
  unfold validateRoutingRule at hvalid
  rw [hnew] at hvalid
  dsimp only at hvalid
  split at hvalid
  · cases hvalid
  · next hnone =>
    have hle := List.find?_eq_none.mp hnone (refNumber digits) (List.mem_map_of_mem h)
    rw [decide_eq_true_eq] at hle
    omega

/-- A rule whose references are written as their numbers are is a single substitution, in which no
step puts a group in anywhere else, exactly if no text from the path reads like a reference. -/
theorem rewrite_once_iff (before after : List RoutingRule)
    (hbefore : ∀ r ∈ before, Skips engine path r) (hnew : engine.new (anchored rule) = .ok re)
    (hcaps : engine.captures re path = some caps)
    (hvalid : validateRoutingRule engine isNd rule = .ok ())
    (hcanonical : Canonical (tokenize isNd rule.rewriteTo)) :
    (applyRoutingRules engine path (before ++ rule :: after) =
          some (substitute caps (tokenize isNd rule.rewriteTo)) ∧
        StepsExact caps rule.rewriteTo (tokenize isNd rule.rewriteTo)) ↔
      Clear caps (tokenize isNd rule.rewriteTo) := by
  have htext : render caps caps.length (tokenize isNd rule.rewriteTo) = rule.rewriteTo :=
    render_tokenizeFrom _ 0 _ fun digits h => refNumber_lt_of_valid hvalid hnew hcaps h
  rw [applyRoutingRules_eq after hbefore hnew hcaps, stepsExact_iff hcanonical htext]
  constructor
  · exact And.right
  · intro hclear
    exact ⟨congrArg some (rewrite_eq_substitute hcanonical htext hclear), hclear⟩

end Rules

section Examples

def slashPattern : List Char := "^(.*)/(.*)$".toList

/-- The regex crate on the one pattern `^(.*)/(.*)$`: the path around its last slash. -/
def slashEngine : RegexEngine Unit where
  new pattern := if pattern = slashPattern then .ok () else .error []
  capturesLen _ := 3
  captures _ path :=
    if '\n' ∈ path then none
    else (splitOnce '/' path.reverse).map fun r => [some path, some r.2.reverse, some r.1.reverse]
  capturesLen_pos _ := by decide
  captures_length h := by
    split at h
    · cases h
    · obtain ⟨r, -, rfl⟩ := Option.map_eq_some_iff.mp h
      rfl
  captures_infix {_ path _ value} h hvalue := by
    split at h
    · cases h
    · obtain ⟨⟨b, a⟩, hsplit, rfl⟩ := Option.map_eq_some_iff.mp h
      obtain ⟨-, hpath⟩ := splitOnce_eq_some_iff.mp hsplit
      have hshape : path = a.reverse ++ '/' :: b.reverse := by
        rw [← List.reverse_reverse path, hpath]
        simp
      simp only [List.mem_cons, List.not_mem_nil, or_false, Option.some.injEq] at hvalue
      rcases hvalue with rfl | rfl | rfl
      · exact List.infix_rfl
      · exact ⟨[], '/' :: b.reverse, by rw [hshape]; simp⟩
      · exact ⟨a.reverse ++ ['/'], [], by rw [hshape]; simp⟩

def releasesRule : RoutingRule := ⟨slashPattern, "repos/$1/files/$2".toList⟩

theorem releases_rewritten : applyRoutingRules slashEngine "owner/app.zip".toList [releasesRule] =
    some (substitute [some "owner/app.zip".toList, some "owner".toList, some "app.zip".toList]
      (tokenize Char.isDigit releasesRule.rewriteTo)) := by
  have hnew : slashEngine.new (anchored releasesRule) = .ok () := by decide
  have hcaps : slashEngine.captures () "owner/app.zip".toList =
      some [some "owner/app.zip".toList, some "owner".toList, some "app.zip".toList] := by decide
  have hvalid : validateRoutingRule slashEngine Char.isDigit releasesRule = .ok () := by
    decide +kernel
  have h := rewrite_once_iff [] [] (by simp) hnew hcaps hvalid (by decide +kernel)
  exact (h.mpr (by decide +kernel)).1

/-- The captured `$1` is replaced in its turn, and `$01` is read as `$0` with a `1` behind it. -/
theorem captured_reference_replaced :
    (validateRoutingRule slashEngine Char.isDigit ⟨slashPattern, "x/$2".toList⟩ = .ok () ∧
      applyRoutingRules slashEngine "a/$1".toList [⟨slashPattern, "x/$2".toList⟩] =
        some "x/a".toList ∧
      substitute [some "a/$1".toList, some "a".toList, some "$1".toList]
        (tokenize Char.isDigit "x/$2".toList) = "x/$1".toList) ∧
    validateRoutingRule slashEngine Char.isDigit ⟨slashPattern, "$01".toList⟩ = .ok () ∧
      applyRoutingRules slashEngine "a/b".toList [⟨slashPattern, "$01".toList⟩] =
        some "a/b1".toList ∧
      substitute [some "a/b".toList, some "a".toList, some "b".toList]
        (tokenize Char.isDigit "$01".toList) = "a".toList := by
  decide +kernel

end Examples

end ArtifactKeeper.Proxy.RoutingRules
