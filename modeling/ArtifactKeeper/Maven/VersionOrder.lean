import ArtifactKeeper.PaddedLex
import Mathlib.Algebra.Group.Nat.Defs
import Mathlib.Data.List.DropRight

/-! Maven version comparison: the parser of version texts, the order on parsed versions, and the
sorted list and latest version that are read off it. -/

namespace ArtifactKeeper.Maven
open Std PaddedLex

/-- A version item; a list is what a hyphen or a letter after a digit opens. -/
inductive Item where
  | int (n : ℕ)
  | string (s : String)
  | list (items : List Item)

/-- `StringItem::qualifier_rank`. -/
def qualifierRank : String → Option ℕ
  | "alpha" | "a" => some 0
  | "beta" | "b" => some 1
  | "milestone" | "m" => some 2
  | "rc" | "cr" => some 3
  | "snapshot" => some 4
  | "" | "ga" | "final" | "release" => some 5
  | "sp" => some 6
  | _ => none

/-- `token.parse::<u64>().unwrap_or(0)` on ASCII digits. -/
def parseU64 (digits : List Char) : ℕ :=
  let n := digits.foldl (fun n c => 10 * n + (c.toNat - '0'.toNat)) 0
  if n < 2 ^ 64 then n else 0

def makeItem (isDigit : Bool) (token : List Char) : Item :=
  if isDigit then .int (parseU64 token)
  else .string <|
    match String.ofList token with
    | "a" => "alpha"
    | "b" => "beta"
    | "m" => "milestone"
    | "cr" => "rc"
    | "ga" | "final" | "release" => ""
    | other => other

def Item.isNull : Item → Bool
  | .int n => n == 0
  | .string s => s == ""
  | .list items => items.isEmpty

def trimTrailingNulls (items : List Item) : List Item := items.rdropWhile Item.isNull

/-- The state of the loop in `parse_items`: the list on top of the stack, those below it, and the
token that is being read. -/
structure Scan where
  top : List Item := []
  below : List (List Item) := []
  current : List Char := []
  isDigit : Bool := false

namespace Scan

def push (s : Scan) (item : Item) : Scan := { s with top := s.top ++ [item] }

/-- Push the token read so far, if there is one. -/
def flush (s : Scan) : Scan :=
  if s.current.isEmpty then s
  else { s.push (makeItem s.isDigit s.current) with current := [] }

def openList (s : Scan) : Scan := { s with top := [], below := s.top :: s.below }

def feed (s : Scan) (ch : Char) : Scan :=
  if ch = '.' then
    if s.current.isEmpty then s.push (.int 0) else s.flush
  else if ch = '-' then s.flush.openList
  else
    let s' :=
      if !s.current.isEmpty && ch.isDigit != s.isDigit then
        if ch.isDigit then s.flush else s.flush.openList
      else s
    { s' with isDigit := ch.isDigit, current := s'.current ++ [ch] }

/-- Fold the stack: each list is trimmed and becomes the last item of the one below it. -/
def close (top : List Item) : List (List Item) → List Item
  | [] => trimTrailingNulls top
  | parent :: below => close (parent ++ [.list (trimTrailingNulls top)]) below

end Scan

def parseItems (version : String) : List Item :=
  let s := (version.toList.foldl Scan.feed {}).flush
  Scan.close s.top s.below

mutual
def Item.display : Item → String
  | .int n => toString n
  | .string s => s
  | .list items => "(" ++ displayList items ++ ")"
def displayList : List Item → String
  | [] => ""
  | [item] => item.display
  | item :: rest => item.display ++ "." ++ displayList rest
end

structure MavenVersion where
  canonical : String
  items : List Item

/-- `MavenVersion::parse`, for any `str::to_lowercase`. -/
def MavenVersion.parse (toLowercase : String → String) (version : String) : MavenVersion :=
  let items := parseItems (toLowercase version)
  ⟨displayList items, items⟩

def cmpString (a b : String) : Ordering :=
  match qualifierRank a, qualifierRank b with
  | some ar, some br => compare ar br
  | some _, none => .lt
  | none, some _ => .gt
  | none, none => compare a b

def cmpStringWithNull (s : String) : Ordering :=
  match qualifierRank s with
  | some r => compare r 5
  | none => .gt

def cmpItemWithNull : Item → Ordering
  | .int n => compare n 0
  | .string s => cmpStringWithNull s
  | .list [] => .eq
  | .list (first :: _) => cmpItemWithNull first

/-- The part of the loop in `cmp_list` that runs past the end of the other list. -/
def cmpWithNulls : List Item → Ordering
  | [] => .eq
  | item :: rest => (cmpItemWithNull item).then (cmpWithNulls rest)

mutual
def cmpItem : Item → Item → Ordering
  | .int a, .int b => compare a b
  | .string a, .string b => cmpString a b
  | .list a, .list b => cmpList a b
  | .int _, .string _ => .gt
  | .string _, .int _ => .lt
  | .int _, .list _ => .gt
  | .list _, .int _ => .lt
  | .string _, .list _ => .lt
  | .list _, .string _ => .gt
def cmpList : List Item → List Item → Ordering
  | [], bs => (cmpWithNulls bs).swap
  | a :: as, [] => cmpWithNulls (a :: as)
  | a :: as, b :: bs => (cmpItem a b).then (cmpList as bs)
end

def MavenVersion.cmp (a b : MavenVersion) : Ordering := cmpList a.items b.items

/-- A version as one sequence: `sublist` stands where a list opens. -/
inductive Token where
  | string (s : String)
  | sublist
  | int (n : ℕ)
  deriving DecidableEq, Repr

mutual
def Item.tokens : Item → List Token
  | .int n => [.int n]
  | .string s => [.string s]
  | .list items => .sublist :: tokens items
def tokens : List Item → List Token
  | [] => []
  | item :: rest => item.tokens ++ tokens rest
end

/-- `cmp_item` on tokens. -/
def cmpToken : Token → Token → Ordering
  | .string a, .string b => cmpString a b
  | .int a, .int b => compare a b
  | .sublist, .sublist => .eq
  | .string _, _ => .lt
  | _, .string _ => .gt
  | .sublist, .int _ => .lt
  | .int _, .sublist => .gt

/-- `cmp_item_with_null` of a list with these tokens: only the first one counts. -/
def cmpFirstWithNull : List Token → Ordering
  | [] => .eq
  | .string s :: _ => cmpStringWithNull s
  | .int n :: _ => compare n 0
  | .sublist :: rest => cmpFirstWithNull rest

/-- How what follows the end of the other version compares with nothing. -/
def cmpRest : List Token → Ordering
  | [] => .eq
  | .string s :: rest => (cmpStringWithNull s).then (cmpRest rest)
  | .int n :: rest => (compare n 0).then (cmpRest rest)
  | .sublist :: rest => cmpFirstWithNull rest

/-- `sort_by`, which is stable. On versions that the comparison does not put into a total order the
standard library leaves the order open and may panic, and this sort is only one of its outcomes. -/
def sortMavenVersions (toLowercase : String → String) (versions : List String) : List String :=
  ((versions.map fun v => (MavenVersion.parse toLowercase v, v)).mergeSort
    fun a b => (a.1.cmp b.1).isLE).map Prod.snd

/-- `Iterator::max_by`: of two equal elements the later one is kept. -/
def maxBy {α : Type*} (cmp : α → α → Ordering) : List α → Option α
  | [] => none
  | x :: rest => some (rest.foldl (fun best y => if cmp best y = .gt then best else y) x)

def latestVersion (toLowercase : String → String) (versions : List String) : Option String :=
  maxBy (fun a b => (MavenVersion.parse toLowercase a).cmp (.parse toLowercase b)) versions

section Tokens

instance : TransCmp cmpString where
  eq_swap {a b} := by
    unfold cmpString
    cases qualifierRank a <;> cases qualifierRank b
    · exact OrientedOrd.eq_swap
    · rfl
    · rfl
    · exact OrientedOrd.eq_swap
  isLE_trans {a b c} := by
    unfold cmpString
    cases qualifierRank a <;> cases qualifierRank b <;> cases qualifierRank c <;>
      simp only [Ordering.isLE_lt, Ordering.isLE_gt, Bool.false_eq_true, false_implies,
        implies_true]
    · exact TransOrd.isLE_trans
    · exact TransOrd.isLE_trans

instance : TransCmp cmpToken where
  eq_swap {a b} := by
    cases a <;> cases b <;> try rfl
    · show cmpString _ _ = (cmpString _ _).swap
      exact OrientedCmp.eq_swap
    · show compare _ _ = (compare _ _).swap
      exact OrientedOrd.eq_swap
  isLE_trans {a b c} := by
    cases a <;> cases b <;> cases c <;>
      simp only [cmpToken, Ordering.isLE_lt, Ordering.isLE_eq, Ordering.isLE_gt,
        Bool.false_eq_true, false_implies, implies_true]
    · exact TransCmp.isLE_trans
    · exact TransOrd.isLE_trans

/-- A list item stands at the end of its list only. -/
inductive Nested : List Item → Prop
  | nil : Nested []
  | int {n : ℕ} {rest : List Item} : Nested rest → Nested (.int n :: rest)
  | string {s : String} {rest : List Item} : Nested rest → Nested (.string s :: rest)
  | list {items : List Item} : Nested items → Nested [.list items]

theorem cmpItemWithNull_list {items : List Item} (h : Nested items) :
    cmpItemWithNull (.list items) = cmpFirstWithNull (tokens items) := by
  induction h with
  | nil => rfl
  | int _ _ => rfl
  | string _ _ => rfl
  | list _ ih => simpa [cmpItemWithNull, tokens, Item.tokens, cmpFirstWithNull] using ih

theorem cmpWithNulls_eq {items : List Item} (h : Nested items) :
    cmpWithNulls items = cmpRest (tokens items) := by
  induction h with
  | nil => rfl
  | int _ ih => simp [cmpWithNulls, tokens, Item.tokens, cmpRest, cmpItemWithNull, ih]
  | string _ ih => simp [cmpWithNulls, tokens, Item.tokens, cmpRest, cmpItemWithNull, ih]
  | list h => simp [cmpWithNulls, tokens, Item.tokens, cmpRest, cmpItemWithNull_list h]

/-- On lists of this form `cmp_list` is the padded lexicographic order of the tokens. -/
theorem cmpList_eq_order {as bs : List Item} (ha : Nested as) (hb : Nested bs) :
    cmpList as bs = order cmpToken cmpRest (tokens as) (tokens bs) := by
  induction ha generalizing bs with
  | nil => rw [cmpList, cmpWithNulls_eq hb, tokens, order]
  | int ha ih =>
    cases hb with
    | nil => exact cmpWithNulls_eq ha.int
    | int hb => simp [cmpList, cmpItem, tokens, Item.tokens, order, cmpToken, ih hb]
    | string hb => simp [cmpList, cmpItem, tokens, Item.tokens, order, cmpToken]
    | list hb => simp [cmpList, cmpItem, tokens, Item.tokens, order, cmpToken]
  | string ha ih =>
    cases hb with
    | nil => exact cmpWithNulls_eq ha.string
    | int hb => simp [cmpList, cmpItem, tokens, Item.tokens, order, cmpToken]
    | string hb => simp [cmpList, cmpItem, tokens, Item.tokens, order, cmpToken, ih hb]
    | list hb => simp [cmpList, cmpItem, tokens, Item.tokens, order, cmpToken]
  | list ha ih =>
    cases hb with
    | nil => exact cmpWithNulls_eq ha.list
    | int hb => simp [cmpList, cmpItem, tokens, Item.tokens, order, cmpToken]
    | string hb => simp [cmpList, cmpItem, tokens, Item.tokens, order, cmpToken]
    | list hb =>
      simp [cmpList, cmpItem, tokens, Item.tokens, order, cmpToken, ih hb, cmpWithNulls]

end Tokens

section Parse

theorem Nested.of_prefix {items items' : List Item} (h : Nested items) (hp : items' <+: items) :
    Nested items' := by
  induction h generalizing items' with
  | nil =>
    rw [List.prefix_nil.mp hp]
    exact .nil
  | int _ ih =>
    rcases List.prefix_cons_iff.mp hp with rfl | ⟨t, rfl, ht⟩
    · exact .nil
    · exact (ih ht).int
  | string _ ih =>
    rcases List.prefix_cons_iff.mp hp with rfl | ⟨t, rfl, ht⟩
    · exact .nil
    · exact (ih ht).string
  | list h _ =>
    rcases List.prefix_cons_iff.mp hp with rfl | ⟨t, rfl, ht⟩
    · exact .nil
    · rw [List.prefix_nil.mp ht]
      exact h.list

theorem Nested.trimTrailingNulls {items : List Item} (h : Nested items) :
    Nested (trimTrailingNulls items) :=
  h.of_prefix (List.rdropWhile_prefix _ _)

def Item.isList : Item → Bool
  | .list _ => true
  | _ => false

/-- While the text is read no list on the stack holds a list yet. -/
def Scan.Flat (s : Scan) : Prop :=
  (∀ item ∈ s.top, item.isList = false) ∧ ∀ items ∈ s.below, ∀ item ∈ items, item.isList = false

theorem isList_makeItem (isDigit : Bool) (token : List Char) :
    (makeItem isDigit token).isList = false := by
  unfold makeItem
  split <;> rfl

theorem Scan.Flat.push {s : Scan} {item : Item} (h : s.Flat) (hi : item.isList = false) :
    (s.push item).Flat := by
  refine ⟨fun i hm => ?_, h.2⟩
  rcases List.mem_append.mp hm with hm | hm
  · exact h.1 i hm
  · rw [List.mem_singleton.mp hm]
    exact hi

theorem Scan.Flat.flush {s : Scan} (h : s.Flat) : s.flush.Flat := by
  unfold Scan.flush
  split
  · exact h
  · exact h.push (isList_makeItem _ _)

theorem Scan.Flat.openList {s : Scan} (h : s.Flat) : s.openList.Flat := by
  refine ⟨fun i hm => (List.not_mem_nil hm).elim, fun items hm => ?_⟩
  rcases List.mem_cons.mp hm with rfl | hm
  · exact h.1
  · exact h.2 items hm

theorem Scan.Flat.feed {s : Scan} (h : s.Flat) (ch : Char) : (s.feed ch).Flat := by
  unfold Scan.feed
  split
  · split
    · exact h.push rfl
    · exact h.flush
  · split
    · exact h.flush.openList
    · dsimp only
      split
      · split
        · exact h.flush
        · exact h.flush.openList
      · exact h

theorem nested_append {items last : List Item} (h : ∀ item ∈ items, item.isList = false)
    (hl : Nested last) : Nested (items ++ last) := by
  induction items with
  | nil => exact hl
  | cons item items ih =>
    have hrest := ih fun i hi => h i (List.mem_cons_of_mem item hi)
    cases item with
    | int n => exact hrest.int
    | string s => exact hrest.string
    | list inner => cases h (.list inner) List.mem_cons_self

theorem nested_close {top : List Item} {below : List (List Item)} (ht : Nested top)
    (hb : ∀ items ∈ below, ∀ item ∈ items, item.isList = false) :
    Nested (Scan.close top below) := by
  induction below generalizing top with
  | nil => exact ht.trimTrailingNulls
  | cons parent below ih =>
    apply ih
    · exact nested_append (hb parent List.mem_cons_self) ht.trimTrailingNulls.list
    · exact fun items hi => hb items (List.mem_cons_of_mem parent hi)

theorem Scan.Flat.foldl {s : Scan} (h : s.Flat) (chars : List Char) :
    (chars.foldl Scan.feed s).Flat := by
  induction chars generalizing s with
  | nil => exact h
  | cons ch chars ih => exact ih (h.feed ch)

theorem Scan.flat_init : ({} : Scan).Flat := ⟨by simp, by simp⟩

theorem nested_parseItems (version : String) : Nested (parseItems version) := by
  have h := (Scan.flat_init.foldl version.toList).flush
  refine nested_close ?_ h.2
  rw [← List.append_nil (Scan.top _)]
  exact nested_append h.1 .nil

end Parse

section Clash

/-- What counts as a missing item: 0 and the release qualifier. -/
def Token.isNull (t : Token) : Bool := t != .sublist && cmpFirstWithNull [t] == .eq

/-- Token by token equal, and the longer one goes on with missing items only. -/
def sameTokens : List Token → List Token → Bool
  | [], ys => cmpRest ys == .eq
  | x :: xs, [] => cmpRest (x :: xs) == .eq
  | x :: xs, y :: ys => cmpToken x y == .eq && sameTokens xs ys

/-- A clash inside a list that both open: only its first token is compared with a missing item, so
that the two may differ behind one that counts as missing. -/
def sublistClashes : List Token → List Token → Bool
  | [], ys => cmpFirstWithNull ys == .eq && cmpRest ys != .eq
  | x :: xs, [] => cmpFirstWithNull (x :: xs) == .eq && cmpRest (x :: xs) != .eq
  | x :: xs, y :: ys =>
    match cmpToken x y with
    | .lt => (cmpFirstWithNull (x :: xs)).isGE && (cmpFirstWithNull (y :: ys)).isLE
    | .gt => (cmpFirstWithNull (x :: xs)).isLE && (cmpFirstWithNull (y :: ys)).isGE
    | .eq => if x = .sublist then sublistClashes xs ys else x.isNull && !sameTokens xs ys

/-- Past the tokens that count as missing, the two differ in a place where the lower one is not
below a missing item and the higher one is not above it. -/
def clashes : List Token → List Token → Bool
  | x :: xs, y :: ys =>
    match cmpToken x y with
    | .lt => (cmpRest (x :: xs)).isGE && (cmpRest (y :: ys)).isLE
    | .gt => (cmpRest (x :: xs)).isLE && (cmpRest (y :: ys)).isGE
    | .eq => if x = .sublist then sublistClashes xs ys else x.isNull && clashes xs ys
  | _, _ => false

theorem sameTokens_iff {xs ys : List Token} :
    sameTokens xs ys = true ↔ order cmpToken cmpRest xs ys = .eq := by
  induction xs generalizing ys with
  | nil => simp [sameTokens, order]
  | cons x xs ih =>
    cases ys with
    | nil => simp [sameTokens, order]
    | cons y ys => simp [sameTokens, order, ih]

theorem cmpStringWithNull_congr {a b : String} (h : cmpString a b = .eq) :
    cmpStringWithNull a = cmpStringWithNull b := by
  unfold cmpString at h
  unfold cmpStringWithNull
  cases ha : qualifierRank a <;> cases hb : qualifierRank b <;> simp_all

/-- Equal tokens compare alike with a missing item. -/
theorem cmpFirstWithNull_congr {x y : Token} {xs ys : List Token} (h : cmpToken x y = .eq)
    (hx : x ≠ .sublist) : cmpFirstWithNull (x :: xs) = cmpFirstWithNull (y :: ys) := by
  cases x with
  | sublist => exact absurd rfl hx
  | string a =>
    cases y with
    | string b => exact cmpStringWithNull_congr h
    | sublist => cases h
    | int n => cases h
  | int m =>
    cases y with
    | string b => cases h
    | sublist => cases h
    | int n =>
      obtain rfl : m = n := by simpa [cmpToken] using h
      rfl

theorem eq_sublist_of_cmpToken {y : Token} (h : cmpToken .sublist y = .eq) : y = .sublist := by
  cases y with
  | sublist => rfl
  | string s => cases h
  | int n => cases h

theorem cmpRest_cons {x : Token} {xs : List Token} (hx : x ≠ .sublist) :
    cmpRest (x :: xs) = (cmpFirstWithNull [x]).then (cmpRest xs) := by
  cases x with
  | sublist => exact absurd rfl hx
  | string s => rfl
  | int n => rfl

theorem agrees_lt_iff : ∀ {left right : Ordering},
    Agrees left right .lt ↔ (left.isGE && right.isLE) = false := by
  decide

theorem agrees_gt_iff : ∀ {left right : Ordering},
    Agrees left right .gt ↔ (left.isLE && right.isGE) = false := by
  decide

theorem agrees_self_iff : ∀ {o o' : Ordering}, Agrees o o o' ↔ (o == .eq && o' != .eq) = false := by
  decide

theorem agrees_eq_left_iff : ∀ {right o : Ordering}, Agrees .eq right o ↔ o = right.swap := by
  decide

theorem agrees_eq_right_iff : ∀ {left o : Ordering}, Agrees left .eq o ↔ o = left := by
  decide

theorem isNull_of_ne_sublist {x : Token} (hx : x ≠ .sublist) :
    x.isNull = (cmpFirstWithNull [x] == .eq) := by
  simp [Token.isNull, hx]

/-- Against nothing a list item counts as its first token alone, and the rest of a version counts as
its first token unless that is missing itself. -/
theorem cmpRest_eq_first_iff {ys : List Token} :
    cmpRest ys = cmpFirstWithNull ys ↔
      (cmpFirstWithNull ys == .eq && cmpRest ys != .eq) = false := by
  cases ys with
  | nil => simp [cmpRest, cmpFirstWithNull]
  | cons y ys =>
    by_cases hy : y = .sublist
    · subst hy
      cases h : cmpFirstWithNull ys <;> simp [cmpRest, cmpFirstWithNull, h]
    · have hself : cmpToken y y = .eq := ReflCmp.compare_self
      have hfirst : cmpFirstWithNull (y :: ys) = cmpFirstWithNull [y] :=
        cmpFirstWithNull_congr hself hy
      rw [cmpRest_cons hy, hfirst]
      cases cmpFirstWithNull [y] <;> simp

theorem agrees_first_iff_sublistClashes {xs ys : List Token} :
    Agrees (cmpFirstWithNull xs) (cmpFirstWithNull ys) (order cmpToken cmpRest xs ys) ↔
      sublistClashes xs ys = false := by
  induction xs generalizing ys with
  | nil => rw [cmpFirstWithNull, agrees_eq_left_iff, order, Ordering.swap_inj, sublistClashes,
      cmpRest_eq_first_iff]
  | cons x xs ih =>
    cases ys with
    | nil => exact agrees_eq_right_iff.trans cmpRest_eq_first_iff
    | cons y ys =>
      rw [sublistClashes, order]
      cases h : cmpToken x y with
      | lt => exact agrees_lt_iff
      | gt => exact agrees_gt_iff
      | eq =>
        by_cases hx : x = .sublist
        · subst hx
          rw [eq_sublist_of_cmpToken h]
          simpa [cmpFirstWithNull] using ih
        · have hfirst : cmpFirstWithNull (x :: xs) = cmpFirstWithNull (y :: ys) :=
            cmpFirstWithNull_congr h hx
          have hnull : x.isNull = (cmpFirstWithNull (y :: ys) == .eq) := by
            rw [isNull_of_ne_sublist hx, cmpFirstWithNull_congr h hx]
          rw [hfirst, Ordering.eq_then, agrees_self_iff]
          simp [hx, hnull, ← sameTokens_iff]

theorem agrees_iff_clashes {xs ys : List Token} :
    Agrees (cmpRest xs) (cmpRest ys) (order cmpToken cmpRest xs ys) ↔ clashes xs ys = false := by
  induction xs generalizing ys with
  | nil => simp [cmpRest, agrees_eq_left_iff, order, clashes]
  | cons x xs ih =>
    cases ys with
    | nil => simp [cmpRest, agrees_eq_right_iff, order, clashes]
    | cons y ys =>
      rw [clashes, order]
      cases h : cmpToken x y with
      | lt => exact agrees_lt_iff
      | gt => exact agrees_gt_iff
      | eq =>
        by_cases hx : x = .sublist
        · subst hx
          rw [eq_sublist_of_cmpToken h]
          simpa [cmpRest] using agrees_first_iff_sublistClashes
        · have hy : y ≠ .sublist := by
            rintro rfl
            exact hx (eq_sublist_of_cmpToken (OrientedCmp.eq_symm h))
          have hfirst : cmpFirstWithNull [x] = cmpFirstWithNull [y] := cmpFirstWithNull_congr h hx
          have hnull := isNull_of_ne_sublist hx
          rw [cmpRest_cons hx, cmpRest_cons hy, ← hfirst, Ordering.eq_then]
          -- a token that does not count as missing settles both alike
          cases hs : cmpFirstWithNull [x] with
          | lt => simp [hx, hnull, hs, agrees_self_iff]
          | gt => simp [hx, hnull, hs, agrees_self_iff]
          | eq => simpa [hx, hnull, hs] using ih

end Clash

section Law
variable (toLowercase : String → String)

/-- What callers rely on for the versions of a list. -/
structure Ordered (versions : List String) : Prop where
  reverse : ∀ a ∈ versions, ∀ b ∈ versions,
    (MavenVersion.parse toLowercase a).cmp (.parse toLowercase b) =
      ((MavenVersion.parse toLowercase b).cmp (.parse toLowercase a)).swap
  trans : ∀ a ∈ versions, ∀ b ∈ versions, ∀ c ∈ versions,
    ((MavenVersion.parse toLowercase a).cmp (.parse toLowercase b)).isLE →
    ((MavenVersion.parse toLowercase b).cmp (.parse toLowercase c)).isLE →
    ((MavenVersion.parse toLowercase a).cmp (.parse toLowercase c)).isLE
  sorted : (sortMavenVersions toLowercase versions).Pairwise fun a b =>
    ((MavenVersion.parse toLowercase a).cmp (.parse toLowercase b)).isLE
  latest : versions ≠ [] → ∃ v ∈ versions, latestVersion toLowercase versions = some v ∧
    ∀ u ∈ versions, ((MavenVersion.parse toLowercase u).cmp (.parse toLowercase v)).isLE

def versionTokens (version : String) : List Token := tokens (parseItems (toLowercase version))

/-- Whenever a version of the list is an initial part of two others, what these have beyond it does
not clash. -/
def ClashFree (versions : List String) : Prop :=
  ∀ a ∈ versions, ∀ b ∈ versions, ∀ c ∈ versions,
    ∀ a' ∈ remainder cmpToken (versionTokens toLowercase b) (versionTokens toLowercase a),
    ∀ c' ∈ remainder cmpToken (versionTokens toLowercase b) (versionTokens toLowercase c),
      clashes a' c' = false

variable {toLowercase}

theorem cmp_parse (a b : String) :
    (MavenVersion.parse toLowercase a).cmp (.parse toLowercase b) =
      order cmpToken cmpRest (versionTokens toLowercase a) (versionTokens toLowercase b) :=
  cmpList_eq_order (nested_parseItems _) (nested_parseItems _)

theorem cmp_parse_swap (a b : String) :
    (MavenVersion.parse toLowercase a).cmp (.parse toLowercase b) =
      ((MavenVersion.parse toLowercase b).cmp (.parse toLowercase a)).swap := by
  rw [cmp_parse, cmp_parse]
  exact order_swap rfl _ _

theorem cmp_trans_iff_clashFree (versions : List String) :
    (∀ a ∈ versions, ∀ b ∈ versions, ∀ c ∈ versions,
      ((MavenVersion.parse toLowercase a).cmp (.parse toLowercase b)).isLE →
      ((MavenVersion.parse toLowercase b).cmp (.parse toLowercase c)).isLE →
      ((MavenVersion.parse toLowercase a).cmp (.parse toLowercase c)).isLE) ↔
    ClashFree toLowercase versions := by
  have h := @order_trans_iff_coherent _ cmpToken cmpRest _ rfl
    {t | t ∈ versions.map (versionTokens toLowercase)}
  simpa only [Set.mem_ofPred_eq, List.forall_mem_map, ← cmp_parse, Coherent,
    agrees_iff_clashes, ClashFree] using h

/-- `mergeSort` by a relation that is a total preorder on the elements of the list. -/
theorem pairwise_mergeSort_of_mem {α : Type*} {le : α → α → Bool} {l : List α}
    (trans : ∀ a ∈ l, ∀ b ∈ l, ∀ c ∈ l, le a b → le b c → le a c)
    (total : ∀ a ∈ l, ∀ b ∈ l, le a b || le b a) : (l.mergeSort le).Pairwise fun a b => le a b := by
  have h := @List.pairwise_mergeSort _ (fun a b : { x // x ∈ l } => le a b)
    (fun a b c => trans a a.2 b b.2 c c.2) (fun a b => total a a.2 b b.2) l.attach
  rw [← List.attach_map_subtype_val l,
    ← List.map_mergeSort (r := fun a b : { x // x ∈ l } => le a b) fun _ _ _ _ => rfl]
  exact List.pairwise_map.mpr h

theorem foldl_maxBy {α : Type*} {cmp : α → α → Ordering} (hswap : ∀ a b, cmp a b = (cmp b a).swap)
    (rest : List α) (x : α)
    (trans : ∀ a ∈ x :: rest, ∀ b ∈ x :: rest, ∀ c ∈ x :: rest,
      (cmp a b).isLE → (cmp b c).isLE → (cmp a c).isLE) :
    rest.foldl (fun best y => if cmp best y = .gt then best else y) x ∈ x :: rest ∧
      ∀ u ∈ x :: rest,
        (cmp u (rest.foldl (fun best y => if cmp best y = .gt then best else y) x)).isLE := by
  have hrefl : ∀ a, (cmp a a).isLE := fun a =>
    Ordering.isLE_of_eq_eq (Ordering.eq_eq_of_eq_swap (hswap a a))
  induction rest generalizing x with
  | nil => simp [hrefl]
  | cons y rest ih =>
    rw [List.foldl_cons]
    -- the survivor of the two is above both
    obtain ⟨best, hbest, hbmem, hx, hy⟩ : ∃ best, (if cmp x y = .gt then x else y) = best ∧
        (best = x ∨ best = y) ∧ (cmp x best).isLE ∧ (cmp y best).isLE := by
      by_cases hgt : cmp x y = .gt
      · refine ⟨x, if_pos hgt, .inl rfl, hrefl x, ?_⟩
        rw [hswap, hgt]
        rfl
      · exact ⟨y, if_neg hgt, .inr rfl, Ordering.isLE_iff_ne_gt.mpr hgt, hrefl y⟩
    have hsub : ∀ u ∈ best :: rest, u ∈ x :: y :: rest := by
      intro u hu
      rcases hbmem with rfl | rfl <;> simp only [List.mem_cons] at hu ⊢ <;> tauto
    obtain ⟨hmem, hmax⟩ := ih best fun a ha b hb c hc =>
      trans a (hsub a ha) b (hsub b hb) c (hsub c hc)
    rw [hbest]
    have hbelow : ∀ u ∈ x :: y :: rest, (cmp u best).isLE →
        (cmp u (rest.foldl (fun best y => if cmp best y = .gt then best else y) best)).isLE :=
      fun u hu hle => trans u hu best (hsub best List.mem_cons_self) _ (hsub _ hmem) hle
        (hmax best List.mem_cons_self)
    refine ⟨hsub _ hmem, fun u hu => ?_⟩
    rcases List.mem_cons.mp hu with rfl | hu'
    · exact hbelow _ hu hx
    · rcases List.mem_cons.mp hu' with rfl | hu'
      · exact hbelow _ hu hy
      · exact hmax u (List.mem_cons_of_mem best hu')

section Total
variable {versions : List String}
  (trans : ∀ a ∈ versions, ∀ b ∈ versions, ∀ c ∈ versions,
    ((MavenVersion.parse toLowercase a).cmp (.parse toLowercase b)).isLE →
    ((MavenVersion.parse toLowercase b).cmp (.parse toLowercase c)).isLE →
    ((MavenVersion.parse toLowercase a).cmp (.parse toLowercase c)).isLE)
include trans

theorem sortMavenVersions_sorted : (sortMavenVersions toLowercase versions).Pairwise fun a b =>
    ((MavenVersion.parse toLowercase a).cmp (.parse toLowercase b)).isLE := by
  have hsort := @pairwise_mergeSort_of_mem _ (fun a b => (a.1.cmp b.1).isLE)
    (versions.map fun v => (MavenVersion.parse toLowercase v, v)) ?_ ?_
  · apply List.pairwise_map.mpr
    apply hsort.imp_of_mem
    intro a b ha hb hab
    obtain ⟨u, -, rfl⟩ := List.mem_map.mp (List.mem_mergeSort.mp ha)
    obtain ⟨v, -, rfl⟩ := List.mem_map.mp (List.mem_mergeSort.mp hb)
    exact hab
  · simpa only [List.forall_mem_map] using trans
  · simp only [List.forall_mem_map]
    intro a _ b _
    rw [cmp_parse_swap a b, Ordering.isLE_swap]
    cases (MavenVersion.parse toLowercase b).cmp (.parse toLowercase a) <;> rfl

theorem latestVersion_max (hne : versions ≠ []) :
    ∃ v ∈ versions, latestVersion toLowercase versions = some v ∧
      ∀ u ∈ versions, ((MavenVersion.parse toLowercase u).cmp (.parse toLowercase v)).isLE := by
  cases versions with
  | nil => exact absurd rfl hne
  | cons v rest =>
    obtain ⟨hmem, hmax⟩ := foldl_maxBy (fun a b => cmp_parse_swap a b) rest v trans
    exact ⟨_, hmem, rfl, hmax⟩

end Total

/-- The order serves a list of versions exactly when no three of them clash. -/
theorem ordered_iff_clashFree (toLowercase : String → String) (versions : List String) :
    Ordered toLowercase versions ↔ ClashFree toLowercase versions := by
  constructor
  · intro h
    exact (cmp_trans_iff_clashFree versions).mp h.trans
  · intro h
    have htrans := (cmp_trans_iff_clashFree versions).mpr h
    exact ⟨fun a _ b _ => cmp_parse_swap a b, htrans, sortMavenVersions_sorted htrans,
      latestVersion_max htrans⟩

end Law

/-- `str::to_lowercase` on ASCII text. -/
def asciiLowercase (s : String) : String := String.ofList (s.toList.map Char.toLower)

/-- `1.0.alpha` is below `1`, `1` below `1.sp` and `1.sp` below `1.0.alpha`. -/
theorem alpha_one_sp_cycle : ¬ Ordered asciiLowercase ["1.0.alpha", "1", "1.sp"] := by
  intro h
  have hcycle := h.trans "1.0.alpha" (by decide) "1" (by decide) "1.sp" (by decide)
    (by decide +kernel) (by decide +kernel)
  exact absurd hcycle (by decide +kernel)

end ArtifactKeeper.Maven
