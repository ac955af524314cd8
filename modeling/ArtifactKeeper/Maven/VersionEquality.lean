import ArtifactKeeper.Maven.VersionOrder

/-! Maven versions that count as the same: by their canonical texts, which is the equality of the
type, and by its order. The two agree except for lists that hide behind a missing first item and for
qualifiers that spell the brackets of a list. -/

namespace ArtifactKeeper.Maven
open Std PaddedLex

/-- `PartialEq` for `MavenVersion`. -/
def MavenVersion.eq (a b : MavenVersion) : Bool := a.canonical == b.canonical

/-- The qualifiers for which `make_item` stores another one. -/
def qualifierAliases : List String := ["a", "b", "m", "cr", "ga", "final", "release"]

/-- Rendered without a dot, and no alias. -/
def Token.Normal : Token → Prop
  | .string s => s ∉ qualifierAliases ∧ '.' ∉ s.toList
  | _ => True

/-- The last token is one that trimming keeps. -/
def Tight (ts : List Token) : Prop := ∀ t ∈ ts.getLast?, t ≠ .sublist ∧ t.isNull = false

def Token.text : Token → List Char
  | .string s => s.toList
  | .int n => (toString n).toList
  | .sublist => []

/-- The leaves of a version, each with the brackets that the canonical text has around it: `opens`
lists begin at the next leaf, and `depth` are closed behind the last one. -/
def bracketed (opens depth : ℕ) : List Token → List (List Char)
  | [] => []
  | t :: rest =>
    if t = .sublist then bracketed (opens + 1) (depth + 1) rest
    else if rest = [] then [List.replicate opens '(' ++ t.text ++ List.replicate depth ')']
    else (List.replicate opens '(' ++ t.text) :: bracketed 0 depth rest

/-- Missing items, and then a list whose first item counts as missing. -/
def hidden : List Token → Bool
  | [] => false
  | t :: rest => if t = .sublist then cmpFirstWithNull rest == .eq else t.isNull && hidden rest

section Parsed

theorem tokens_append (as bs : List Item) : tokens (as ++ bs) = tokens as ++ tokens bs := by
  induction as with
  | nil => rfl
  | cons a as ih => rw [List.cons_append, tokens, ih, tokens, List.append_assoc]

theorem tokens_eq_nil_iff {items : List Item} : tokens items = [] ↔ items = [] := by
  cases items with
  | nil => simp [tokens]
  | cons item rest => cases item <;> simp [tokens, Item.tokens]

theorem tokens_isPrefix {as bs : List Item} (h : as <+: bs) : tokens as <+: tokens bs := by
  obtain ⟨cs, rfl⟩ := h
  rw [tokens_append]
  exact List.prefix_append _ _

theorem normal_makeItem (isDigit : Bool) {token : List Char} (h : '.' ∉ token) :
    ∀ t ∈ (makeItem isDigit token).tokens, t.Normal := by
  unfold makeItem
  split
  · simp [Item.tokens, Token.Normal]
  · simp only [Item.tokens, List.mem_singleton, forall_eq, Token.Normal]
    split
    all_goals try decide
    rename_i _ other h₁ h₂ h₃ h₄ h₅ h₆ h₇
    have hne : ∀ q ∈ qualifierAliases, String.ofList token ≠ q := by
      simp only [qualifierAliases, List.forall_mem_cons]
      exact ⟨h₁, h₂, h₃, h₄, h₅, h₆, h₇, by simp⟩
    refine ⟨fun hmem => hne _ hmem rfl, ?_⟩
    rwa [String.toList_ofList]

/-- Every token pushed so far is normal, and the one that is being read has no dot. -/
structure Scan.Normal (s : Scan) : Prop where
  top : ∀ t ∈ tokens s.top, t.Normal
  below : ∀ items ∈ s.below, ∀ t ∈ tokens items, t.Normal
  current : '.' ∉ s.current

theorem Scan.Normal.push {s : Scan} {item : Item} (h : s.Normal)
    (hi : ∀ t ∈ item.tokens, t.Normal) : (s.push item).Normal := by
  refine ⟨fun t ht => ?_, h.below, h.current⟩
  have happ : tokens (s.push item).top = tokens s.top ++ item.tokens := by
    simp [Scan.push, tokens_append, tokens]
  rw [happ] at ht
  rcases List.mem_append.mp ht with ht | ht
  · exact h.top t ht
  · exact hi t ht

theorem Scan.Normal.flush {s : Scan} (h : s.Normal) : s.flush.Normal := by
  unfold Scan.flush
  split
  · exact h
  · have hpush := h.push (normal_makeItem s.isDigit h.current)
    exact ⟨hpush.top, hpush.below, List.not_mem_nil⟩

theorem Scan.Normal.openList {s : Scan} (h : s.Normal) : s.openList.Normal := by
  refine ⟨by simp [Scan.openList, tokens], fun items hm => ?_, h.current⟩
  rcases List.mem_cons.mp hm with rfl | hm
  · exact h.top
  · exact h.below items hm

theorem Scan.Normal.feed {s : Scan} (h : s.Normal) (ch : Char) : (s.feed ch).Normal := by
  unfold Scan.feed
  split
  · split
    · exact h.push (by simp [Item.tokens, Token.Normal])
    · exact h.flush
  · rename_i hdot
    split
    · exact h.flush.openList
    · have happ : ∀ {s' : Scan} {isDigit : Bool}, s'.Normal →
          ({ s' with isDigit := isDigit, current := s'.current ++ [ch] } : Scan).Normal := by
        intro s' isDigit h'
        refine ⟨h'.top, h'.below, fun hmem => ?_⟩
        rcases List.mem_append.mp hmem with hmem | hmem
        · exact h'.current hmem
        · exact hdot (List.mem_singleton.mp hmem).symm
      dsimp only
      split
      · split
        · exact happ h.flush
        · exact happ h.flush.openList
      · exact happ h

theorem Scan.Normal.foldl {s : Scan} (h : s.Normal) (chars : List Char) :
    (chars.foldl Scan.feed s).Normal := by
  induction chars generalizing s with
  | nil => exact h
  | cons ch chars ih => exact ih (h.feed ch)

theorem Tight.of_cons {t : Token} {ts : List Token} (h : Tight (t :: ts)) : Tight ts := by
  cases ts with
  | nil => exact fun t ht => (by cases ht)
  | cons t' ts => exact fun u hu => h u (by rwa [List.getLast?_cons_cons])

/-- The one qualifier of a rank that is no alias. -/
def rankQualifier : ℕ → String
  | 0 => "alpha"
  | 1 => "beta"
  | 2 => "milestone"
  | 3 => "rc"
  | 4 => "snapshot"
  | 5 => ""
  | _ => "sp"

theorem eq_rankQualifier {s : String} {r : ℕ} (hs : s ∉ qualifierAliases)
    (hr : qualifierRank s = some r) : s = rankQualifier r := by
  unfold qualifierRank at hr
  split at hr
  all_goals first
    | contradiction
    | obtain rfl := Option.some.inj hr; rfl

theorem tight_append (ts : List Token) {us : List Token} (h : Tight us) (hne : us ≠ []) :
    Tight (ts ++ us) := by
  intro t ht
  rw [List.getLast?_append_of_ne_nil _ hne] at ht
  exact h t ht

/-- An item that is not trimmed ends with a leaf that is not trimmed either. -/
theorem tight_tokens {item : Item} (hnull : item.isNull = false)
    (hnormal : ∀ t ∈ item.tokens, t.Normal)
    (h : ∀ inner, item = .list inner → Tight (tokens inner)) : Tight item.tokens := by
  cases item with
  | int n =>
    rintro t ⟨⟩
    exact ⟨Token.noConfusion, by simpa [Token.isNull, cmpFirstWithNull, Item.isNull] using hnull⟩
  | string s =>
    rintro t ⟨⟩
    refine ⟨Token.noConfusion, ?_⟩
    have hs : s ∉ qualifierAliases := (hnormal (.string s) (by simp [Item.tokens])).1
    have hne : s ≠ "" := by simpa [Item.isNull] using hnull
    cases hr : qualifierRank s with
    | none => simp [Token.isNull, cmpFirstWithNull, cmpStringWithNull, hr]
    | some r =>
      have hfive : r ≠ 5 := by
        rintro rfl
        exact hne (eq_rankQualifier hs hr)
      simp [Token.isNull, cmpFirstWithNull, cmpStringWithNull, hr, hfive]
  | list inner =>
    have hne : tokens inner ≠ [] := by
      simpa [tokens_eq_nil_iff, Item.isNull] using hnull
    exact tight_append [.sublist] (h inner rfl) hne

theorem tight_trimTrailingNulls {items : List Item} (hnormal : ∀ t ∈ tokens items, t.Normal)
    (h : ∀ inner, Item.list inner ∈ items → Tight (tokens inner)) :
    Tight (tokens (trimTrailingNulls items)) := by
  induction items using List.reverseRecOn with
  | nil => exact fun t ht => (by cases ht)
  | append_singleton items item ih =>
    rw [trimTrailingNulls, List.rdropWhile_concat]
    split
    · apply ih
      · exact fun t ht => hnormal t (by simp [tokens_append, ht])
      · exact fun inner hmem => h inner (List.mem_append_left _ hmem)
    · rename_i hnull
      have htight : Tight item.tokens := by
        apply tight_tokens (by simpa using hnull)
        · exact fun t ht => hnormal t (by simp [tokens_append, tokens, ht])
        · rintro inner rfl
          exact h inner (by simp)
      rw [tokens_append]
      apply tight_append
      · simpa [tokens] using htight
      · simp [tokens_eq_nil_iff]

/-- What the parser makes: normal tokens, the last of which is kept by trimming. -/
structure Parsed (ts : List Token) : Prop where
  normal : ∀ t ∈ ts, t.Normal
  tight : Tight ts

theorem parsed_close {top : List Item} {below : List (List Item)}
    (htop : ∀ t ∈ tokens top, t.Normal) (hbelow : ∀ items ∈ below, ∀ t ∈ tokens items, t.Normal)
    (hlist : ∀ inner, Item.list inner ∈ top → Tight (tokens inner))
    (hflat : ∀ items ∈ below, ∀ item ∈ items, item.isList = false) :
    Parsed (tokens (Scan.close top below)) := by
  induction below generalizing top with
  | nil =>
    refine ⟨fun t ht => ?_, tight_trimTrailingNulls htop hlist⟩
    exact htop t ((tokens_isPrefix (List.rdropWhile_prefix _ _)).subset ht)
  | cons parent below ih =>
    apply ih
    · intro t ht
      simp only [tokens_append, tokens, Item.tokens, List.append_nil, List.mem_append,
        List.mem_cons] at ht
      rcases ht with ht | rfl | ht
      · exact hbelow parent List.mem_cons_self t ht
      · trivial
      · exact htop t ((tokens_isPrefix (List.rdropWhile_prefix _ _)).subset ht)
    · exact fun items hi => hbelow items (List.mem_cons_of_mem parent hi)
    · intro inner hmem
      rcases List.mem_append.mp hmem with hmem | hmem
      · cases hflat parent List.mem_cons_self _ hmem
      · obtain rfl := Item.list.inj (List.mem_singleton.mp hmem)
        exact tight_trimTrailingNulls htop hlist
    · exact fun items hi => hflat items (List.mem_cons_of_mem parent hi)

theorem parsed_parseItems (version : String) : Parsed (tokens (parseItems version)) := by
  have hflat := (Scan.flat_init.foldl version.toList).flush
  have hnormal : (version.toList.foldl Scan.feed {}).flush.Normal := by
    apply Scan.Normal.flush
    apply Scan.Normal.foldl
    exact ⟨by simp [tokens], by simp, by simp⟩
  apply parsed_close hnormal.top hnormal.below
  · intro inner hmem
    cases hflat.1 _ hmem
  · exact hflat.2

end Parsed

section Same

theorem eq_of_cmpString {a b : String} (ha : a ∉ qualifierAliases) (hb : b ∉ qualifierAliases)
    (h : cmpString a b = .eq) : a = b := by
  unfold cmpString at h
  cases hra : qualifierRank a with
  | none =>
    cases hrb : qualifierRank b with
    | none =>
      rw [hra, hrb] at h
      exact LawfulEqOrd.eq_of_compare h
    | some r => simp [hra, hrb] at h
  | some r =>
    cases hrb : qualifierRank b with
    | none => simp [hra, hrb] at h
    | some r' =>
      rw [hra, hrb] at h
      obtain rfl : r = r' := LawfulEqOrd.eq_of_compare h
      rw [eq_rankQualifier ha hra, eq_rankQualifier hb hrb]

theorem cmpToken_eq_iff {x y : Token} (hx : x.Normal) (hy : y.Normal) :
    cmpToken x y = .eq ↔ x = y := by
  constructor
  · intro h
    cases x with
    | sublist => exact (eq_sublist_of_cmpToken h).symm
    | string a =>
      cases y with
      | string b => rw [eq_of_cmpString hx.1 hy.1 h]
      | sublist => cases h
      | int n => cases h
    | int m =>
      cases y with
      | string b => cases h
      | sublist => cases h
      | int n => rw [LawfulEqOrd.eq_of_compare h]
  · rintro rfl
    exact ReflCmp.compare_self

/-- What a parsed version has beyond another counts as missing only where a list hides in it. -/
theorem cmpRest_eq_iff_hidden {ts : List Token} (h : Tight ts) :
    cmpRest ts = .eq ↔ ts = [] ∨ hidden ts = true := by
  induction ts with
  | nil => simp [cmpRest]
  | cons t ts ih =>
    by_cases ht : t = .sublist
    · subst ht
      simp [cmpRest, hidden]
    · rw [cmpRest_cons ht, Ordering.then_eq_eq, ih h.of_cons]
      have hnull := isNull_of_ne_sublist ht
      have hlast : ts = [] → t.isNull = false := by
        rintro rfl
        exact (h t rfl).2
      by_cases hts : ts = []
      · have hne : cmpFirstWithNull [t] ≠ .eq := by simpa [hnull] using hlast hts
        simp [hts, hidden, ht, hne]
      · simp [hidden, ht, hnull, hts]

theorem Parsed.of_cons {t : Token} {ts : List Token} (h : Parsed (t :: ts)) : Parsed ts :=
  ⟨fun u hu => h.normal u (List.mem_cons_of_mem t hu), h.tight.of_cons⟩

theorem order_eq_iff {xs ys : List Token} (hx : Parsed xs) (hy : Parsed ys) :
    order cmpToken cmpRest xs ys = .eq ↔
      xs = ys ∨ (∃ r, ys = xs ++ r ∧ hidden r) ∨ ∃ r, xs = ys ++ r ∧ hidden r := by
  have hnil : ∀ {ts : List Token}, [] = ts ∨ hidden ts = true ↔
      [] = ts ∨ (∃ r, ts = [] ++ r ∧ hidden r) ∨ ∃ r, [] = ts ++ r ∧ hidden r := by
    intro ts
    have hempty : hidden [] = false := rfl
    simp [hempty]
  induction xs generalizing ys with
  | nil =>
    rw [order, Ordering.swap_eq_eq, cmpRest_eq_iff_hidden hy.tight, ← hnil, eq_comm]
  | cons x xs ih =>
    cases ys with
    | nil =>
      rw [order, cmpRest_eq_iff_hidden hx.tight, eq_comm, hnil, eq_comm,
        or_comm (a := ∃ r, x :: xs = [] ++ r ∧ hidden r)]
    | cons y ys =>
      have hhead : cmpToken x y = .eq ↔ x = y :=
        cmpToken_eq_iff (hx.normal x List.mem_cons_self) (hy.normal y List.mem_cons_self)
      rw [order, Ordering.then_eq_eq]
      apply (and_congr hhead (ih hx.of_cons hy.of_cons)).trans
      constructor
      · rintro ⟨rfl, rfl | ⟨r, rfl, hr⟩ | ⟨r, rfl, hr⟩⟩
        · exact .inl rfl
        · exact .inr (.inl ⟨r, rfl, hr⟩)
        · exact .inr (.inr ⟨r, rfl, hr⟩)
      · rintro (h | ⟨r, h, hr⟩ | ⟨r, h, hr⟩)
        · obtain ⟨rfl, rfl⟩ := List.cons.inj h
          exact ⟨rfl, .inl rfl⟩
        · obtain ⟨rfl, rfl⟩ := List.cons.inj h
          exact ⟨rfl, .inr (.inl ⟨r, rfl, hr⟩)⟩
        · obtain ⟨rfl, rfl⟩ := List.cons.inj h
          exact ⟨rfl, .inr (.inr ⟨r, rfl, hr⟩)⟩

end Same

section Canonical

theorem toList_toString_nat (n : ℕ) : (toString n).toList = Nat.toDigits 10 n := by
  rw [Nat.toString_eq_ofList_toDigits, String.toList_ofList]

theorem Token.Normal.dot_notMem {t : Token} (h : t.Normal) : '.' ∉ t.text := by
  cases t with
  | string s => exact h.2
  | sublist => exact List.not_mem_nil
  | int n =>
    intro hmem
    rw [Token.text, toList_toString_nat] at hmem
    cases Nat.isDigit_of_mem_toDigits (by decide) (by decide) hmem

theorem dot_notMem_bracketed {ts : List Token} (h : ∀ t ∈ ts, t.Normal) (opens depth : ℕ) :
    ∀ leaf ∈ bracketed opens depth ts, '.' ∉ leaf := by
  induction ts generalizing opens depth with
  | nil => simp [bracketed]
  | cons t ts ih =>
    have ht := (h t List.mem_cons_self).dot_notMem
    have hrest := ih fun u hu => h u (List.mem_cons_of_mem t hu)
    rw [bracketed]
    split
    · exact hrest _ _
    · split
      · simp [ht]
      · simp only [List.forall_mem_cons, List.mem_append, ht, or_false]
        exact ⟨by simp, hrest 0 depth⟩

theorem Tight.tail_ne_nil {ts : List Token} (h : Tight (.sublist :: ts)) : ts ≠ [] := by
  rintro rfl
  exact (h .sublist rfl).1 rfl

theorem bracketed_ne_nil {ts : List Token} (h : Tight ts) (hne : ts ≠ []) (opens depth : ℕ) :
    bracketed opens depth ts ≠ [] := by
  induction ts generalizing opens depth with
  | nil => exact absurd rfl hne
  | cons t ts ih =>
    rw [bracketed]
    split
    · rename_i ht
      subst ht
      exact ih h.of_cons h.tail_ne_nil _ _
    · split <;> simp

theorem intercalate_bracketed_leaf {t : Token} {ts : List Token} (ht : t ≠ .sublist)
    (hts : Tight ts) (opens depth : ℕ) :
    ['.'].intercalate (bracketed opens depth (t :: ts)) = List.replicate opens '(' ++ t.text ++
      if ts = [] then List.replicate depth ')'
      else '.' :: ['.'].intercalate (bracketed 0 depth ts) := by
  rw [bracketed, if_neg ht]
  split
  · rw [List.intercalate_singleton]
  · rename_i hne
    rw [List.intercalate_cons_of_ne_nil (bracketed_ne_nil hts hne 0 depth)]
    simp

/-- The canonical text is its bracketed leaves with dots between them. -/
theorem intercalate_bracketed {items : List Item} (hn : Nested items) (ht : Tight (tokens items))
    (hne : items ≠ []) (opens depth : ℕ) :
    ['.'].intercalate (bracketed opens depth (tokens items)) =
      List.replicate opens '(' ++ (displayList items).toList ++ List.replicate depth ')' := by
  induction hn generalizing opens depth with
  | nil => exact absurd rfl hne
  | @int n rest hn ih =>
    have hrest : Tight (tokens rest) := Tight.of_cons ht
    rw [tokens, Item.tokens, List.singleton_append,
      intercalate_bracketed_leaf Token.noConfusion hrest]
    cases rest with
    | nil => simp [displayList, Item.display, Token.text, tokens]
    | cons item rest =>
      have hcons : item :: rest ≠ [] := List.cons_ne_nil _ _
      rw [if_neg (mt tokens_eq_nil_iff.mp hcons), ih hrest hcons]
      simp [displayList, Item.display, Token.text]
  | @string s rest hn ih =>
    have hrest : Tight (tokens rest) := Tight.of_cons ht
    rw [tokens, Item.tokens, List.singleton_append,
      intercalate_bracketed_leaf Token.noConfusion hrest]
    cases rest with
    | nil => simp [displayList, Item.display, Token.text, tokens]
    | cons item rest =>
      have hcons : item :: rest ≠ [] := List.cons_ne_nil _ _
      rw [if_neg (mt tokens_eq_nil_iff.mp hcons), ih hrest hcons]
      simp [displayList, Item.display, Token.text]
  | @list inner hn ih =>
    have htokens : tokens [.list inner] = .sublist :: tokens inner := by simp [tokens, Item.tokens]
    rw [htokens] at ht ⊢
    have hinner : inner ≠ [] := by simpa [tokens_eq_nil_iff] using ht.tail_ne_nil
    rw [bracketed, if_pos rfl, ih ht.of_cons hinner]
    rw [List.replicate_succ', List.replicate_succ]
    simp [displayList, Item.display]

/-- The last leaf has a text of its own. -/
theorem getLast?_bracketed_ne_nil {ts : List Token} (h : Tight ts) (opens depth : ℕ) :
    (bracketed opens depth ts).getLast? ≠ some [] := by
  induction ts generalizing opens depth with
  | nil => simp [bracketed]
  | cons t ts ih =>
    rw [bracketed]
    split
    · exact ih h.of_cons _ _
    · split
      · rename_i hts
        subst hts
        have htext : t.text ≠ [] := by
          cases t with
          | string s =>
            rintro hnil
            obtain rfl : s = "" := String.toList_eq_nil_iff.mp hnil
            cases (h _ rfl).2
          | int n =>
            rw [Token.text, toList_toString_nat]
            exact Nat.toDigits_ne_nil
          | sublist => contradiction
        simp [htext]
      · rename_i hts
        rw [List.getLast?_cons_of_ne_nil (bracketed_ne_nil h.of_cons hts 0 depth)]
        exact ih h.of_cons _ _

/-- Parts without the separator are recovered from the joined text. -/
theorem intercalate_inj {c : Char} {ls ms : List (List Char)} (hls : ∀ l ∈ ls, c ∉ l)
    (hms : ∀ m ∈ ms, c ∉ m) (hls' : ls ≠ [[]]) (hms' : ms ≠ [[]])
    (h : [c].intercalate ls = [c].intercalate ms) : ls = ms := by
  have hempty : ∀ {ks : List (List Char)}, (∀ k ∈ ks, c ∉ k) → ks ≠ [[]] →
      [c].intercalate ks = [] → ks = [] := by
    intro ks hks hks' hnil
    by_contra hne
    have hsplit := List.splitOn_intercalate c hks hne
    rw [hnil, List.splitOn_nil] at hsplit
    exact hks' hsplit.symm
  by_cases hl : ls = []
  · subst hl
    exact (hempty hms hms' h.symm).symm
  by_cases hm : ms = []
  · subst hm
    exact hempty hls hls' h
  rw [← List.splitOn_intercalate c hls hl, h, List.splitOn_intercalate c hms hm]

theorem toList_displayList {items : List Item} (hn : Nested items) (ht : Tight (tokens items)) :
    (displayList items).toList = ['.'].intercalate (bracketed 0 0 (tokens items)) := by
  cases items with
  | nil => simp [displayList, tokens, bracketed]
  | cons item rest =>
    rw [intercalate_bracketed hn ht (List.cons_ne_nil _ _)]
    simp

theorem displayList_eq_iff {as bs : List Item} (hna : Nested as) (hnb : Nested bs)
    (ha : Parsed (tokens as)) (hb : Parsed (tokens bs)) :
    displayList as = displayList bs ↔ bracketed 0 0 (tokens as) = bracketed 0 0 (tokens bs) := by
  have hne : ∀ {ts : List Token}, Tight ts → bracketed 0 0 ts ≠ [[]] := by
    intro ts ht h
    exact getLast?_bracketed_ne_nil ht 0 0 (by rw [h]; rfl)
  rw [← String.toList_inj, toList_displayList hna ha.tight, toList_displayList hnb hb.tight]
  constructor
  · exact intercalate_inj (dot_notMem_bracketed ha.normal 0 0) (dot_notMem_bracketed hb.normal 0 0)
      (hne ha.tight) (hne hb.tight)
  · exact congrArg _

theorem length_bracketed (opens depth : ℕ) (ts : List Token) :
    (bracketed opens depth ts).length = ts.countP (· ≠ .sublist) := by
  induction ts generalizing opens depth with
  | nil => rfl
  | cons t ts ih =>
    rw [bracketed]
    split
    · rename_i ht
      rw [ih, List.countP_cons_of_neg (by simp [ht])]
    · rename_i ht
      rw [List.countP_cons_of_pos (by simp [ht])]
      split
      · rename_i hts
        simp [hts]
      · simp [ih]

/-- A version that goes on behind another has more leaves. -/
theorem bracketed_append_ne {ts r : List Token} (h : Tight (ts ++ r)) (hr : r ≠ []) :
    bracketed 0 0 ts ≠ bracketed 0 0 (ts ++ r) := by
  intro heq
  have hlen := congrArg List.length heq
  rw [length_bracketed, length_bracketed, List.countP_append] at hlen
  have hleaf : 0 < r.countP (· ≠ .sublist) := by
    have hlast := h (r.getLast hr)
    rw [List.getLast?_append_of_ne_nil _ hr, List.getLast?_eq_some_getLast hr] at hlast
    rw [List.countP_pos_iff]
    exact ⟨_, List.getLast_mem hr, by simpa using (hlast rfl).1⟩
  omega

end Canonical

section Agreement
variable (toLowercase : String → String)

/-- `b` goes on behind `a` with missing items and a list that hides behind a missing first item. -/
def HiddenIn (a b : String) : Prop :=
  ∃ r, versionTokens toLowercase b = versionTokens toLowercase a ++ r ∧ hidden r

/-- The two differ, but a qualifier of one spells the brackets of a list of the other. -/
def SpellsBrackets (a b : String) : Prop :=
  versionTokens toLowercase a ≠ versionTokens toLowercase b ∧
    bracketed 0 0 (versionTokens toLowercase a) = bracketed 0 0 (versionTokens toLowercase b)

variable {toLowercase}

theorem HiddenIn.bracketed_ne {a b : String} (h : HiddenIn toLowercase a b) :
    bracketed 0 0 (versionTokens toLowercase a) ≠ bracketed 0 0 (versionTokens toLowercase b) := by
  obtain ⟨r, happ, hr⟩ := h
  have htight : Tight (versionTokens toLowercase b) := (parsed_parseItems _).tight
  rw [happ] at htight ⊢
  apply bracketed_append_ne htight
  rintro rfl
  cases hr

theorem eq_parse_iff (a b : String) :
    (MavenVersion.parse toLowercase a).eq (.parse toLowercase b) = true ↔
      bracketed 0 0 (versionTokens toLowercase a) =
        bracketed 0 0 (versionTokens toLowercase b) := by
  rw [MavenVersion.eq, beq_iff_eq]
  exact displayList_eq_iff (nested_parseItems _) (nested_parseItems _) (parsed_parseItems _)
    (parsed_parseItems _)

theorem cmp_parse_eq_iff (a b : String) :
    (MavenVersion.parse toLowercase a).cmp (.parse toLowercase b) = .eq ↔
      versionTokens toLowercase a = versionTokens toLowercase b ∨ HiddenIn toLowercase a b ∨
        HiddenIn toLowercase b a := by
  rw [cmp_parse]
  exact order_eq_iff (parsed_parseItems _) (parsed_parseItems _)

/-- Equality and order agree on two versions exactly when neither hides a list behind the other and
none spells the brackets of a list. -/
theorem eq_agrees_cmp_iff (toLowercase : String → String) (a b : String) :
    ((MavenVersion.parse toLowercase a).eq (.parse toLowercase b) = true ↔
      (MavenVersion.parse toLowercase a).cmp (.parse toLowercase b) = .eq) ↔
    ¬ HiddenIn toLowercase a b ∧ ¬ HiddenIn toLowercase b a ∧ ¬ SpellsBrackets toLowercase a b := by
  rw [eq_parse_iff, cmp_parse_eq_iff, SpellsBrackets]
  have hab : HiddenIn toLowercase a b → _ := HiddenIn.bracketed_ne
  have hba : HiddenIn toLowercase b a → _ := HiddenIn.bracketed_ne
  by_cases hsame : versionTokens toLowercase a = versionTokens toLowercase b
  · rw [hsame] at hab hba
    simp only [hsame, true_or, true_iff, ne_eq, not_true, not_false_iff, and_true]
    exact ⟨fun h => hab h rfl, fun h => hba h rfl⟩
  · simp only [hsame, false_or, ne_eq, not_false_iff, true_and]
    constructor
    · intro h
      exact ⟨fun ha => hab ha (h.mpr (.inl ha)), fun hb => hba hb (h.mpr (.inr hb)).symm,
        fun heq => (h.mp heq).elim (hab · heq) (hba · heq.symm)⟩
    · rintro ⟨ha, hb, heq⟩
      exact ⟨fun h => absurd h heq, fun h => h.elim (absurd · ha) (absurd · hb)⟩

example : SpellsBrackets asciiLowercase "1-a" "1.(alpha)" :=
  ⟨by decide +kernel, by decide +kernel⟩

/-- `1-0.1` compares equal to `1` and is rendered as `1.(0.1)`. -/
theorem one_hidden_list_not_agrees :
    ¬ ∀ a b : String, (MavenVersion.parse asciiLowercase a).eq (.parse asciiLowercase b) = true ↔
      (MavenVersion.parse asciiLowercase a).cmp (.parse asciiLowercase b) = .eq := by
  intro h
  exact absurd ((h "1" "1-0.1").mpr (by decide +kernel)) (by decide +kernel)

end Agreement

end ArtifactKeeper.Maven
