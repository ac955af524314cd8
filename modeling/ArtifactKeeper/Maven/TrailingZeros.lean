import ArtifactKeeper.Maven.VersionEquality

/-! Zeros at the end of the numeric part of a Maven version. They are trimmed where the list ends
with them; a qualifier opens a list behind them, and then they stay. -/

namespace ArtifactKeeper.Maven

/-- Runs of digits with dots between them. -/
def DottedNumeric (p : String) : Prop :=
  ∃ runs : List (List Char), runs ≠ [] ∧ (∀ run ∈ runs, run ≠ [] ∧ ∀ c ∈ run, c.isDigit) ∧
    p.toList = ['.'].intercalate runs

/-- `".0"`, `k` times. -/
def zeros (k : ℕ) : String := String.ofList (List.replicate k ['.', '0']).flatten

def flushWord (isDigit : Bool) (current : List Char) : List (Bool × List Char) :=
  if current.isEmpty then [] else [(isDigit, current)]

/-- The words of a text that is read with `current` at hand: its longest runs of digits, and of
other characters than dots and hyphens. -/
def words (isDigit : Bool) (current : List Char) : List Char → List (Bool × List Char)
  | [] => flushWord isDigit current
  | ch :: chars =>
    if ch = '.' ∨ ch = '-' then flushWord isDigit current ++ words isDigit [] chars
    else if ch.isDigit = isDigit then words isDigit (current ++ [ch]) chars
    else flushWord isDigit current ++ words ch.isDigit [ch] chars

/-- A zero, which a number beyond `u64` also counts as, or a name of the release. -/
def NullWord (word : Bool × List Char) : Prop :=
  if word.1 then parseU64 word.2 = 0 else String.ofList word.2 ∈ ["", "ga", "final", "release"]

instance (word : Bool × List Char) : Decidable (NullWord word) := by
  unfold NullWord
  infer_instance

/-- Every word of the text is null. -/
def NullText (text : String) : Prop := ∀ word ∈ words false [] text.toList, NullWord word

instance (text : String) : Decidable (NullText text) :=
  inferInstanceAs (Decidable (∀ _ ∈ _, _))

section Numeric

theorem feed_digit {s : Scan} {c : Char} (hc : c.isDigit) (hs : s.current ≠ [] → s.isDigit = true) :
    s.feed c = { s with isDigit := true, current := s.current ++ [c] } := by
  have hdot : c ≠ '.' := by
    rintro rfl
    cases hc
  have hhyphen : c ≠ '-' := by
    rintro rfl
    cases hc
  rw [Scan.feed, if_neg hdot, if_neg hhyphen]
  by_cases hcur : s.current = []
  · simp [hcur, hc]
  · simp [hs hcur, hc]

theorem foldl_digits {run : List Char} (hrun : ∀ c ∈ run, c.isDigit) (hne : run ≠ []) {s : Scan}
    (hs : s.current ≠ [] → s.isDigit = true) :
    run.foldl Scan.feed s = { s with isDigit := true, current := s.current ++ run } := by
  induction run generalizing s with
  | nil => exact absurd rfl hne
  | cons c run ih =>
    obtain ⟨hc, hrun⟩ := List.forall_mem_cons.mp hrun
    rw [List.foldl_cons, feed_digit hc hs]
    by_cases hnil : run = []
    · simp [hnil]
    · rw [ih hrun hnil fun _ => rfl]
      simp

/-- Reading a dotted number pushes its runs. -/
theorem foldl_dotted {runs : List (List Char)} (hne : runs ≠ [])
    (hruns : ∀ run ∈ runs, run ≠ [] ∧ ∀ c ∈ run, c.isDigit) {s : Scan} (hs : s.current = []) :
    ((['.'].intercalate runs).foldl Scan.feed s).current ≠ [] ∧
    ((['.'].intercalate runs).foldl Scan.feed s).flush =
      { s with top := s.top ++ runs.map (.int ∘ parseU64), isDigit := true } := by
  induction runs generalizing s with
  | nil => exact absurd rfl hne
  | cons run runs ih =>
    obtain ⟨⟨hrun, hdigits⟩, hruns⟩ := List.forall_mem_cons.mp hruns
    have hread := foldl_digits hdigits hrun (s := s) (fun h => absurd hs h)
    rw [hs, List.nil_append] at hread
    have hflush : ({ s with isDigit := true, current := run } : Scan).flush =
        { s with top := s.top ++ [.int (parseU64 run)], isDigit := true } := by
      rw [Scan.flush, if_neg (by simpa using hrun)]
      simp [Scan.push, makeItem, hs]
    by_cases hnil : runs = []
    · subst hnil
      rw [List.intercalate_singleton, hread]
      exact ⟨hrun, by simpa using hflush⟩
    · rw [List.intercalate_cons_of_ne_nil hnil, List.foldl_append, List.foldl_append, hread]
      have hdot : ['.'].foldl Scan.feed { s with isDigit := true, current := run } =
          { s with top := s.top ++ [.int (parseU64 run)], isDigit := true } := by
        rw [List.foldl_cons, List.foldl_nil, Scan.feed, if_pos rfl, if_neg (by simpa using hrun),
          hflush]
      rw [hdot]
      have h := ih hnil hruns
        (s := { s with top := s.top ++ [.int (parseU64 run)], isDigit := true }) hs
      simpa using h

end Numeric

section Suffix

/-- `s` is `s'` read above the list `base`; the kind of the current token counts only if there is
one. -/
structure Above (base : List Item) (s s' : Scan) : Prop where
  top : s.top = s'.top
  below : s.below = s'.below ++ [base]
  current : s.current = s'.current
  isDigit : s.current ≠ [] → s.isDigit = s'.isDigit

theorem Above.flush {base : List Item} {s s' : Scan} (h : Above base s s') :
    Above base s.flush s'.flush := by
  rw [Scan.flush, Scan.flush, ← h.current]
  split
  · exact h
  · rename_i hne
    have hdigit := h.isDigit (by simpa using hne)
    exact ⟨by simp [Scan.push, h.top, hdigit], h.below, rfl, fun hnil => absurd rfl hnil⟩

theorem Above.openList {base : List Item} {s s' : Scan} (h : Above base s s') :
    Above base s.openList s'.openList :=
  ⟨rfl, by simp [Scan.openList, h.top, h.below], h.current, h.isDigit⟩

theorem Above.feed {base : List Item} {s s' : Scan} (h : Above base s s') (ch : Char) :
    Above base (s.feed ch) (s'.feed ch) := by
  have hread : ∀ {t t' : Scan}, Above base t t' →
      Above base { t with isDigit := ch.isDigit, current := t.current ++ [ch] }
        { t' with isDigit := ch.isDigit, current := t'.current ++ [ch] } :=
    fun ht => ⟨ht.top, ht.below, by simp [ht.current], fun _ => rfl⟩
  rw [Scan.feed, Scan.feed, ← h.current]
  split
  · split
    · exact ⟨by simp [Scan.push, h.top], h.below, h.current, h.isDigit⟩
    · exact h.flush
  · split
    · exact h.flush.openList
    · have hkind : (!s.current.isEmpty && ch.isDigit != s.isDigit) =
          (!s.current.isEmpty && ch.isDigit != s'.isDigit) := by
        by_cases hnil : s.current = []
        · simp [hnil]
        · rw [h.isDigit hnil]
      dsimp only
      rw [hkind]
      split
      · split
        · exact hread h.flush
        · exact hread h.flush.openList
      · exact hread h

theorem Above.foldl {base : List Item} {s s' : Scan} (h : Above base s s') (chars : List Char) :
    Above base (chars.foldl Scan.feed s) (chars.foldl Scan.feed s') := by
  induction chars generalizing s s' with
  | nil => exact h
  | cons ch chars ih => exact ih (h.feed ch)

theorem close_append (top base : List Item) (below : List (List Item)) :
    Scan.close top (below ++ [base]) =
      trimTrailingNulls (base ++ [.list (Scan.close top below)]) := by
  induction below generalizing top with
  | nil => rfl
  | cons parent below ih => exact ih _

theorem parseItems_dotted {p : String} {runs : List (List Char)} (hne : runs ≠ [])
    (hruns : ∀ run ∈ runs, run ≠ [] ∧ ∀ c ∈ run, c.isDigit)
    (hp : p.toList = ['.'].intercalate runs) :
    parseItems p = trimTrailingNulls (runs.map (.int ∘ parseU64)) := by
  have h := (foldl_dotted hne hruns (s := {}) rfl).2
  rw [parseItems, hp, h]
  simp [Scan.close]

/-- A suffix behind a hyphen is the list that its own text makes. -/
theorem parseItems_dotted_hyphen {p : String} {runs : List (List Char)} (hne : runs ≠ [])
    (hruns : ∀ run ∈ runs, run ≠ [] ∧ ∀ c ∈ run, c.isDigit)
    (hp : p.toList = ['.'].intercalate runs) (text : String) :
    parseItems (p ++ ("-" ++ text)) =
      trimTrailingNulls (runs.map (.int ∘ parseU64) ++ [.list (parseItems text)]) := by
  have h := (foldl_dotted hne hruns (s := {}) rfl).2
  have hhyphen : (p.toList ++ ['-']).foldl Scan.feed {} =
      { top := [], below := [runs.map (.int ∘ parseU64)], current := [], isDigit := true } := by
    rw [List.foldl_append, hp, List.foldl_cons, List.foldl_nil, Scan.feed, if_neg (by decide),
      if_pos rfl, h]
    simp [Scan.openList]
  have habove : Above (runs.map (.int ∘ parseU64))
      ((p.toList ++ ['-']).foldl Scan.feed {}) {} := by
    rw [hhyphen]
    exact ⟨rfl, rfl, rfl, fun hnil => absurd rfl hnil⟩
  have hall := (habove.foldl text.toList).flush
  have htext : (p ++ ("-" ++ text)).toList = (p.toList ++ ['-']) ++ text.toList := by simp
  rw [parseItems, htext, List.foldl_append, hall.top, hall.below, close_append]
  rfl

end Suffix

section Words

/-- Every item that was pushed is null. -/
def Scan.AllNull (s : Scan) : Prop :=
  (∀ item ∈ s.top, item.isNull) ∧ ∀ items ∈ s.below, ∀ item ∈ items, item.isNull

theorem isNull_makeItem_iff (isDigit : Bool) (token : List Char) :
    (makeItem isDigit token).isNull ↔ NullWord (isDigit, token) := by
  unfold makeItem NullWord
  cases isDigit with
  | true => simp [Item.isNull]
  | false =>
    simp only [Bool.false_eq_true, if_false, Item.isNull, beq_iff_eq]
    generalize String.ofList token = q
    split <;> simp_all

theorem allNull_push_iff (s : Scan) (item : Item) :
    (s.push item).AllNull ↔ s.AllNull ∧ item.isNull := by
  simp only [Scan.AllNull, Scan.push, List.forall_mem_append, List.forall_mem_singleton]
  tauto

theorem allNull_flush_iff (s : Scan) :
    s.flush.AllNull ↔ s.AllNull ∧ ∀ word ∈ flushWord s.isDigit s.current, NullWord word := by
  unfold Scan.flush flushWord
  split
  · simp
  · rw [List.forall_mem_singleton, ← isNull_makeItem_iff]
    exact allNull_push_iff s _

theorem allNull_openList_iff (s : Scan) : s.openList.AllNull ↔ s.AllNull := by
  simp [Scan.AllNull, Scan.openList]

theorem flush_current (s : Scan) : s.flush.current = [] := by
  unfold Scan.flush
  split
  · rename_i hnil
    simpa using hnil
  · rfl

theorem flush_isDigit (s : Scan) : s.flush.isDigit = s.isDigit := by
  unfold Scan.flush
  split <;> rfl

theorem allNull_feed_iff (s : Scan) (ch : Char) (chars : List Char) :
    ((s.feed ch).AllNull ∧
      ∀ word ∈ words (s.feed ch).isDigit (s.feed ch).current chars, NullWord word) ↔
    s.AllNull ∧ ∀ word ∈ words s.isDigit s.current (ch :: chars), NullWord word := by
  rw [Scan.feed]
  by_cases hdot : ch = '.'
  · have hwords : words s.isDigit s.current (ch :: chars) =
        flushWord s.isDigit s.current ++ words s.isDigit [] chars := if_pos (.inl hdot)
    rw [if_pos hdot, hwords, List.forall_mem_append, ← and_assoc]
    split
    · rename_i hnil
      obtain hnil : s.current = [] := by simpa using hnil
      have hpush : (s.push (.int 0)).AllNull ↔ s.AllNull := by
        simp [allNull_push_iff, Item.isNull]
      rw [hpush]
      simp [Scan.push, hnil, flushWord]
    · rw [allNull_flush_iff, flush_current, flush_isDigit]
  rw [if_neg hdot]
  by_cases hhyphen : ch = '-'
  · have hwords : words s.isDigit s.current (ch :: chars) =
        flushWord s.isDigit s.current ++ words s.isDigit [] chars := if_pos (.inr hhyphen)
    rw [if_pos hhyphen, hwords, List.forall_mem_append, ← and_assoc, allNull_openList_iff,
      allNull_flush_iff]
    simp only [Scan.openList, flush_current, flush_isDigit]
  rw [if_neg hhyphen, words, if_neg (not_or.mpr ⟨hdot, hhyphen⟩)]
  dsimp only
  by_cases hkind : ch.isDigit = s.isDigit
  · rw [if_pos hkind, if_neg (by simp [hkind]), hkind]
    rfl
  rw [if_neg hkind, List.forall_mem_append, ← and_assoc, ← allNull_flush_iff]
  by_cases hnil : s.current = []
  · rw [if_neg (by simp [hnil]), Scan.flush, if_pos (by simp [hnil]), hnil]
    rfl
  · rw [if_pos (by simp [hnil, hkind])]
    split
    · rw [flush_current]
      rfl
    · show s.flush.openList.AllNull ∧
        (∀ word ∈ words ch.isDigit (s.flush.current ++ [ch]) chars, _) ↔ _
      rw [flush_current, allNull_openList_iff]
      rfl

theorem allNull_foldl_iff (chars : List Char) (s : Scan) :
    (chars.foldl Scan.feed s).flush.AllNull ↔
      s.AllNull ∧ ∀ word ∈ words s.isDigit s.current chars, NullWord word := by
  induction chars generalizing s with
  | nil => exact allNull_flush_iff s
  | cons ch chars ih => rw [List.foldl_cons, ih, allNull_feed_iff]

theorem close_eq_nil_iff {top : List Item} {below : List (List Item)} :
    Scan.close top below = [] ↔
      (∀ item ∈ top, item.isNull) ∧ ∀ items ∈ below, ∀ item ∈ items, item.isNull := by
  induction below generalizing top with
  | nil => simp [Scan.close, trimTrailingNulls]
  | cons parent below ih =>
    rw [Scan.close, ih]
    simp only [List.forall_mem_append, List.forall_mem_singleton, Item.isNull, List.isEmpty_iff,
      trimTrailingNulls, List.rdropWhile_eq_nil_iff, List.forall_mem_cons]
    tauto

theorem parseItems_eq_nil_iff (text : String) : parseItems text = [] ↔ NullText text := by
  have h := allNull_foldl_iff text.toList {}
  rw [parseItems, NullText, close_eq_nil_iff]
  refine h.trans ?_
  simp [Scan.AllNull]

end Words

section Neutral

/-- Equal in the order, and in every comparison with a third version. -/
def Interchangeable (toLowercase : String → String) (a b : String) : Prop :=
  (MavenVersion.parse toLowercase a).cmp (.parse toLowercase b) = .eq ∧
    ∀ c, (MavenVersion.parse toLowercase a).cmp (.parse toLowercase c) =
        (MavenVersion.parse toLowercase b).cmp (.parse toLowercase c) ∧
      (MavenVersion.parse toLowercase c).cmp (.parse toLowercase a) =
        (MavenVersion.parse toLowercase c).cmp (.parse toLowercase b)

theorem cmpList_self_append (ns : List ℕ) (as bs : List Item) :
    cmpList (ns.map .int ++ as) (ns.map .int ++ bs) = cmpList as bs := by
  induction ns with
  | nil => rfl
  | cons n ns ih => simp [cmpList, cmpItem, ih]

theorem trimTrailingNulls_append_nulls {items nulls : List Item} (h : ∀ i ∈ nulls, i.isNull) :
    trimTrailingNulls (items ++ nulls) = trimTrailingNulls items := by
  induction nulls using List.reverseRecOn with
  | nil => simp
  | append_singleton nulls item ih =>
    rw [← List.append_assoc, trimTrailingNulls, List.rdropWhile_concat_pos _ _ _ (h item (by simp))]
    exact ih fun i hi => h i (List.mem_append_left _ hi)

theorem intercalate_cons_eq (run : List Char) (runs : List (List Char)) :
    ['.'].intercalate (run :: runs) = run ++ (runs.map ('.' :: ·)).flatten := by
  induction runs generalizing run with
  | nil => simp
  | cons next runs ih => simp [ih next]

theorem intercalate_zeros {runs : List (List Char)} (hne : runs ≠ []) (k : ℕ) :
    ['.'].intercalate (runs ++ List.replicate k ['0']) =
      ['.'].intercalate runs ++ (zeros k).toList := by
  cases runs with
  | nil => exact absurd rfl hne
  | cons run runs =>
    rw [List.cons_append, intercalate_cons_eq, intercalate_cons_eq, zeros]
    simp

/-- What `str::to_lowercase` does to the characters of the numeric part. -/
structure KeepsNumeric (toLowercase : String → String) : Prop where
  empty : toLowercase "" = ""
  append : ∀ t s : String, (∀ c ∈ t.toList, c.isDigit ∨ c = '.' ∨ c = '-') →
    toLowercase (t ++ s) = t ++ toLowercase s

theorem dotted_numeric_chars {p : String} {runs : List (List Char)}
    (hruns : ∀ run ∈ runs, run ≠ [] ∧ ∀ c ∈ run, c.isDigit)
    (hp : p.toList = ['.'].intercalate runs) :
    ∀ c ∈ p.toList, c.isDigit ∨ c = '.' ∨ c = '-' := by
  intro c hc
  rw [hp] at hc
  cases runs with
  | nil => simp at hc
  | cons run runs =>
    rw [intercalate_cons_eq] at hc
    simp only [List.mem_append, List.mem_flatten, List.mem_map] at hc
    rcases hc with hc | ⟨_, ⟨next, hnext, rfl⟩, hc⟩
    · exact .inl ((hruns run List.mem_cons_self).2 c hc)
    · rcases List.mem_cons.mp hc with rfl | hc
      · exact .inr (.inl rfl)
      · exact .inl ((hruns next (List.mem_cons_of_mem _ hnext)).2 c hc)

/-- The suffix adds at most one list to the numbers, and one that is null exactly when its text
is. -/
theorem exists_suffix_items {toLowercase : String → String} (hlower : KeepsNumeric toLowercase)
    {s : String} (hs : s = "" ∨ ∃ t, s = "-" ++ t) :
    ∃ tail : List Item, (NullText (toLowercase s) ↔ ∀ item ∈ tail, item.isNull) ∧
      (tail = [] ∨ ∃ items, tail = [.list items]) ∧
      ∀ (p : String) (runs : List (List Char)), runs ≠ [] →
        (∀ run ∈ runs, run ≠ [] ∧ ∀ c ∈ run, c.isDigit) → p.toList = ['.'].intercalate runs →
        parseItems (toLowercase (p ++ s)) =
          trimTrailingNulls (runs.map (.int ∘ parseU64) ++ tail) := by
  rcases hs with rfl | ⟨t, rfl⟩
  · refine ⟨[], ?_, .inl rfl, fun p runs hne hruns hp => ?_⟩
    · rw [hlower.empty]
      decide
    · rw [hlower.append p "" (dotted_numeric_chars hruns hp), hlower.empty, String.append_empty,
        List.append_nil]
      exact parseItems_dotted hne hruns hp
  · have hhyphen : toLowercase ("-" ++ t) = "-" ++ toLowercase t :=
      hlower.append "-" t (by simp)
    refine ⟨[.list (parseItems (toLowercase t))], ?_, .inr ⟨_, rfl⟩, fun p runs hne hruns hp => ?_⟩
    · have hwords : NullText ("-" ++ toLowercase t) ↔ NullText (toLowercase t) := by
        simp [NullText, words, flushWord]
      rw [hhyphen, hwords, ← parseItems_eq_nil_iff]
      simp [Item.isNull]
    · rw [hlower.append p _ (dotted_numeric_chars hruns hp), hhyphen]
      exact parseItems_dotted_hyphen hne hruns hp _

theorem parse_eq_of_parseItems {toLowercase : String → String} {a b : String}
    (h : parseItems (toLowercase a) = parseItems (toLowercase b)) :
    MavenVersion.parse toLowercase a = MavenVersion.parse toLowercase b := by
  rw [MavenVersion.parse, MavenVersion.parse, h]

/-- Zeros at the end of the numeric part make no difference exactly when the suffix is null. -/
theorem trailingZeros_interchangeable_iff {toLowercase : String → String}
    (hlower : KeepsNumeric toLowercase) {p : String} (hp : DottedNumeric p) {k : ℕ} (hk : 1 ≤ k)
    {s : String} (hs : s = "" ∨ ∃ t, s = "-" ++ t) :
    Interchangeable toLowercase (p ++ zeros k ++ s) (p ++ s) ↔ NullText (toLowercase s) := by
  obtain ⟨runs, hne, hruns, hp⟩ := hp
  have hpadded : (p ++ zeros k).toList = ['.'].intercalate (runs ++ List.replicate k ['0']) := by
    rw [intercalate_zeros hne, String.toList_append, hp]
  have hruns' : ∀ run ∈ runs ++ List.replicate k ['0'], run ≠ [] ∧ ∀ c ∈ run, c.isDigit := by
    intro run hrun
    rcases List.mem_append.mp hrun with hrun | hrun
    · exact hruns run hrun
    · rw [(List.mem_replicate.mp hrun).2]
      exact ⟨List.cons_ne_nil _ _, List.forall_mem_singleton.mpr rfl⟩
  have hints : (runs ++ List.replicate k ['0']).map (Item.int ∘ parseU64) =
      runs.map (.int ∘ parseU64) ++ List.replicate k (.int 0) := by
    rw [List.map_append, List.map_replicate]
    rfl
  obtain ⟨tail, hnull, htail, hitems⟩ := exists_suffix_items hlower hs
  have hlong := hitems _ _ (by simp [hne]) hruns' hpadded
  have hshort := hitems _ _ hne hruns hp
  rw [hints] at hlong
  constructor
  · intro h
    by_contra hnot
    rw [hnull] at hnot
    obtain ⟨items, rfl⟩ := htail.resolve_left (by rintro rfl; exact hnot (by simp))
    -- a list that stays keeps the zeros in front of it
    have hkeep : ∀ ns : List Item,
        trimTrailingNulls (ns ++ [.list items]) = ns ++ [.list items] := by
      intro ns
      exact List.rdropWhile_concat_neg _ _ _ (by simpa using hnot)
    rw [hkeep] at hlong hshort
    have heq := h.1
    rw [MavenVersion.cmp, MavenVersion.parse, MavenVersion.parse, hlong, hshort, List.append_assoc,
      ← List.map_map, cmpList_self_append] at heq
    obtain ⟨k, rfl⟩ := Nat.exists_eq_add_of_le' hk
    rw [List.replicate_succ] at heq
    simp [cmpList, cmpItem] at heq
  · intro h
    have hsame : MavenVersion.parse toLowercase (p ++ zeros k ++ s) =
        .parse toLowercase (p ++ s) := by
      apply parse_eq_of_parseItems
      rw [hlong, hshort, trimTrailingNulls_append_nulls (hnull.mp h),
        trimTrailingNulls_append_nulls (hnull.mp h), trimTrailingNulls_append_nulls]
      intro item hitem
      rw [(List.mem_replicate.mp hitem).2]
      rfl
    refine ⟨?_, fun c => ⟨by rw [hsame], by rw [hsame]⟩⟩
    rw [hsame, cmp_parse]
    exact (order_eq_iff (parsed_parseItems _) (parsed_parseItems _)).mpr (.inl rfl)

theorem keepsNumeric_asciiLowercase : KeepsNumeric asciiLowercase := by
  refine ⟨by decide, fun t s ht => ?_⟩
  have hlower : ∀ c : Char, c.isDigit ∨ c = '.' ∨ c = '-' → c.toLower = c := by
    rintro c (hc | rfl | rfl)
    · obtain ⟨-, hle⟩ : '0'.val ≤ c.val ∧ c.val ≤ '9'.val := by simpa [Char.isDigit] using hc
      refine dif_neg fun hupper => ?_
      exact absurd (UInt32.le_trans hupper.1 hle) (by decide)
    · rfl
    · rfl
  rw [← String.toList_inj]
  simp only [asciiLowercase, String.toList_append, String.toList_ofList, List.map_append]
  rw [List.map_congr_left fun c hc => hlower c (ht c hc)]
  simp

theorem dottedNumeric_one : DottedNumeric "1" :=
  ⟨[['1']], List.cons_ne_nil _ _, List.forall_mem_singleton.mpr
    ⟨List.cons_ne_nil _ _, List.forall_mem_singleton.mpr rfl⟩, rfl⟩

theorem trailingZeros_interchangeable_ga :
    Interchangeable asciiLowercase ("1" ++ zeros 2 ++ "-ga") ("1" ++ "-ga") :=
  (trailingZeros_interchangeable_iff keepsNumeric_asciiLowercase dottedNumeric_one (by decide)
    (.inr ⟨"ga", rfl⟩)).mpr (by decide +kernel)

/-- `1.0-alpha` is above `1-alpha`. -/
theorem trailingZeros_alpha_not_interchangeable :
    ¬ ∀ (p : String) (k : ℕ) (s : String), DottedNumeric p → 1 ≤ k →
      (s = "" ∨ ∃ t, s = "-" ++ t) →
      Interchangeable asciiLowercase (p ++ zeros k ++ s) (p ++ s) := by
  intro h
  have hone := h "1" 1 "-alpha" dottedNumeric_one (by decide) (.inr ⟨"alpha", rfl⟩)
  exact absurd hone.1 (by decide +kernel)

end Neutral

end ArtifactKeeper.Maven
