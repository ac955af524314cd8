import ArtifactKeeper.Bytes
import ArtifactKeeper.CursorPages
import ArtifactKeeper.PercentEncoding
import ArtifactKeeper.Text

/-! Pages of the tags of an image, in the order of the distribution specification. -/

namespace ArtifactKeeper.Oci
open Bytes CursorPages PercentEncoding Text

/-- Strings in the order of their code points, which is the one of their UTF-8 bytes. -/
def ociLexicalCmp (lhs rhs : String) : Ordering :=
  (compare (toAsciiLowercase lhs) (toAsciiLowercase rhs)).then (compare lhs rhs)

def applyCursorPagination (tags : List String) (last : Option String) (n : ℕ) :
    List String × Bool :=
  if n = 0 then ([], false)
  else
    let start := match last with
      | some cursor => partitionPoint (fun t => (ociLexicalCmp t cursor).isLE) tags
      | none => 0
    let stop := min (start + n) tags.length
    let hasMore := decide (stop < tags.length)
    ((tags.drop start).take (stop - start), hasMore)

def mergeAndDedupTags (tagSets : List (List String)) : List String :=
  mergeDedup ociLexicalCmp tagSets

/-- The status, the code and the message of an `oci_error`. -/
structure OciError where
  status : ℕ
  code : String
  message : String
  deriving DecidableEq, Repr

def parsePaginationParams (params : String → Option String) :
    Except OciError (ℕ × Option String) := do
  let n ← match params "n" with
    | some v =>
      match Text.parseUnsigned (2 ^ 64) v.toList with
      | some n => .ok n
      | none => .error ⟨400, "PAGINATION_NUMBER_INVALID", "invalid pagination parameter n"⟩
    | none => .ok 100
  return (min n 10000, params "last")

/-- The bytes of the `Link` header. -/
def buildPaginationLinkHeader (path lastItem : String) (n : ℕ) : List UInt8 :=
  utf8 ("<" ++ path ++ "?n=" ++ String.ofList (Text.decimal n) ++ "&last=") ++
    percentEncode (utf8 lastItem) ++ utf8 ">; rel=\"next\""

instance : Std.TransCmp ociLexicalCmp :=
  inferInstanceAs (Std.TransCmp (compareLex (compareOn toAsciiLowercase) compare))

instance : Std.LawfulEqCmp ociLexicalCmp where
  eq_of_compare {a b} h := by
    rw [ociLexicalCmp, Ordering.then_eq_eq] at h
    exact Std.LawfulEqCmp.eq_of_compare h.2

variable {tags : List String} {n : ℕ}

/-- What the `Link` header carries comes back as the parameters of the next request. -/
theorem link_carries_cursor (path last : String) (hn : n ≤ 10000) :
    ∃ before encoded, buildPaginationLinkHeader path last n =
        before ++ encoded ++ utf8 ">; rel=\"next\"" ∧
      ofUtf8 (percentDecode encoded) = some last ∧
      ∀ params : String → Option String, params "n" = some (String.ofList (Text.decimal n)) →
        params "last" = some last → parsePaginationParams params = .ok (n, some last) := by
  refine ⟨_, percentEncode (utf8 last), rfl, ?_, fun params h₁ h₂ => ?_⟩
  · rw [percentDecode_percentEncode, ofUtf8_utf8]
  · have hparse : Text.parseUnsigned (2 ^ 64) (Text.decimal n) = some n :=
      Text.parseUnsigned_decimal (by omega)
    rw [parsePaginationParams, h₁, h₂]
    simp only [String.toList_ofList, hparse, bind, Except.bind, pure, Except.pure,
      Nat.min_eq_left hn]

theorem applyCursorPagination_none (hn : 0 < n) :
    applyCursorPagination tags none n = (tags.take n, decide (n < tags.length)) := by
  rw [applyCursorPagination, if_neg hn.ne']
  simp

/-- The window that starts at `start`, cut at the end of the list. -/
theorem window_eq (tags : List String) (start n : ℕ) :
    (tags.drop start).take (min (start + n) tags.length - start) = (tags.drop start).take n := by
  rcases Nat.le_total (start + n) tags.length with h | h
  · rw [Nat.min_eq_left h, Nat.add_sub_cancel_left]
  · have hall : (tags.drop start).length ≤ n := by
      rw [List.length_drop]
      omega
    rw [Nat.min_eq_right h, ← List.length_drop, List.take_length, List.take_of_length_le hall]

/-- Any cursor, a tag or not, is followed by the tags that are greater. -/
theorem applyCursorPagination_some (h : Increasing ociLexicalCmp tags) (hn : 0 < n)
    (cursor : String) : applyCursorPagination tags (some cursor) n =
      ((tags.filter fun t => ociLexicalCmp cursor t == .lt).take n,
        decide (n < (tags.filter fun t => ociLexicalCmp cursor t == .lt).length)) := by
  rw [← drop_partitionPoint h cursor, applyCursorPagination, if_neg hn.ne', List.length_drop]
  refine Prod.ext (window_eq _ _ _) (decide_eq_decide.mpr ?_)
  unfold upTo
  omega

theorem paged_tags (h : Increasing ociLexicalCmp tags) (hn : 0 < n) :
    Paged tags n fun last => applyCursorPagination tags last n where
  first := applyCursorPagination_none hn
  next := by
    rintro pre x post rfl
    rw [applyCursorPagination_some h hn, h.filter_of_mem]

/-- Following the cursors shows every tag once, in order. -/
theorem tag_pages_lossless (tagSets : List (List String)) (hn : 0 < n) :
    Increasing ociLexicalCmp (mergeAndDedupTags tagSets) ∧
    (∀ t, t ∈ mergeAndDedupTags tagSets ↔ ∃ l ∈ tagSets, t ∈ l) ∧
    (mergeAndDedupTags tagSets).Nodup ∧
    (∀ requests, max 1 (((mergeAndDedupTags tagSets).length + n - 1) / n) ≤ requests →
      ∃ pages, follow (fun last => applyCursorPagination (mergeAndDedupTags tagSets) last n)
          requests none = some pages ∧
        pages.flatten = mergeAndDedupTags tagSets ∧
        pages.length = max 1 (((mergeAndDedupTags tagSets).length + n - 1) / n)) ∧
    ∀ cursor, applyCursorPagination (mergeAndDedupTags tagSets) (some cursor) n =
      (((mergeAndDedupTags tagSets).filter fun t => ociLexicalCmp cursor t == .lt).take n,
        decide (n <
          ((mergeAndDedupTags tagSets).filter fun t => ociLexicalCmp cursor t == .lt).length)) := by
  have hinc : Increasing ociLexicalCmp (mergeAndDedupTags tagSets) := increasing_mergeDedup tagSets
  refine ⟨hinc, fun t => mem_mergeDedup, ?_, fun requests hreq => (paged_tags hinc hn).follow_all hn
    hreq, applyCursorPagination_some hinc hn⟩
  refine hinc.imp fun {a b} hlt heq => ?_
  subst heq
  simp [Std.ReflCmp.compare_self] at hlt

/-- No tag at all still takes one request. -/
theorem no_tags_one_page :
    follow (fun last => applyCursorPagination (mergeAndDedupTags []) last 1) 1 none = some [[]] ∧
      [([] : List String)].length ≠ ((mergeAndDedupTags []).length + 1 - 1) / 1 := by
  simp [follow, applyCursorPagination, mergeAndDedupTags, mergeDedup]

theorem two_tag_pages_lossless :
    0 < 1 ∧ ∃ pages, follow (fun last => applyCursorPagination
        (mergeAndDedupTags [["a"], ["B", "B"]]) last 1) 2 none = some pages ∧
      pages.flatten = ["a", "B"] ∧ pages.length = 2 := by
  have hlt : (ociLexicalCmp "a" "B").isLE = true := by decide +kernel
  have hsorted : [["a"], ["B", "B"]].flatten.Pairwise fun a b =>
      (ociLexicalCmp a b).isLE = true := by
    simp [hlt, Std.ReflCmp.compare_self]
  have htags : mergeAndDedupTags [["a"], ["B", "B"]] = ["a", "B"] := by
    rw [mergeAndDedupTags, mergeDedup, List.mergeSort_of_pairwise hsorted]
    decide
  obtain ⟨-, -, -, hrun, -⟩ := @tag_pages_lossless 1 [["a"], ["B", "B"]] (by decide)
  rw [htags] at hrun ⊢
  exact ⟨by decide, hrun 2 (by decide)⟩

end ArtifactKeeper.Oci
