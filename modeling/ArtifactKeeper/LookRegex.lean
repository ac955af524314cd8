import Mathlib.Data.List.Basic
import Mathlib.Tactic.Common

/-! Regular expressions that can look at the text around a match: the ends of the text among them,
and the alternatives that are pinned to both. -/

namespace LookRegex

/-- `start` and `stop` hold at the two ends of the text, `look` wherever what stands before and
behind meets its test. -/
inductive Regex (α : Type*) where
  | empty
  | start
  | stop
  | look (holds : List α → List α → Bool)
  | one (accepts : α → Bool)
  | cat (r s : Regex α)
  | alt (r s : Regex α)
  | star (r : Regex α)

/-- The expression matches `mid` with `pre` before it and `post` behind. -/
inductive Matches {α : Type*} : Regex α → List α → List α → List α → Prop
  | empty {pre post} : Matches .empty pre [] post
  | start {post} : Matches .start [] [] post
  | stop {pre} : Matches .stop pre [] []
  | look {holds pre post} : holds pre post = true → Matches (.look holds) pre [] post
  | one {accepts pre a post} : accepts a = true → Matches (.one accepts) pre [a] post
  | cat {r s pre x y post} : Matches r pre x (y ++ post) → Matches s (pre ++ x) y post →
      Matches (.cat r s) pre (x ++ y) post
  | left {r s pre mid post} : Matches r pre mid post → Matches (.alt r s) pre mid post
  | right {r s pre mid post} : Matches s pre mid post → Matches (.alt r s) pre mid post
  | done {r pre post} : Matches (.star r) pre [] post
  | again {r pre x y post} : Matches r pre x (y ++ post) → Matches (.star r) (pre ++ x) y post →
      Matches (.star r) pre (x ++ y) post

variable {α : Type*} {r : Regex α} {pre mid post : List α}

/-- An alternative is the list of its factors. -/
def seq (factors : List (Regex α)) : Regex α := factors.foldr .cat .empty

theorem matches_seq_nil : Matches (seq ([] : List (Regex α))) pre mid post ↔ mid = [] := by
  constructor
  · intro h
    cases h
    rfl
  · rintro rfl
    exact .empty

theorem matches_seq_cons {factors : List (Regex α)} :
    Matches (seq (r :: factors)) pre mid post ↔ ∃ x y, mid = x ++ y ∧
      Matches r pre x (y ++ post) ∧ Matches (seq factors) (pre ++ x) y post := by
  constructor
  · intro h
    cases h with
    | cat hr hs => exact ⟨_, _, rfl, hr, hs⟩
  · rintro ⟨x, y, rfl, hr, hs⟩
    exact .cat hr hs

/-- The alternative begins with the start of the text, or with as many characters of any kind as
there are. -/
def Opens : List (Regex α) → Prop
  | .start :: _ => True
  | .star (.one accepts) :: _ => ∀ a, accepts a = true
  | _ => False

/-- The alternative ends with the end of the text, or with as many characters of any kind as there
are. -/
def Closes (factors : List (Regex α)) : Prop :=
  match factors.getLast? with
  | some .stop => True
  | some (.star (.one accepts)) => ∀ a, accepts a = true
  | _ => False

theorem matches_everything {accepts : α → Bool} (h : ∀ a, accepts a = true) :
    Matches (.star (.one accepts)) pre mid post := by
  induction mid generalizing pre with
  | nil => exact .done
  | cons a mid ih => exact .again (x := [a]) (.one (h a)) ih

/-- A match of an alternative that opens goes back to the start of the text. -/
theorem Opens.matches_back {factors : List (Regex α)} (h : Opens factors)
    (hmatch : Matches (seq factors) pre mid post) : Matches (seq factors) [] (pre ++ mid) post := by
  unfold Opens at h
  split at h
  · obtain ⟨x, y, rfl, hstart, -⟩ := matches_seq_cons.mp hmatch
    cases hstart
    exact hmatch
  · obtain ⟨x, y, rfl, -, hrest⟩ := matches_seq_cons.mp hmatch
    exact matches_seq_cons.mpr ⟨pre ++ x, y, by simp, matches_everything h, hrest⟩
  · exact h.elim

/-- A match of an alternative that closes goes on to the end of the text. -/
theorem Closes.matches_on {factors : List (Regex α)} (h : Closes factors)
    (hmatch : Matches (seq factors) pre mid post) : Matches (seq factors) pre (mid ++ post) [] := by
  induction factors generalizing pre mid with
  | nil => exact h.elim
  | cons r factors ih =>
    obtain ⟨x, y, rfl, hr, hrest⟩ := matches_seq_cons.mp hmatch
    cases factors with
    | nil =>
      obtain rfl := matches_seq_nil.mp hrest
      unfold Closes at h
      split at h
      · next heq =>
        obtain rfl : r = .stop := by simpa using heq
        generalize hbehind : [] ++ post = behind at hr
        cases hr
        obtain rfl : post = [] := hbehind
        simpa using hmatch
      · next heq =>
        obtain rfl : r = _ := by simpa using heq
        exact matches_seq_cons.mpr ⟨x ++ post, [], by simp, matches_everything h, .empty⟩
      · exact h.elim
    | cons s factors =>
      rw [Closes, List.getLast?_cons_cons] at h
      exact matches_seq_cons.mpr ⟨x, y ++ post, by simp, by simpa using hr, ih h hrest⟩

/-- From the start of the text to its end, wherever it matches. -/
def Spans (factors : List (Regex α)) : Prop := Opens factors ∧ Closes factors

/-- An alternative matches a part of the text. -/
def PartOf (factors : List (Regex α)) (text : List α) : Prop :=
  ∃ pre mid post, text = pre ++ mid ++ post ∧ Matches (seq factors) pre mid post

/-- One of the alternatives matches a part of the text. -/
def Found (alternatives : List (List (Regex α))) (text : List α) : Prop :=
  ∃ factors ∈ alternatives, PartOf factors text

/-- One of the alternatives matches the text from its first character to its last. -/
def Whole (alternatives : List (List (Regex α))) (text : List α) : Prop :=
  ∃ factors ∈ alternatives, Matches (seq factors) [] text []

/-- Where an alternative matches that spans the text, it matches the whole text. -/
theorem PartOf.whole {factors : List (Regex α)} {text : List α} (h : PartOf factors text)
    (hspans : Spans factors) : Matches (seq factors) [] text [] := by
  obtain ⟨pre, mid, post, rfl, hmatch⟩ := h
  exact hspans.2.matches_on (hspans.1.matches_back hmatch)

/-- What is put behind the last alternative. -/
def closeLast (closing : List (Regex α)) : List (List (Regex α)) → List (List (Regex α))
  | [] => []
  | [factors] => [factors ++ closing]
  | factors :: rest => factors :: closeLast closing rest

/-- The start of the text before the first alternative and `closing` behind the last one. -/
def pin (closing : List (Regex α)) (alternatives : List (List (Regex α))) :
    List (List (Regex α)) :=
  closeLast closing (alternatives.modifyHead (.start :: ·))

/-- It takes no characters. -/
def ZeroWidth (r : Regex α) : Prop := ∀ {pre mid post}, Matches r pre mid post → mid = []

theorem matches_of_append {factors closing : List (Regex α)} (hclosing : ∀ r ∈ closing, ZeroWidth r)
    (h : Matches (seq (factors ++ closing)) pre mid post) : Matches (seq factors) pre mid post := by
  induction factors generalizing pre mid with
  | nil =>
    rw [matches_seq_nil]
    rw [List.nil_append] at h
    induction closing generalizing pre mid with
    | nil => exact matches_seq_nil.mp h
    | cons r closing ih =>
      obtain ⟨x, y, rfl, hr, hrest⟩ := matches_seq_cons.mp h
      rw [hclosing r (.head _) hr, List.nil_append]
      exact ih (fun r hr => hclosing r (.tail _ hr)) hrest
  | cons r factors ih =>
    obtain ⟨x, y, rfl, hr, hrest⟩ := matches_seq_cons.mp h
    exact matches_seq_cons.mpr ⟨x, y, rfl, hr, ih hrest⟩

theorem matches_of_start {factors : List (Regex α)}
    (h : Matches (seq (.start :: factors)) pre mid post) : Matches (seq factors) pre mid post := by
  obtain ⟨x, y, rfl, hstart, hrest⟩ := matches_seq_cons.mp h
  generalize hbehind : y ++ post = behind at hstart
  cases hstart
  exact hrest

theorem mem_closeLast {closing other : List (Regex α)} {alternatives : List (List (Regex α))}
    (h : other ∈ closeLast closing alternatives) :
    other ∈ alternatives ∨ ∃ factors ∈ alternatives, other = factors ++ closing := by
  induction alternatives with
  | nil => cases h
  | cons factors rest ih =>
    cases rest with
    | nil =>
      obtain rfl := List.mem_singleton.mp h
      exact .inr ⟨factors, .head _, rfl⟩
    | cons factors' rest =>
      rcases List.mem_cons.mp h with rfl | h
      · exact .inl (.head _)
      · rcases ih h with h | ⟨factors', hmem, rfl⟩
        · exact .inl (.tail _ h)
        · exact .inr ⟨factors', .tail _ hmem, rfl⟩

/-- With what is put around it an alternative matches nothing else. -/
theorem matches_of_mem_pin {closing other : List (Regex α)} {alternatives : List (List (Regex α))}
    (hclosing : ∀ r ∈ closing, ZeroWidth r) (hother : other ∈ pin closing alternatives)
    (h : Matches (seq other) pre mid post) :
    ∃ factors ∈ alternatives, Matches (seq factors) pre mid post := by
  have hopened : ∀ factors ∈ alternatives.modifyHead (.start :: ·),
      Matches (seq factors) pre mid post →
        ∃ factors ∈ alternatives, Matches (seq factors) pre mid post := by
    intro factors hmem hmatch
    cases alternatives with
    | nil => cases hmem
    | cons first rest =>
      rcases List.mem_cons.mp hmem with rfl | hmem
      · exact ⟨first, .head _, matches_of_start hmatch⟩
      · exact ⟨factors, .tail _ hmem, hmatch⟩
  rcases mem_closeLast hother with hmem | ⟨factors, hmem, rfl⟩
  · exact hopened other hmem h
  · exact hopened factors hmem (matches_of_append hclosing h)

theorem zeroWidth_stop : ZeroWidth (.stop : Regex α) := fun h => by
  cases h
  rfl

/-- A single alternative is pinned as it should be. -/
theorem spans_of_mem_pin {factors other : List (Regex α)} (h : other ∈ pin [.stop] [factors]) :
    Spans other := by
  obtain rfl := List.mem_singleton.mp h
  have hlast : (Regex.start :: factors ++ [Regex.stop]).getLast? = some .stop :=
    List.getLast?_concat
  refine ⟨trivial, ?_⟩
  rw [Closes, hlast]
  trivial

section Bare

def starFree : Regex α → Bool
  | .star _ => false
  | .cat r s => starFree r && starFree s
  | .alt r s => starFree r && starFree s
  | _ => true

/-- As many characters as an expression without repetition can match. -/
def width : Regex α → ℕ
  | .one _ => 1
  | .cat r s => width r + width s
  | .alt r s => max (width r) (width s)
  | _ => 0

theorem Matches.length_le_width (h : Matches r pre mid post) (hfree : starFree r = true) :
    mid.length ≤ width r := by
  induction h with
  | empty | start | stop | look _ => exact Nat.zero_le _
  | one _ => exact Nat.le_refl 1
  | cat _ _ ihr ihs =>
    rw [starFree, Bool.and_eq_true] at hfree
    rw [List.length_append]
    exact Nat.add_le_add (ihr hfree.1) (ihs hfree.2)
  | left _ ih =>
    rw [starFree, Bool.and_eq_true] at hfree
    exact Nat.le_trans (ih hfree.1) (Nat.le_max_left _ _)
  | right _ ih =>
    rw [starFree, Bool.and_eq_true] at hfree
    exact Nat.le_trans (ih hfree.2) (Nat.le_max_right _ _)
  | done | again => cases hfree

/-- Characters and alternatives of them: no repetition and no look at the text around. -/
def Plain : Regex α → Prop
  | .empty => True
  | .one accepts => ∃ a, accepts a = true
  | .cat r s => Plain r ∧ Plain s
  | .alt r s => Plain r ∧ Plain s
  | _ => False

theorem Plain.starFree_eq (h : Plain r) : starFree r = true := by
  induction r with
  | empty | one _ => rfl
  | cat r s ihr ihs | alt r s ihr ihs =>
    rw [starFree, ihr h.1, ihs h.2]
    rfl
  | start | stop | look _ | star _ _ => exact h.elim

/-- Some text is matched at any place. -/
theorem Plain.exists_matches (h : Plain r) :
    ∃ mid : List α, ∀ pre post, Matches r pre mid post := by
  induction r with
  | empty => exact ⟨[], fun _ _ => .empty⟩
  | one accepts =>
    obtain ⟨a, ha⟩ := h
    exact ⟨[a], fun _ _ => .one ha⟩
  | cat r s ihr ihs =>
    obtain ⟨x, hx⟩ := ihr h.1
    obtain ⟨y, hy⟩ := ihs h.2
    exact ⟨x ++ y, fun _ _ => .cat (hx _ _) (hy _ _)⟩
  | alt r s ihr _ =>
    obtain ⟨x, hx⟩ := ihr h.1
    exact ⟨x, fun _ _ => .left (hx _ _)⟩
  | start | stop | look _ | star _ _ => exact h.elim

/-- Plain factors between ends of the text. -/
def Bare (factors : List (Regex α)) : Prop :=
  ∃ (m : ℕ) (middle : List (Regex α)) (n : ℕ),
    factors = List.replicate m .start ++ middle ++ List.replicate n .stop ∧ ∀ r ∈ middle, Plain r

theorem Bare.open_start {factors : List (Regex α)} (h : Bare factors) :
    Bare (.start :: factors) := by
  obtain ⟨m, middle, n, rfl, hplain⟩ := h
  exact ⟨m + 1, middle, n, rfl, hplain⟩

theorem Bare.close_stop {factors : List (Regex α)} (h : Bare factors) :
    Bare (factors ++ [.stop]) := by
  obtain ⟨m, middle, n, rfl, hplain⟩ := h
  refine ⟨m, middle, n + 1, ?_, hplain⟩
  rw [List.replicate_succ', ← List.append_assoc]

theorem bare_of_mem_pin {alternatives : List (List (Regex α))} {other : List (Regex α)}
    (h : ∀ factors ∈ alternatives, Bare factors) (hother : other ∈ pin [.stop] alternatives) :
    Bare other := by
  have hopened : ∀ factors ∈ alternatives.modifyHead (.start :: ·), Bare factors := by
    intro factors hmem
    cases alternatives with
    | nil => cases hmem
    | cons first rest =>
      rcases List.mem_cons.mp hmem with rfl | hmem
      · exact (h first (.head _)).open_start
      · exact h factors (.tail _ hmem)
  rcases mem_closeLast hother with hmem | ⟨factors, hmem, rfl⟩
  · exact hopened other hmem
  · exact (hopened factors hmem).close_stop

theorem starFree_seq {factors : List (Regex α)} (h : ∀ r ∈ factors, starFree r = true) :
    starFree (seq factors) = true := by
  induction factors with
  | nil => rfl
  | cons r factors ih =>
    show (starFree r && starFree (seq factors)) = true
    rw [h r (.head _), ih fun s hs => h s (.tail _ hs)]
    rfl

theorem Bare.starFree_eq {factors : List (Regex α)} (h : Bare factors) :
    starFree (seq factors) = true := by
  obtain ⟨m, middle, n, rfl, hplain⟩ := h
  refine starFree_seq fun r hr => ?_
  rcases List.mem_append.mp hr with hr | hr
  · rcases List.mem_append.mp hr with hr | hr
    · rw [List.eq_of_mem_replicate hr]
      rfl
    · exact (hplain r hr).starFree_eq
  · rw [List.eq_of_mem_replicate hr]
    rfl

/-- Bare alternatives match no text that is longer than all of them. -/
theorem exists_length_le {alternatives : List (List (Regex α))}
    (h : ∀ factors ∈ alternatives, Bare factors) :
    ∃ n, ∀ text, Whole alternatives text → text.length ≤ n := by
  induction alternatives with
  | nil =>
    refine ⟨0, ?_⟩
    rintro text ⟨_, hmem, -⟩
    cases hmem
  | cons first rest ih =>
    obtain ⟨n, hn⟩ := ih fun factors hmem => h factors (.tail _ hmem)
    refine ⟨max (width (seq first)) n, ?_⟩
    rintro text ⟨factors, hmem, hmatch⟩
    rcases List.mem_cons.mp hmem with rfl | hmem
    · exact Nat.le_trans (hmatch.length_le_width (h _ (.head _)).starFree_eq) (Nat.le_max_left _ _)
    · exact Nat.le_trans (hn text ⟨factors, hmem, hmatch⟩) (Nat.le_max_right _ _)

theorem exists_matches_middle {middle : List (Regex α)} (h : ∀ r ∈ middle, Plain r) :
    ∃ mid : List α, ∀ pre post, Matches (seq middle) pre mid post := by
  induction middle with
  | nil => exact ⟨[], fun _ _ => .empty⟩
  | cons r middle ih =>
    obtain ⟨x, hx⟩ := (h r (.head _)).exists_matches
    obtain ⟨y, hy⟩ := ih fun s hs => h s (.tail _ hs)
    exact ⟨x ++ y, fun _ _ => matches_seq_cons.mpr ⟨x, y, rfl, hx _ _, hy _ _⟩⟩

theorem matches_starts {factors : List (Regex α)} (m : ℕ)
    (h : Matches (seq factors) [] mid post) :
    Matches (seq (List.replicate m .start ++ factors)) [] mid post := by
  induction m with
  | zero => exact h
  | succ m ih => exact matches_seq_cons.mpr ⟨[], mid, rfl, .start, ih⟩

theorem matches_stops {factors : List (Regex α)} (n : ℕ)
    (h : Matches (seq factors) pre mid []) :
    Matches (seq (factors ++ List.replicate n .stop)) pre mid [] := by
  induction factors generalizing pre mid with
  | nil =>
    obtain rfl := matches_seq_nil.mp h
    induction n with
    | zero => exact h
    | succ n ih => exact matches_seq_cons.mpr ⟨[], [], rfl, .stop, by simpa using ih⟩
  | cons r factors ih =>
    obtain ⟨x, y, rfl, hr, hrest⟩ := matches_seq_cons.mp h
    exact matches_seq_cons.mpr ⟨x, y, rfl, hr, ih hrest⟩

/-- A bare alternative that does not span the text matches a part of texts of any length. -/
theorem Bare.exists_long {factors : List (Regex α)} (h : Bare factors) (hopen : ¬ Spans factors)
    (a : α) (k : ℕ) : ∃ text : List α, k < text.length ∧ PartOf factors text := by
  obtain ⟨m, middle, n, rfl, hplain⟩ := h
  obtain ⟨mid, hmid⟩ := exists_matches_middle hplain
  cases m with
  | zero =>
    refine ⟨List.replicate (k + 1) a ++ mid, by simp; omega, List.replicate (k + 1) a, mid, [],
      by simp, matches_stops n (hmid _ _)⟩
  | succ m =>
    cases n with
    | zero =>
      refine ⟨mid ++ List.replicate (k + 1) a, by simp; omega, [], mid, List.replicate (k + 1) a,
        by simp, ?_⟩
      rw [List.replicate_zero, List.append_nil]
      exact matches_starts (m + 1) (hmid _ _)
    | succ n =>
      refine (hopen ⟨trivial, ?_⟩).elim
      have hlast : (List.replicate (m + 1) Regex.start ++ middle ++
          List.replicate (n + 1) Regex.stop).getLast? = some .stop := by
        simp [List.getLast?_append, List.getLast?_replicate]
      rw [Closes, hlast]
      trivial

end Bare

end LookRegex
