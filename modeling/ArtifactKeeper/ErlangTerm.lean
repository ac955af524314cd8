import ArtifactKeeper.ReplaceAll

/-! Erlang terms as `io_lib` writes them, one after the other as `file:consult` reads them, and
where the text of a tuple with a given first element can stand among them. -/

namespace ErlangTerm
open ReplaceAll (startsIn startsIn_append_eq_zero startsIn_cons_eq_zero startsIn_of_not_mem)

/-- The characters of an atom without quotes, or of a number. -/
def isWordChar (c : Char) : Bool := c.isAlphanum || c == '_' || c == '@' || c == '.' || c == '-'

abbrev Word : Type := { cs : List Char // cs.all isWordChar = true }

inductive Term
  | binary (s : List Char)
  | charlist (s : List Char)
  | word (w : Word)
  | list (ts : List Term)
  | tuple (ts : List Term)

/-- The blanks that a writer puts behind its commas: `gap path` behind the element at the path. -/
structure Layout where
  gap : List ℕ → List Char
  blank : ∀ path, ∀ c ∈ gap path, c = ' ' ∨ c = '\n'

def escape (s : List Char) : List Char :=
  s.flatMap fun c => if c = '"' ∨ c = '\\' then ['\\', c] else [c]

def quoted (s : List Char) : List Char := '"' :: (escape s ++ ['"'])

mutual

/-- The text of the term at a path. -/
def Term.print (L : Layout) (path : List ℕ) : Term → List Char
  | .binary s => '<' :: '<' :: (quoted s ++ ['>', '>'])
  | .charlist s => quoted s
  | .word w => w.val
  | .list ts => '[' :: (printItems L path 0 ts ++ [']'])
  | .tuple ts => '{' :: (printItems L path 0 ts ++ ['}'])

/-- The elements from number `n` on, with a comma behind each that is not the last. -/
def printItems (L : Layout) (path : List ℕ) (n : ℕ) : List Term → List Char
  | [] => []
  | t :: ts => t.print L (n :: path) ++ printRest L path n ts

/-- What follows element number `n`. -/
def printRest (L : Layout) (path : List ℕ) (n : ℕ) : List Term → List Char
  | [] => []
  | t :: ts =>
    ',' :: (L.gap (n :: path) ++ (t.print L ((n + 1) :: path) ++ printRest L path (n + 1) ts))

end

mutual

def Term.subterms : Term → List Term
  | .binary s => [.binary s]
  | .charlist s => [.charlist s]
  | .word w => [.word w]
  | .list ts => .list ts :: allSubterms ts
  | .tuple ts => .tuple ts :: allSubterms ts

def allSubterms : List Term → List Term
  | [] => []
  | t :: ts => t.subterms ++ allSubterms ts

end

/-- A file of terms, from number `n` on. -/
def consultText (L : Layout) (n : ℕ) : List Term → List Char
  | [] => []
  | t :: ts => t.print L [n] ++ '.' :: (L.gap [n] ++ consultText L (n + 1) ts)

/-- The tuple starts with the binary of the key. -/
def HeadedBy (key : List Char) (t : Term) : Prop := ∃ ts, t = .tuple (.binary key :: ts)

/-- The text up to the end of the key. -/
def keyOpening (key : List Char) : List Char :=
  '{' :: '<' :: '<' :: '"' :: (key ++ ['"', '>', '>'])

section Escape

@[simp] theorem escape_nil : escape [] = [] := rfl

theorem escape_cons_special {c : Char} (hc : c = '"' ∨ c = '\\') (s : List Char) :
    escape (c :: s) = '\\' :: c :: escape s := by
  simp [escape, hc]

theorem escape_cons_plain {c : Char} (hc : ¬ (c = '"' ∨ c = '\\')) (s : List Char) :
    escape (c :: s) = c :: escape s := by
  simp [escape, hc]

theorem escape_of_plain {s : List Char} (hquote : '"' ∉ s) (hslash : '\\' ∉ s) :
    escape s = s := by
  induction s with
  | nil => rfl
  | cons c s ih =>
    rw [List.mem_cons, not_or] at hquote hslash
    rw [escape_cons_plain (not_or.mpr ⟨Ne.symm hquote.1, Ne.symm hslash.1⟩), ih hquote.2 hslash.2]

/-- A quote of the text is the end of the string or stands behind a backslash. -/
theorem eq_of_prefix_escape {p q s tail : List Char} (hquote : '"' ∉ p) (hslash : '\\' ∉ p)
    (h : p ++ '"' :: q <+: escape s ++ '"' :: tail) : s = p ∧ q <+: tail := by
  induction p generalizing s with
  | nil =>
    cases s with
    | nil => exact ⟨rfl, (List.cons_prefix_cons.mp h).2⟩
    | cons c s =>
      by_cases hc : c = '"' ∨ c = '\\'
      · rw [escape_cons_special hc] at h
        exact absurd (List.cons_prefix_cons.mp h).1 (by decide)
      · rw [escape_cons_plain hc] at h
        exact absurd (.inl (List.cons_prefix_cons.mp h).1.symm) hc
  | cons a p ih =>
    rw [List.mem_cons, not_or] at hquote hslash
    cases s with
    | nil => exact absurd (List.cons_prefix_cons.mp h).1.symm hquote.1
    | cons c s =>
      by_cases hc : c = '"' ∨ c = '\\'
      · rw [escape_cons_special hc] at h
        exact absurd (List.cons_prefix_cons.mp h).1.symm hslash.1
      · rw [escape_cons_plain hc] at h
        obtain ⟨rfl, hrest⟩ := List.cons_prefix_cons.mp h
        obtain ⟨rfl, htail⟩ := ih hquote.2 hslash.2 hrest
        exact ⟨rfl, htail⟩

end Escape

section Keys
variable {key : List Char}

/-- What a term is followed by. -/
def Follows (tail : List Char) : Prop :=
  ∃ c rest, tail = c :: rest ∧ (c = ',' ∨ c = ']' ∨ c = '}' ∨ c = '.')

/-- The key of a tuple does not start in a string. -/
theorem startsIn_escape {s tail : List Char} (h : ¬ key ++ ['"', '>', '>'] <+: tail) :
    startsIn (keyOpening key) (escape s) ('"' :: tail) = 0 := by
  induction s with
  | nil => rfl
  | cons c s ih =>
    by_cases hc : c = '"' ∨ c = '\\'
    · rw [escape_cons_special hc, startsIn_cons_eq_zero, startsIn_cons_eq_zero]
      refine ⟨fun hpre => ?_, fun hpre => ?_, ih⟩
      · exact absurd (List.cons_prefix_cons.mp hpre).1 (by decide)
      · have hbrace := (List.cons_prefix_cons.mp hpre).1
        rw [← hbrace] at hc
        exact absurd hc (by decide)
    · rw [escape_cons_plain hc, startsIn_cons_eq_zero]
      refine ⟨fun hpre => h ?_, ih⟩
      have hrest := (List.cons_prefix_cons.mp hpre).2
      exact (eq_of_prefix_escape (p := ['<', '<']) (by decide) (by decide) hrest).2

theorem startsIn_quoted {s tail : List Char} (h : ¬ key ++ ['"', '>', '>'] <+: tail) :
    startsIn (keyOpening key) (quoted s) tail = 0 := by
  rw [quoted, startsIn_cons_eq_zero, startsIn_append_eq_zero]
  refine ⟨fun hpre => ?_, startsIn_escape h, startsIn_of_not_mem rfl (by decide) _⟩
  exact absurd (List.cons_prefix_cons.mp hpre).1 (by decide)

theorem not_opening_printItems {L : Layout} {path : List ℕ} {n : ℕ} {ts : List Term}
    {tail : List Char} (hquote : '"' ∉ key) (hslash : '\\' ∉ key)
    (hhead : ¬ HeadedBy key (.tuple ts)) (htail : Follows tail) :
    ¬ keyOpening key <+: '{' :: (printItems L path n ts ++ tail) := by
  intro hpre
  have hrest := (List.cons_prefix_cons.mp hpre).2
  obtain ⟨c, rest, rfl, hc⟩ := htail
  cases ts with
  | nil =>
    obtain rfl := (List.cons_prefix_cons.mp hrest).1
    exact absurd hc (by decide)
  | cons t ts =>
    rw [printItems, List.append_assoc] at hrest
    cases t with
    | binary s =>
      rw [Term.print, quoted] at hrest
      simp only [List.cons_append, List.append_assoc, List.nil_append] at hrest
      have hquoted := (List.cons_prefix_cons.mp (List.cons_prefix_cons.mp hrest).2).2
      obtain ⟨rfl, -⟩ :=
        eq_of_prefix_escape hquote hslash (List.cons_prefix_cons.mp hquoted).2
      exact hhead ⟨ts, rfl⟩
    | charlist s => exact absurd (List.cons_prefix_cons.mp hrest).1 (by decide)
    | word w =>
      rw [Term.print] at hrest
      obtain ⟨w, hw⟩ := w
      cases w with
      | nil =>
        cases ts with
        | nil =>
          obtain rfl := (List.cons_prefix_cons.mp hrest).1
          exact absurd hc (by decide)
        | cons u ts =>
          rw [printRest] at hrest
          exact absurd (List.cons_prefix_cons.mp hrest).1 (by decide)
      | cons d w =>
        have hd := List.all_eq_true.mp hw d List.mem_cons_self
        obtain rfl := (List.cons_prefix_cons.mp hrest).1
        exact absurd hd (by decide)
    | list us =>
      rw [Term.print] at hrest
      exact absurd (List.cons_prefix_cons.mp hrest).1 (by decide)
    | tuple us =>
      rw [Term.print] at hrest
      exact absurd (List.cons_prefix_cons.mp hrest).1 (by decide)

theorem follows_printRest {L : Layout} {path : List ℕ} {n : ℕ} {ts : List Term} {tail : List Char}
    (h : Follows tail) : Follows (printRest L path n ts ++ tail) := by
  cases ts with
  | nil => exact h
  | cons t ts => exact ⟨',', _, rfl, .inl rfl⟩

/-- A name, as the keys of the terms are. -/
def IsName (key : List Char) : Prop := ∀ c ∈ key, c.isAlphanum = true ∨ c = '_'

theorem IsName.not_mem {d : Char} (h : IsName key) (hd : ¬ (d.isAlphanum = true ∨ d = '_')) :
    d ∉ key :=
  fun hmem => hd (h d hmem)

theorem IsName.not_prefix {c : Char} {rest : List Char} (h : IsName key)
    (hc : ¬ (c.isAlphanum = true ∨ c = '_')) (hquote : c ≠ '"') :
    ¬ key ++ ['"', '>', '>'] <+: c :: rest := by
  intro hpre
  cases key with
  | nil => exact hquote (List.cons_prefix_cons.mp hpre).1.symm
  | cons d key =>
    obtain ⟨rfl, -⟩ := List.cons_prefix_cons.mp hpre
    exact hc (h d List.mem_cons_self)

theorem Follows.not_prefix {tail : List Char} (htail : Follows tail) (h : IsName key) :
    ¬ key ++ ['"', '>', '>'] <+: tail := by
  obtain ⟨c, rest, rfl, rfl | rfl | rfl | rfl⟩ := htail <;>
    exact h.not_prefix (by decide) (by decide)

theorem startsIn_gap {L : Layout} {path : List ℕ} {tail : List Char} :
    startsIn (keyOpening key) (L.gap path) tail = 0 := by
  apply startsIn_of_not_mem rfl
  intro hmem
  exact absurd (L.blank path _ hmem) (by decide)

theorem startsIn_cons_of_ne {c : Char} {text tail : List Char} (hc : c ≠ '{') :
    startsIn (keyOpening key) (c :: text) tail = startsIn (keyOpening key) text tail := by
  rw [startsIn, if_neg, Nat.zero_add]
  rw [List.isPrefixOf_iff_prefix]
  exact fun hpre => hc (List.cons_prefix_cons.mp hpre).1.symm

variable {L : Layout}

mutual

/-- The text up to a key stands in the text of a term only where a tuple starts with the key. -/
theorem startsIn_print (hkey : IsName key) (t : Term) (path : List ℕ) (tail : List Char)
    (hsub : ∀ u ∈ t.subterms, ¬ HeadedBy key u) (htail : Follows tail) :
    startsIn (keyOpening key) (t.print L path) tail = 0 := by
  cases t with
  | binary s =>
    rw [Term.print, startsIn_cons_of_ne (by decide), startsIn_cons_of_ne (by decide),
      startsIn_append_eq_zero]
    refine ⟨startsIn_quoted ?_, startsIn_of_not_mem rfl (by decide) _⟩
    exact hkey.not_prefix (by decide) (by decide)
  | charlist s =>
    rw [Term.print]
    exact startsIn_quoted (htail.not_prefix hkey)
  | word w =>
    apply startsIn_of_not_mem rfl
    intro hmem
    exact absurd (List.all_eq_true.mp w.property _ hmem) (by decide)
  | list ts =>
    rw [Term.print, startsIn_cons_of_ne (by decide), startsIn_append_eq_zero]
    refine ⟨startsIn_printItems hkey ts path 0 _ (fun u hu => ?_) ⟨']', _, rfl, by simp⟩,
      startsIn_of_not_mem rfl (by decide) _⟩
    exact hsub u (List.mem_cons_of_mem _ hu)
  | tuple ts =>
    rw [Term.print, startsIn_cons_eq_zero, startsIn_append_eq_zero]
    refine ⟨?_, startsIn_printItems hkey ts path 0 _ (fun u hu => ?_) ⟨'}', _, rfl, by simp⟩,
      startsIn_of_not_mem rfl (by decide) _⟩
    · rw [List.append_assoc]
      exact not_opening_printItems (hkey.not_mem (by decide)) (hkey.not_mem (by decide))
        (hsub _ List.mem_cons_self) ⟨'}', _, rfl, by simp⟩
    · exact hsub u (List.mem_cons_of_mem _ hu)

theorem startsIn_printItems (hkey : IsName key) (ts : List Term) (path : List ℕ) (n : ℕ)
    (tail : List Char) (hsub : ∀ u ∈ allSubterms ts, ¬ HeadedBy key u) (htail : Follows tail) :
    startsIn (keyOpening key) (printItems L path n ts) tail = 0 := by
  cases ts with
  | nil => rfl
  | cons t ts =>
    rw [printItems, startsIn_append_eq_zero]
    constructor
    · exact startsIn_print hkey t _ _ (fun u hu => hsub u (List.mem_append_left _ hu))
        (follows_printRest htail)
    · exact startsIn_printRest hkey ts path n _ (fun u hu => hsub u (List.mem_append_right _ hu))
        htail

theorem startsIn_printRest (hkey : IsName key) (ts : List Term) (path : List ℕ) (n : ℕ)
    (tail : List Char) (hsub : ∀ u ∈ allSubterms ts, ¬ HeadedBy key u) (htail : Follows tail) :
    startsIn (keyOpening key) (printRest L path n ts) tail = 0 := by
  cases ts with
  | nil => rfl
  | cons t ts =>
    rw [printRest, startsIn_cons_of_ne (by decide), startsIn_append_eq_zero,
      startsIn_append_eq_zero]
    refine ⟨startsIn_gap, ?_, ?_⟩
    · exact startsIn_print hkey t _ _ (fun u hu => hsub u (List.mem_append_left _ hu))
        (follows_printRest htail)
    · exact startsIn_printRest hkey ts path (n + 1) _
        (fun u hu => hsub u (List.mem_append_right _ hu)) htail

end

theorem startsIn_consultText (hkey : IsName key) {ts : List Term}
    (hsub : ∀ t ∈ ts, ∀ u ∈ t.subterms, ¬ HeadedBy key u) (n : ℕ) (tail : List Char) :
    startsIn (keyOpening key) (consultText L n ts) tail = 0 := by
  induction ts generalizing n with
  | nil => rfl
  | cons t ts ih =>
    rw [consultText, startsIn_append_eq_zero, startsIn_cons_of_ne (by decide),
      startsIn_append_eq_zero]
    refine ⟨?_, startsIn_gap, ih (fun u hu => hsub u (List.mem_cons_of_mem _ hu)) _⟩
    exact startsIn_print hkey t _ _ (hsub t List.mem_cons_self) ⟨'.', _, rfl, by simp⟩

end Keys

end ErlangTerm
