import ArtifactKeeper.Go.ModEntries

/-! When the reader of `go.mod` files attributes every entry to its own directive. -/

namespace ArtifactKeeper.Go

open Text

section Lists
variable {α β : Type} {f g : α → List β} {xs : List α}

/-- Two lists put together from pieces agree just if all pieces do, when a piece of the first with
good elements only is the piece of the second or nothing, and the second has good elements only. -/
theorem flatMap_eq_iff (good : β → Prop) (hg : ∀ a ∈ xs, ∀ b ∈ g a, good b)
    (hf : ∀ a ∈ xs, (∀ b ∈ f a, good b) → f a = [] ∨ f a = g a) :
    xs.flatMap f = xs.flatMap g ↔ ∀ a ∈ xs, f a = g a := by
  refine ⟨fun h => ?_, fun h => List.flatMap_congr h⟩
  have hpiece : ∀ a ∈ xs, f a = [] ∨ f a = g a := by
    refine fun a ha => hf a ha fun b hb => ?_
    have hmem : b ∈ xs.flatMap f := List.mem_flatMap.mpr ⟨a, ha, hb⟩
    rw [h] at hmem
    obtain ⟨a', ha', hb'⟩ := List.mem_flatMap.mp hmem
    exact hg a' ha' b hb'
  clear hg hf
  induction xs with
  | nil => simp
  | cons a xs ih =>
    have hshort : ∀ ys ⊆ a :: xs, (ys.flatMap f).length ≤ (ys.flatMap g).length := by
      intro ys hys
      induction ys with
      | nil => exact Nat.le_refl _
      | cons y ys ihys =>
        have hle : (f y).length ≤ (g y).length := by
          rcases hpiece y (hys List.mem_cons_self) with h | h <;> simp [h]
        have hrest := ihys fun x hx => hys (List.mem_cons_of_mem y hx)
        simp only [List.flatMap_cons, List.length_append]
        omega
    have htail := hshort xs (List.subset_cons_self a xs)
    have hlength := congrArg List.length h
    simp only [List.flatMap_cons, List.length_append] at h hlength
    have hhead : (f a).length = (g a).length := by
      rcases hpiece a List.mem_cons_self with hnil | heq
      · rw [hnil, List.length_nil] at hlength ⊢
        omega
      · rw [heq]
    obtain ⟨ha, hxs⟩ := List.append_inj h hhead
    intro x hx
    rcases List.mem_cons.mp hx with rfl | hx
    · exact ha
    · exact ih hxs (fun y hy => hpiece y (List.mem_cons_of_mem a hy)) x hx

end Lists

section Run

theorem stripCarriage_trim (line : List Char) : trim (stripCarriage line) = trim line := by
  unfold stripCarriage
  split
  · next hlast =>
    obtain ⟨init, rfl⟩ := List.getLast?_eq_some_iff.mp hlast
    rw [List.dropLast_concat, trim, trim, trimStart, trimStart, List.dropWhile_append]
    split
    · next hnil => rw [List.isEmpty_iff.mp hnil]; rfl
    · rw [trimEnd, trimEnd, List.reverse_append, List.reverse_singleton, List.singleton_append,
        List.dropWhile_cons_of_pos (by decide)]
  · rfl

theorem parseLine_congr {m : GoMod} {line line' : List Char} (h : trim line = trim line') :
    parseLine m line = parseLine m line' := by
  unfold parseLine
  rw [h]

/-- The loop over a text is the loop over its lines. -/
theorem foldl_lines {texts : List (List Char)} (h : ∀ t ∈ texts, '\n' ∉ t) (m : GoMod) :
    (lines (['\n'].intercalate texts)).foldl parseLine m = texts.foldl parseLine m := by
  induction texts generalizing m with
  | nil => rfl
  | cons t texts ih =>
    have ht := h t List.mem_cons_self
    cases texts with
    | nil =>
      rw [List.intercalate_singleton]
      by_cases hnil : t = []
      · rw [hnil, List.foldl_cons, parseLine_empty rfl]
        rfl
      · rw [lines_of_not_mem hnil ht]
    | cons t' texts =>
      rw [List.intercalate_cons_cons, List.append_assoc, List.singleton_append, lines_line _ ht,
        List.foldl_cons, List.foldl_cons, parseLine_congr (stripCarriage_trim t)]
      exact ih (fun x hx => h x (List.mem_cons_of_mem t hx)) _

theorem Blank.not_newline (b : Blank) : '\n' ∉ b.chars := fun h => by
  rcases b.blank _ h with h | h | h <;> exact absurd h (by decide)

theorem Word.not_newline (w : Word) : '\n' ∉ w.chars := fun h =>
  absurd (w.visible _ h).1 (by decide)

theorem Tail.not_newline {text : List Char} (t : Tail text) : '\n' ∉ t.chars := by
  have hcomment : '\n' ∉ commentText t.comment := by
    cases h : t.comment with
    | none => exact List.not_mem_nil
    | some c => simpa [commentText] using t.noNewline c h
  simpa [chars, t.blank.not_newline] using hcomment

theorem Keyword.not_newline (k : Keyword) : '\n' ∉ k.text := by
  cases k <;> decide

theorem VersionedPath.not_newline (p : VersionedPath) : '\n' ∉ p.text := by
  unfold text
  cases p.version with
  | none => simpa using p.path.not_newline
  | some v => simp [p.path.not_newline, v.1.not_newline, v.2.not_newline]

theorem Spec.not_newline {k : Keyword} (spec : Spec k) : '\n' ∉ spec.text := by
  have hdependency : ∀ d : DependencySpec, '\n' ∉ d.text := fun d => by
    simp [DependencySpec.text, d.path.not_newline, d.gap.not_newline, d.version.not_newline]
  cases spec with
  | require d => exact hdependency d
  | exclude d => exact hdependency d
  | replace r =>
    simp [text, ReplaceSpec.text, r.old.not_newline, r.before.not_newline, r.after.not_newline,
      r.new.not_newline]
  | retract r =>
    cases r with
    | version v => exact v.not_newline
    | interval b₁ low b₂ b₃ high b₄ =>
      simp [text, RetractSpec.text, Blank.not_newline, Word.not_newline]

theorem ModLine.not_newline (l : ModLine) : '\n' ∉ l.text := by
  have hline : ∀ {body text : List Char} (indent : Blank) (tail : Tail text), '\n' ∉ body →
      '\n' ∉ indent.chars ++ (body ++ tail.chars) := fun indent tail hbody => by
    simp [indent.not_newline, hbody, tail.not_newline]
  cases l with
  | blank tail => exact tail.not_newline
  | module indent gap path tail =>
    have hmodule : '\n' ∉ moduleText := by decide
    exact hline indent tail (by simp [body, hmodule, gap.not_newline, path.not_newline])
  | go indent gap version tail =>
    have hgo : '\n' ∉ goText := by decide
    exact hline indent tail (by simp [body, hgo, gap.not_newline, version.not_newline])
  | @single indent k gap spec tail _ =>
    exact hline indent tail (by simp [body, k.not_newline, gap.not_newline, spec.not_newline])
  | opening indent k gap tail =>
    exact hline indent tail (by simp [body, k.not_newline, gap.not_newline])
  | entry indent spec tail => exact hline indent tail spec.not_newline
  | closing indent tail =>
    have hclose : '\n' ∉ [')'] := by decide
    exact hline indent tail hclose

/-- What the loop makes of the lines of a file. -/
theorem foldl_parseLine_text (m : GoMod) (ls : List ModLine) :
    ((ls.map ModLine.text).foldl parseLine m).entries =
        ⟨m.require ++ ls.flatMap (·.reads.require), m.replace ++ ls.flatMap (·.reads.replace),
          m.exclude ++ ls.flatMap (·.reads.exclude), m.retract ++ ls.flatMap (·.reads.retract)⟩ ∧
      (((ls.map ModLine.text).foldl parseLine m).modulePath = [] ↔
        m.modulePath = [] ∧ ∀ l ∈ ls, l.readsModule = none) := by
  induction ls generalizing m with
  | nil => simp [GoMod.entries]
  | cons l ls ih =>
    obtain ⟨hentries, hmodule⟩ := ih (parseLine m l.text)
    have hset : (parseLine m l.text).modulePath = [] ↔
        m.modulePath = [] ∧ l.readsModule = none := by
      rw [ModLine.parseLine_text]
      cases hread : l.readsModule with
      | none => simp
      | some path =>
        have hne : path ≠ [] := by
          cases l with
          | module indent gap path' tail =>
            rw [ModLine.readsModule] at hread
            split at hread
            · rw [← Option.some.inj hread]
              simp [path'.ne_nil]
            · cases hread
          | _ => cases hread
        simp [hne]
    rw [List.map_cons, List.foldl_cons]
    refine ⟨hentries.trans ?_, hmodule.trans ?_⟩
    · rw [ModLine.parseLine_text]
      simp [GoMod.add, List.append_assoc]
    · rw [hset, List.forall_mem_cons, and_assoc]

end Run

section Kept

/-- A specification behind its keyword is read as it is declared. -/
def Spec.Kept {k : Keyword} : (spec : Spec k) → Tail spec.text → Prop
  | require _, tail => ¬ tail.Glued
  | replace r, tail => r.Kept tail
  | exclude _, tail => ¬ tail.Glued
  | retract _, tail => tail.comment = none

/-- Nothing is read from the line that opens a block, when the keyword is followed by a space. -/
def QuietOpening : Keyword → Tail ['('] → Prop
  | .require, _ => True
  | .replace, tail => ∀ c, tail.comment = some c →
    ∀ before after, splitArrow c = [before, after] → isBlank after = true
  | .exclude, tail => ∀ c, tail.comment = some c →
    tail.blank.chars = [] ∧ (splitWhitespace ('/' :: '/' :: c)).length = 1
  | .retract, _ => False

/-- A line of a block is read as it is declared: only requirements are, and those only whose path
does not begin with the name of a directive. -/
def Spec.KeptInBlock {k : Keyword} : (spec : Spec k) → Tail spec.text → Prop
  | require d, tail => startsDirective d.path.chars = false ∧ ¬ tail.Glued
  | _, _ => False

/-- A line is read as it is declared. -/
def ModLine.Kept : ModLine → Prop
  | blank _ => True
  | module _ gap _ _ => gap.Spaced
  | go _ gap _ _ => gap.Spaced
  | single _ gap spec tail _ => gap.Spaced ∧ spec.Kept tail
  | opening _ k gap tail => gap.Spaced → QuietOpening k tail
  | entry _ spec tail => spec.KeptInBlock tail
  | closing _ _ => True

/-- What is read from a header line that the reader does not know. -/
theorem parseDependencyLine_header {name : List Char} (hname : name ∈ keywords) (gap : Gap)
    {w : Word} (tail : Tail w.chars) :
    ∃ x, parseDependencyLine (name ++ (gap.chars ++ w.chars) ++ tail.trimmed) = some x ∧
      ¬ Plain x.path := by
  have hwords : ∃ v ws, splitWhitespace (w.chars ++ tail.trimmed) = v :: ws := by
    by_cases hglued : tail.Glued
    · obtain ⟨x, ws, h⟩ := Tail.words_glued hglued w
      exact ⟨_, _, h⟩
    · exact ⟨_, _, Tail.words hglued w⟩
  obtain ⟨v, ws, hv⟩ := hwords
  obtain ⟨hne, hletters⟩ := keyword_letters hname
  have hsplit := splitWhitespace_gap hne (fun c hc => (hletters c hc).1) gap
    (w.chars ++ tail.trimmed)
  rw [hv] at hsplit
  rw [parseDependencyLine, List.append_assoc, List.append_assoc, hsplit]
  exact ⟨_, rfl, fun hplain => hplain.not_keyword hname⟩

/-- A requirement or an exclusion that can be declared. -/
def PlainDependency (x : GoDependency) : Prop := Plain x.path ∧ Plain x.version

/-- What is read of one line where the reader goes wrong: one entry that no file declares. -/
inductive Misread : Entries → Prop where
  | require {x : GoDependency} : ¬ PlainDependency x → Misread { require := [x] }
  | replace {x : GoReplace} : ¬ PlainReplace x → Misread { replace := [x] }
  | exclude {x : GoDependency} : ¬ PlainDependency x → Misread { exclude := [x] }
  | retract {x : List Char} : ¬ Plain x → Misread { retract := [x] }

theorem DependencySpec.not_paren (d : DependencySpec) (rest : List Char) :
    ['('].isPrefixOf (d.text ++ rest) = false := by
  rw [text, List.append_assoc, List.append_assoc]
  exact d.path.not_head (by decide) _

theorem branch_require (d : DependencySpec) (tail : Tail d.text) :
    ¬ tail.Glued ∧ branch .require (d.text ++ tail.trimmed) = { require := [d.declared tail] } ∨
      tail.Glued ∧ Misread (branch .require (d.text ++ tail.trimmed)) := by
  rw [branch, d.not_paren, if_neg (by decide)]
  by_cases hglued : tail.Glued
  · obtain ⟨x, hx, hplain⟩ := parseDependencyLine_glued hglued
    rw [hx]
    exact .inr ⟨hglued, .require fun h => hplain h.2⟩
  · rw [parseDependencyLine_declared hglued]
    exact .inl ⟨hglued, rfl⟩

theorem branch_exclude (d : DependencySpec) (tail : Tail d.text) :
    ¬ tail.Glued ∧ branch .exclude (d.text ++ tail.trimmed) = { exclude := [d.declared tail] } ∨
      tail.Glued ∧ Misread (branch .exclude (d.text ++ tail.trimmed)) := by
  rw [branch]
  by_cases hglued : tail.Glued
  · obtain ⟨x, hx, hplain⟩ := parseDependencyLine_glued hglued
    rw [hx]
    exact .inr ⟨hglued, .exclude fun h => hplain h.2⟩
  · rw [parseDependencyLine_declared hglued]
    exact .inl ⟨hglued, rfl⟩

theorem branch_replace (r : ReplaceSpec) (tail : Tail r.text) :
    r.Kept tail ∧ branch .replace (r.text ++ tail.trimmed) = { replace := [r.declared] } ∨
      ¬ r.Kept tail ∧ (branch .replace (r.text ++ tail.trimmed) = {} ∨
        Misread (branch .replace (r.text ++ tail.trimmed))) := by
  rw [branch]
  by_cases hkept : r.Kept tail
  · rw [ReplaceSpec.parse_declared hkept]
    exact .inl ⟨hkept, rfl⟩
  · cases hread : parseReplaceLine (r.text ++ tail.trimmed) with
    | none => exact .inr ⟨hkept, .inl rfl⟩
    | some x => exact .inr ⟨hkept, .inr (.replace (ReplaceSpec.not_plain hkept hread))⟩

theorem branch_retract (r : RetractSpec) (tail : Tail r.text) :
    tail.comment = none ∧ branch .retract (r.text ++ tail.trimmed) = { retract := [r.text] } ∨
      tail.comment ≠ none ∧ Misread (branch .retract (r.text ++ tail.trimmed)) := by
  rw [branch, Tail.trimmed]
  cases tail.comment with
  | none => exact .inl ⟨rfl, by rw [List.append_nil]⟩
  | some c =>
    rw [← List.append_assoc]
    exact .inr ⟨Option.some_ne_none c, .retract (not_plain_comment _ _)⟩

/-- What the branch of a keyword makes of a specification. -/
theorem Spec.branch_cases {k : Keyword} (spec : Spec k) (tail : Tail spec.text) :
    spec.Kept tail ∧ branch k (spec.text ++ tail.trimmed) = spec.declared tail ∨
      ¬ spec.Kept tail ∧ (branch k (spec.text ++ tail.trimmed) = {} ∨
        Misread (branch k (spec.text ++ tail.trimmed))) := by
  cases spec with
  | require d => exact (branch_require d tail).imp_right fun h => ⟨fun hn => hn h.1, .inr h.2⟩
  | replace r => exact branch_replace r tail
  | exclude d => exact (branch_exclude d tail).imp_right fun h => ⟨fun hn => hn h.1, .inr h.2⟩
  | retract r => exact (branch_retract r tail).imp_right fun h => ⟨h.1, .inr h.2⟩

/-- What is read of a line that opens a block. -/
theorem branch_opening (k : Keyword) (tail : Tail ['(']) :
    QuietOpening k tail ∧ branch k ('(' :: tail.trimmed) = {} ∨
      ¬ QuietOpening k tail ∧ Misread (branch k ('(' :: tail.trimmed)) := by
  cases k with
  | require => exact .inl ⟨trivial, rfl⟩
  | replace =>
    rw [branch, QuietOpening, ← parseReplaceLine_opening_iff]
    cases hread : parseReplaceLine ('(' :: tail.trimmed) with
    | none => exact .inl ⟨rfl, rfl⟩
    | some x => exact .inr ⟨Option.some_ne_none x, .replace (parseReplaceLine_opening hread)⟩
  | exclude =>
    rw [branch, QuietOpening, ← parseDependencyLine_opening_iff]
    cases hread : parseDependencyLine ('(' :: tail.trimmed) with
    | none => exact .inl ⟨rfl, rfl⟩
    | some x =>
      exact .inr ⟨Option.some_ne_none x, .exclude fun h => parseDependencyLine_opening hread h.1⟩
  | retract => exact .inr ⟨id, .retract fun h => h.noParen List.mem_cons_self⟩

end Kept

section Lines

/-- An entry of a block that is not one of requirements. -/
def ModLine.Stray : ModLine → Prop
  | @entry _ k _ _ => k ≠ .require
  | _ => False

theorem Spec.declared_ne_empty {k : Keyword} (spec : Spec k) (tail : Tail spec.text) :
    spec.declared tail ≠ {} := by
  cases spec <;> simp [declared]

/-- An entry in a block of requirements. -/
theorem entry_require_cases (indent : Blank) (d : DependencySpec) (tail : Tail d.text) :
    (ModLine.entry indent (.require d) tail).Kept ∧
        (ModLine.entry indent (.require d) tail).reads = { require := [d.declared tail] } ∨
      ¬ (ModLine.entry indent (.require d) tail).Kept ∧
        ((ModLine.entry indent (.require d) tail).reads = {} ∨
          Misread (ModLine.entry indent (.require d) tail).reads) := by
  have hstarts : startsDirective d.text = startsDirective d.path.chars := by
    rw [DependencySpec.text, List.append_assoc]
    exact startsDirective_word (d.gap.follows _ _)
  have hreads : (ModLine.entry indent (.require d) tail).reads =
      if startsDirective d.path.chars then {}
      else branch .require (d.text ++ tail.trimmed) := by
    rw [← hstarts, branch, d.not_paren, if_neg Bool.false_ne_true]
    rfl
  by_cases hpath : startsDirective d.path.chars = true
  · rw [hreads, if_pos hpath]
    exact .inr ⟨fun h => Bool.false_ne_true (h.1.symm.trans hpath), .inl rfl⟩
  · rw [hreads, if_neg hpath]
    rcases branch_require d tail with ⟨hglued, hread⟩ | ⟨hglued, hread⟩
    · exact .inl ⟨⟨Bool.eq_false_iff.mpr hpath, hglued⟩, hread⟩
    · exact .inr ⟨fun h => h.2 hglued, .inr hread⟩

/-- A line is read as it is declared, or something is lost or wrong. -/
theorem ModLine.reads_cases {l : ModLine} (h : ¬ l.Stray) :
    l.Kept ∧ l.reads = l.declared ∨
      ¬ l.Kept ∧ (l.reads = {} ∧ l.declared ≠ {} ∨ Misread l.reads) := by
  have hheader : ∀ {name : List Char} (_ : name ∈ keywords) (gap : Gap) {w : Word}
      (tail : Tail w.chars), Misread { require :=
        (parseDependencyLine (name ++ (gap.chars ++ w.chars) ++ tail.trimmed)).toList } := by
    intro name hname gap w tail
    obtain ⟨x, hx, hplain⟩ := parseDependencyLine_header hname gap tail
    rw [hx]
    exact .require fun hp => hplain hp.1
  cases l with
  | blank tail => exact .inl ⟨trivial, rfl⟩
  | module indent gap path tail =>
    rw [reads, Kept]
    split
    · next hspaced => exact .inl ⟨hspaced, rfl⟩
    · next hspaced => exact .inr ⟨hspaced, .inr (hheader (by decide) gap tail)⟩
  | go indent gap version tail =>
    rw [reads, Kept]
    split
    · next hspaced => exact .inl ⟨hspaced, rfl⟩
    · next hspaced => exact .inr ⟨hspaced, .inr (hheader (by decide) gap tail)⟩
  | @single indent k gap spec tail _ =>
    rw [reads, Kept, declared]
    split
    · next hspaced =>
      rcases spec.branch_cases tail with ⟨hkept, hread⟩ | ⟨hkept, hread⟩
      · exact .inl ⟨⟨hspaced, hkept⟩, hread⟩
      · exact .inr ⟨fun hk => hkept hk.2,
          hread.imp_left fun hnil => ⟨hnil, spec.declared_ne_empty tail⟩⟩
    · next hspaced =>
      exact .inr ⟨fun hk => hspaced hk.1, .inl ⟨rfl, spec.declared_ne_empty tail⟩⟩
  | opening indent k gap tail =>
    rw [reads, Kept]
    split
    · next hspaced =>
      rcases branch_opening k tail with ⟨hquiet, hread⟩ | ⟨hquiet, hread⟩
      · exact .inl ⟨fun _ => hquiet, hread⟩
      · exact .inr ⟨fun hk => hquiet (hk hspaced), .inr hread⟩
    · next hspaced => exact .inl ⟨fun hk => absurd hk hspaced, rfl⟩
  | @entry indent k spec tail =>
    obtain rfl : k = .require := by
      by_contra hne
      exact h hne
    cases spec with
    | require d =>
      exact (entry_require_cases indent d tail).imp_right fun hread =>
        ⟨hread.1, hread.2.imp_left fun hnil => ⟨hnil, Spec.declared_ne_empty (.require d) tail⟩⟩
  | closing indent tail => exact .inl ⟨trivial, rfl⟩

/-- The entries of the other blocks get into no list but the one of requirements. -/
theorem ModLine.stray_reads {l : ModLine} (h : l.Stray) : ¬ l.Kept ∧ l.reads.replace = [] ∧
    l.reads.exclude = [] ∧ l.reads.retract = [] ∧ (l.declared.replace ≠ [] ∨
      l.declared.exclude ≠ [] ∨ l.declared.retract ≠ []) := by
  cases l with
  | @entry indent k spec tail =>
    have hreads : ∀ e : Entries, e.replace = [] ∧ e.exclude = [] ∧ e.retract = [] →
        ∀ c : Bool, (if c then {} else e : Entries).replace = [] ∧
          (if c then {} else e : Entries).exclude = [] ∧
            (if c then {} else e : Entries).retract = [] := by
      intro e he c
      cases c
      · exact he
      · exact ⟨rfl, rfl, rfl⟩
    obtain ⟨hreplace, hexclude, hretract⟩ := hreads
      { require := (parseDependencyLine (spec.text ++ tail.trimmed)).toList } ⟨rfl, rfl, rfl⟩
      (startsDirective spec.text)
    refine ⟨?_, hreplace, hexclude, hretract, ?_⟩
    · cases spec with
      | require d => exact absurd rfl h
      | replace r => exact id
      | exclude d => exact id
      | retract r => exact id
    · cases spec with
      | require d => exact absurd rfl h
      | replace r => exact .inl (List.cons_ne_nil _ _)
      | exclude d => exact .inr (.inl (List.cons_ne_nil _ _))
      | retract r => exact .inr (.inr (List.cons_ne_nil _ _))
  | _ => exact absurd h id

/-- Everything that is declared is plain. -/
structure PlainEntries (e : Entries) : Prop where
  require : ∀ d ∈ e.require, PlainDependency d
  replace : ∀ r ∈ e.replace, PlainReplace r
  exclude : ∀ d ∈ e.exclude, PlainDependency d
  retract : ∀ t ∈ e.retract, Plain t

theorem plainEntries_empty : PlainEntries {} := ⟨by simp, by simp, by simp, by simp⟩

theorem Spec.declared_plain {k : Keyword} (spec : Spec k) (tail : Tail spec.text) :
    PlainEntries (spec.declared tail) := by
  cases spec with
  | require d => exact ⟨by simpa [declared] using ⟨d.path.plain, d.version.plain⟩,
      by simp [declared], by simp [declared], by simp [declared]⟩
  | replace r => exact ⟨by simp [declared], by simpa [declared] using r.plain,
      by simp [declared], by simp [declared]⟩
  | exclude d => exact ⟨by simp [declared], by simp [declared],
      by simpa [declared] using ⟨d.path.plain, d.version.plain⟩, by simp [declared]⟩
  | retract r => exact ⟨by simp [declared], by simp [declared], by simp [declared],
      by simpa [declared] using r.plain⟩

theorem ModLine.declared_plain (l : ModLine) : PlainEntries l.declared := by
  cases l with
  | single indent gap spec tail apart => exact spec.declared_plain tail
  | entry indent spec tail => exact spec.declared_plain tail
  | _ => exact plainEntries_empty

theorem Misread.not_plain {e : Entries} (h : Misread e) : ¬ PlainEntries e := fun hplain => by
  cases h with
  | require hx => exact hx (hplain.require _ List.mem_cons_self)
  | replace hx => exact hx (hplain.replace _ List.mem_cons_self)
  | exclude hx => exact hx (hplain.exclude _ List.mem_cons_self)
  | retract hx => exact hx (hplain.retract _ List.mem_cons_self)

/-- In a list with plain entries only, nothing is misread. -/
theorem Misread.eq_nil {e : Entries} (h : Misread e) :
    ((∀ d ∈ e.require, PlainDependency d) → e.require = []) ∧
      ((∀ r ∈ e.replace, PlainReplace r) → e.replace = []) ∧
        ((∀ d ∈ e.exclude, PlainDependency d) → e.exclude = []) ∧
          ((∀ t ∈ e.retract, Plain t) → e.retract = []) := by
  cases h with
  | require hx => exact ⟨fun hp => absurd (hp _ List.mem_cons_self) hx, by simp, by simp, by simp⟩
  | replace hx => exact ⟨by simp, fun hp => absurd (hp _ List.mem_cons_self) hx, by simp, by simp⟩
  | exclude hx => exact ⟨by simp, by simp, fun hp => absurd (hp _ List.mem_cons_self) hx, by simp⟩
  | retract hx => exact ⟨by simp, by simp, by simp, fun hp => absurd (hp _ List.mem_cons_self) hx⟩

/-- Plain entries of a line are its declared ones or none, in each of the lists. -/
theorem ModLine.plain_reads {l : ModLine} (h : ¬ l.Stray) :
    ((∀ d ∈ l.reads.require, PlainDependency d) →
        l.reads.require = [] ∨ l.reads.require = l.declared.require) ∧
      ((∀ r ∈ l.reads.replace, PlainReplace r) →
        l.reads.replace = [] ∨ l.reads.replace = l.declared.replace) ∧
      ((∀ d ∈ l.reads.exclude, PlainDependency d) →
        l.reads.exclude = [] ∨ l.reads.exclude = l.declared.exclude) ∧
      ((∀ t ∈ l.reads.retract, Plain t) →
        l.reads.retract = [] ∨ l.reads.retract = l.declared.retract) := by
  rcases ModLine.reads_cases h with ⟨-, hread⟩ | ⟨-, ⟨hread, -⟩ | hread⟩
  · rw [hread]
    exact ⟨fun _ => .inr rfl, fun _ => .inr rfl, fun _ => .inr rfl, fun _ => .inr rfl⟩
  · rw [hread]
    exact ⟨fun _ => .inl rfl, fun _ => .inl rfl, fun _ => .inl rfl, fun _ => .inl rfl⟩
  · obtain ⟨hrequire, hreplace, hexclude, hretract⟩ := hread.eq_nil
    exact ⟨fun hp => .inl (hrequire hp), fun hp => .inl (hreplace hp),
      fun hp => .inl (hexclude hp), fun hp => .inl (hretract hp)⟩

/-- The lists of a sequence of lines are the declared ones just if every line is read as it is
declared: nothing that is lost in one place is made up for in another. -/
theorem flatMap_reads_iff (ls : List ModLine) :
    (ls.flatMap (·.reads.require) = ls.flatMap (·.declared.require) ∧
      ls.flatMap (·.reads.replace) = ls.flatMap (·.declared.replace) ∧
      ls.flatMap (·.reads.exclude) = ls.flatMap (·.declared.exclude) ∧
      ls.flatMap (·.reads.retract) = ls.flatMap (·.declared.retract)) ↔ ∀ l ∈ ls, l.Kept := by
  constructor
  · rintro ⟨hrequire, hreplace, hexclude, hretract⟩
    have hreplace' := (flatMap_eq_iff PlainReplace (fun l _ => l.declared_plain.replace)
      fun l _ hp => by
        by_cases hstray : l.Stray
        · exact .inl (ModLine.stray_reads hstray).2.1
        · exact (ModLine.plain_reads hstray).2.1 hp).mp hreplace
    have hexclude' := (flatMap_eq_iff PlainDependency (fun l _ => l.declared_plain.exclude)
      fun l _ hp => by
        by_cases hstray : l.Stray
        · exact .inl (ModLine.stray_reads hstray).2.2.1
        · exact (ModLine.plain_reads hstray).2.2.1 hp).mp hexclude
    have hretract' := (flatMap_eq_iff Plain (fun l _ => l.declared_plain.retract)
      fun l _ hp => by
        by_cases hstray : l.Stray
        · exact .inl (ModLine.stray_reads hstray).2.2.2.1
        · exact (ModLine.plain_reads hstray).2.2.2 hp).mp hretract
    have hnone : ∀ l ∈ ls, ¬ l.Stray := by
      intro l hl hstray
      obtain ⟨-, hr, he, ht, hdeclared⟩ := ModLine.stray_reads hstray
      rcases hdeclared with hd | hd | hd
      · exact hd ((hreplace' l hl).symm.trans hr)
      · exact hd ((hexclude' l hl).symm.trans he)
      · exact hd ((hretract' l hl).symm.trans ht)
    have hrequire' := (flatMap_eq_iff PlainDependency (fun l _ => l.declared_plain.require)
      fun l hl hp => (ModLine.plain_reads (hnone l hl)).1 hp).mp hrequire
    intro l hl
    have hsame : l.reads = l.declared := by
      have hfields : ∀ e e' : Entries, e.require = e'.require → e.replace = e'.replace →
          e.exclude = e'.exclude → e.retract = e'.retract → e = e' := by
        rintro ⟨_, _, _, _⟩ ⟨_, _, _, _⟩ rfl rfl rfl rfl
        rfl
      exact hfields _ _ (hrequire' l hl) (hreplace' l hl) (hexclude' l hl) (hretract' l hl)
    rcases ModLine.reads_cases (hnone l hl) with ⟨hkept, -⟩ | ⟨-, ⟨hread, hne⟩ | hread⟩
    · exact hkept
    · exact absurd (hsame.symm.trans hread) hne
    · exact absurd (hsame ▸ l.declared_plain) hread.not_plain
  · intro h
    have hsame : ∀ l ∈ ls, l.reads = l.declared := by
      intro l hl
      have hstray : ¬ l.Stray := fun hstray => (ModLine.stray_reads hstray).1 (h l hl)
      rcases ModLine.reads_cases hstray with ⟨-, hread⟩ | ⟨hkept, -⟩
      · exact hread
      · exact absurd (h l hl) hkept
    exact ⟨List.flatMap_congr fun l hl => by rw [hsame l hl],
      List.flatMap_congr fun l hl => by rw [hsame l hl],
      List.flatMap_congr fun l hl => by rw [hsame l hl],
      List.flatMap_congr fun l hl => by rw [hsame l hl]⟩

end Lines

/-- A file is read as it is declared, list by list and in order, just if every line of it is one
that the reader understands; no entry in a block of exclusions, replacements or retractions is. -/
theorem parseGoMod_declared_iff (f : ModFile) :
    (∃ m, parseGoMod f.text = .ok m ∧ m.entries = f.declared) ↔ ∀ l ∈ f.lines, l.Kept := by
  have hlines : ∀ t ∈ f.lines.map ModLine.text, '\n' ∉ t := by
    intro t ht
    obtain ⟨l, -, rfl⟩ := List.mem_map.mp ht
    exact l.not_newline
  have hrun := foldl_lines hlines {}
  obtain ⟨hentries, hmodule⟩ := foldl_parseLine_text {} f.lines
  have hiff := flatMap_reads_iff f.lines
  rw [← hrun] at hentries hmodule
  rw [parseGoMod, ModFile.text]
  set m := (lines (['\n'].intercalate (f.lines.map ModLine.text))).foldl parseLine {}
  have hdeclared : m.entries = f.declared ↔ ∀ l ∈ f.lines, l.Kept := by
    rw [← hiff, hentries, ModFile.declared]
    simp
  constructor
  · rintro ⟨m', hm', heq⟩
    split at hm'
    · cases hm'
    · rw [← Except.ok.inj hm'] at heq
      exact hdeclared.mp heq
  · intro h
    refine ⟨m, ?_, hdeclared.mpr h⟩
    have hne : m.modulePath ≠ [] := by
      rw [Ne, hmodule]
      rintro ⟨-, hnone⟩
      have hcount : 0 < f.lines.countP ModLine.isModule := by
        rw [ModFile.lines, f.oneModule]
        decide
      obtain ⟨l, hl, hmod⟩ := List.countP_pos_iff.mp hcount
      have hkept := h l hl
      have hread := hnone l hl
      cases l with
      | module indent gap path tail =>
        have hspaced : gap.Spaced := hkept
        rw [ModLine.readsModule, if_pos hspaced] at hread
        cases hread
      | _ => cases hmod
    rw [if_neg (by simpa using hne)]

/-- A module that excludes one version, in parentheses. -/
def excludeBlock : ModFile where
  items :=
    [.module ⟨[], by simp⟩ ⟨⟨[' '], by simp⟩, by simp⟩
      ⟨"example.com/m".toList, by decide, List.all_iff_forall_prop.mp rfl, by decide, by decide,
        by decide⟩
      ⟨⟨[], by simp⟩, none, by simp, by simp⟩,
     .block ⟨[], by simp⟩ .exclude ⟨[' '], by simp⟩ ⟨⟨[], by simp⟩, none, by simp, by simp⟩
      [.entry ⟨['\t'], by simp⟩
        (.exclude ⟨⟨"example.com/bad".toList, by decide, List.all_iff_forall_prop.mp rfl,
            by decide, by decide, by decide⟩,
          ⟨⟨[' '], by simp⟩, by simp⟩,
          ⟨"v1.0.0".toList, by decide, List.all_iff_forall_prop.mp rfl, by decide, by decide,
            by decide⟩⟩)
        ⟨⟨[], by simp⟩, none, by simp, by simp⟩]
      ⟨[], by simp⟩ ⟨⟨[], by simp⟩, none, by simp, by simp⟩]
  oneModule := by decide
  oneGo := by decide

/-- The excluded version is reported as a requirement. -/
theorem parseGoMod_excludeBlock :
    excludeBlock.text =
        "module example.com/m\nexclude (\n\texample.com/bad v1.0.0\n)".toList ∧
      excludeBlock.declared.exclude = [⟨"example.com/bad".toList, "v1.0.0".toList, false⟩] ∧
      parseGoMod excludeBlock.text = .ok
        { modulePath := "example.com/m".toList
          require := [⟨"example.com/bad".toList, "v1.0.0".toList, false⟩] } ∧
      ¬ ∃ m, parseGoMod excludeBlock.text = .ok m ∧ m.entries = excludeBlock.declared := by
  have hrun : parseGoMod excludeBlock.text = .ok
      { modulePath := "example.com/m".toList
        require := [⟨"example.com/bad".toList, "v1.0.0".toList, false⟩] } := by
    rfl
  refine ⟨by decide, by decide, hrun, ?_⟩
  rintro ⟨m, hm, hentries⟩
  rw [hrun] at hm
  cases hm
  exact absurd (congrArg Entries.require hentries) (by decide)

end ArtifactKeeper.Go
