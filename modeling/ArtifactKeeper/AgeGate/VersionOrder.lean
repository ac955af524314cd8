import ArtifactKeeper.AgeGate.PackumentFrame
import ArtifactKeeper.PlaceOrder

/-! When the version comparison of the age gate is an order: its segments, and the texts that stand
between two numbers. -/

namespace ArtifactKeeper.AgeGate
open PlaceOrder

structure LastKnownGood where
  version : String
  artifactPath : String
  deriving DecidableEq, Repr

/-- `Iterator::max_by` takes the last of several greatest. -/
def selectNewestApprovedArtifact (candidates : List (String × String)) : Option LastKnownGood :=
  match candidates with
  | [] => none
  | first :: rest =>
    let newest := rest.foldl
      (fun best c => if versionCompare best.1 c.1 = .gt then best else c) first
    some ⟨newest.1, newest.2⟩

section Places

/-- The segments behind the first `-`, with one in front that puts a release above them. -/
def prereleaseSegments : Option (List Char) → List (List Char)
  | none => [['1']]
  | some pre => ['0'] :: pre.splitOn '.'

/-- The segments of a version, place by place: its main part and then its prerelease. -/
def segmentAt (version : String) (i : ℕ ⊕ₗ ℕ) : List Char :=
  let parts := splitVersionPrerelease version.toList
  Sum.elim (fun n => (parts.1.splitOn '.').getD n ['0'])
    (fun n => (prereleaseSegments parts.2).getD n ['0']) (ofLex i)

theorem decides_compareSegments (as bs : List (List Char)) :
    Decides compareSegment (fun n => as.getD n ['0']) (fun n => bs.getD n ['0'])
      (compareSegments as bs) := by
  induction as, bs using compareSegments.induct with
  | case1 =>
    rw [compareSegments]
    exact .alike fun i => show compareSegment ['0'] ['0'] = .eq by decide
  | case2 a as ih =>
    rw [compareSegments]
    exact @Decides.succ _ _ _ (fun n => (a :: as).getD n ['0']) (fun n => [].getD n ['0']) ih
  | case3 b bs ih =>
    rw [compareSegments]
    exact @Decides.succ _ _ _ (fun n => [].getD n ['0']) (fun n => (b :: bs).getD n ['0']) ih
  | case4 a as b bs ih =>
    rw [compareSegments]
    exact @Decides.succ _ _ _ (fun n => (a :: as).getD n ['0']) (fun n => (b :: bs).getD n ['0']) ih

theorem versionCompare_eq (a b : String) :
    versionCompare a b =
      (compareDotSegments (splitVersionPrerelease a.toList).1
        (splitVersionPrerelease b.toList).1).then
      (compareSegments (prereleaseSegments (splitVersionPrerelease a.toList).2)
        (prereleaseSegments (splitVersionPrerelease b.toList).2)) := by
  have hone : compareSegment ['1'] ['1'] = .eq := by decide
  have hzero : compareSegment ['0'] ['0'] = .eq := by decide
  have habove : compareSegment ['1'] ['0'] = .gt := by decide
  have hbelow : compareSegment ['0'] ['1'] = .lt := by decide
  unfold versionCompare
  rcases splitVersionPrerelease a.toList with ⟨mainA, preA⟩
  rcases splitVersionPrerelease b.toList with ⟨mainB, preB⟩
  dsimp only
  congr 1
  cases preA <;> cases preB <;> simp only [prereleaseSegments, compareSegments]
  · simp only [hone, Ordering.eq_then]
  · simp only [habove, Ordering.gt_then]
  · simp only [hbelow, Ordering.lt_then]
  · simp only [hzero, Ordering.eq_then, compareDotSegments]

theorem decides_versionCompare (a b : String) :
    Decides compareSegment (segmentAt a) (segmentAt b) (versionCompare a b) := by
  rw [versionCompare_eq]
  exact (decides_compareSegments _ _).sum (decides_compareSegments _ _)

end Places

section Clash
variable {ι : Type*} [LinearOrder ι]

/-- At the first place behind `i` where they differ, `a` has the greater segment. -/
def AboveBehind (place : String → ι → List Char) (i : ι) (a b : String) : Prop :=
  ∃ j, i < j ∧ (∀ k, i < k → k < j → compareSegment (place a k) (place b k) = .eq) ∧
    compareSegment (place a j) (place b j) = .gt

/-- At place `i` the versions `a` and `b` have numbers and `c` a text between them, the greater
number first: `b < c < a` as texts, although `a` is no greater than `b` as a number, nor behind the
place if the numbers are equal. -/
def Straddles (place : String → ι → List Char) (i : ι) (a b c : String) : Prop :=
  ∃ x y, parseU64 (place a i) = some x ∧ parseU64 (place b i) = some y ∧
    parseU64 (place c i) = none ∧ compare (place b i) (place c i) = .lt ∧
    compare (place c i) (place a i) = .lt ∧ (x < y ∨ x = y ∧ ¬ AboveBehind place i a b)

/-- No three versions that are alike up to a place have such segments there. -/
def ClashFree (place : String → ι → List Char) (versions : List String) : Prop :=
  ∀ a b c, a ∈ versions → b ∈ versions → c ∈ versions → ∀ i,
    AlikeBelow compareSegment (place a) (place b) i →
    AlikeBelow compareSegment (place b) (place c) i → ¬ Straddles place i a b c

variable {x y z : List Char}

theorem compareSegment_of_text (h : parseU64 x = none ∨ parseU64 y = none) :
    compareSegment x y = compare x y := by
  unfold compareSegment
  rcases h with h | h
  · rw [h]
  · rw [h]
    cases parseU64 x <;> rfl

theorem compareSegment_of_numbers {m n : ℕ} (hx : parseU64 x = some m) (hy : parseU64 y = some n) :
    compareSegment x y = compare m n := by
  rw [compareSegment, hx, hy]

theorem compareSegment_eq_iff : compareSegment x y = .eq ↔
    x = y ∨ ∃ n, parseU64 x = some n ∧ parseU64 y = some n := by
  cases hx : parseU64 x with
  | none => simp [compareSegment_of_text (.inl hx)]
  | some m =>
    cases hy : parseU64 y with
    | none => simp [compareSegment_of_text (.inr hy)]
    | some n =>
      rw [compareSegment_of_numbers hx hy, Nat.compare_eq_eq]
      constructor
      · rintro rfl
        exact .inr ⟨m, rfl, rfl⟩
      · rintro (rfl | ⟨k, hk, hk'⟩)
        · exact Option.some.inj (hx.symm.trans hy)
        · exact Option.some.inj (hk.trans hk'.symm)

theorem compareSegment_eq_trans (h : compareSegment x y = .eq) (h' : compareSegment y z = .eq) :
    compareSegment x z = .eq := by
  rw [compareSegment_eq_iff] at h h' ⊢
  rcases h with rfl | ⟨m, hx, hy⟩
  · exact h'
  · rcases h' with rfl | ⟨n, hy', hz⟩
    · exact .inr ⟨m, hx, hy⟩
    · obtain rfl : m = n := Option.some.inj (hy.symm.trans hy')
      exact .inr ⟨m, hx, hz⟩

theorem no_cycle {σ : Type*} {cmp : σ → σ → Ordering} [Std.TransCmp cmp] {x y z : σ}
    (hxy : cmp x y = .lt) (hyz : cmp y z = .lt) (hzx : cmp z x = .lt) : False := by
  have h := Std.OrientedCmp.gt_of_lt (Std.TransCmp.lt_trans hxy hyz)
  rw [hzx] at h
  cases h

/-- Of three segments one below the next and the last below the first one is a text and the others
are numbers. -/
theorem text_of_cycle (hxy : compareSegment x y = .lt) (hyz : compareSegment y z = .lt)
    (hzx : compareSegment z x = .lt) :
    (∃ m n, parseU64 x = some m ∧ parseU64 y = some n ∧ parseU64 z = none) ∨
    (∃ m n, parseU64 y = some m ∧ parseU64 z = some n ∧ parseU64 x = none) ∨
    (∃ m n, parseU64 z = some m ∧ parseU64 x = some n ∧ parseU64 y = none) := by
  cases hx : parseU64 x with
  | none =>
    rw [compareSegment_of_text (.inl hx)] at hxy
    rw [compareSegment_of_text (.inr hx)] at hzx
    cases hy : parseU64 y with
    | none =>
      rw [compareSegment_of_text (.inl hy)] at hyz
      exact (no_cycle hxy hyz hzx).elim
    | some m =>
      cases hz : parseU64 z with
      | none =>
        rw [compareSegment_of_text (.inr hz)] at hyz
        exact (no_cycle hxy hyz hzx).elim
      | some n => exact .inr (.inl ⟨m, n, rfl, rfl, rfl⟩)
  | some l =>
    cases hy : parseU64 y with
    | none =>
      rw [compareSegment_of_text (.inr hy)] at hxy
      rw [compareSegment_of_text (.inl hy)] at hyz
      cases hz : parseU64 z with
      | none =>
        rw [compareSegment_of_text (.inl hz)] at hzx
        exact (no_cycle hxy hyz hzx).elim
      | some n => exact .inr (.inr ⟨n, l, rfl, rfl, rfl⟩)
    | some m =>
      cases hz : parseU64 z with
      | none => exact .inl ⟨l, m, rfl, rfl, rfl⟩
      | some n =>
        rw [compareSegment_of_numbers hx hy] at hxy
        rw [compareSegment_of_numbers hy hz] at hyz
        rw [compareSegment_of_numbers hz hx] at hzx
        exact (no_cycle hxy hyz hzx).elim

end Clash

section Trans
variable {ι : Type*} [LinearOrder ι] {place : String → ι → List Char}
  {compare : String → String → Ordering} {versions : List String} {a b c : String} {i : ι}

/-- Of two that are alike up to a place and there, `a` is above `b` if it is behind. -/
theorem aboveBehind_iff (hdec : Decides compareSegment (place a) (place b) (compare a b))
    (hi : AlikeBelow compareSegment (place a) (place b) i)
    (heq : compareSegment (place a i) (place b i) = .eq) :
    AboveBehind place i a b ↔ compare a b = .gt := by
  constructor
  · rintro ⟨j, hij, hbetween, hgt⟩
    have hj : AlikeBelow compareSegment (place a) (place b) j := by
      intro k hk
      rcases lt_trichotomy k i with hlt | rfl | hlt
      · exact hi k hlt
      · exact heq
      · exact hbetween k hlt hk
    rw [hdec.eq_of_differ hj (by simp [hgt]), hgt]
  · intro hgt
    obtain ⟨j, hj, hcmp⟩ := hdec.exists_differ (by simp [hgt])
    rw [hgt] at hcmp
    refine ⟨j, ?_, fun k _ hk => hj k hk, hcmp⟩
    rcases lt_trichotomy i j with hlt | rfl | hlt
    · exact hlt
    · rw [heq] at hcmp
      cases hcmp
    · rw [hi j hlt] at hcmp
      cases hcmp

theorem circle_of_straddles (hdec : Decides compareSegment (place a) (place b) (compare a b))
    (hi : AlikeBelow compareSegment (place a) (place b) i) (h : Straddles place i a b c) :
    Circle compareSegment compare place i a b c := by
  obtain ⟨x, y, hx, hy, hz, hyz, hzx, hxy⟩ := h
  refine ⟨by rwa [compareSegment_of_text (.inr hz)], by rwa [compareSegment_of_text (.inl hz)], ?_⟩
  rw [compareSegment_of_numbers hx hy]
  rcases hxy with hlt | ⟨rfl, hbehind⟩
  · exact .inl (Nat.compare_eq_lt.mpr hlt)
  · have heq : compareSegment (place a i) (place b i) = .eq :=
      compareSegment_eq_iff.mpr (.inr ⟨x, hx, hy⟩)
    exact .inr ⟨Nat.compare_eq_eq.mpr rfl,
      fun hgt => hbehind ((aboveBehind_iff hdec hi heq).mpr hgt)⟩

/-- Two numbers and a text in a cycle, the text last. -/
theorem straddles_of_cycle {m n : ℕ} (hx : parseU64 (place a i) = some m)
    (hy : parseU64 (place b i) = some n) (hz : parseU64 (place c i) = none)
    (hab : compareSegment (place a i) (place b i) = .lt)
    (hbc : compareSegment (place b i) (place c i) = .lt)
    (hca : compareSegment (place c i) (place a i) = .lt) : Straddles place i a b c := by
  rw [compareSegment_of_numbers hx hy, Nat.compare_eq_lt] at hab
  rw [compareSegment_of_text (.inr hz)] at hbc
  rw [compareSegment_of_text (.inl hz)] at hca
  exact ⟨m, n, hx, hy, hz, hbc, hca, .inl hab⟩

/-- A circle of three shows two numbers with a text between them, for one of its turns. -/
theorem straddles_of_circle (hdec : Decides compareSegment (place a) (place b) (compare a b))
    (hi : AlikeBelow compareSegment (place a) (place b) i)
    (h : Circle compareSegment compare place i a b c) :
    Straddles place i a b c ∨ Straddles place i b c a ∨ Straddles place i c a b := by
  obtain ⟨hbc, hca, hab | ⟨heq, hle⟩⟩ := h
  · rcases text_of_cycle hab hbc hca with ⟨m, n, hx, hy, hz⟩ | ⟨m, n, hy, hz, hx⟩ |
      ⟨m, n, hz, hx, hy⟩
    · exact .inl (straddles_of_cycle hx hy hz hab hbc hca)
    · exact .inr (.inl (straddles_of_cycle hy hz hx hbc hca hab))
    · exact .inr (.inr (straddles_of_cycle hz hx hy hca hab hbc))
  · left
    have hbehind := fun h => hle ((aboveBehind_iff hdec hi heq).mp h)
    rcases compareSegment_eq_iff.mp heq with hsame | ⟨n, hx, hy⟩
    · rw [compareSegment_swap, hsame, hbc] at hca
      cases hca
    · cases hz : parseU64 (place c i) with
      | none =>
        rw [compareSegment_of_text (.inr hz)] at hbc
        rw [compareSegment_of_text (.inl hz)] at hca
        exact ⟨n, n, hx, hy, hz, hbc, hca, .inr ⟨rfl, hbehind⟩⟩
      | some k =>
        rw [compareSegment_of_numbers hy hz, Nat.compare_eq_lt] at hbc
        rw [compareSegment_of_numbers hz hx, Nat.compare_eq_lt] at hca
        omega

/-- The comparison is transitive on a list exactly if no three of its versions clash. -/
theorem trans_iff_clashFree
    (hdec : ∀ a b, Decides compareSegment (place a) (place b) (compare a b)) :
    (∀ a ∈ versions, ∀ b ∈ versions, ∀ c ∈ versions,
      compare a b ≠ .gt → compare b c ≠ .gt → compare a c ≠ .gt) ↔ ClashFree place versions := by
  have heq : ∀ x y z, compareSegment x y = .eq → compareSegment y z = .eq →
      compareSegment x z = .eq := fun _ _ _ => compareSegment_eq_trans
  constructor
  · intro htrans a b c ha hb hc i hi hi' hstraddles
    exact (trans_iff compareSegment_swap heq hdec).mp
      (fun a b c (ha : a ∈ versions) hb hc => htrans a ha b hb c hc) a b c ha hb hc i hi hi'
      (circle_of_straddles (hdec a b) hi hstraddles)
  · intro hfree a ha b hb c hc
    refine (trans_iff compareSegment_swap heq hdec).mpr
      (fun a b c (ha : a ∈ versions) hb hc i hi hi' hcircle => ?_) a b c ha hb hc
    have hi'' := (hi.trans heq hi').symm compareSegment_swap
    rcases straddles_of_circle (hdec a b) hi hcircle with hs | hs | hs
    · exact hfree a b c ha hb hc i hi hi' hs
    · exact hfree b c a hb hc ha i hi' hi'' hs
    · exact hfree c a b hc ha hb i hi'' hi hs

end Trans

section Ordered

/-- What the comparison owes to those that sort these versions or look for the newest. -/
structure AgeOrdered (versions : List String) : Prop where
  swap : ∀ a ∈ versions, ∀ b ∈ versions, versionCompare a b = (versionCompare b a).swap
  trans : OrderedBy versions
  /-- The versions that stay of a packument come newest first, and their sort does not panic. -/
  sorted : ∀ (sort : VersionSort) (packument : Json) (blocked : Finset String),
    survivors packument blocked ⊆ versions → ∃ filtered allowed,
      applyNpmPackumentBlocks sort packument blocked = some (filtered, allowed) ∧
        allowed.Pairwise fun a b => versionCompare a b ≠ .lt
  /-- The fallback is a candidate that no other exceeds, in whatever order they come. -/
  newest : ∀ candidates : List (String × String), (∀ e ∈ candidates, e.1 ∈ versions) →
    candidates ≠ [] → ∃ e ∈ candidates, selectNewestApprovedArtifact candidates = some ⟨e.1, e.2⟩ ∧
      ∀ u ∈ candidates, versionCompare u.1 e.1 ≠ .gt

variable {versions : List String}

theorem OrderedBy.mono {sublist : List String} (h : OrderedBy versions)
    (hsub : sublist ⊆ versions) : OrderedBy sublist :=
  fun a ha b hb c hc => h a (hsub ha) b (hsub hb) c (hsub hc)

/-- One round of the search: the better of the two is above all that the former one was. -/
theorem newer_of_two (h : OrderedBy versions) {best c : String × String} (hbest : best.1 ∈ versions)
    (hc : c.1 ∈ versions) {newer : String × String}
    (hnewer : newer = if versionCompare best.1 c.1 = .gt then best else c) :
    versionCompare c.1 newer.1 ≠ .gt ∧
      ∀ u ∈ versions, versionCompare u best.1 ≠ .gt → versionCompare u newer.1 ≠ .gt := by
  subst hnewer
  split
  · rename_i hgt
    refine ⟨?_, fun u _ hu => hu⟩
    rw [versionCompare_swap, hgt]
    decide
  · rename_i hle
    refine ⟨?_, fun u hu hub => h u hu best.1 hbest c.1 hc hub hle⟩
    rw [versionCompare_self]
    decide

theorem foldl_newest (h : OrderedBy versions) (rest : List (String × String))
    (hrest : ∀ e ∈ rest, e.1 ∈ versions) (first : String × String) (hfirst : first.1 ∈ versions) :
    ∃ e ∈ first :: rest, rest.foldl
        (fun best c => if versionCompare best.1 c.1 = .gt then best else c) first = e ∧
      ∀ u ∈ first :: rest, versionCompare u.1 e.1 ≠ .gt := by
  induction rest generalizing first with
  | nil =>
    refine ⟨first, .head _, rfl, fun u hu => ?_⟩
    obtain rfl := List.mem_singleton.mp hu
    rw [versionCompare_self]
    decide
  | cons c rest ih =>
    obtain ⟨newer, hnewer⟩ :
        ∃ newer, newer = if versionCompare first.1 c.1 = .gt then first else c :=
      ⟨_, rfl⟩
    have hc := hrest c (.head _)
    have hmem : newer = first ∨ newer = c := by
      rw [hnewer]
      split <;> simp
    have hnewerV : newer.1 ∈ versions := by
      rcases hmem with rfl | rfl
      · exact hfirst
      · exact hc
    obtain ⟨hcnewer, hmono⟩ := newer_of_two h hfirst hc hnewer
    obtain ⟨e, he, hfold, habove⟩ := ih (fun e he => hrest e (.tail _ he)) newer hnewerV
    have heV : e.1 ∈ versions := by
      rcases List.mem_cons.mp he with rfl | he
      · exact hnewerV
      · exact hrest e (.tail _ he)
    have hnewere := habove newer (.head _)
    refine ⟨e, ?_, by rw [List.foldl_cons, ← hnewer, hfold], fun u hu => ?_⟩
    · rcases List.mem_cons.mp he with rfl | he
      · rcases hmem with rfl | rfl
        · exact .head _
        · exact .tail _ (.head _)
      · exact .tail _ (.tail _ he)
    · rcases List.mem_cons.mp hu with rfl | hu
      · have hself : versionCompare u.1 u.1 ≠ .gt := by
          rw [versionCompare_self]
          decide
        exact h u.1 hfirst newer.1 hnewerV e.1 heV (hmono u.1 hfirst hself) hnewere
      · rcases List.mem_cons.mp hu with rfl | hu
        · exact h u.1 hc newer.1 hnewerV e.1 heV hcnewer hnewere
        · exact habove u (.tail _ hu)

theorem ageOrdered_iff_orderedBy : AgeOrdered versions ↔ OrderedBy versions := by
  refine ⟨AgeOrdered.trans, fun h => ⟨fun a _ b _ => versionCompare_swap a b, h, ?_, ?_⟩⟩
  · intro sort packument blocked hsub
    have hordered := h.mono hsub
    exact ⟨_, _, applyNpmPackumentBlocks_eq_some.mpr ⟨sort.stable hordered, rfl⟩,
      pairwise_sortByVersionDesc hordered⟩
  · intro candidates hmem hne
    cases candidates with
    | nil => exact (hne rfl).elim
    | cons first rest =>
      obtain ⟨e, he, hfold, habove⟩ :=
        foldl_newest h rest (fun e he => hmem e (.tail _ he)) first (hmem first (.head _))
      refine ⟨e, he, ?_, habove⟩
      rw [selectNewestApprovedArtifact, hfold]

theorem ageOrdered_iff : AgeOrdered versions ↔ ClashFree segmentAt versions :=
  ageOrdered_iff_orderedBy.trans (trans_iff_clashFree decides_versionCompare)

end Ordered

end ArtifactKeeper.AgeGate
