import ArtifactKeeper.AgeGate.Packument

/-! What the age gate leaves alone in an npm packument, and where it points `latest`. -/

namespace ArtifactKeeper.AgeGate

/-- Every tag names a version that the packument lists. -/
def TagsListed (packument : Json) : Prop :=
  ∀ e ∈ packument.entriesAt "dist-tags", ∃ v ∈ packument.keysAt "versions", e.2.asStr = some v

/-- The value of the entry `name` in the object at `key`. -/
def entryAt (packument : Json) (key name : String) : Option Json :=
  (packument.entriesAt key).lookup name

/-- No version of the list is above `v`. -/
def NewestOf (versions : List String) (v : String) : Prop :=
  ∀ u ∈ versions, versionCompare u v ≠ .gt

section Sorting
variable {α : Type*} {r : α → α → Prop} [DecidableRel r] {l : List α}

/-- What goes into a sorted list by a total relation, transitive on what is sorted. -/
theorem pairwise_orderedInsert {a : α} (total : ∀ a b, r a b ∨ r b a)
    (trans : ∀ b ∈ l, ∀ c ∈ l, r a b → r b c → r a c) (h : l.Pairwise r) :
    (l.orderedInsert r a).Pairwise r := by
  induction l with
  | nil => simp
  | cons b l ih =>
    rw [List.pairwise_cons] at h
    rw [List.orderedInsert_cons]
    split
    · rename_i hab
      refine List.pairwise_cons.mpr ⟨fun c hc => ?_, List.pairwise_cons.mpr h⟩
      rcases List.mem_cons.mp hc with rfl | hc
      · exact hab
      · exact trans b (.head _) c (.tail _ hc) hab (h.1 c hc)
    · rename_i hab
      refine List.pairwise_cons.mpr ⟨fun c hc => ?_, ?_⟩
      · rcases List.mem_cons.mp ((List.perm_orderedInsert r a l).subset hc) with rfl | hc
        · exact (total _ _).resolve_left hab
        · exact h.1 c hc
      · exact ih (fun b hb c hc => trans b (.tail _ hb) c (.tail _ hc)) h.2

/-- Sorting by a total relation that is transitive on the list. -/
theorem pairwise_insertionSort (total : ∀ a b, r a b ∨ r b a)
    (trans : ∀ a ∈ l, ∀ b ∈ l, ∀ c ∈ l, r a b → r b c → r a c) :
    (l.insertionSort r).Pairwise r := by
  induction l with
  | nil => exact List.Pairwise.nil
  | cons a l ih =>
    rw [List.insertionSort_cons]
    refine pairwise_orderedInsert total (fun b hb c hc => ?_)
      (ih fun a ha b hb c hc => trans a (.tail _ ha) b (.tail _ hb) c (.tail _ hc))
    have hb' := (List.mem_insertionSort r).mp hb
    have hc' := (List.mem_insertionSort r).mp hc
    exact trans a (.head _) b (.tail _ hb') c (.tail _ hc')
end Sorting

section Order

theorem compareSegment_swap (a b : List Char) : compareSegment a b = (compareSegment b a).swap := by
  unfold compareSegment
  cases parseU64 a <;> cases parseU64 b <;> exact Std.OrientedOrd.eq_swap

theorem compareSegments_swap (as bs : List (List Char)) :
    compareSegments as bs = (compareSegments bs as).swap := by
  induction as, bs using compareSegments.induct with
  | case1 => simp [compareSegments]
  | case2 a as ih =>
    rw [compareSegments, compareSegments, Ordering.swap_then, ← ih, ← compareSegment_swap]
  | case3 b bs ih =>
    rw [compareSegments, compareSegments, Ordering.swap_then, ← ih, ← compareSegment_swap]
  | case4 a as b bs ih =>
    rw [compareSegments, compareSegments, Ordering.swap_then, ← ih, ← compareSegment_swap]

theorem versionCompare_swap (a b : String) : versionCompare a b = (versionCompare b a).swap := by
  unfold versionCompare
  generalize splitVersionPrerelease a.toList = va
  generalize splitVersionPrerelease b.toList = vb
  obtain ⟨mainA, preA⟩ := va
  obtain ⟨mainB, preB⟩ := vb
  dsimp only
  rw [Ordering.swap_then, compareDotSegments, compareSegments_swap]
  congr 1
  cases preA <;> cases preB
  · rfl
  · rfl
  · rfl
  · exact compareSegments_swap _ _

theorem versionCompare_self (a : String) : versionCompare a a = .eq := by
  have h := versionCompare_swap a a
  cases hcmp : versionCompare a a with
  | eq => rfl
  | lt =>
    rw [hcmp] at h
    cases h
  | gt =>
    rw [hcmp] at h
    cases h

theorem ne_lt_iff_swap_ne_gt (a b : String) :
    versionCompare a b ≠ .lt ↔ versionCompare b a ≠ .gt := by
  rw [versionCompare_swap a b]
  cases versionCompare b a <;> decide

theorem pairwise_sortByVersionDesc {versions : List String} (h : OrderedBy versions) :
    (sortByVersionDesc versions).Pairwise fun a b => versionCompare a b ≠ .lt := by
  refine pairwise_insertionSort (fun a b => ?_) fun a ha b hb c hc hab hbc => ?_
  · rw [versionCompare_swap a b]
    cases versionCompare b a <;> decide
  · rw [ne_lt_iff_swap_ne_gt] at hab hbc ⊢
    exact h c hc b hb a ha hbc hab

theorem mem_sortByVersionDesc {versions : List String} {v : String} :
    v ∈ sortByVersionDesc versions ↔ v ∈ versions :=
  (List.perm_insertionSort _ _).mem_iff

theorem newestOf_head_sortByVersionDesc {versions : List String} (h : OrderedBy versions)
    {v : String} (hv : (sortByVersionDesc versions).head? = some v) : NewestOf versions v := by
  intro u hu
  obtain ⟨rest, hsorted⟩ := List.head?_eq_some_iff.mp hv
  have hpair := pairwise_sortByVersionDesc h
  rw [hsorted, List.pairwise_cons] at hpair
  rw [← mem_sortByVersionDesc, hsorted, List.mem_cons] at hu
  rcases hu with rfl | hu
  · rw [ne_eq, versionCompare_self]
    decide
  · exact (ne_lt_iff_swap_ne_gt _ _).mp (hpair.1 u hu)

end Order

section Frame
variable {packument : Json} {blocked : Finset String} {allowed : List String}

/-- An entry of `versions` or `time` that does not name a blocked version stays as it was. -/
theorem entryAt_removeBlocked {key name : String} (hkey : key = "versions" ∨ key = "time")
    (hname : name ∉ blocked) :
    entryAt (reconcileDistTags (removeBlocked packument blocked).1 allowed) key name =
      entryAt packument key name := by
  have hne : key ≠ "dist-tags" := by rcases hkey with rfl | rfl <;> decide
  rw [entryAt, entriesAt_reconcileDistTags _ _ _ hne, removeBlocked,
    entriesAt_foldl_blockVersion _ _ _ hkey]
  have h := Json.lookup_filter_key (packument.entriesAt key)
    (fun k => ¬ (k ∈ packument.keysAt "versions" ∧ k ∈ blocked)) name
  rw [h, if_pos (by simp [hname])]
  rfl

/-- The loop changes the objects at its two keys only. -/
theorem get_foldl_blockVersion (versions : List String) (st : Json × List String) (key : String)
    (hversions : key ≠ "versions") (htime : key ≠ "time") :
    (versions.foldl (blockVersion blocked) st).1.get key = st.1.get key := by
  induction versions generalizing st with
  | nil => rfl
  | cons version versions ih =>
    rw [List.foldl_cons, ih, blockVersion]
    split
    · rw [Json.get_modify, if_neg htime, Json.get_modify, if_neg hversions]
    · rfl

theorem foldl_blockVersion_of_disjoint {versions : List String} (h : ∀ v ∈ versions, v ∉ blocked)
    (st : Json × List String) :
    (versions.foldl (blockVersion blocked) st).1 = st.1 := by
  induction versions generalizing st with
  | nil => rfl
  | cons version versions ih =>
    obtain ⟨hversion, hrest⟩ := List.forall_mem_cons.mp h
    rw [List.foldl_cons, ih hrest, blockVersion, if_neg hversion]

theorem get_removeBlocked_distTags :
    (removeBlocked packument blocked).1.get "dist-tags" = packument.get "dist-tags" :=
  get_foldl_blockVersion _ _ _ (by decide) (by decide)

/-- `dist-tags` afterwards: the tags with an allowed target, and `latest`. -/
theorem entriesAt_distTags (htags : ∃ tags, packument.get "dist-tags" = some (.object tags)) :
    (reconcileDistTags (removeBlocked packument blocked).1 allowed).entriesAt "dist-tags" =
      let kept := (packument.entriesAt "dist-tags").filter fun e => e.2.asStr.any (· ∈ allowed)
      match allowed.head? with
      | none => kept
      | some latest => Json.insert kept "latest" (.string latest) := by
  obtain ⟨tags, htags⟩ := htags
  rw [reconcileDistTags, Json.entriesAt, Json.get_modify, if_pos rfl, get_removeBlocked_distTags]
  rw [Json.entriesAt, htags]
  rfl

theorem entriesAt_distTags_of_not_object
    (htags : ¬ ∃ tags, packument.get "dist-tags" = some (.object tags)) :
    packument.entriesAt "dist-tags" = [] ∧
      (reconcileDistTags (removeBlocked packument blocked).1 allowed).entriesAt "dist-tags" =
        [] := by
  rw [reconcileDistTags, Json.entriesAt, Json.entriesAt, Json.get_modify, if_pos rfl,
    get_removeBlocked_distTags]
  cases hv : packument.get "dist-tags" with
  | none => exact ⟨rfl, rfl⟩
  | some value =>
    cases value with
    | object tags => exact absurd ⟨tags, hv⟩ htags
    | _ => exact ⟨rfl, rfl⟩

/-- A tag other than `latest` stays if its target is not blocked, and none is added. -/
theorem entryAt_distTags (hlisted : TagsListed packument)
    (hallowed : allowed.Perm (survivors packument blocked)) {tag : String} (hne : tag ≠ "latest")
    (htarget : ∀ t, entryAt packument "dist-tags" tag = some t → ∀ v ∈ t.asStr, v ∉ blocked) :
    entryAt (reconcileDistTags (removeBlocked packument blocked).1 allowed) "dist-tags" tag =
      entryAt packument "dist-tags" tag := by
  by_cases htags : ∃ tags, packument.get "dist-tags" = some (.object tags)
  · have hkept : ((packument.entriesAt "dist-tags").filter fun e =>
        e.2.asStr.any (· ∈ allowed)).lookup tag = entryAt packument "dist-tags" tag := by
      cases ht : entryAt packument "dist-tags" tag with
      | none => exact Json.lookup_filter_of_none _ ht
      | some t =>
        obtain ⟨before, after, happ, -⟩ := List.lookup_eq_some_iff.mp ht
        obtain ⟨v, hv, hstr⟩ := hlisted (tag, t) (by simp [happ])
        apply Json.lookup_filter_of_keep ht
        have hstr : t.asStr = some v := hstr
        have hmem : v ∈ allowed := by
          rw [hallowed.mem_iff, survivors, List.mem_filter]
          exact ⟨hv, by simpa using htarget t ht v hstr⟩
        simpa [hstr] using hmem
    rw [entryAt, entriesAt_distTags htags]
    dsimp only
    split
    · exact hkept
    · rw [Json.lookup_insert, if_neg hne]
      exact hkept
  · obtain ⟨hbefore, hafter⟩ := @entriesAt_distTags_of_not_object _ blocked allowed htags
    rw [entryAt, entryAt, hbefore, hafter]

/-- `latest` is the first of the sorted survivors. -/
theorem entryAt_latest (htags : ∃ tags, packument.get "dist-tags" = some (.object tags))
    {v : String} (hv : allowed.head? = some v) :
    entryAt (reconcileDistTags (removeBlocked packument blocked).1 allowed) "dist-tags" "latest" =
      some (.string v) := by
  rw [entryAt, entriesAt_distTags htags]
  simp only [hv]
  rw [Json.lookup_insert, if_pos rfl]

/-- What blocking leaves of a packument. -/
structure Framed (packument filtered : Json) (blocked : Finset String) : Prop where
  versions : ∀ v ∉ blocked, entryAt filtered "versions" v = entryAt packument "versions" v
  time : ∀ v ∉ blocked, entryAt filtered "time" v = entryAt packument "time" v
  tags : ∀ tag ≠ "latest",
    (∀ t, entryAt packument "dist-tags" tag = some t → ∀ v ∈ t.asStr, v ∉ blocked) →
    entryAt filtered "dist-tags" tag = entryAt packument "dist-tags" tag
  others : ∀ key, key ≠ "versions" → key ≠ "time" → key ≠ "dist-tags" →
    filtered.get key = packument.get key
  unblocked : (∀ v ∈ packument.keysAt "versions", v ∉ blocked) →
    ∀ key ≠ "dist-tags", filtered.get key = packument.get key
  latest : (∃ tags, packument.get "dist-tags" = some (.object tags)) →
    survivors packument blocked ≠ [] → ∃ v ∈ survivors packument blocked,
      entryAt filtered "dist-tags" "latest" = some (.string v) ∧
      (OrderedBy (survivors packument blocked) → NewestOf (survivors packument blocked) v)
  emptied : survivors packument blocked = [] → filtered.entriesAt "dist-tags" = []

theorem get_reconcileDistTags {key : String} (hkey : key ≠ "dist-tags") :
    (reconcileDistTags (removeBlocked packument blocked).1 allowed).get key =
      (removeBlocked packument blocked).1.get key := by
  rw [reconcileDistTags, Json.get_modify, if_neg hkey]

theorem framed_of_sorted {sort : VersionSort} (hlisted : TagsListed packument)
    (hsorted : sort.sortBy (survivors packument blocked) = some allowed) :
    Framed packument (reconcileDistTags (removeBlocked packument blocked).1 allowed) blocked := by
  have hperm := sort.perm hsorted
  constructor
  · exact fun v hv => entryAt_removeBlocked (.inl rfl) hv
  · exact fun v hv => entryAt_removeBlocked (.inr rfl) hv
  · exact fun tag hne htarget => entryAt_distTags hlisted hperm hne htarget
  · intro key hversions htime htags
    rw [get_reconcileDistTags htags]
    exact get_foldl_blockVersion _ _ _ hversions htime
  · intro hdisjoint key htags
    rw [get_reconcileDistTags htags, removeBlocked, foldl_blockVersion_of_disjoint hdisjoint]
  · intro htags hne
    obtain ⟨v, rest, hcons⟩ : ∃ v rest, allowed = v :: rest := by
      refine List.exists_cons_of_ne_nil fun hnil => hne ?_
      rw [hnil] at hperm
      exact hperm.symm.eq_nil
    have hhead : allowed.head? = some v := by rw [hcons, List.head?_cons]
    refine ⟨v, hperm.mem_iff.mp (List.mem_of_mem_head? hhead), entryAt_latest htags hhead,
      fun hordered => ?_⟩
    rw [sort.stable hordered, Option.some.injEq] at hsorted
    exact newestOf_head_sortByVersionDesc hordered (hsorted ▸ hhead)
  · intro hnone
    rw [hnone] at hperm
    by_cases htags : ∃ tags, packument.get "dist-tags" = some (.object tags)
    · rw [entriesAt_distTags htags, hperm.eq_nil]
      simp
    · exact (entriesAt_distTags_of_not_object htags).2

/-- The sort returns where the comparison is transitive on the survivors; and where it returns,
entries that name no blocked version stay, and so does every tag but `latest`, which is pointed at
the newest survivor whether its own target is blocked or not. -/
theorem applyNpmPackumentBlocks_framed (sort : VersionSort) (packument : Json)
    (blocked : Finset String) (hlisted : TagsListed packument) :
    (OrderedBy (survivors packument blocked) →
      (applyNpmPackumentBlocks sort packument blocked).isSome = true) ∧
    ∀ filtered allowed, applyNpmPackumentBlocks sort packument blocked = some (filtered, allowed) →
      Framed packument filtered blocked := by
  constructor
  · intro hordered
    rw [applyNpmPackumentBlocks, removeBlocked_snd, sort.stable hordered]
    rfl
  · intro filtered allowed happly
    obtain ⟨hsorted, rfl⟩ := applyNpmPackumentBlocks_eq_some.mp happly
    exact framed_of_sorted hlisted hsorted

end Frame

/-- `latest` names a release and a newer pre-release is listed. -/
def releaseAndBeta : Json := .object [("dist-tags", .object [("latest", .string "1.0.0")]),
  ("versions", .object [("1.0.0", .null), ("2.0.0-beta", .null)]), ("time", .object [])]

theorem releaseAndBeta_tagsListed : TagsListed releaseAndBeta := by
  simp [TagsListed, releaseAndBeta, Json.entriesAt, Json.keysAt, Json.get, Json.entries,
    List.lookup_cons, Json.asStr]

/-- A sort that never panics. -/
def stableSort : VersionSort where
  sortBy versions := some (sortByVersionDesc versions)
  perm h := by
    cases h
    exact List.perm_insertionSort _ _
  stable _ := rfl

theorem applyNpmPackumentBlocks_framed_beta : ∃ filtered,
    applyNpmPackumentBlocks stableSort releaseAndBeta {"2.0.0-beta"} =
      some (filtered, ["1.0.0"]) ∧ Framed releaseAndBeta filtered {"2.0.0-beta"} := by
  have hsurvivors : survivors releaseAndBeta {"2.0.0-beta"} = ["1.0.0"] := by decide
  have happly := applyNpmPackumentBlocks_eq_some.mpr
    ⟨(congrArg stableSort.sortBy hsurvivors).trans rfl, rfl⟩
  exact ⟨_, happly, (applyNpmPackumentBlocks_framed stableSort releaseAndBeta {"2.0.0-beta"}
    releaseAndBeta_tagsListed).2 _ _ happly⟩

theorem versionCompare_one_two_beta : versionCompare "1.0.0" "2.0.0-beta" = .lt := by
  have hone : splitVersionPrerelease "1.0.0".toList = ("1.0.0".toList, none) := by decide
  have htwo : splitVersionPrerelease "2.0.0-beta".toList =
      ("2.0.0".toList, some "beta".toList) := by decide
  have hsplit : "1.0.0".toList.splitOn '.' = [['1'], ['0'], ['0']] := by decide
  have hsplit' : "2.0.0".toList.splitOn '.' = [['2'], ['0'], ['0']] := by decide
  have hsegment : compareSegment ['1'] ['2'] = .lt := by decide
  simp only [versionCompare, hone, htwo]
  rw [compareDotSegments, hsplit, hsplit', compareSegments, hsegment]
  rfl

theorem versionCompare_of_single {a b : String} (ha : '-' ∉ a.toList) (hb : '-' ∉ b.toList)
    (hda : '.' ∉ a.toList) (hdb : '.' ∉ b.toList) :
    versionCompare a b = compareSegment a.toList b.toList := by
  have hsplit : ∀ {s : List Char}, '.' ∉ s → s.splitOn '.' = [s] := by
    intro s hs
    have h : (['.'].intercalate [s]).splitOn '.' = [s] :=
      List.splitOn_intercalate '.' (by simpa using hs) (List.cons_ne_nil _ _)
    rwa [List.intercalate_singleton] at h
  simp [versionCompare, splitVersionPrerelease, ha, hb, compareDotSegments, hsplit hda, hsplit hdb,
    compareSegments]

/-- `9` is below `10`, `10` below `1a` and `1a` below `9`. -/
theorem no_newest_of_cycle : ¬ ∃ v ∈ ["9", "10", "1a"], NewestOf ["9", "10", "1a"] v := by
  have hcompare : ∀ u ∈ ["9", "10", "1a"], ∀ v ∈ ["9", "10", "1a"],
      versionCompare u v = compareSegment u.toList v.toList := by
    intro u hu v hv
    have hplain : ∀ w ∈ ["9", "10", "1a"], '-' ∉ w.toList ∧ '.' ∉ w.toList := by decide
    exact versionCompare_of_single (hplain u hu).1 (hplain v hv).1 (hplain u hu).2 (hplain v hv).2
  rintro ⟨v, hv, hnewest⟩
  have hall : ∀ v ∈ ["9", "10", "1a"], ∃ u ∈ ["9", "10", "1a"],
      compareSegment u.toList v.toList = .gt := by decide
  obtain ⟨u, hu, hgt⟩ := hall v hv
  exact hnewest u hu ((hcompare u hu v hv).trans hgt)

/-- With nothing blocked `latest` moves from the release to the pre-release, and of some versions
none is newest. -/
theorem latest_moves_unblocked :
    (¬ ∀ (packument : Json) (blocked : Finset String) (filtered : Json) (allowed : List String),
      applyNpmPackumentBlocks stableSort packument blocked = some (filtered, allowed) →
      TagsListed packument → ∀ tag t v,
      entryAt packument "dist-tags" tag = some t → t.asStr = some v → v ∉ blocked →
      entryAt filtered "dist-tags" tag = some t) ∧
    ¬ ∃ v ∈ ["9", "10", "1a"], NewestOf ["9", "10", "1a"] v := by
  refine ⟨fun h => ?_, no_newest_of_cycle⟩
  have hkept := h releaseAndBeta ∅ _ _ (applyNpmPackumentBlocks_eq_some.mpr ⟨rfl, rfl⟩)
    releaseAndBeta_tagsListed "latest" (.string "1.0.0") "1.0.0" rfl rfl (by simp)
  have hsurvivors : survivors releaseAndBeta ∅ = ["1.0.0", "2.0.0-beta"] := by decide
  have hhead : (sortByVersionDesc (survivors releaseAndBeta ∅)).head? = some "2.0.0-beta" := by
    simp [hsurvivors, sortByVersionDesc, versionCompare_one_two_beta]
  rw [entryAt_latest ⟨_, rfl⟩ hhead] at hkept
  simp at hkept

end ArtifactKeeper.AgeGate
