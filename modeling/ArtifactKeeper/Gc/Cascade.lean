import ArtifactKeeper.Gc.Orphans

/-! The tag cascade of a retention sweep: tags of soft-deleted manifests go, except where every tag
of a manifest would. -/

namespace ArtifactKeeper.Gc

/-- A row of `oci_tags`. -/
structure OciTag where
  id : Uuid
  repositoryId : Uuid
  name : String
  tag : String
  manifestDigest : Digest
  deriving DecidableEq, Repr

inductive CascadeScope where
  | global
  | perRepo (id : Uuid)
  deriving DecidableEq, Repr

def CascadeScope.repoFilter : CascadeScope → Option Uuid
  | .global => none
  | .perRepo id => some id

/-- `a.is_deleted = true` and the join of an artifact with a tag; a null version joins nothing. -/
def ArtifactRow.joinsTag (a : ArtifactRow) (ot : OciTag) : Bool :=
  a.isDeleted && a.repositoryId == ot.repositoryId &&
    a.storageKey == manifestStorageKey ot.manifestDigest &&
    a.path == "v2/" ++ ot.name ++ "/manifests/" ++ ot.tag && a.version == some ot.tag

section Cascade
variable (artifacts : List ArtifactRow)

/-- Some soft-deleted manifest artifact joins to the tag. -/
def OciTag.doomed (ot : OciTag) : Bool := artifacts.any fun a => a.joinsTag ot

/-- Another tag of the same manifest that no soft-deleted artifact joins to. -/
def OciTag.hasSurvivor (tags : List OciTag) (ot : OciTag) : Bool :=
  tags.any fun keep => keep.repositoryId == ot.repositoryId &&
    keep.manifestDigest == ot.manifestDigest && keep.id != ot.id && !keep.doomed artifacts

/-- The rows that `CASCADE_OCI_TAGS_SQL` deletes. -/
def OciTag.pruned (scope : CascadeScope) (tags : List OciTag) (ot : OciTag) : Bool :=
  (artifacts.any fun a => a.joinsTag ot && scope.repoFilter.all (a.repositoryId == ·)) &&
    ot.hasSurvivor artifacts tags

/-- `cascade_oci_tags_cleanup_tx`: the tags left and how many rows were deleted. -/
def cascadeOciTagsCleanup (scope : CascadeScope) (tags : List OciTag) : List OciTag × ℕ :=
  (tags.filter fun ot => !ot.pruned artifacts scope tags,
    tags.countP (·.pruned artifacts scope tags))

/-- The cascade once for each repository of a list. -/
def cascadeEach (repositories : List Uuid) (tags : List OciTag) : List OciTag :=
  repositories.foldl (fun acc r => (cascadeOciTagsCleanup artifacts (.perRepo r) acc).1) tags

end Cascade

section Cascade
variable {artifacts : List ArtifactRow} {scope : CascadeScope} {tags : List OciTag} {ot : OciTag}

theorem OciTag.pruned_iff : ot.pruned artifacts scope tags = true ↔
    ot.doomed artifacts = true ∧ (∀ r ∈ scope.repoFilter, ot.repositoryId = r) ∧
      ot.hasSurvivor artifacts tags = true := by
  simp only [pruned, doomed, ArtifactRow.joinsTag, Bool.and_eq_true, List.any_eq_true,
    beq_iff_eq, Option.all_eq_true]
  constructor
  · rintro ⟨⟨a, ha, hjoin, hscope⟩, hkeep⟩
    have hrepo := hjoin.1.1.1.2
    exact ⟨⟨a, ha, hjoin⟩, fun r hr => hrepo.symm.trans (hscope r hr), hkeep⟩
  · rintro ⟨⟨a, ha, hjoin⟩, hscope, hkeep⟩
    have hrepo := hjoin.1.1.1.2
    exact ⟨⟨a, ha, hjoin, fun r hr => hrepo.trans (hscope r hr)⟩, hkeep⟩

theorem mem_cascade : ot ∈ (cascadeOciTagsCleanup artifacts scope tags).1 ↔
    ot ∈ tags ∧ ot.pruned artifacts scope tags = false := by
  simp only [cascadeOciTagsCleanup, List.mem_filter, Bool.not_eq_true']

/-- A survivor is not doomed, so no sweep of any scope deletes it. -/
theorem mem_cascade_of_not_doomed (h : ot ∈ tags) (hdoom : ot.doomed artifacts = false) :
    ot ∈ (cascadeOciTagsCleanup artifacts scope tags).1 := by
  refine mem_cascade.mpr ⟨h, ?_⟩
  by_contra hpruned
  have := (OciTag.pruned_iff.mp (by simpa using hpruned)).1
  simp [hdoom] at this

/-- A sweep neither adds survivors nor takes one away. -/
theorem hasSurvivor_cascade :
    ot.hasSurvivor artifacts (cascadeOciTagsCleanup artifacts scope tags).1 =
      ot.hasSurvivor artifacts tags := by
  rw [Bool.eq_iff_iff]
  simp only [OciTag.hasSurvivor, List.any_eq_true, Bool.and_eq_true, Bool.not_eq_true']
  constructor
  · rintro ⟨keep, hkeep, hsibling, hdoom⟩
    exact ⟨keep, (mem_cascade.mp hkeep).1, hsibling, hdoom⟩
  · rintro ⟨keep, hkeep, hsibling, hdoom⟩
    exact ⟨keep, mem_cascade_of_not_doomed hkeep hdoom, hsibling, hdoom⟩

theorem pruned_cascade (scope' : CascadeScope) :
    ot.pruned artifacts scope' (cascadeOciTagsCleanup artifacts scope tags).1 =
      ot.pruned artifacts scope' tags := by
  rw [Bool.eq_iff_iff, OciTag.pruned_iff, OciTag.pruned_iff, hasSurvivor_cascade]

/-- A deleted tag leaves its survivor behind. -/
theorem exists_mem_cascade (h : ot ∈ tags) :
    ∃ keep ∈ (cascadeOciTagsCleanup artifacts scope tags).1,
      keep.repositoryId = ot.repositoryId ∧ keep.manifestDigest = ot.manifestDigest := by
  by_cases hpruned : ot.pruned artifacts scope tags = true
  · obtain ⟨-, -, hkeep⟩ := OciTag.pruned_iff.mp hpruned
    simp only [OciTag.hasSurvivor, List.any_eq_true, Bool.and_eq_true, beq_iff_eq, bne_iff_ne,
      Bool.not_eq_true'] at hkeep
    obtain ⟨keep, hmem, ⟨⟨hrepo, hdigest⟩, -⟩, hdoom⟩ := hkeep
    exact ⟨keep, mem_cascade_of_not_doomed hmem hdoom, hrepo, hdigest⟩
  · exact ⟨ot, mem_cascade.mpr ⟨h, by simpa using hpruned⟩, rfl, rfl⟩

/-- Sweeping repository by repository deletes what the guard selects in the first table. -/
theorem cascadeEach_eq (repositories : List Uuid) (tags : List OciTag) :
    cascadeEach artifacts repositories tags =
      tags.filter fun ot => !(ot.doomed artifacts && repositories.contains ot.repositoryId &&
        ot.hasSurvivor artifacts tags) := by
  induction repositories generalizing tags with
  | nil => simp [cascadeEach]
  | cons r rest ih =>
    have hstep : cascadeEach artifacts (r :: rest) tags =
        cascadeEach artifacts rest (cascadeOciTagsCleanup artifacts (.perRepo r) tags).1 := rfl
    rw [hstep, ih]
    simp only [hasSurvivor_cascade]
    simp only [cascadeOciTagsCleanup, List.filter_filter]
    refine List.filter_congr fun ot _ => ?_
    have hpruned : ot.pruned artifacts (.perRepo r) tags = (ot.doomed artifacts &&
        (ot.repositoryId == r) && ot.hasSurvivor artifacts tags) := by
      rw [Bool.eq_iff_iff, OciTag.pruned_iff]
      simp [CascadeScope.repoFilter, and_assoc]
    rw [hpruned, List.contains_cons]
    cases ot.doomed artifacts <;> cases ot.repositoryId == r <;>
      cases rest.contains ot.repositoryId <;> cases ot.hasSurvivor artifacts tags <;> rfl

/-- After a sweep every manifest that had a tag still has one; a deleted tag had a soft-deleted
artifact and lay in the scope; a second sweep deletes nothing; and the global sweep equals one
sweep for each repository, in any order. -/
theorem cascade_keeps_last_tag (artifacts : List ArtifactRow) (tags : List OciTag)
    {repositories : List Uuid} (hall : ∀ ot ∈ tags, ot.repositoryId ∈ repositories) :
    (∀ scope, ∀ ot ∈ tags, ∃ keep ∈ (cascadeOciTagsCleanup artifacts scope tags).1,
      keep.repositoryId = ot.repositoryId ∧ keep.manifestDigest = ot.manifestDigest) ∧
    (∀ scope, ∀ ot ∈ tags, ot ∉ (cascadeOciTagsCleanup artifacts scope tags).1 →
      (∃ a ∈ artifacts, a.joinsTag ot = true) ∧
        ∀ r ∈ scope.repoFilter, ot.repositoryId = r) ∧
    (∀ scope, cascadeOciTagsCleanup artifacts scope (cascadeOciTagsCleanup artifacts scope tags).1 =
      ((cascadeOciTagsCleanup artifacts scope tags).1, 0)) ∧
    cascadeEach artifacts repositories tags = (cascadeOciTagsCleanup artifacts .global tags).1 := by
  refine ⟨fun scope ot h => exists_mem_cascade h, fun scope ot h hgone => ?_, fun scope => ?_, ?_⟩
  · have hpruned : ot.pruned artifacts scope tags = true := by
      by_contra hkept
      exact hgone (mem_cascade.mpr ⟨h, by simpa using hkept⟩)
    obtain ⟨hdoom, hscope, -⟩ := OciTag.pruned_iff.mp hpruned
    exact ⟨List.any_eq_true.mp hdoom, hscope⟩
  · have hnone : ∀ ot ∈ (cascadeOciTagsCleanup artifacts scope tags).1,
        ot.pruned artifacts scope (cascadeOciTagsCleanup artifacts scope tags).1 = false := by
      intro ot h
      rw [pruned_cascade]
      exact (mem_cascade.mp h).2
    refine Prod.ext (List.filter_eq_self.mpr fun ot h => by simp [hnone ot h]) ?_
    exact List.countP_eq_zero.mpr fun ot h => by simp [hnone ot h]
  · rw [cascadeEach_eq]
    refine List.filter_congr fun ot h => congrArg (!·) ?_
    rw [Bool.eq_iff_iff, OciTag.pruned_iff]
    simp [CascadeScope.repoFilter, hall ot h]

end Cascade

/-- Two repositories hold the same manifest. In the first, `1.0` and `1.1` are both swept and
`latest` is not; in the second, the only two tags are both swept. -/
def sweptTags : List OciTag :=
  [⟨1, 7, "app", "1.0", "sha256:a"⟩, ⟨2, 7, "app", "1.1", "sha256:a"⟩,
    ⟨3, 7, "app", "latest", "sha256:a"⟩, ⟨4, 8, "app", "1.0", "sha256:a"⟩,
    ⟨5, 8, "app", "1.1", "sha256:a"⟩]

def sweptArtifacts : List ArtifactRow :=
  [7, 8].flatMap fun r => ["1.0", "1.1"].map fun v =>
    ⟨r, r, "v2/app/manifests/" ++ v, some v, "oci-manifests/sha256:a", 500, true⟩

theorem cascade_keeps_last_tag_of_two_repositories :
    (cascadeOciTagsCleanup sweptArtifacts .global sweptTags).2 = 2 ∧
      cascadeEach sweptArtifacts [8, 7] sweptTags =
        (cascadeOciTagsCleanup sweptArtifacts .global sweptTags).1 :=
  ⟨by decide, (cascade_keeps_last_tag sweptArtifacts sweptTags (by decide)).2.2.2⟩

end ArtifactKeeper.Gc
