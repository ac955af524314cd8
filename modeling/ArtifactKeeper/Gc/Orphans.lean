import ArtifactKeeper.Gc.Blob
import Mathlib.Algebra.Ring.Int.Defs
import Mathlib.Data.List.Dedup
import Mathlib.Logic.Relation

/-! Orphan manifests: the artifact predicate of the storage collector and the pruning of blob
references, against reachability from a tag through manifest references of any depth. -/

namespace ArtifactKeeper.Gc

def ociManifestStoragePrefix : String := "oci-manifests/"
def manifestStorageKey (d : Digest) : String := ociManifestStoragePrefix ++ d
def blobStorageKey (d : Digest) : String := "oci-blobs/" ++ d

/-- A row of `artifacts`, as the collector and the tag cascade read it. -/
structure ArtifactRow where
  id : Uuid
  repositoryId : Uuid
  path : String
  version : Option String
  storageKey : String
  sizeBytes : ℤ
  isDeleted : Bool
  deriving DecidableEq, Repr

/-- Same backend, and the same path on the filesystem. -/
def StorageLocation.covers (other r : StorageLocation) : Bool :=
  other.backend == r.backend && (r.backend != "filesystem" || other.path == r.path)

/-- A group of `select_orphans`. -/
structure OrphanKey where
  storageKey : String
  location : StorageLocation
  totalBytes : ℤ
  artifactCount : ℕ
  deriving DecidableEq, Repr

namespace GcState

/-- A child of a tagged manifest of the repository. -/
def childOfTagged (s : GcState) (repositoryId : Uuid) (d : Digest) : Bool :=
  s.manifestRefs.any fun m => m.repositoryId == repositoryId && m.childDigest == d &&
    s.tagged m.repositoryId m.parentDigest

/-- `ORPHAN_PREDICATE_SQL`. A key that is like `'oci-manifests/%'` and has the digest as the rest is
the manifest key of that digest. -/
def orphanPredicate (s : GcState) (artifacts : List ArtifactRow) (a : ArtifactRow) : Bool :=
  let r := s.repositories a.repositoryId
  a.isDeleted &&
    !(artifacts.any fun a2 => a2.storageKey == a.storageKey && !a2.isDeleted) &&
    !(s.tags.any fun ot => a.storageKey == manifestStorageKey ot.2 &&
        (s.repositories ot.1.repositoryId).covers r) &&
    !(s.blobs.any fun ob => a.storageKey == blobStorageKey ob.digest &&
        (s.repositories ob.repositoryId).covers r) &&
    !(s.manifestRefs.any fun omr => s.tagged omr.repositoryId omr.parentDigest &&
        a.storageKey == manifestStorageKey omr.childDigest &&
        (s.repositories omr.repositoryId).covers r)

/-- The groups of orphan rows by key and location. -/
def selectOrphans (s : GcState) (artifacts : List ArtifactRow) : List OrphanKey :=
  let orphans := artifacts.filter (s.orphanPredicate artifacts)
  let group := fun a : ArtifactRow => (a.storageKey, s.repositories a.repositoryId)
  (orphans.map group).dedup.map fun k =>
    let rows := orphans.filter fun a => group a == k
    ⟨k.1, k.2, (rows.map (·.sizeBytes)).sum, rows.length⟩

/-- An edge of the reference graph of one repository. -/
def Refers (s : GcState) (repositoryId : Uuid) (parent child : Digest) : Prop :=
  ∃ m ∈ s.manifestRefs, m.repositoryId = repositoryId ∧ m.parentDigest = parent ∧
    m.childDigest = child

/-- Some tag of the repository leads to the manifest through references. -/
def Reachable (s : GcState) (repositoryId : Uuid) (d : Digest) : Prop :=
  ∃ root, s.tagged repositoryId root = true ∧
    Relation.ReflTransGen (s.Refers repositoryId) root d

/-- Reachable, but neither tagged nor a child of a tagged manifest. -/
def Deep (s : GcState) (repositoryId : Uuid) (d : Digest) : Prop :=
  s.Reachable repositoryId d ∧ s.tagged repositoryId d = false ∧
    s.childOfTagged repositoryId d = false

/-- Pruning keeps the blob references of every reachable manifest, and the scan for orphans neither
selects its artifact rows nor lists their group. -/
def KeepsReachable (s : GcState) (artifacts : List ArtifactRow) : Prop :=
  (∀ r ∈ s.blobRefs, s.Reachable r.repositoryId r.manifestDigest →
      r ∈ s.pruneOrphanBlobRefs.blobRefs) ∧
    ∀ a ∈ artifacts, ∀ d, a.storageKey = manifestStorageKey d → s.Reachable a.repositoryId d →
      s.orphanPredicate artifacts a = false ∧
        ∀ k ∈ s.selectOrphans artifacts,
          ¬ (k.storageKey = a.storageKey ∧ k.location = s.repositories a.repositoryId)

/-- Some other row keeps the object of the manifest: a live artifact has its key, or a repository
on the same storage tags the manifest or one of its parents. -/
def KeptOtherwise (s : GcState) (artifacts : List ArtifactRow) (a : ArtifactRow) (d : Digest) :
    Prop :=
  (∃ a2 ∈ artifacts, a2.storageKey = a.storageKey ∧ a2.isDeleted = false) ∨
    ∃ other, (s.repositories other).covers (s.repositories a.repositoryId) = true ∧
      (s.tagged other d = true ∨ s.childOfTagged other d = true)

end GcState

section Orphans
variable {s : GcState} {artifacts : List ArtifactRow} {repositoryId : Uuid} {d : Digest}

theorem StorageLocation.covers_self (r : StorageLocation) : r.covers r = true := by
  simp [StorageLocation.covers]

theorem manifestStorageKey_injective : Function.Injective manifestStorageKey := by
  intro x y h
  simpa [manifestStorageKey, String.ext_iff] using h

theorem manifestStorageKey_ne_blobStorageKey (x y : Digest) :
    manifestStorageKey x ≠ blobStorageKey y := by
  simp [manifestStorageKey, blobStorageKey, ociManifestStoragePrefix, String.ext_iff]

namespace GcState

theorem tagged_iff : s.tagged repositoryId d = true ↔
    ∃ t ∈ s.tags, t.1.repositoryId = repositoryId ∧ t.2 = d := by
  simp only [tagged, List.any_eq_true, Bool.and_eq_true, beq_iff_eq]

/-- The pruning statement keeps exactly the references of manifests at most one edge below a tag. -/
theorem mem_pruneOrphanBlobRefs {r : BlobRef} : r ∈ s.pruneOrphanBlobRefs.blobRefs ↔
    r ∈ s.blobRefs ∧ (s.tagged r.repositoryId r.manifestDigest = true ∨
      s.childOfTagged r.repositoryId r.manifestDigest = true) := by
  simp only [pruneOrphanBlobRefs, List.mem_filter, Bool.or_eq_true, childOfTagged]

/-- The predicate on the row of a manifest. -/
theorem orphanPredicate_iff {a : ArtifactRow} (hkey : a.storageKey = manifestStorageKey d) :
    s.orphanPredicate artifacts a = true ↔
      a.isDeleted = true ∧ ¬ s.KeptOtherwise artifacts a d := by
  have hblob : (s.blobs.any fun ob => a.storageKey == blobStorageKey ob.digest &&
      (s.repositories ob.repositoryId).covers (s.repositories a.repositoryId)) = false := by
    rw [List.any_eq_false]
    intro ob _
    simp [hkey, manifestStorageKey_ne_blobStorageKey d ob.digest]
  have htag : (s.tags.any fun ot => a.storageKey == manifestStorageKey ot.2 &&
      (s.repositories ot.1.repositoryId).covers (s.repositories a.repositoryId)) = true ↔
      ∃ other, (s.repositories other).covers (s.repositories a.repositoryId) = true ∧
        s.tagged other d = true := by
    simp only [List.any_eq_true, Bool.and_eq_true, beq_iff_eq, hkey,
      manifestStorageKey_injective.eq_iff, tagged_iff]
    constructor
    · rintro ⟨t, ht, rfl, hcov⟩
      exact ⟨t.1.repositoryId, hcov, t, ht, rfl, rfl⟩
    · rintro ⟨other, hcov, t, ht, rfl, rfl⟩
      exact ⟨t, ht, rfl, hcov⟩
  have hchild : (s.manifestRefs.any fun omr => s.tagged omr.repositoryId omr.parentDigest &&
      a.storageKey == manifestStorageKey omr.childDigest &&
      (s.repositories omr.repositoryId).covers (s.repositories a.repositoryId)) = true ↔
      ∃ other, (s.repositories other).covers (s.repositories a.repositoryId) = true ∧
        s.childOfTagged other d = true := by
    simp only [List.any_eq_true, Bool.and_eq_true, beq_iff_eq, hkey,
      manifestStorageKey_injective.eq_iff, childOfTagged]
    constructor
    · rintro ⟨m, hm, ⟨htagged, rfl⟩, hcov⟩
      exact ⟨m.repositoryId, hcov, m, hm, ⟨rfl, rfl⟩, htagged⟩
    · rintro ⟨other, hcov, m, hm, ⟨rfl, rfl⟩, htagged⟩
      exact ⟨m, hm, ⟨htagged, rfl⟩, hcov⟩
  have hlive : (artifacts.any fun a2 => a2.storageKey == a.storageKey && !a2.isDeleted) = true ↔
      ∃ a2 ∈ artifacts, a2.storageKey = a.storageKey ∧ a2.isDeleted = false := by
    simp only [List.any_eq_true, Bool.and_eq_true, beq_iff_eq, Bool.not_eq_true']
  simp only [orphanPredicate, hblob, Bool.and_eq_true, Bool.not_eq_true', Bool.not_false,
    Bool.eq_false_iff, ne_eq, hlive, htag, hchild, KeptOtherwise, and_or_left, exists_or, not_or]
  tauto

/-- Rows with one key on one location are orphans together. -/
theorem orphanPredicate_congr {a b : ArtifactRow} (ha : a ∈ artifacts)
    (hkey : a.storageKey = manifestStorageKey d) (hb : b.storageKey = a.storageKey)
    (hloc : s.repositories b.repositoryId = s.repositories a.repositoryId)
    (h : s.orphanPredicate artifacts b = true) : s.orphanPredicate artifacts a = true := by
  obtain ⟨-, hkept⟩ := (orphanPredicate_iff (hb.trans hkey)).mp h
  have hdeleted : a.isDeleted = true := by
    by_contra hlive
    exact hkept (.inl ⟨a, ha, hb.symm, by simpa using hlive⟩)
  refine (orphanPredicate_iff hkey).mpr ⟨hdeleted, fun hother => hkept ?_⟩
  simpa only [KeptOtherwise, hb, hloc] using hother

theorem mem_selectOrphans {k : OrphanKey} (h : k ∈ s.selectOrphans artifacts) :
    ∃ a ∈ artifacts, s.orphanPredicate artifacts a = true ∧ a.storageKey = k.storageKey ∧
      s.repositories a.repositoryId = k.location := by
  simp only [selectOrphans, List.mem_map, List.mem_dedup, List.mem_filter] at h
  obtain ⟨_, ⟨a, ⟨ha, horphan⟩, rfl⟩, rfl⟩ := h
  exact ⟨a, ha, horphan, rfl, rfl⟩

/-- What a tag reaches is within one edge of a tag or deep. -/
theorem Reachable.near_or_deep (h : s.Reachable repositoryId d) :
    s.tagged repositoryId d = true ∨ s.childOfTagged repositoryId d = true ∨
      s.Deep repositoryId d := by
  by_cases htag : s.tagged repositoryId d = true
  · exact .inl htag
  by_cases hchild : s.childOfTagged repositoryId d = true
  · exact .inr (.inl hchild)
  exact .inr (.inr ⟨h, by simpa using htag, by simpa using hchild⟩)

/-- The collector keeps everything a tag reaches exactly when no deep manifest has a row it could
lose: no blob reference, and no deleted artifact row that nothing else protects. -/
theorem keeps_reachable_iff (s : GcState) (artifacts : List ArtifactRow) :
    s.KeepsReachable artifacts ↔
      (∀ r ∈ s.blobRefs, ¬ s.Deep r.repositoryId r.manifestDigest) ∧
        ∀ a ∈ artifacts, a.isDeleted = true → ∀ d, a.storageKey = manifestStorageKey d →
          s.Deep a.repositoryId d → s.KeptOtherwise artifacts a d := by
  constructor
  · rintro ⟨hrefs, hrows⟩
    refine ⟨fun r hr hdeep => ?_, fun a ha hdel d hkey hdeep => ?_⟩
    · obtain ⟨hreach, htag, hchild⟩ := hdeep
      obtain ⟨-, hnear⟩ := mem_pruneOrphanBlobRefs.mp (hrefs r hr hreach)
      simp [htag, hchild] at hnear
    · by_contra hkept
      have horphan := (orphanPredicate_iff hkey).mpr ⟨hdel, hkept⟩
      simp [(hrows a ha d hkey hdeep.1).1] at horphan
  · rintro ⟨hrefs, hrows⟩
    refine ⟨fun r hr hreach => mem_pruneOrphanBlobRefs.mpr ⟨hr, ?_⟩, fun a ha d hkey hreach => ?_⟩
    · rcases hreach.near_or_deep with htag | hchild | hdeep
      · exact .inl htag
      · exact .inr hchild
      · exact (hrefs r hr hdeep).elim
    have hpred : s.orphanPredicate artifacts a = false := by
      by_contra horphan
      obtain ⟨hdel, hkept⟩ := (orphanPredicate_iff hkey).mp (by simpa using horphan)
      apply hkept
      rcases hreach.near_or_deep with htag | hchild | hdeep
      · exact .inr ⟨a.repositoryId, StorageLocation.covers_self _, .inl htag⟩
      · exact .inr ⟨a.repositoryId, StorageLocation.covers_self _, .inr hchild⟩
      · exact hrows a ha hdel d hkey hdeep
    refine ⟨hpred, fun k hk hgroup => ?_⟩
    obtain ⟨b, -, hb, hbkey, hbloc⟩ := mem_selectOrphans hk
    have horphan := orphanPredicate_congr ha hkey (hbkey.trans hgroup.1)
      (hbloc.trans hgroup.2) hb
    simp [hpred] at horphan

end GcState
end Orphans

/-- One docker repository: the tag `latest` of an index whose child is an index of its own, which
lists the image `sha256:c`. The image has a layer and its artifact row was deleted by retention. -/
def nestedIndex : GcState where
  now := 0
  repositories _ := ⟨"s3", "bucket"⟩
  blobs := [⟨1, "sha256:l", 10, 0, none⟩]
  tags := [(⟨1, "app", "latest"⟩, "sha256:a")]
  blobRefs := [⟨"sha256:c", "sha256:l", 1, .layer⟩]
  manifestRefs := [⟨"sha256:a", "sha256:b", 1⟩, ⟨"sha256:b", "sha256:c", 1⟩]
  objects _ _ := true
  locks := []
  pushing := []
  relied _ := none

def deletedImage : ArtifactRow :=
  ⟨20, 1, "v2/app/manifests/sha256:c", none, "oci-manifests/sha256:c", 500, true⟩

/-- The image is two edges below the tag: its layer reference is pruned and its row selected. -/
theorem nested_image_collected :
    nestedIndex.Reachable 1 "sha256:c" ∧ nestedIndex.pruneOrphanBlobRefs.blobRefs = [] ∧
      nestedIndex.orphanPredicate [deletedImage] deletedImage = true ∧
      ¬ nestedIndex.KeepsReachable [deletedImage] := by
  have hreach : nestedIndex.Reachable 1 "sha256:c" :=
    ⟨"sha256:a", by decide, .tail (.tail .refl ⟨_, List.mem_cons_self, rfl, rfl, rfl⟩)
      ⟨_, List.mem_cons_of_mem _ List.mem_cons_self, rfl, rfl, rfl⟩⟩
  have hrow : nestedIndex.orphanPredicate [deletedImage] deletedImage = true := by decide
  refine ⟨hreach, by decide, hrow, fun hkeeps => ?_⟩
  have hpred := (hkeeps.2 deletedImage List.mem_cons_self "sha256:c" rfl hreach).1
  simp [hrow] at hpred

end ArtifactKeeper.Gc
