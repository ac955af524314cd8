import ArtifactKeeper.Machine
import ArtifactKeeper.Auth.Claims
import Mathlib.Data.List.Basic

/-! Two-phase blob garbage collection beside manifest pushes and blob uploads. Each SQL transaction
is one step, except that of the sweep, which holds its row lock across the storage delete. -/

namespace ArtifactKeeper.Gc

abbrev Digest := String

structure StorageLocation where
  backend : String
  path : String
  deriving DecidableEq, Repr

/-- The store that `backend_for` resolves a location to: a filesystem tree per path, or the one
registered backend of that name, whatever the path. -/
def StorageLocation.store (l : StorageLocation) : StorageLocation :=
  if l.backend = "filesystem" then l else { l with path := "" }

/-- A row of `oci_blobs`. The object lies under `oci-blobs/<digest>` in the repository's store. -/
structure OciBlob where
  repositoryId : Uuid
  digest : Digest
  sizeBytes : ℤ
  createdAt : ℤ
  pendingDeleteAt : Option ℤ
  deriving DecidableEq, Repr

inductive RefKind where
  | config | layer
  deriving DecidableEq, Repr

/-- A row of `manifest_blob_refs`. -/
structure BlobRef where
  manifestDigest : Digest
  blobDigest : Digest
  repositoryId : Uuid
  kind : RefKind
  deriving DecidableEq, Repr

/-- A row of `oci_manifest_refs`. -/
structure ManifestRef where
  parentDigest : Digest
  childDigest : Digest
  repositoryId : Uuid
  deriving DecidableEq, Repr

/-- The unique key of `oci_tags`. -/
structure TagKey where
  repositoryId : Uuid
  name : String
  tag : String
  deriving DecidableEq, Repr

/-- The classification of a manifest body with the references extracted from it. -/
inductive ManifestClass where
  | index (children : List Digest)
  | image (refs : List (Digest × RefKind))
  | malformed
  deriving DecidableEq, Repr

def ManifestClass.blobs : ManifestClass → List Digest
  | .image refs => refs.map Prod.fst
  | .index _ | .malformed => []

structure Push where
  key : TagKey
  manifestDigest : Digest
  manifestClass : ManifestClass
  deriving DecidableEq, Repr

/-- The row lock of a sweep that has re-checked its row; `objectDeleted` once its storage delete
has run. -/
structure SweepLock where
  holder : ℕ
  repositoryId : Uuid
  digest : Digest
  objectDeleted : Bool
  deriving DecidableEq, Repr

/-- The tables and the stored blob objects. `pushing` lists the pushes in flight that found a row
and an object for every blob when they began; `relied` gives, for a tag that such a push committed,
the blobs of its manifest. -/
structure GcState where
  now : ℤ
  repositories : Uuid → StorageLocation
  blobs : List OciBlob
  tags : List (TagKey × Digest)
  blobRefs : List BlobRef
  manifestRefs : List ManifestRef
  objects : StorageLocation → Digest → Bool
  locks : List SweepLock
  pushing : List (ℕ × Push)
  relied : TagKey → Option (List Digest)

def minBlobAgeSecs : ℤ := 24 * 60 * 60

namespace GcState

def storeOf (s : GcState) (repositoryId : Uuid) : StorageLocation :=
  (s.repositories repositoryId).store

/-- `BLOB_PROTECTED_BY_REFS_SQL`: same backend, and the same path on the filesystem. -/
def blobProtected (s : GcState) (ob : OciBlob) : Bool :=
  s.blobRefs.any fun r =>
    let mr := s.repositories r.repositoryId
    let l := s.repositories ob.repositoryId
    r.blobDigest == ob.digest && mr.backend == l.backend &&
      (l.backend != "filesystem" || mr.path == l.path)

/-- A row of `oci_tags` of the repository points to the manifest. -/
def tagged (s : GcState) (repositoryId : Uuid) (manifestDigest : Digest) : Bool :=
  s.tags.any fun t => t.1.repositoryId == repositoryId && t.2 == manifestDigest

def pruneOrphanBlobRefs (s : GcState) : GcState :=
  { s with blobRefs := s.blobRefs.filter fun r =>
      s.tagged r.repositoryId r.manifestDigest ||
        s.manifestRefs.any fun m => m.repositoryId == r.repositoryId &&
          m.childDigest == r.manifestDigest && s.tagged m.repositoryId m.parentDigest }

def selectOrphanBlobs (s : GcState) : List OciBlob :=
  s.blobs.filter fun ob =>
    decide (ob.createdAt < s.now - minBlobAgeSecs * 1000) && !s.blobProtected ob

def selectPendingDeleteBlobs (s : GcState) (sweepGraceSecs : ℤ) : List OciBlob :=
  s.blobs.filter fun ob =>
    (ob.pendingDeleteAt.any fun t => decide (t < s.now - sweepGraceSecs * 1000)) &&
      !s.blobProtected ob

/-- `is_blob_still_orphan` after its row lock; over no row at all it is `false`. -/
def isBlobStillOrphan (s : GcState) (repositoryId : Uuid) (digest : Digest)
    (requirePendingMark : Bool) : Bool :=
  let rows := s.blobs.filter fun ob => ob.repositoryId == repositoryId && ob.digest == digest &&
    (!requirePendingMark || ob.pendingDeleteAt.isSome)
  !rows.isEmpty && rows.all fun ob => !s.blobProtected ob

def isLocked (s : GcState) (repositoryId : Uuid) (digest : Digest) : Bool :=
  s.locks.any fun k => k.repositoryId == repositoryId && k.digest == digest

def updateBlob (s : GcState) (repositoryId : Uuid) (digest : Digest) (f : OciBlob → OciBlob) :
    GcState :=
  { s with blobs := s.blobs.map fun ob =>
      if ob.repositoryId = repositoryId ∧ ob.digest = digest then f ob else ob }

def markBlob (s : GcState) (repositoryId : Uuid) (digest : Digest) : GcState :=
  s.updateBlob repositoryId digest fun ob =>
    { ob with pendingDeleteAt := ob.pendingDeleteAt.or (some s.now) }

/-- `INSERT INTO oci_blobs … ON CONFLICT DO UPDATE SET pending_delete_at = NULL`. -/
def recordBlob (s : GcState) (repositoryId : Uuid) (digest : Digest) (sizeBytes : ℤ) : GcState :=
  if (s.blobs.any fun ob => ob.repositoryId == repositoryId && ob.digest == digest) then
    s.updateBlob repositoryId digest fun ob => { ob with pendingDeleteAt := none }
  else { s with blobs := ⟨repositoryId, digest, sizeBytes, s.now, none⟩ :: s.blobs }

/-- Insert rows that are not there yet. -/
def insertMissing {α : Type} [DecidableEq α] (old new : List α) : List α :=
  new.foldl (fun acc x => if x ∈ acc then acc else x :: acc) old

/-- `ON CONFLICT (manifest_digest, blob_digest, repository_id) DO NOTHING`. -/
def insertBlobRefs (old : List BlobRef) (p : Push) (refs : List (Digest × RefKind)) :
    List BlobRef :=
  refs.foldl (fun acc x =>
    if acc.any fun r => r.manifestDigest == p.manifestDigest && r.blobDigest == x.1 &&
      r.repositoryId == p.key.repositoryId then acc
    else ⟨p.manifestDigest, x.1, p.key.repositoryId, x.2⟩ :: acc) old

/-- The transaction of `persist_tag_and_refs`, once it has its row locks. -/
def persistTagAndRefs (s : GcState) (p : Push) : GcState :=
  let tagged := { s with
    tags := (p.key, p.manifestDigest) :: s.tags.filter fun t => t.1 != p.key }
  match p.manifestClass with
  | .index children =>
    let edges := children.map fun c => ⟨p.manifestDigest, c, p.key.repositoryId⟩
    { tagged with manifestRefs := insertMissing s.manifestRefs edges }
  | .image [] => tagged
  | .image refs => { tagged with
      blobs := s.blobs.map fun ob =>
        if ob.repositoryId = p.key.repositoryId ∧ ob.digest ∈ p.manifestClass.blobs then
          { ob with pendingDeleteAt := none } else ob
      blobRefs := insertBlobRefs s.blobRefs p refs }
  | .malformed => tagged

/-- Every blob of the manifest has a row in the repository and an object in its store. -/
def hasAllBlobs (s : GcState) (p : Push) : Bool :=
  p.manifestClass.blobs.all fun d =>
    (s.blobs.any fun ob => ob.repositoryId == p.key.repositoryId && ob.digest == d) &&
      s.objects (s.storeOf p.key.repositoryId) d

def setObject (s : GcState) (store : StorageLocation) (digest : Digest) (present : Bool) :
    GcState :=
  { s with objects := fun l d => if l = store ∧ d = digest then present else s.objects l d }

end GcState

inductive GcProc where
  | idle
  | pushing (p : Push)
  | uploading (repositoryId : Uuid) (digest : Digest) (sizeBytes : ℤ)
  | markSelect
  | marking (rows : List OciBlob)
  | sweeping (rows : List OciBlob)
  | sweepLocked (row : OciBlob) (rows : List OciBlob)
  | sweepDeleted (row : OciBlob) (rows : List OciBlob)
  | finished

/-- How a storage delete ends. A failure may come before or after the object is gone. -/
inductive DeleteOutcome where
  | deleted
  | failed (removed : Bool)
  deriving DecidableEq, Repr

inductive GcAction where
  | tick (ms : ℕ)
  | push (p : Push)
  | commitPush
  | failPush
  | deleteTag (key : TagKey)
  | putObject (repositoryId : Uuid) (digest : Digest) (sizeBytes : ℤ)
  | recordRow
  | prune
  | selectOrphans
  | markNext
  | selectPending (sweepGraceSecs : ℤ)
  | lockNext
  | deleteObject (outcome : DeleteOutcome)
  | commitSweep (ok : Bool)

/-- The pass goes on with the rows that are left. -/
def afterSweep (rows : List OciBlob) : GcProc :=
  match rows with
  | [] => .finished
  | _ => .sweeping rows

def GcState.unlock (s : GcState) (p : ℕ) : GcState :=
  { s with locks := s.locks.filter fun k => k.holder != p }

/-- Pushes, uploads, marking passes and sweeps on any repositories of one deployment. -/
def gcProtocol : Protocol GcState GcProc GcAction where
  step p s l a :=
    match l, a with
    | l, .tick ms => some ({ s with now := s.now + ms }, l)
    | .idle, .push push =>
      some (if s.hasAllBlobs push then { s with pushing := (p, push) :: s.pushing } else s,
        .pushing push)
    | .pushing push, .commitPush =>
      -- `SELECT … FOR UPDATE` on the referenced rows waits for a sweep that holds one of them
      if (push.manifestClass.blobs.any fun d => s.isLocked push.key.repositoryId d) then none
      else some ({ s.persistTagAndRefs push with
          pushing := s.pushing.filter fun x => x.1 != p
          relied := Function.update s.relied push.key
            (if (p, push) ∈ s.pushing then some push.manifestClass.blobs else none) }, .finished)
    | .pushing _, .failPush =>
      some ({ s with pushing := s.pushing.filter fun x => x.1 != p }, .finished)
    | .idle, .deleteTag key =>
      some ({ s with
        tags := s.tags.filter fun t => t.1 != key
        relied := Function.update s.relied key none }, .finished)
    | .idle, .putObject repositoryId digest sizeBytes =>
      some (s.setObject (s.storeOf repositoryId) digest true,
        .uploading repositoryId digest sizeBytes)
    | .uploading repositoryId digest sizeBytes, .recordRow =>
      if s.isLocked repositoryId digest then none
      else some (s.recordBlob repositoryId digest sizeBytes, .finished)
    | .idle, .prune => some (s.pruneOrphanBlobRefs, .markSelect)
    | .markSelect, .selectOrphans => some (s, .marking s.selectOrphanBlobs)
    | .marking [], .markNext => some (s, .finished)
    | .marking (row :: rows), .markNext =>
      if s.isLocked row.repositoryId row.digest then none
      else some (if s.isBlobStillOrphan row.repositoryId row.digest false then
          s.markBlob row.repositoryId row.digest else s, .marking rows)
    | .idle, .selectPending sweepGraceSecs =>
      some (s, afterSweep (s.selectPendingDeleteBlobs sweepGraceSecs))
    | .sweeping (row :: rows), .lockNext =>
      if s.isLocked row.repositoryId row.digest then none
      else if s.isBlobStillOrphan row.repositoryId row.digest true then
        some ({ s with locks := ⟨p, row.repositoryId, row.digest, false⟩ :: s.locks },
          .sweepLocked row rows)
      else some (s, afterSweep rows)
    | .sweepLocked row rows, .deleteObject .deleted =>
      let gone := s.setObject (s.storeOf row.repositoryId) row.digest false
      some ({ gone with locks := s.locks.map fun k =>
        if k.holder = p then { k with objectDeleted := true } else k }, .sweepDeleted row rows)
    | .sweepLocked row rows, .deleteObject (.failed removed) =>
      some ((if removed then s.setObject (s.storeOf row.repositoryId) row.digest false
        else s).unlock p, afterSweep rows)
    | .sweepDeleted row rows, .commitSweep ok =>
      some (if ok then { s.unlock p with blobs := s.blobs.filter fun ob =>
          !(ob.repositoryId == row.repositoryId && ob.digest == row.digest &&
            ob.pendingDeleteAt.isSome) }
        else s.unlock p, afterSweep rows)
    | _, _ => none

/-- A sweep that has re-checked its row and not yet deleted the object is about a blob of the
push. -/
def conflicts (s : GcState) (k : SweepLock) (push : Push) : Bool :=
  !k.objectDeleted && s.storeOf k.repositoryId == s.storeOf push.key.repositoryId &&
    push.manifestClass.blobs.contains k.digest

/-- The push a step begins. -/
def begunPush : GcProc → GcAction → Option Push
  | .idle, .push push => some push
  | _, _ => none

/-- The row a step of a sweep locks and re-checks. -/
def rowToLock : GcProc → GcAction → Option OciBlob
  | .sweeping (row :: _), .lockNext => some row
  | _, _ => none

/-- No push that finds all its blobs begins while a sweep is between the re-check of one of them
and its storage delete, and no sweep finds in its re-check that a blob is an orphan to which such a
push in flight refers. -/
def noSweepRace (w : World GcState GcProc) (a : ℕ × GcAction) : Prop :=
  (∀ push ∈ begunPush (w.procs a.1) a.2, w.shared.hasAllBlobs push = true →
      ∀ k ∈ w.shared.locks, conflicts w.shared k push = false) ∧
    ∀ row ∈ rowToLock (w.procs a.1) a.2,
      w.shared.isBlobStillOrphan row.repositoryId row.digest true = true →
      ∀ x ∈ w.shared.pushing,
        conflicts w.shared ⟨a.1, row.repositoryId, row.digest, false⟩ x.2 = false

instance (w : World GcState GcProc) (a : ℕ × GcAction) : Decidable (noSweepRace w a) :=
  inferInstanceAs (Decidable (_ ∧ _))

section Invariant
variable {s s' : GcState}

/-- The tag points to a manifest whose blobs are recorded as its references and stored. -/
def TagServed (s : GcState) (key : TagKey) (ds : List Digest) : Prop :=
  ∃ m, (key, m) ∈ s.tags ∧ ∀ d ∈ ds,
    (∃ r ∈ s.blobRefs, r.manifestDigest = m ∧ r.blobDigest = d ∧
      r.repositoryId = key.repositoryId) ∧
    s.objects (s.storeOf key.repositoryId) d = true

structure GcInv (s : GcState) : Prop where
  served : ∀ key ds, s.relied key = some ds → TagServed s key ds
  spared : ∀ k ∈ s.locks, k.objectDeleted = false → ∀ key ds, s.relied key = some ds →
    s.storeOf k.repositoryId = s.storeOf key.repositoryId → k.digest ∉ ds
  apart : ∀ k ∈ s.locks, ∀ x ∈ s.pushing, conflicts s k x.2 = false
  present : ∀ x ∈ s.pushing, ∀ d ∈ x.2.manifestClass.blobs,
    s.objects (s.storeOf x.2.key.repositoryId) d = true

/-- A sweep about to delete an object holds its lock. -/
def GcProcOk (p : ℕ) (l : GcProc) (s : GcState) : Prop :=
  match l with
  | .sweepLocked row _ => ⟨p, row.repositoryId, row.digest, false⟩ ∈ s.locks
  | .idle | .pushing _ | .uploading _ _ _ | .markSelect | .marking _ | .sweeping _
  | .sweepDeleted _ _ | .finished => True

theorem conflicts_eq_false {k : SweepLock} {push : Push} (hk : k.objectDeleted = false)
    (hs : s.storeOf k.repositoryId = s.storeOf push.key.repositoryId) :
    conflicts s k push = false ↔ k.digest ∉ push.manifestClass.blobs := by
  simp [conflicts, hk, hs]

/-- Locations of one store protect each other's blobs. -/
theorem store_eq {l l' : StorageLocation} (h : l.store = l'.store) :
    l.backend = l'.backend ∧ (l'.backend ≠ "filesystem" ∨ l.path = l'.path) := by
  unfold StorageLocation.store at h
  split at h <;> split at h
  · exact h ▸ ⟨rfl, .inr rfl⟩
  · next hl hl' =>
    rw [StorageLocation.mk.injEq] at h
    exact absurd (h.1.symm.trans hl) hl'
  · next hl hl' =>
    rw [StorageLocation.mk.injEq] at h
    exact absurd (h.1.trans hl') hl
  · next hl hl' =>
    rw [StorageLocation.mk.injEq] at h
    exact ⟨h.1, .inl hl'⟩

theorem blobProtected_of_ref {ob : OciBlob} {r : BlobRef} (hr : r ∈ s.blobRefs)
    (hd : r.blobDigest = ob.digest)
    (hstore : s.storeOf r.repositoryId = s.storeOf ob.repositoryId) :
    s.blobProtected ob = true := by
  obtain ⟨hback, hpath⟩ := store_eq hstore
  refine List.any_eq_true.mpr ⟨r, hr, ?_⟩
  simpa [hd, hback] using hpath

/-- The re-check passes only if no reference in the store names the digest. -/
theorem not_referenced_of_orphan {repositoryId : Uuid} {digest : Digest} {req : Bool}
    (h : s.isBlobStillOrphan repositoryId digest req = true) {r : BlobRef} (hr : r ∈ s.blobRefs)
    (hd : r.blobDigest = digest) : s.storeOf repositoryId ≠ s.storeOf r.repositoryId := by
  intro hstore
  simp only [GcState.isBlobStillOrphan, Bool.and_eq_true, Bool.not_eq_true',
    List.isEmpty_eq_false_iff, List.all_eq_true] at h
  obtain ⟨hne, hall⟩ := h
  obtain ⟨ob, hob⟩ := List.exists_mem_of_ne_nil _ hne
  have hkey := (List.mem_filter.mp hob).2
  simp only [Bool.and_eq_true, beq_iff_eq] at hkey
  obtain ⟨⟨hrepo, hdig⟩, -⟩ := hkey
  have hprot := blobProtected_of_ref hr (hd.trans hdig.symm) (hrepo ▸ hstore.symm)
  rw [hall ob hob] at hprot
  cases hprot

theorem insertBlobRefs_mono (old : List BlobRef) (p : Push) (refs : List (Digest × RefKind)) :
    ∀ r ∈ old, r ∈ GcState.insertBlobRefs old p refs := by
  unfold GcState.insertBlobRefs
  induction refs generalizing old with
  | nil => exact fun r hr => hr
  | cons x rest ih =>
    intro r hr
    rw [List.foldl_cons]
    apply ih
    split
    · exact hr
    · exact List.mem_cons_of_mem _ hr

/-- After the insert every reference of the manifest is recorded. -/
theorem insertBlobRefs_mem (old : List BlobRef) (p : Push) (refs : List (Digest × RefKind)) :
    ∀ d ∈ refs.map Prod.fst, ∃ r ∈ GcState.insertBlobRefs old p refs,
      r.manifestDigest = p.manifestDigest ∧ r.blobDigest = d ∧
        r.repositoryId = p.key.repositoryId := by
  induction refs generalizing old with
  | nil => exact fun d hd => (List.not_mem_nil hd).elim
  | cons x rest ih =>
    intro d hd
    rw [List.map_cons] at hd
    rcases List.mem_cons.mp hd with rfl | hrest
    · have hstep : GcState.insertBlobRefs old p (x :: rest) =
          GcState.insertBlobRefs (GcState.insertBlobRefs old p [x]) p rest := rfl
      have hhead : ∃ r ∈ GcState.insertBlobRefs old p [x], r.manifestDigest = p.manifestDigest ∧
          r.blobDigest = x.1 ∧ r.repositoryId = p.key.repositoryId := by
        simp only [GcState.insertBlobRefs, List.foldl_cons, List.foldl_nil]
        split
        · next hany =>
          obtain ⟨r, hr, heq⟩ := List.any_eq_true.mp hany
          simp only [Bool.and_eq_true, beq_iff_eq] at heq
          exact ⟨r, hr, heq.1.1, heq.1.2, heq.2⟩
        · exact ⟨_, List.mem_cons_self, rfl, rfl, rfl⟩
      obtain ⟨r, hr, heq⟩ := hhead
      exact ⟨r, hstep ▸ insertBlobRefs_mono _ p rest r hr, heq⟩
    · exact ih _ d hrest

/-- What the transaction of a push leaves. -/
structure Persisted (s s' : GcState) (p : Push) : Prop where
  repositories : s'.repositories = s.repositories
  objects : s'.objects = s.objects
  locks : s'.locks = s.locks
  tagged : (p.key, p.manifestDigest) ∈ s'.tags
  tags : ∀ t ∈ s.tags, t.1 ≠ p.key → t ∈ s'.tags
  refs : ∀ r ∈ s.blobRefs, r ∈ s'.blobRefs
  recorded : ∀ d ∈ p.manifestClass.blobs, ∃ r ∈ s'.blobRefs,
    r.manifestDigest = p.manifestDigest ∧ r.blobDigest = d ∧ r.repositoryId = p.key.repositoryId

theorem persistTagAndRefs_persisted (s : GcState) (p : Push) :
    Persisted s (s.persistTagAndRefs p) p := by
  have htags : ∀ t ∈ s.tags, t.1 ≠ p.key →
      t ∈ (p.key, p.manifestDigest) :: s.tags.filter fun t => t.1 != p.key := fun t ht hne =>
    List.mem_cons_of_mem _ (List.mem_filter.mpr ⟨ht, by simpa using hne⟩)
  unfold GcState.persistTagAndRefs
  split
  · next hc =>
    refine ⟨rfl, rfl, rfl, List.mem_cons_self, htags, fun _ hr => hr, ?_⟩
    simp [hc, ManifestClass.blobs]
  · next hc =>
    refine ⟨rfl, rfl, rfl, List.mem_cons_self, htags, fun _ hr => hr, ?_⟩
    simp [hc, ManifestClass.blobs]
  · next refs _ hc =>
    refine ⟨rfl, rfl, rfl, List.mem_cons_self, htags, insertBlobRefs_mono _ p refs, ?_⟩
    rw [hc]
    exact insertBlobRefs_mem s.blobRefs p refs
  · next hc =>
    refine ⟨rfl, rfl, rfl, List.mem_cons_self, htags, fun _ hr => hr, ?_⟩
    simp [hc, ManifestClass.blobs]

theorem GcInv.blobs (h : GcInv s) (now : ℤ) (blobs : List OciBlob) :
    GcInv { s with now := now, blobs := blobs } where
  served := h.served
  spared := h.spared
  apart := h.apart
  present := h.present

theorem GcInv.begin (h : GcInv s) {p : ℕ} {push : Push} (hall : s.hasAllBlobs push = true)
    (hfree : ∀ k ∈ s.locks, conflicts s k push = false) :
    GcInv { s with pushing := (p, push) :: s.pushing } where
  served := h.served
  spared := h.spared
  apart k hk x hx := by
    rcases List.mem_cons.mp hx with rfl | hx
    · exact hfree k hk
    · exact h.apart k hk x hx
  present x hx d hd := by
    rcases List.mem_cons.mp hx with rfl | hx
    · have hboth := List.all_eq_true.mp hall d hd
      exact (Bool.and_eq_true_iff.mp hboth).2
    · exact h.present x hx d hd

/-- Committing a push makes its tag relied on if all its blobs were there when it began. -/
theorem GcInv.commit (h : GcInv s) (p : ℕ) (push : Push) :
    GcInv { s.persistTagAndRefs push with
      pushing := s.pushing.filter fun x => x.1 != p
      relied := Function.update s.relied push.key
        (if (p, push) ∈ s.pushing then some push.manifestClass.blobs else none) } := by
  have hp := persistTagAndRefs_persisted s push
  have hstore : ∀ r, (s.persistTagAndRefs push).storeOf r = s.storeOf r := fun r => by
    simp only [GcState.storeOf, hp.repositories]
  -- what `relied` says about the pushed tag, and about every other one
  have hrelied : ∀ key ds, Function.update s.relied push.key
      (if (p, push) ∈ s.pushing then some push.manifestClass.blobs else none) key = some ds →
      (key = push.key ∧ (p, push) ∈ s.pushing ∧ ds = push.manifestClass.blobs) ∨
        (key ≠ push.key ∧ s.relied key = some ds) := by
    intro key ds hds
    by_cases hkey : key = push.key
    · subst hkey
      rw [Function.update_self, Option.ite_none_right_eq_some, Option.some.injEq] at hds
      exact .inl ⟨rfl, hds.1, hds.2.symm⟩
    · rw [Function.update_of_ne hkey] at hds
      exact .inr ⟨hkey, hds⟩
  constructor
  · intro key ds hds
    rcases hrelied key ds hds with ⟨rfl, hmem, rfl⟩ | ⟨hne, hold⟩
    · refine ⟨push.manifestDigest, hp.tagged, fun d hd => ⟨hp.recorded d hd, ?_⟩⟩
      have hobj := h.present (p, push) hmem d hd
      rw [← hp.objects, ← hstore] at hobj
      exact hobj
    · obtain ⟨m, hm, hall⟩ := h.served key ds hold
      refine ⟨m, hp.tags _ hm hne, fun d hd => ?_⟩
      obtain ⟨⟨r, hr, heq⟩, hobj⟩ := hall d hd
      rw [← hp.objects, ← hstore] at hobj
      exact ⟨⟨r, hp.refs r hr, heq⟩, hobj⟩
  · intro k hk hdel key ds hds hsame
    have hk' : k ∈ s.locks := hp.locks ▸ hk
    have hsame' : s.storeOf k.repositoryId = s.storeOf key.repositoryId := by
      rw [← hstore, ← hstore]
      exact hsame
    rcases hrelied key ds hds with ⟨rfl, hmem, rfl⟩ | ⟨-, hold⟩
    · exact (conflicts_eq_false hdel hsame').mp (h.apart k hk' (p, push) hmem)
    · exact h.spared k hk' hdel key ds hold hsame'
  · intro k hk x hx
    have hc := h.apart k (hp.locks ▸ hk) x (List.mem_of_mem_filter hx)
    rw [conflicts, ← hstore, ← hstore] at hc
    exact hc
  · intro x hx d hd
    have hobj := h.present x (List.mem_of_mem_filter hx) d hd
    rw [← hp.objects, ← hstore] at hobj
    exact hobj

theorem GcInv.abandon (h : GcInv s) (p : ℕ) :
    GcInv { s with pushing := s.pushing.filter fun x => x.1 != p } where
  served := h.served
  spared := h.spared
  apart k hk x hx := h.apart k hk x (List.mem_of_mem_filter hx)
  present x hx := h.present x (List.mem_of_mem_filter hx)

theorem GcInv.deleteTag (h : GcInv s) (key : TagKey) :
    GcInv { s with
      tags := s.tags.filter fun t => t.1 != key
      relied := Function.update s.relied key none } := by
  have hrelied : ∀ key' ds, Function.update s.relied key none key' = some ds →
      key' ≠ key ∧ s.relied key' = some ds := by
    intro key' ds hds
    by_cases hkey : key' = key
    · rw [hkey, Function.update_self] at hds
      cases hds
    · rw [Function.update_of_ne hkey] at hds
      exact ⟨hkey, hds⟩
  refine ⟨fun key' ds hds => ?_, fun k hk hdel key' ds hds => ?_, h.apart, h.present⟩
  · obtain ⟨hne, hold⟩ := hrelied key' ds hds
    obtain ⟨m, hm, hall⟩ := h.served key' ds hold
    exact ⟨m, List.mem_filter.mpr ⟨hm, by simpa using hne⟩, hall⟩
  · exact h.spared k hk hdel key' ds (hrelied key' ds hds).2

theorem setObject_true (store : StorageLocation) (digest : Digest) {l : StorageLocation}
    {d : Digest} (h : s.objects l d = true) :
    (s.setObject store digest true).objects l d = true := by
  simp only [GcState.setObject]
  split
  · rfl
  · exact h

theorem setObject_of_ne {store l : StorageLocation} {digest d : Digest} (present : Bool)
    (h : ¬ (l = store ∧ d = digest)) :
    (s.setObject store digest present).objects l d = s.objects l d := by
  simp only [GcState.setObject, if_neg h]

theorem GcInv.put (h : GcInv s) (store : StorageLocation) (digest : Digest) :
    GcInv (s.setObject store digest true) where
  served key ds hds := by
    obtain ⟨m, hm, hall⟩ := h.served key ds hds
    exact ⟨m, hm, fun d hd => ⟨(hall d hd).1, setObject_true store digest (hall d hd).2⟩⟩
  spared := h.spared
  apart := h.apart
  present x hx d hd := setObject_true store digest (h.present x hx d hd)

/-- Pruning keeps the references of every tagged manifest. -/
theorem GcInv.prune (h : GcInv s) : GcInv s.pruneOrphanBlobRefs where
  served key ds hds := by
    obtain ⟨m, hm, hall⟩ := h.served key ds hds
    refine ⟨m, hm, fun d hd => ?_⟩
    obtain ⟨⟨r, hr, hrm, hrd, hrr⟩, hobj⟩ := hall d hd
    have htagged : s.tagged r.repositoryId r.manifestDigest = true := by
      refine List.any_eq_true.mpr ⟨(key, m), hm, ?_⟩
      simp [hrm, hrr]
    refine ⟨⟨r, List.mem_filter.mpr ⟨hr, ?_⟩, hrm, hrd, hrr⟩, hobj⟩
    rw [htagged, Bool.true_or]
  spared := h.spared
  apart := h.apart
  present := h.present

/-- A row that passes the re-check belongs to no relied tag. -/
theorem GcInv.lock (h : GcInv s) {p : ℕ} {row : OciBlob}
    (horphan : s.isBlobStillOrphan row.repositoryId row.digest true = true)
    (hfree : ∀ x ∈ s.pushing,
      conflicts s ⟨p, row.repositoryId, row.digest, false⟩ x.2 = false) :
    GcInv { s with locks := ⟨p, row.repositoryId, row.digest, false⟩ :: s.locks } where
  served := h.served
  spared k hk hdel key ds hds hsame := by
    rcases List.mem_cons.mp hk with rfl | hk
    · intro hmem
      obtain ⟨m, -, hall⟩ := h.served key ds hds
      obtain ⟨⟨r, hr, -, hrd, hrr⟩, -⟩ := hall row.digest hmem
      exact not_referenced_of_orphan horphan hr hrd (hsame.trans (by rw [hrr]; rfl))
    · exact h.spared k hk hdel key ds hds hsame
  apart k hk x hx := by
    rcases List.mem_cons.mp hk with rfl | hk
    · exact hfree x hx
    · exact h.apart k hk x hx
  present := h.present

/-- The object that a sweep deletes under its lock is nobody's. -/
theorem GcInv.remove (h : GcInv s) {p : ℕ} {repositoryId : Uuid} {digest : Digest}
    (hk : ⟨p, repositoryId, digest, false⟩ ∈ s.locks) :
    GcInv (s.setObject (s.storeOf repositoryId) digest false) where
  served key ds hds := by
    obtain ⟨m, hm, hall⟩ := h.served key ds hds
    refine ⟨m, hm, fun d hd => ⟨(hall d hd).1, ?_⟩⟩
    refine (setObject_of_ne false fun hsame => ?_).trans (hall d hd).2
    exact h.spared _ hk rfl key ds hds hsame.1.symm (hsame.2 ▸ hd)
  spared := h.spared
  apart := h.apart
  present x hx d hd := by
    refine (setObject_of_ne false fun hsame => ?_).trans (h.present x hx d hd)
    exact (conflicts_eq_false rfl hsame.1.symm).mp (h.apart _ hk x hx) (hsame.2 ▸ hd)

/-- Releasing a lock, or noting that its object is deleted, costs nothing. -/
theorem GcInv.relax (h : GcInv s) {locks : List SweepLock}
    (hsub : ∀ k ∈ locks, k.objectDeleted = false → k ∈ s.locks) :
    GcInv { s with locks := locks } where
  served := h.served
  spared k hk hdel := h.spared k (hsub k hk hdel) hdel
  apart k hk x hx := by
    cases hdel : k.objectDeleted with
    | true => simp [conflicts, hdel]
    | false => exact h.apart k (hsub k hk hdel) x hx
  present := h.present

theorem GcInv.unlock (h : GcInv s) (p : ℕ) : GcInv (s.unlock p) :=
  h.relax fun _ hk _ => List.mem_of_mem_filter hk

theorem afterSweep_ok (p : ℕ) (rows : List OciBlob) (s : GcState) :
    GcProcOk p (afterSweep rows) s := by
  unfold afterSweep
  split <;> trivial

theorem GcInv.markBlob (h : GcInv s) (repositoryId : Uuid) (digest : Digest) :
    GcInv (s.markBlob repositoryId digest) :=
  h.blobs s.now _

theorem GcInv.recordBlob (h : GcInv s) (repositoryId : Uuid) (digest : Digest) (sizeBytes : ℤ) :
    GcInv (s.recordBlob repositoryId digest sizeBytes) ∧
      (s.recordBlob repositoryId digest sizeBytes).locks = s.locks := by
  unfold GcState.recordBlob
  split <;> exact ⟨h.blobs s.now _, rfl⟩

/-- Every step outside the race keeps the invariant, the assertion of the process that moves and
the locks of all others. -/
theorem gcProtocol_step {w : World GcState GcProc} {p : ℕ} {a : GcAction} {l' : GcProc}
    (h : GcInv w.shared) (hl : GcProcOk p (w.procs p) w.shared) (hok : noSweepRace w (p, a))
    (hs : gcProtocol.step p w.shared (w.procs p) a = some (s', l')) :
    GcInv s' ∧ GcProcOk p l' s' ∧ ∀ k ∈ w.shared.locks, k.holder ≠ p → k ∈ s'.locks := by
  have hsame : ∀ k ∈ w.shared.locks, k.holder ≠ p → k ∈ w.shared.locks := fun _ hk _ => hk
  have hunlock : ∀ k ∈ w.shared.locks, k.holder ≠ p → k ∈ (w.shared.unlock p).locks :=
    fun k hk hne => List.mem_filter.mpr ⟨hk, by simpa using hne⟩
  cases a with
  | tick ms =>
    cases hs
    exact ⟨h.blobs _ _, hl, hsame⟩
  | push push =>
    cases hp : w.procs p <;> rw [hp] at hs <;> cases hs
    split
    · next hall =>
      exact ⟨h.begin hall (hok.1 push (by rw [hp]; rfl) hall), trivial, hsame⟩
    · exact ⟨h, trivial, hsame⟩
  | commitPush =>
    cases hp : w.procs p <;> rw [hp] at hs <;> try cases hs
    simp only [gcProtocol, Option.ite_none_left_eq_some] at hs
    obtain ⟨-, hs⟩ := hs
    cases hs
    refine ⟨h.commit p _, trivial, fun k hk _ => ?_⟩
    rw [← (persistTagAndRefs_persisted w.shared _).locks] at hk
    exact hk
  | failPush =>
    cases hp : w.procs p <;> rw [hp] at hs <;> cases hs
    exact ⟨h.abandon p, trivial, hsame⟩
  | deleteTag key =>
    cases hp : w.procs p <;> rw [hp] at hs <;> cases hs
    exact ⟨h.deleteTag key, trivial, hsame⟩
  | putObject repositoryId digest sizeBytes =>
    cases hp : w.procs p <;> rw [hp] at hs <;> cases hs
    exact ⟨h.put _ _, trivial, hsame⟩
  | recordRow =>
    cases hp : w.procs p <;> rw [hp] at hs <;> try cases hs
    simp only [gcProtocol, Option.ite_none_left_eq_some] at hs
    obtain ⟨-, hs⟩ := hs
    cases hs
    obtain ⟨hinv, hlocks⟩ := h.recordBlob _ _ _
    exact ⟨hinv, trivial, fun k hk _ => hlocks ▸ hk⟩
  | prune =>
    cases hp : w.procs p <;> rw [hp] at hs <;> cases hs
    exact ⟨h.prune, trivial, hsame⟩
  | selectOrphans =>
    cases hp : w.procs p <;> rw [hp] at hs <;> cases hs
    exact ⟨h, trivial, hsame⟩
  | markNext =>
    cases hp : w.procs p with
    | marking rows =>
      rw [hp] at hs
      cases rows with
      | nil =>
        cases hs
        exact ⟨h, trivial, hsame⟩
      | cons row rows =>
        simp only [gcProtocol, Option.ite_none_left_eq_some] at hs
        obtain ⟨-, hs⟩ := hs
        cases hs
        split
        · exact ⟨h.markBlob _ _, trivial, hsame⟩
        · exact ⟨h, trivial, hsame⟩
    | idle | pushing _ | uploading _ _ _ | markSelect | sweeping _ | sweepLocked _ _
    | sweepDeleted _ _ | finished =>
      rw [hp] at hs
      cases hs
  | selectPending sweepGraceSecs =>
    cases hp : w.procs p <;> rw [hp] at hs <;> cases hs
    exact ⟨h, afterSweep_ok p _ _, hsame⟩
  | lockNext =>
    cases hp : w.procs p with
    | sweeping rows =>
      rw [hp] at hs
      cases rows with
      | nil => cases hs
      | cons row rows =>
        simp only [gcProtocol, Option.ite_none_left_eq_some] at hs
        obtain ⟨-, hs⟩ := hs
        split at hs
        · next horphan =>
          cases hs
          exact ⟨h.lock horphan (hok.2 row (by rw [hp]; rfl) horphan), List.mem_cons_self,
            fun k hk _ => List.mem_cons_of_mem _ hk⟩
        · cases hs
          exact ⟨h, afterSweep_ok p rows _, hsame⟩
    | idle | pushing _ | uploading _ _ _ | markSelect | marking _ | sweepLocked _ _
    | sweepDeleted _ _ | finished =>
      rw [hp] at hs
      cases hs
  | deleteObject outcome =>
    cases hp : w.procs p with
    | sweepLocked row rows =>
      rw [hp] at hs hl
      have hremoved := h.remove hl
      cases outcome with
      | deleted =>
        cases hs
        refine ⟨hremoved.relax fun k hk hdel => ?_, trivial, fun k hk hne => ?_⟩
        · obtain ⟨k₀, hk₀, rfl⟩ := List.mem_map.mp hk
          split at hdel
          · cases hdel
          · next hne => rw [if_neg hne]; exact hk₀
        · exact List.mem_map.mpr ⟨k, hk, if_neg hne⟩
      | failed removed =>
        cases hs
        refine ⟨?_, afterSweep_ok p rows _, ?_⟩
        · split
          · exact hremoved.unlock p
          · exact h.unlock p
        · split <;> exact hunlock
    | idle | pushing _ | uploading _ _ _ | markSelect | marking _ | sweeping _
    | sweepDeleted _ _ | finished =>
      rw [hp] at hs
      cases outcome <;> cases hs
  | commitSweep ok =>
    cases hp : w.procs p <;> rw [hp] at hs <;> cases hs
    refine ⟨?_, afterSweep_ok p _ _, ?_⟩
    · split
      · exact (h.unlock p).blobs _ _
      · exact h.unlock p
    · split <;> exact hunlock

end Invariant

/-- Nothing in flight and no tag relied on yet; tables and objects are arbitrary. -/
def GcState.AtRest (s : GcState) : Prop :=
  s.locks = [] ∧ s.pushing = [] ∧ ∀ key, s.relied key = none

theorem GcState.AtRest.inv {s : GcState} (h : s.AtRest) : GcInv s := by
  obtain ⟨hlocks, hpushing, hrelied⟩ := h
  constructor
  · intro key ds hds
    rw [hrelied] at hds
    cases hds
  · intro k hk
    rw [hlocks] at hk
    cases hk
  · intro k hk
    rw [hlocks] at hk
    cases hk
  · intro x hx
    rw [hpushing] at hx
    cases hx

/-- Without the race, every blob of a pushed manifest stays in storage as long as its tag exists. -/
theorem pushed_blobs_stay {s₀ : GcState} (h₀ : s₀.AtRest) {w : World GcState GcProc}
    (h : gcProtocol.machine.Reach noSweepRace ⟨s₀, fun _ => .idle⟩ w) {key : TagKey}
    {ds : List Digest} (hkey : w.shared.relied key = some ds) :
    ∀ d ∈ ds, w.shared.objects (w.shared.storeOf key.repositoryId) d = true := by
  have hall := Protocol.reach_rely_guarantee (I := GcInv) (A := GcProcOk) h h₀.inv
    (fun _ => trivial) fun w p a s' l' hinv hl hok hs => by
      obtain ⟨hinv', hl', hlocks⟩ := gcProtocol_step hinv (hl p) hok hs
      refine ⟨hinv', hl', fun q hq => ?_⟩
      have hlq := hl q
      cases hproc : w.procs q with
      | sweepLocked row rows =>
        rw [hproc] at hlq
        exact hlocks _ hlq hq
      | idle | pushing _ | uploading _ _ _ | markSelect | marking _ | sweeping _
      | sweepDeleted _ _ | finished => trivial
  obtain ⟨m, -, hserved⟩ := hall.1.served key ds hkey
  exact fun d hd => (hserved d hd).2

/-- One blob, marked a second ago, whose object is stored in the bucket of repository 1. -/
def markedBlob : GcState where
  now := 0
  repositories _ := ⟨"s3", "repo"⟩
  blobs := [⟨1, "sha256:aa", 10, -100000000, some (-1000)⟩]
  tags := []
  blobRefs := []
  manifestRefs := []
  objects l d := l == ⟨"s3", ""⟩ && d == "sha256:aa"
  locks := []
  pushing := []
  relied _ := none

/-- A manifest whose only layer is that blob. -/
def layerPush : Push := ⟨⟨1, "app", "v1"⟩, "sha256:m", .image [("sha256:aa", .layer)]⟩

def markedBlobIdle : World GcState GcProc := ⟨markedBlob, fun _ => .idle⟩

/-- The sweep re-checks the row before the push commits and deletes the object; the push, which
found the blob when it began, waits for the row lock, finds no row any more and commits. -/
theorem pushed_blob_swept : ∃ w,
    gcProtocol.machine.run markedBlobIdle
      [(0, .push layerPush), (1, .selectPending 0), (1, .lockNext), (1, .deleteObject .deleted),
        (1, .commitSweep true), (0, .commitPush)] = some w ∧
      w.shared.relied layerPush.key = some ["sha256:aa"] ∧
      (layerPush.key, "sha256:m") ∈ w.shared.tags ∧
      w.shared.objects (w.shared.storeOf 1) "sha256:aa" = false := by
  refine ⟨_, rfl, ?_⟩
  decide

/-- The sweep selects the row, then the push commits, then the sweep re-checks. -/
def pushBeforeRecheck : List (ℕ × GcAction) :=
  [(1, .selectPending 0), (0, .push layerPush), (0, .commitPush), (1, .lockNext)]

theorem pushed_blob_spared : ∃ w,
    gcProtocol.machine.run markedBlobIdle pushBeforeRecheck = some w ∧
      w.shared.relied layerPush.key = some ["sha256:aa"] ∧
      w.shared.objects (w.shared.storeOf 1) "sha256:aa" = true := by
  have hmeets : gcProtocol.machine.Meets noSweepRace markedBlobIdle pushBeforeRecheck := by
    decide
  have hreach := fun w h => @Machine.reach_of_run _ _ _ _ markedBlobIdle w _ h hmeets
  have hrest : markedBlob.AtRest := ⟨rfl, rfl, fun _ => rfl⟩
  exact ⟨_, rfl, rfl, @pushed_blobs_stay markedBlob hrest _ (hreach _ rfl) layerPush.key _ rfl
    "sha256:aa" (by decide)⟩

end ArtifactKeeper.Gc
