import ArtifactKeeper.Oci.ReferencedContent

/-! What a migration walk leaves behind: its bounds, its termination, and when everything the root
refers to is registered. -/

namespace ArtifactKeeper.Oci
open Gc (Digest GcState ManifestClass TagKey Push)
open Relation

namespace WalkEnv
variable (env : WalkEnv) (caps : WalkCaps) (st₀ : WalkState) (root : ManifestClass)

def children : ManifestClass → List Digest
  | .index children => children
  | .image _ | .malformed => []

/-- What the walk would read as the body of the manifest. -/
def HasBody (d : Digest) (body : Body) : Prop :=
  ∃ fetched, env.childBody (st₀.manifests d) d = .ok (body, fetched)

/-- The manifest is an index that lists the child. -/
def Refers (d c : Digest) : Prop :=
  ∃ body, env.HasBody st₀ d body ∧ c ∈ children (env.classify body)

/-- Child manifests below the root, through indexes of any depth. -/
def ReachableManifest (d : Digest) : Prop :=
  ∃ c ∈ children root, ReflTransGen (env.Refers st₀) c d

/-- Config and layer blobs of the root and of the manifests below it. -/
def ReachableBlob (b : Digest) : Prop :=
  b ∈ root.blobs ∨ ∃ d body, env.ReachableManifest st₀ root d ∧ env.HasBody st₀ d body ∧
    b ∈ (env.classify body).blobs

def artifactPath (d : Digest) : String := "v2/" ++ env.image ++ "/manifests/" ++ d

/-- The manifest resolves by digest under the image and has its artifact row. -/
def Registered (st : WalkState) (d : Digest) : Prop :=
  ((⟨env.repositoryId, env.image, d⟩ : TagKey), d) ∈ st.db.tags ∧
    st.artifacts (env.artifactPath d) = some ("oci-manifests/" ++ d)

def HasBlob (st : WalkState) (b : Digest) : Prop :=
  st.hasRow env.repositoryId b = true ∧ st.hasObject env.repositoryId b = true

/-- Everything the root refers to is registered and stored. -/
def Complete (st : WalkState) : Prop :=
  (∀ d, env.ReachableManifest st₀ root d → env.Registered st d) ∧
    ∀ b, env.ReachableBlob st₀ root b → env.HasBlob st b

/-- Blob rows that were there before the walk have their object. -/
def RowsStored : Prop :=
  ∀ b, env.ReachableBlob st₀ root b → st₀.hasRow env.repositoryId b = true →
    st₀.hasObject env.repositoryId b = true

/-- No digest is referred to both as a blob and as a child manifest. -/
def RolesApart : Prop :=
  ∀ d, env.ReachableManifest st₀ root d → ¬ env.ReachableBlob st₀ root d

/-- A digest that is referred to both ways was not known before the walk, in neither role. -/
def Fresh : Prop :=
  ∀ d, env.ReachableManifest st₀ root d → env.ReachableBlob st₀ root d →
    ¬ env.Registered st₀ d ∧ st₀.hasRow env.repositoryId d = false

/-- The states between the turns of the loop. -/
inductive Passes : WalkState → Prop
  | seeded {st : WalkState} : env.expand caps (start st₀) 1 root = .ok st → Passes st
  | turn {st st' : WalkState} {d : Digest} {depth : ℕ} {rest : List (Digest × ℕ)} : Passes st →
      st.queue = (d, depth) :: rest → env.walkNext caps st d depth rest = .ok st' → Passes st'

end WalkEnv

section Db
variable {s : GcState} {repositoryId : Uuid} {d x : Digest}

theorem any_recordBlob {size : ℤ} :
    ((s.recordBlob repositoryId d size).blobs.any fun ob =>
      ob.repositoryId == repositoryId && ob.digest == x) = true ↔
      (s.blobs.any fun ob => ob.repositoryId == repositoryId && ob.digest == x) = true ∨ x = d := by
  unfold GcState.recordBlob
  split
  · next hrow =>
    have hmap : ((s.updateBlob repositoryId d fun ob =>
        { ob with pendingDeleteAt := none }).blobs.any
        fun ob => ob.repositoryId == repositoryId && ob.digest == x) =
        s.blobs.any fun ob => ob.repositoryId == repositoryId && ob.digest == x := by
      simp only [GcState.updateBlob, List.any_map]
      congr 1
      funext ob
      simp only [Function.comp]
      split <;> rfl
    rw [hmap]
    refine ⟨.inl, fun h => h.elim id ?_⟩
    rintro rfl
    exact hrow
  · simp only [List.any_cons, beq_self_eq_true, Bool.true_and, Bool.or_eq_true, beq_iff_eq]
    constructor
    · rintro (rfl | hold)
      · exact .inr rfl
      · exact .inl hold
    · rintro (hold | rfl)
      · exact .inr hold
      · exact .inl rfl

@[simp] theorem recordBlob_objects {size : ℤ} :
    (s.recordBlob repositoryId d size).objects = s.objects := by
  unfold GcState.recordBlob
  split <;> rfl

@[simp] theorem recordBlob_repositories {size : ℤ} :
    (s.recordBlob repositoryId d size).repositories = s.repositories := by
  unfold GcState.recordBlob
  split <;> rfl

@[simp] theorem recordBlob_tags {size : ℤ} :
    (s.recordBlob repositoryId d size).tags = s.tags := by
  unfold GcState.recordBlob
  split <;> rfl

@[simp] theorem persistTagAndRefs_objects (p : Push) :
    (s.persistTagAndRefs p).objects = s.objects := by
  unfold GcState.persistTagAndRefs
  dsimp only
  split <;> rfl

@[simp] theorem persistTagAndRefs_repositories (p : Push) :
    (s.persistTagAndRefs p).repositories = s.repositories := by
  unfold GcState.persistTagAndRefs
  dsimp only
  split <;> rfl

@[simp] theorem persistTagAndRefs_tags (p : Push) : (s.persistTagAndRefs p).tags =
    (p.key, p.manifestDigest) :: s.tags.filter fun t => t.1 != p.key := by
  unfold GcState.persistTagAndRefs
  dsimp only
  split <;> rfl

@[simp] theorem any_persistTagAndRefs (p : Push) :
    ((s.persistTagAndRefs p).blobs.any fun ob =>
      ob.repositoryId == repositoryId && ob.digest == x) =
      s.blobs.any fun ob => ob.repositoryId == repositoryId && ob.digest == x := by
  unfold GcState.persistTagAndRefs
  dsimp only
  split <;> try rfl
  simp only [List.any_map]
  congr 1
  funext ob
  simp only [Function.comp]
  split <;> rfl

end Db

/-- What a call of `ensure_blob` does, when it succeeds. -/
structure EnsureEffect (env : WalkEnv) (caps : WalkCaps) (st st' : WalkState) (d : Digest) :
    Prop where
  visited : st'.visited = if d ∈ st.visited then st.visited else d :: st.visited
  queue : st'.queue = st.queue
  manifests : st'.manifests = st.manifests
  artifacts : st'.artifacts = st.artifacts
  tags : st'.db.tags = st.db.tags
  repositories : st'.db.repositories = st.db.repositories
  childrenRegistered : st'.stats.childrenRegistered = st.stats.childrenRegistered
  row : ∀ x, st'.hasRow env.repositoryId x = true ↔
    st.hasRow env.repositoryId x = true ∨ x = d ∧ d ∉ st.visited
  object : ∀ x, st'.hasObject env.repositoryId x = true ↔ st.hasObject env.repositoryId x = true ∨
    x = d ∧ d ∉ st.visited ∧ st.hasRow env.repositoryId d = false
  bytes : st.stats.bytesFetched ≤ caps.maxTotalBytes → st'.stats.bytesFetched ≤ caps.maxTotalBytes

section Effects
variable {env : WalkEnv} {caps : WalkCaps} {st st' : WalkState} {d : Digest}

theorem fetchVerified_le {kind : OciContentKind} {cap : ℕ} {body : Body}
    (h : env.fetchVerified kind d cap = .ok body) : body.length ≤ cap := by
  unfold WalkEnv.fetchVerified at h
  split at h
  · cases h
  next body' hstream =>
  split at h
  · cases h
  cases h
  unfold WalkEnv.streamToTemp at hstream
  split at hstream
  · cases hstream
  split at hstream
  · cases hstream
  next hcap =>
  split at hstream
  · cases hstream
  · cases hstream
    omega

theorem putBlob_ok (h : env.putBlob st d = .ok st') :
    ∃ objects, st' = { st with db := { st.db with objects := objects } } ∧
      ∀ x, objects (st.db.storeOf env.repositoryId) x = true ↔
        st.hasObject env.repositoryId x = true ∨ x = d := by
  unfold WalkEnv.putBlob at h
  split at h
  · next hexists =>
    cases h
    refine ⟨st.db.objects, rfl, fun x => ⟨.inl, ?_⟩⟩
    rintro (hx | rfl)
    · exact hx
    · exact (Bool.and_eq_true _ _ ▸ hexists).1
  split at h
  · cases h
  · cases h
    refine ⟨_, rfl, fun x => ?_⟩
    by_cases hx : x = d <;> simp [hx, WalkState.hasObject]

theorem registerBlob_ok {size : ℕ} (h : env.registerBlob st d size = .ok st') : st' = { st with
    db := st.db.recordBlob env.repositoryId d size
    stats := { st.stats with
      blobsRegistered := st.stats.blobsRegistered + 1
      bytesFetched := st.stats.bytesFetched + size } } := by
  unfold WalkEnv.registerBlob at h
  split at h
  · cases h
  · exact (Except.ok.inj h).symm

/-- A digest visited before. -/
theorem EnsureEffect.ofVisited (hvisited : d ∈ st.visited) :
    EnsureEffect env caps st st.dedup d where
  visited := (if_pos hvisited).symm
  queue := rfl
  manifests := rfl
  artifacts := rfl
  tags := rfl
  repositories := rfl
  childrenRegistered := rfl
  row _ := ⟨.inl, fun h => h.elim id fun h => (h.2 hvisited).elim⟩
  object _ := ⟨.inl, fun h => h.elim id fun h => (h.2.1 hvisited).elim⟩
  bytes h := h

/-- A row that is already there; its object is taken for granted. -/
theorem EnsureEffect.ofRow (hvisited : d ∉ st.visited)
    (hrow : st.hasRow env.repositoryId d = true) :
    EnsureEffect env caps st (st.visit d).dedup d where
  visited := (if_neg hvisited).symm
  queue := rfl
  manifests := rfl
  artifacts := rfl
  tags := rfl
  repositories := rfl
  childrenRegistered := rfl
  row x := ⟨.inl, fun h => h.elim id fun h => h.1 ▸ hrow⟩
  object x := by
    refine ⟨.inl, fun h => h.elim id fun h => ?_⟩
    simp [hrow] at h
  bytes h := h

/-- A blob that is fetched within what remains of the budget. -/
theorem EnsureEffect.ofFetch (hvisited : d ∉ st.visited)
    (hrow : st.hasRow env.repositoryId d = false) {size : ℕ}
    {objects : Gc.StorageLocation → Digest → Bool}
    (hobjects : ∀ x, objects (st.db.storeOf env.repositoryId) x = true ↔
      st.hasObject env.repositoryId x = true ∨ x = d)
    (hsize : size ≤ caps.maxTotalBytes - st.stats.bytesFetched) :
    EnsureEffect env caps st { st.visit d with
      db := { st.db with objects := objects }.recordBlob env.repositoryId d size
      stats := { st.stats with
        blobsRegistered := st.stats.blobsRegistered + 1
        bytesFetched := st.stats.bytesFetched + size } } d where
  visited := (if_neg hvisited).symm
  queue := rfl
  manifests := rfl
  artifacts := rfl
  tags := recordBlob_tags
  repositories := recordBlob_repositories
  childrenRegistered := rfl
  row x := by
    refine any_recordBlob.trans ?_
    simp only [hvisited, not_false_eq_true, and_true]
    rfl
  object x := by
    simp only [WalkState.hasObject, recordBlob_objects, GcState.storeOf, recordBlob_repositories,
      hvisited, not_false_eq_true, hrow, and_self, and_true]
    exact hobjects x
  bytes h := by
    show st.stats.bytesFetched + size ≤ caps.maxTotalBytes
    omega

/-- Three ways to succeed: visited before, a row already there, or fetched and registered. -/
theorem ensureBlob_effect (h : env.ensureBlob caps st d = .ok st') :
    EnsureEffect env caps st st' d := by
  unfold WalkEnv.ensureBlob at h
  split at h
  · next hvisited =>
    cases h
    exact .ofVisited (by simpa using hvisited)
  next hvisited =>
  have hvisited : d ∉ st.visited := by simpa using hvisited
  split at h
  · cases h
  split at h
  · next hrow =>
    cases h
    exact .ofRow hvisited hrow
  next hrow =>
  split at h
  · cases h
  split at h
  · cases h
  dsimp only at h
  split at h
  · cases h
  next stored size hfetch =>
  unfold WalkEnv.fetchVerifyStoreBlob at hfetch
  split at hfetch
  · cases hfetch
  next body hbody =>
  split at hfetch
  · cases hfetch
  next stored' hput =>
  cases hfetch
  obtain ⟨objects, rfl, hobjects⟩ := putBlob_ok hput
  obtain rfl := registerBlob_ok h
  have hsize := fetchVerified_le hbody
  exact .ofFetch hvisited (Bool.eq_false_of_not_eq_true hrow) hobjects (by omega)

end Effects

/-- In the hands of the walk: visited or waiting. -/
def WalkState.Covered (st : WalkState) (c : Digest) : Prop :=
  c ∈ st.visited ∨ ∃ depth, (c, depth) ∈ st.queue

/-- What later states keep of earlier ones. -/
structure WalkGrows (env : WalkEnv) (st st' : WalkState) : Prop where
  visited : ∀ x ∈ st.visited, x ∈ st'.visited
  covered : ∀ x, st.Covered x → st'.Covered x
  registered : ∀ x, env.Registered st x → env.Registered st' x
  hasBlob : ∀ x, env.HasBlob st x → env.HasBlob st' x

theorem WalkGrows.refl (env : WalkEnv) (st : WalkState) : WalkGrows env st st :=
  ⟨fun _ h => h, fun _ h => h, fun _ h => h, fun _ h => h⟩

theorem WalkGrows.trans {env : WalkEnv} {st st' st'' : WalkState} (h : WalkGrows env st st')
    (h' : WalkGrows env st' st'') : WalkGrows env st st'' where
  visited x hx := h'.visited x (h.visited x hx)
  covered x hx := h'.covered x (h.covered x hx)
  registered x hx := h'.registered x (h.registered x hx)
  hasBlob x hx := h'.hasBlob x (h.hasBlob x hx)

/-- What holds of every state of a walk from `st₀`, whatever the references are. -/
structure WalkBase (env : WalkEnv) (caps : WalkCaps) (st₀ : WalkState) (root : ManifestClass)
    (st : WalkState) : Prop where
  manifests : ∀ d, d ∉ st.visited → st.manifests d = st₀.manifests d
  rowMono : ∀ x, st₀.hasRow env.repositoryId x = true → st.hasRow env.repositoryId x = true
  objectMono : ∀ x, st₀.hasObject env.repositoryId x = true →
    st.hasObject env.repositoryId x = true
  rowNew : ∀ x, st.hasRow env.repositoryId x = true →
    st₀.hasRow env.repositoryId x = true ∨ x ∈ st.visited
  registeredNew : ∀ x, env.Registered st x → env.Registered st₀ x ∨ x ∈ st.visited
  roles : ∀ x, env.Registered st x → st.hasRow env.repositoryId x = true →
    env.Registered st₀ x ∨ st₀.hasRow env.repositoryId x = true
  objectNew : ∀ x, st.hasObject env.repositoryId x = true →
    st₀.hasObject env.repositoryId x = true ∨ st₀.hasRow env.repositoryId x = false
  bytes : st.stats.bytesFetched ≤ caps.maxTotalBytes
  queue : ∀ e ∈ st.queue, env.ReachableManifest st₀ root e.1

/-- The references of a manifest of this class are covered, and its blobs are there. -/
def WalkEnv.ClassDone (env : WalkEnv) (st : WalkState) (cls : ManifestClass) : Prop :=
  (∀ c ∈ WalkEnv.children cls, st.Covered c) ∧ ∀ b ∈ cls.blobs, env.HasBlob st b

section Blobs
variable {env : WalkEnv} {caps : WalkCaps} {st₀ st st' : WalkState} {root : ManifestClass}
  {d : Digest}

theorem WalkEnv.ClassDone.mono {cls : ManifestClass} (h : env.ClassDone st cls)
    (hgrows : WalkGrows env st st') : env.ClassDone st' cls :=
  ⟨fun c hc => hgrows.covered c (h.1 c hc), fun b hb => hgrows.hasBlob b (h.2 b hb)⟩

namespace EnsureEffect

theorem mem_visited (h : EnsureEffect env caps st st' d) {x : Digest} :
    x ∈ st'.visited ↔ x ∈ st.visited ∨ x = d := by
  rw [h.visited]
  split
  · next hmem =>
    refine ⟨.inl, fun hx => hx.elim id ?_⟩
    rintro rfl
    exact hmem
  · rw [List.mem_cons, or_comm]

theorem registered_iff (h : EnsureEffect env caps st st' d) {x : Digest} :
    env.Registered st' x ↔ env.Registered st x := by
  simp only [WalkEnv.Registered, h.tags, h.artifacts]

theorem grows (h : EnsureEffect env caps st st' d) : WalkGrows env st st' where
  visited x hx := h.mem_visited.mpr (.inl hx)
  covered x hx := by
    rcases hx with hx | ⟨depth, hx⟩
    · exact .inl (h.mem_visited.mpr (.inl hx))
    · exact .inr ⟨depth, h.queue ▸ hx⟩
  registered x hx := h.registered_iff.mpr hx
  hasBlob x hx := ⟨(h.row x).mpr (.inl hx.1), (h.object x).mpr (.inl hx.2)⟩

theorem base (h : EnsureEffect env caps st st' d) (hbase : WalkBase env caps st₀ root st) :
    WalkBase env caps st₀ root st' where
  manifests x hx := by
    rw [h.manifests]
    exact hbase.manifests x fun hold => hx (h.mem_visited.mpr (.inl hold))
  rowMono x hx := (h.row x).mpr (.inl (hbase.rowMono x hx))
  objectMono x hx := (h.object x).mpr (.inl (hbase.objectMono x hx))
  rowNew x hx := by
    rcases (h.row x).mp hx with hold | ⟨rfl, -⟩
    · exact (hbase.rowNew x hold).imp_right fun hmem => h.mem_visited.mpr (.inl hmem)
    · exact .inr (h.mem_visited.mpr (.inr rfl))
  registeredNew x hx := (hbase.registeredNew x (h.registered_iff.mp hx)).imp_right
    fun hmem => h.mem_visited.mpr (.inl hmem)
  roles x hreg hrow := by
    have hreg := h.registered_iff.mp hreg
    rcases (h.row x).mp hrow with hold | ⟨rfl, hnew⟩
    · exact hbase.roles x hreg hold
    · exact .inl ((hbase.registeredNew x hreg).resolve_right hnew)
  objectNew x hx := by
    rcases (h.object x).mp hx with hold | ⟨rfl, -, hrow⟩
    · exact hbase.objectNew x hold
    · refine .inr ?_
      by_contra hrow₀
      simp [hbase.rowMono x (Bool.eq_true_of_not_eq_false hrow₀)] at hrow
  bytes := h.bytes hbase.bytes
  queue e he := hbase.queue e (h.queue ▸ he)

/-- Once the rows of before are stored, a blob of the walk is there after its turn. -/
theorem hasBlob (h : EnsureEffect env caps st st' d) (hbase : WalkBase env caps st₀ root st)
    (hstored : env.RowsStored st₀ root) (hblob : env.ReachableBlob st₀ root d)
    (hdone : d ∈ st.visited → env.HasBlob st d) : env.HasBlob st' d := by
  by_cases hvisited : d ∈ st.visited
  · exact h.grows.hasBlob d (hdone hvisited)
  · refine ⟨(h.row d).mpr (.inr ⟨rfl, hvisited⟩), (h.object d).mpr ?_⟩
    by_cases hrow : st.hasRow env.repositoryId d = true
    · have hrow₀ := (hbase.rowNew d hrow).resolve_right hvisited
      exact .inl (hbase.objectMono d (hstored d hblob hrow₀))
    · exact .inr ⟨rfl, hvisited, Bool.eq_false_of_not_eq_true hrow⟩

end EnsureEffect

/-- The blobs of one manifest, in order. -/
theorem ensureBlobs_spec {blobs : List Digest} (h : env.ensureBlobs caps st blobs = .ok st')
    (hbase : WalkBase env caps st₀ root st)
    (hblobs : ∀ b ∈ blobs, env.ReachableBlob st₀ root b) :
    WalkBase env caps st₀ root st' ∧ WalkGrows env st st' ∧ st'.queue = st.queue ∧
      st'.stats.childrenRegistered = st.stats.childrenRegistered ∧
      (∀ x ∈ st'.visited, x ∈ st.visited ∨ env.ReachableBlob st₀ root x) ∧
      (env.RowsStored st₀ root →
        (∀ x ∈ st.visited, env.ReachableBlob st₀ root x → env.HasBlob st x) →
        (∀ x ∈ st'.visited, env.ReachableBlob st₀ root x → env.HasBlob st' x) ∧
          ∀ b ∈ blobs, env.HasBlob st' b) := by
  induction blobs generalizing st with
  | nil =>
    cases h
    exact ⟨hbase, .refl .., rfl, rfl, fun x hx => .inl hx, fun _ hdone => ⟨hdone, nofun⟩⟩
  | cons d rest ih =>
    simp only [WalkEnv.ensureBlobs] at h
    split at h
    · cases h
    next st₁ hfirst =>
    have heff := ensureBlob_effect hfirst
    have hd := hblobs d List.mem_cons_self
    obtain ⟨hbase', hgrows, hqueue, hchildren, hvisited, hdone⟩ :=
      ih h (heff.base hbase) fun b hb => hblobs b (List.mem_cons_of_mem d hb)
    refine ⟨hbase', heff.grows.trans hgrows, hqueue.trans heff.queue,
      hchildren.trans heff.childrenRegistered, fun x hx => ?_, fun hstored hold => ?_⟩
    · rcases hvisited x hx with hmem | hblob
      · rcases heff.mem_visited.mp hmem with hold | rfl
        · exact .inl hold
        · exact .inr hd
      · exact .inr hblob
    · have hhas := heff.hasBlob hbase hstored hd fun hmem => hold d hmem hd
      have hold₁ : ∀ x ∈ st₁.visited, env.ReachableBlob st₀ root x → env.HasBlob st₁ x := by
        intro x hx hblob
        rcases heff.mem_visited.mp hx with hmem | rfl
        · exact heff.grows.hasBlob x (hold x hmem hblob)
        · exact hhas
      obtain ⟨hall, hrest⟩ := hdone hstored hold₁
      refine ⟨hall, fun b hb => ?_⟩
      rcases List.mem_cons.mp hb with rfl | hb
      · exact hgrows.hasBlob b hhas
      · exact hrest b hb

/-- What the expansion of a manifest gives, when its references are reachable. -/
structure ExpandSpec (env : WalkEnv) (caps : WalkCaps) (st₀ : WalkState) (root : ManifestClass)
    (st st' : WalkState) (cls : ManifestClass) : Prop where
  base : WalkBase env caps st₀ root st'
  grows : WalkGrows env st st'
  queueLength : st'.queue.length ≤ st.queue.length + caps.maxIndexFanout
  childrenRegistered : st'.stats.childrenRegistered = st.stats.childrenRegistered
  visited : ∀ x ∈ st'.visited, x ∈ st.visited ∨ env.ReachableBlob st₀ root x
  done : env.RowsStored st₀ root →
    (∀ x ∈ st.visited, env.ReachableBlob st₀ root x → env.HasBlob st x) →
    (∀ x ∈ st'.visited, env.ReachableBlob st₀ root x → env.HasBlob st' x) ∧ env.ClassDone st' cls

theorem enqueueChildren_spec {cs : List Digest} {depth : ℕ}
    (h : WalkEnv.enqueueChildren caps st cs depth = .ok st')
    (hbase : WalkBase env caps st₀ root st)
    (hcs : ∀ c ∈ cs, env.ReachableManifest st₀ root c) :
    ExpandSpec env caps st₀ root st st' (.index cs) := by
  unfold WalkEnv.enqueueChildren at h
  split at h
  · cases h
  next hfanout =>
  cases h
  have hcovered : ∀ more x, st.Covered x →
      WalkState.Covered { st with queue := st.queue ++ more } x := by
    rintro more x (hx | ⟨n, hx⟩)
    · exact .inl hx
    · exact .inr ⟨n, List.mem_append_left _ hx⟩
  refine ⟨{ hbase with queue := fun e he => ?_ }, ⟨fun _ hx => hx, hcovered _, fun _ hx => hx,
    fun _ hx => hx⟩, ?_, rfl, fun x hx => .inl hx, fun _ hold => ⟨hold, fun c hc => ?_, nofun⟩⟩
  · rcases List.mem_append.mp he with hold | hnew
    · exact hbase.queue e hold
    · obtain ⟨c, hc, rfl⟩ := List.mem_map.mp hnew
      exact hcs c (List.mem_of_mem_filter hc)
  · have hlength := List.length_filter_le (fun c => !st.visited.contains c) cs
    simp only [List.length_append, List.length_map]
    omega
  · by_cases hmem : c ∈ st.visited
    · exact .inl hmem
    · refine .inr ⟨depth, List.mem_append_right _ (List.mem_map.mpr ⟨c, ?_, rfl⟩)⟩
      exact List.mem_filter.mpr ⟨hc, by simpa using hmem⟩

theorem expand_spec {cls : ManifestClass} {depth : ℕ} (h : env.expand caps st depth cls = .ok st')
    (hbase : WalkBase env caps st₀ root st)
    (hcs : ∀ c ∈ WalkEnv.children cls, env.ReachableManifest st₀ root c)
    (hblobs : ∀ b ∈ cls.blobs, env.ReachableBlob st₀ root b) :
    ExpandSpec env caps st₀ root st st' cls := by
  cases cls with
  | index cs => exact enqueueChildren_spec h hbase hcs
  | image refs =>
    obtain ⟨hbase', hgrows, hqueue, hchildren, hvisited, hdone⟩ := ensureBlobs_spec h hbase hblobs
    refine ⟨hbase', hgrows, by rw [hqueue]; omega, hchildren, hvisited, fun hstored hold => ?_⟩
    obtain ⟨hall, hthis⟩ := hdone hstored hold
    exact ⟨hall, nofun, hthis⟩
  | malformed =>
    cases h
    exact ⟨hbase, .refl .., by omega, rfl, fun x hx => .inl hx, fun _ hold => ⟨hold, nofun, nofun⟩⟩

theorem loadOrFetchChildManifest_ok {body : Body}
    (h : env.loadOrFetchChildManifest st d = .ok (body, st')) :
    (∃ fetched, env.childBody (st.manifests d) d = .ok (body, fetched)) ∧
      ∃ manifests, st' = { st with manifests := manifests } ∧
        ∀ x, x ≠ d → manifests x = st.manifests x := by
  unfold WalkEnv.loadOrFetchChildManifest at h
  split at h
  · cases h
  · next hbody =>
    cases h
    exact ⟨⟨_, hbody⟩, _, rfl, fun _ _ => rfl⟩
  · next hbody =>
    split at h
    · cases h
      exact ⟨⟨_, hbody⟩, _, rfl, fun _ _ => rfl⟩
    split at h
    · cases h
    · cases h
      exact ⟨⟨_, hbody⟩, _, rfl, fun x hx => Function.update_of_ne hx ..⟩

theorem artifactPath_injective : Function.Injective env.artifactPath := by
  intro x y h
  simpa [WalkEnv.artifactPath, String.ext_iff] using h

/-- The rows of one more child. -/
structure RegisterEffect (env : WalkEnv) (st st' : WalkState) (d : Digest) : Prop where
  visited : st'.visited = st.visited
  queue : st'.queue = st.queue
  manifests : st'.manifests = st.manifests
  stats : st'.stats = st.stats
  row : ∀ x, st'.hasRow env.repositoryId x = st.hasRow env.repositoryId x
  object : ∀ x, st'.hasObject env.repositoryId x = st.hasObject env.repositoryId x
  registered : ∀ x, env.Registered st' x ↔ x = d ∨ env.Registered st x

theorem registerManifest_effect {cls : ManifestClass}
    (h : env.registerManifest st d cls = .ok st') : RegisterEffect env st st' d := by
  unfold WalkEnv.registerManifest at h
  split at h
  · cases h
  split at h
  · cases h
  cases h
  refine ⟨rfl, rfl, rfl, rfl, fun x => any_persistTagAndRefs _, fun x => ?_, fun x => ?_⟩
  · simp only [WalkState.hasObject, persistTagAndRefs_objects, GcState.storeOf,
      persistTagAndRefs_repositories]
  · simp only [WalkEnv.Registered, persistTagAndRefs_tags, List.mem_cons, List.mem_filter,
      Prod.mk.injEq, TagKey.mk.injEq, true_and, bne_iff_ne, ne_eq]
    by_cases hx : x = d
    · subst hx
      simp [WalkEnv.artifactPath]
    · have hpath : env.artifactPath x ≠ env.artifactPath d := fun heq =>
        hx (artifactPath_injective heq)
      simp only [hx, false_and, false_or, not_false_eq_true, and_true]
      have hold : Function.update st.artifacts ("v2/" ++ env.image ++ "/manifests/" ++ d)
          (some ("oci-manifests/" ++ d)) (env.artifactPath x) = st.artifacts (env.artifactPath x) :=
        Function.update_of_ne hpath ..
      rw [hold]

/-- Every visited child manifest is registered and its references are dealt with, and every visited
blob is there. -/
structure WalkDone (env : WalkEnv) (st₀ : WalkState) (root : ManifestClass) (st : WalkState) :
    Prop where
  rootDone : env.ClassDone st root
  expanded : ∀ x ∈ st.visited, env.ReachableManifest st₀ root x → env.Registered st x ∧
    ∀ body, env.HasBody st₀ x body → env.ClassDone st (env.classify body)
  blobs : ∀ x ∈ st.visited, env.ReachableBlob st₀ root x → env.HasBlob st x

/-- A child taken from the queue, up to its rows. -/
structure ChildSpec (env : WalkEnv) (caps : WalkCaps) (st₀ : WalkState) (root : ManifestClass)
    (st st₁ : WalkState) (d : Digest) (body : Body) : Prop where
  base : WalkBase env caps st₀ root st₁
  hasBody : env.HasBody st₀ d body
  grows : WalkGrows env st st₁
  visited : ∀ x, x ∈ st₁.visited ↔ x = d ∨ x ∈ st.visited
  queue : st₁.queue = st.queue
  registered : env.Registered st₁ d
  childrenRegistered : st₁.stats.childrenRegistered = st.stats.childrenRegistered + 1

theorem walkChild_spec {depth : ℕ} (h : env.walkChild caps st d depth = .ok st')
    (hbase : WalkBase env caps st₀ root st) (hnew : d ∉ st.visited) :
    st.stats.childrenRegistered < caps.maxManifestsTotal ∧
      ∃ body st₁, ChildSpec env caps st₀ root st st₁ d body ∧
        env.expand caps st₁ (depth + 1) (env.classify body) = .ok st' := by
  unfold WalkEnv.walkChild at h
  split at h
  · cases h
  split at h
  · cases h
  next hcount =>
  dsimp only at h
  split at h
  · cases h
  next body loaded hload =>
  obtain ⟨hbody, manifests, rfl, hmanifests⟩ := loadOrFetchChildManifest_ok hload
  split at h
  · cases h
  split at h
  · cases h
  next st₁ hregister =>
  have heff := registerManifest_effect hregister
  have hvisited : ∀ x, x ∈ st₁.visited ↔ x = d ∨ x ∈ st.visited := by
    intro x
    rw [heff.visited]
    exact List.mem_cons
  have hregistered : ∀ x, env.Registered st₁ x ↔ x = d ∨ env.Registered st x := heff.registered
  have hrow : ∀ x, st₁.hasRow env.repositoryId x = st.hasRow env.repositoryId x := heff.row
  have hobject : ∀ x, st₁.hasObject env.repositoryId x = st.hasObject env.repositoryId x :=
    heff.object
  refine ⟨by omega, body, st₁, ⟨?_, ?_, ?_, hvisited, heff.queue, (hregistered d).mpr (.inl rfl),
    by rw [heff.stats]⟩, h⟩
  · refine ⟨fun x hx => ?_, fun x hx => ?_, fun x hx => ?_, fun x hx => ?_, fun x hx => ?_,
      fun x hreg hx => ?_, fun x hx => ?_, ?_, fun e he => ?_⟩
    · obtain ⟨hne, hx⟩ := not_or.mp fun hor => hx ((hvisited x).mpr hor)
      rw [heff.manifests]
      exact (hmanifests x hne).trans (hbase.manifests x hx)
    · rw [hrow]
      exact hbase.rowMono x hx
    · rw [hobject]
      exact hbase.objectMono x hx
    · rw [hrow] at hx
      exact (hbase.rowNew x hx).imp_right fun hmem => (hvisited x).mpr (.inr hmem)
    · rcases (hregistered x).mp hx with rfl | hold
      · exact .inr ((hvisited x).mpr (.inl rfl))
      · exact (hbase.registeredNew x hold).imp_right fun hmem => (hvisited x).mpr (.inr hmem)
    · rw [hrow] at hx
      rcases (hregistered x).mp hreg with rfl | hold
      · exact .inr ((hbase.rowNew x hx).resolve_right hnew)
      · exact hbase.roles x hold hx
    · rw [hobject] at hx
      exact hbase.objectNew x hx
    · rw [heff.stats]
      exact hbase.bytes
    · rw [heff.queue] at he
      exact hbase.queue e he
  · obtain ⟨fetched, hbody⟩ := hbody
    exact ⟨fetched, by rw [← hbase.manifests d hnew]; exact hbody⟩
  · refine ⟨fun x hx => (hvisited x).mpr (.inr hx), fun x hx => ?_,
      fun x hx => (hregistered x).mpr (.inr hx), fun x hx => ?_⟩
    · rcases hx with hx | ⟨n, hx⟩
      · exact .inl ((hvisited x).mpr (.inr hx))
      · exact .inr ⟨n, by rw [heff.queue]; exact hx⟩
    · exact ⟨(hrow x).trans hx.1, (hobject x).trans hx.2⟩

theorem WalkEnv.ReachableManifest.child {body : Body} (h : env.ReachableManifest st₀ root d)
    (hbody : env.HasBody st₀ d body) {c : Digest}
    (hc : c ∈ WalkEnv.children (env.classify body)) : env.ReachableManifest st₀ root c := by
  obtain ⟨c₀, hc₀, hpath⟩ := h
  exact ⟨c₀, hc₀, hpath.tail ⟨body, hbody, hc⟩⟩

/-- A body is determined by what was stored at the start and by the source. -/
theorem WalkEnv.HasBody.unique {body body' : Body} (h : env.HasBody st₀ d body)
    (h' : env.HasBody st₀ d body') : body = body' := by
  obtain ⟨f, hf⟩ := h
  obtain ⟨f', hf'⟩ := h'
  have heq := hf.symm.trans hf'
  simp only [Except.ok.injEq, Prod.mk.injEq] at heq
  exact heq.1

/-- The room that is left for further children; every turn of the loop uses some of it. -/
def WalkState.room (caps : WalkCaps) (st : WalkState) : ℕ :=
  (caps.maxManifestsTotal - st.stats.childrenRegistered) * (caps.maxIndexFanout + 1) +
    st.queue.length

theorem walkNext_spec {depth : ℕ} {rest : List (Digest × ℕ)}
    (hqueue : st.queue = (d, depth) :: rest) (h : env.walkNext caps st d depth rest = .ok st')
    (hbase : WalkBase env caps st₀ root st) :
    WalkBase env caps st₀ root st' ∧ st'.room caps < st.room caps ∧
      (env.RowsStored st₀ root → env.RolesApart st₀ root → WalkDone env st₀ root st →
        WalkDone env st₀ root st') := by
  have hd : env.ReachableManifest st₀ root d := hbase.queue (d, depth) (hqueue ▸ List.mem_cons_self)
  have hpopped : WalkBase env caps st₀ root { st with queue := rest } :=
    { hbase with queue := fun e he => hbase.queue e (hqueue ▸ List.mem_cons_of_mem _ he) }
  unfold WalkEnv.walkNext at h
  dsimp only at h
  split at h
  · next hvisited =>
    have hvisited : d ∈ st.visited := by simpa using hvisited
    cases h
    refine ⟨{ hpopped with }, ?_, fun _ _ hdone => ?_⟩
    · simp only [WalkState.room, WalkState.dedup, hqueue, List.length_cons]
      omega
    · have hgrows : WalkGrows env st (WalkState.dedup { st with queue := rest }) := by
        refine ⟨fun _ hx => hx, fun x hx => ?_, fun _ hx => hx, fun _ hx => hx⟩
        rcases hx with hx | ⟨n, hx⟩
        · exact .inl hx
        · rw [hqueue] at hx
          rcases List.mem_cons.mp hx with heq | hx
          · cases heq
            exact .inl hvisited
          · exact .inr ⟨n, hx⟩
      exact ⟨hdone.rootDone.mono hgrows, fun x hx hr => ⟨(hdone.expanded x hx hr).1,
        fun body hbody => ((hdone.expanded x hx hr).2 body hbody).mono hgrows⟩, hdone.blobs⟩
  next hvisited =>
  have hnew : d ∉ st.visited := by simpa using hvisited
  obtain ⟨hcount, body, st₁, hchild, hexpand⟩ := walkChild_spec h hpopped hnew
  have hspec := expand_spec hexpand hchild.base (fun c hc => hd.child hchild.hasBody hc)
    fun b hb => .inr ⟨d, body, hd, hchild.hasBody, hb⟩
  refine ⟨hspec.base, ?_, fun hstored hapart hdone => ?_⟩
  · have hlength := hspec.queueLength
    have hchildren := hspec.childrenRegistered.trans hchild.childrenRegistered
    simp only [hchild.queue] at hlength hcount hchildren
    simp only [WalkState.room, hqueue, List.length_cons, hchildren]
    have hmul : (caps.maxManifestsTotal - (st.stats.childrenRegistered + 1)) *
        (caps.maxIndexFanout + 1) + (caps.maxIndexFanout + 1) =
        (caps.maxManifestsTotal - st.stats.childrenRegistered) * (caps.maxIndexFanout + 1) := by
      rw [← Nat.succ_mul]
      congr 1
      omega
    omega
  · -- the child itself was the head of the queue, and is visited now
    have hgrows : WalkGrows env st st' := by
      refine ⟨fun x hx => hspec.grows.visited x (hchild.grows.visited x hx), fun x hx => ?_,
        fun x hx => hspec.grows.registered x (hchild.grows.registered x hx),
        fun x hx => hspec.grows.hasBlob x (hchild.grows.hasBlob x hx)⟩
      rcases hx with hx | ⟨n, hx⟩
      · exact hspec.grows.covered x (hchild.grows.covered x (.inl hx))
      · rw [hqueue] at hx
        rcases List.mem_cons.mp hx with heq | hx
        · cases heq
          exact .inl (hspec.grows.visited d ((hchild.visited d).mpr (.inl rfl)))
        · exact hspec.grows.covered x (hchild.grows.covered x (.inr ⟨n, hx⟩))
    have hblobs : ∀ x ∈ st₁.visited, env.ReachableBlob st₀ root x → env.HasBlob st₁ x := by
      intro x hx hblob
      rcases (hchild.visited x).mp hx with rfl | hold
      · exact (hapart x hd hblob).elim
      · exact hchild.grows.hasBlob x (hdone.blobs x hold hblob)
    obtain ⟨hall, hthis⟩ := hspec.done hstored hblobs
    refine ⟨hdone.rootDone.mono hgrows, fun x hx hr => ?_, hall⟩
    rcases hspec.visited x hx with hmem | hblob
    · rcases (hchild.visited x).mp hmem with rfl | hold
      · refine ⟨hspec.grows.registered x hchild.registered, fun body' hbody' => ?_⟩
        rwa [← hchild.hasBody.unique hbody']
      · exact ⟨hgrows.registered x (hdone.expanded x hold hr).1, fun body' hbody' =>
          ((hdone.expanded x hold hr).2 body' hbody').mono hgrows⟩
    · exact (hapart x hr hblob).elim

/-- Enough fuel for the room that is left ends the loop. -/
theorem walkLoop_isSome (fuel : ℕ) (hbase : WalkBase env caps st₀ root st)
    (hfuel : st.room caps < fuel) : (env.walkLoop caps fuel st).isSome = true := by
  induction fuel generalizing st with
  | zero => omega
  | succ fuel ih =>
    unfold WalkEnv.walkLoop
    split
    · rfl
    · next d depth rest hqueue =>
      split
      · rfl
      · next st' hnext =>
        obtain ⟨hbase', hroom, -⟩ := walkNext_spec hqueue hnext hbase
        exact ih hbase' (by omega)

theorem walkLoop_spec (fuel : ℕ) (h : env.walkLoop caps fuel st = some (.ok st'))
    (hbase : WalkBase env caps st₀ root st) :
    WalkBase env caps st₀ root st' ∧ st'.queue = [] ∧
      (env.RowsStored st₀ root → env.RolesApart st₀ root → WalkDone env st₀ root st →
        WalkDone env st₀ root st') := by
  induction fuel generalizing st with
  | zero => cases h
  | succ fuel ih =>
    unfold WalkEnv.walkLoop at h
    split at h
    · next hqueue =>
      cases h
      exact ⟨hbase, hqueue, fun _ _ hdone => hdone⟩
    · next d depth rest hqueue =>
      split at h
      · cases h
      · next st₁ hnext =>
        obtain ⟨hbase₁, -, hdone₁⟩ := walkNext_spec hqueue hnext hbase
        obtain ⟨hbase', hempty, hdone'⟩ := ih h hbase₁
        exact ⟨hbase', hempty, fun hstored hapart hdone =>
          hdone' hstored hapart (hdone₁ hstored hapart hdone)⟩

/-- With an empty queue, what is covered is visited, so everything reachable is dealt with. -/
theorem WalkDone.complete (h : WalkDone env st₀ root st) (hqueue : st.queue = []) :
    env.Complete st₀ root st := by
  have hcovered : ∀ {x}, st.Covered x → x ∈ st.visited := by
    rintro x (hx | ⟨n, hx⟩)
    · exact hx
    · rw [hqueue] at hx
      cases hx
  have hvisited : ∀ d, env.ReachableManifest st₀ root d → d ∈ st.visited := by
    rintro d ⟨c, hc, hpath⟩
    induction hpath with
    | refl => exact hcovered (h.rootDone.1 c hc)
    | tail hinit hstep ih =>
      obtain ⟨body, hbody, hchild⟩ := hstep
      exact hcovered (((h.expanded _ ih ⟨c, hc, hinit⟩).2 body hbody).1 _ hchild)
  refine ⟨fun d hd => (h.expanded d (hvisited d hd) hd).1, fun b hb => ?_⟩
  rcases hb with hroot | ⟨d, body, hd, hbody, hblob⟩
  · exact h.rootDone.2 b hroot
  · exact ((h.expanded d (hvisited d hd) hd).2 body hbody).2 b hblob

/-- No walk adds a digest in both roles, nor an object to a row that was there before. -/
theorem WalkBase.necessary (h : WalkBase env caps st₀ root st) (hfresh : env.Fresh st₀ root)
    (hcomplete : env.Complete st₀ root st) : env.RowsStored st₀ root ∧ env.RolesApart st₀ root := by
  refine ⟨fun b hb hrow => ?_, fun d hd hblob => ?_⟩
  · refine (h.objectNew b (hcomplete.2 b hb).2).resolve_right ?_
    simp [hrow]
  · obtain ⟨hunregistered, hnorow⟩ := hfresh d hd hblob
    rcases h.roles d (hcomplete.1 d hd) (hcomplete.2 d hblob).1 with hreg | hrow
    · exact hunregistered hreg
    · simp [hnorow] at hrow

theorem walkBase_start : WalkBase env caps st₀ root (WalkEnv.start st₀) where
  manifests _ _ := rfl
  rowMono _ h := h
  objectMono _ h := h
  rowNew _ h := .inl h
  registeredNew _ h := .inl h
  roles _ h _ := .inl h
  objectNew _ h := .inl h
  bytes := Nat.zero_le _
  queue _ he := by cases he

theorem root_expand_spec (h : env.expand caps (WalkEnv.start st₀) 1 root = .ok st) :
    ExpandSpec env caps st₀ root (WalkEnv.start st₀) st root :=
  expand_spec h walkBase_start (fun c hc => ⟨c, hc, .refl⟩) fun _ hb => .inl hb

theorem ExpandSpec.walkDone (h : ExpandSpec env caps st₀ root (WalkEnv.start st₀) st root)
    (hstored : env.RowsStored st₀ root) (hapart : env.RolesApart st₀ root) :
    WalkDone env st₀ root st := by
  obtain ⟨hblobs, hroot⟩ := h.done hstored nofun
  refine ⟨hroot, fun x hx hr => ?_, hblobs⟩
  rcases h.visited x hx with hmem | hblob
  · cases hmem
  · exact (hapart x hr hblob).elim

end Blobs

theorem WalkEnv.Passes.base {env : WalkEnv} {caps : WalkCaps} {st₀ st : WalkState}
    {root : ManifestClass} (h : env.Passes caps st₀ root st) : WalkBase env caps st₀ root st := by
  induction h with
  | seeded hseed => exact (root_expand_spec hseed).base
  | turn _ hqueue hnext ih => exact (walkNext_spec hqueue hnext ih).1

/-- An upstream with two images: `sha256:a` has the bytes of `sha256:x` as its layer, and
`sha256:x` is an image manifest itself, with the config `sha256:c`. -/
def twoRoles : WalkEnv where
  repositoryId := 1
  image := "app"
  sha256 body := if body = [1] then "sha256:a" else if body = [2] then "sha256:x" else "sha256:c"
  classify body :=
    if body = [1] then .image [("sha256:x", .layer)]
    else if body = [2] then .image [("sha256:c", .config)] else .malformed
  source _ d :=
    if d = "sha256:a" then .ok [1] else if d = "sha256:x" then .ok [2] else .ok [3]
  fault _ := none

def nothingStored : WalkState where
  db :=
    { now := 0
      repositories := fun _ => ⟨"filesystem", "/a"⟩
      blobs := []
      tags := []
      blobRefs := []
      manifestRefs := []
      objects := fun _ _ => false
      locks := []
      pushing := []
      relied := fun _ => none }
  artifacts _ := none
  manifests _ := none
  visited := []
  queue := []
  stats := ⟨0, 0, 0, 0⟩

def ampleCaps : WalkCaps := ⟨4, 1024, 4096, 1024, 100, 1000⟩

end ArtifactKeeper.Oci
