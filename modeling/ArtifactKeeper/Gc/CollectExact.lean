import ArtifactKeeper.Gc.Collect

/-! When a run of the storage collector neither leaks nor over-deletes: rows go only with their
object, and the object of a live row stays. -/

namespace ArtifactKeeper.Gc

namespace UploadTables

/-- The tables after the sweep of abandoned sessions has removed the listed ones. -/
def deleteSessions (t : UploadTables) (ids : List Uuid) : UploadTables :=
  { t with
    sessions := t.sessions.filter fun u => !ids.contains u.id
    parts := t.parts.filter fun p => !ids.contains p.uploadSessionId }

end UploadTables

namespace CollectorState

/-- The state a run leaves. -/
def afterGc (faults : GcFaults) (s : CollectorState) : CollectorState :=
  match s.runGc faults with
  | .ok s' => s'
  | .error _ => s

/-- From `s` to `s'` a row went only with its object, and no object of a live row went. -/
structure CollectsExactly (s s' : CollectorState) : Prop where
  rows : ∀ a ∈ s.artifacts, a ∉ s'.artifacts → s'.objects (s.objectOf a) = false
  live : ∀ a ∈ s.artifacts, a.isDeleted = false → s.objects (s.objectOf a) = true →
    s'.objects (s.objectOf a) = true

/-- The session is among the abandoned ones of this run and its storage resolves. -/
def Abandoned (s : CollectorState) (id : Uuid) (u : OciUploadSession) : Prop :=
  id ∈ s.uploads.selectAbandonedOciUploadSessionIds ∧
    s.uploads.lockAbandonedOciUploadSession id = some u ∧
    s.resolves (s.uploads.repositories u.repositoryId) = true

/-- The sweeps of this run may delete the object: it is a temporary or part object of an abandoned
session, or a reaper selects it once some abandoned sessions are gone. -/
def UploadCollectable (s : CollectorState) (o : ObjectRef) : Prop :=
  (∃ id u, s.Abandoned id u ∧ o.1 = (s.uploads.repositories u.repositoryId).store ∧
      o.2 ∈ s.uploads.sessionStorageKeys u) ∨
    ∃ ids : List Uuid, (∀ id ∈ ids, ∃ u, s.Abandoned id u) ∧
      ∃ reaper, ∃ k ∈ (s.uploads.deleteSessions ids).selectCleanupKeys reaper,
        s.resolves k.location = true ∧ k.object = o

/-- Deleted rows that share the key of an orphan row but not its storage have no object, and no
object of a live row is among those of the upload sweeps. -/
structure SafeToCollect (s : CollectorState) : Prop where
  groups : ∀ b ∈ s.artifacts, s.tables.orphanPredicate s.artifacts b = true →
    s.resolves (s.locationOf b) = true → ∀ a ∈ s.artifacts, a.isDeleted = true →
    a.storageKey = b.storageKey → (s.locationOf a).store ≠ (s.locationOf b).store →
    s.objects (s.objectOf a) = false
  uploads : ∀ a ∈ s.artifacts, a.isDeleted = false → s.objects (s.objectOf a) = true →
    ¬ s.UploadCollectable (s.objectOf a)

/-- How far a run from `s₀` has come. -/
structure Progress (s₀ s : CollectorState) : Prop where
  repositories : s.uploads.repositories = s₀.uploads.repositories
  backends : s.backends = s₀.backends
  keepsLive : ∀ a ∈ s₀.artifacts, a.isDeleted = false → a ∈ s.artifacts
  shrinks : ∀ o, s.objects o = true → s₀.objects o = true
  collects : s₀.CollectsExactly s

/-- No live row resolves to the object, if it is stored. -/
def NotLive (s : CollectorState) (o : ObjectRef) : Prop :=
  ∀ a ∈ s.artifacts, a.isDeleted = false → s.objectOf a = o → s.objects o = false

end CollectorState

theorem StorageLocation.store_backend (l : StorageLocation) : l.store.backend = l.backend := by
  unfold store
  split <;> rfl

theorem StorageLocation.covers_iff {k l : StorageLocation} :
    k.covers l = true ↔ k.store = l.store := by
  obtain ⟨kb, kp⟩ := k
  obtain ⟨lb, lp⟩ := l
  simp only [covers, store, Bool.and_eq_true, beq_iff_eq, Bool.or_eq_true, bne_iff_ne, ne_eq]
  by_cases hb : kb = lb
  · subst hb
    by_cases hfs : kb = "filesystem" <;> simp [hfs]
  · have hne : ∀ p q : String, (⟨kb, p⟩ : StorageLocation) ≠ ⟨lb, q⟩ := by simp [hb]
    split <;> split <;> simp [hb, hne]

section Progress
variable {s₀ s s' tx : CollectorState} {o : ObjectRef} {k : OrphanKey}

namespace CollectorState

theorem Progress.refl (s : CollectorState) : Progress s s :=
  ⟨rfl, rfl, fun _ ha _ => ha, fun _ h => h, fun _ ha hn => (hn ha).elim, fun _ _ _ h => h⟩

theorem Progress.congr (h : Progress s₀ s) (hrep : s'.uploads.repositories = s.uploads.repositories)
    (hback : s'.backends = s.backends) (hrows : s'.artifacts = s.artifacts)
    (hobjects : s'.objects = s.objects) : Progress s₀ s' where
  repositories := hrep.trans h.repositories
  backends := hback.trans h.backends
  keepsLive a ha hlive := hrows ▸ h.keepsLive a ha hlive
  shrinks o ho := h.shrinks o (hobjects ▸ ho)
  collects := ⟨fun a ha hn => hobjects ▸ h.collects.rows a ha (hrows ▸ hn),
    fun a ha hlive ho => hobjects ▸ h.collects.live a ha hlive ho⟩

theorem Progress.fail (h : Progress s₀ s) (operation key error : String) :
    Progress s₀ (s.fail operation key error) :=
  h.congr rfl rfl rfl rfl

theorem Progress.addResult (h : Progress s₀ s) (keys artifacts bytes : ℤ) :
    Progress s₀ (s.addResult keys artifacts bytes) :=
  h.congr rfl rfl rfl rfl

theorem Progress.locationOf (h : Progress s₀ s) (a : ArtifactRow) :
    s.locationOf a = s₀.locationOf a := by
  rw [CollectorState.locationOf, CollectorState.locationOf, h.repositories]

theorem Progress.objectOf (h : Progress s₀ s) (a : ArtifactRow) :
    s.objectOf a = s₀.objectOf a := by
  rw [CollectorState.objectOf, CollectorState.objectOf, h.locationOf]

theorem setObject_false {o' : ObjectRef} :
    (s.setObject o false).objects o' = true ↔ o' ≠ o ∧ s.objects o' = true := by
  by_cases heq : o' = o
  · subst heq
    simp [setObject]
  · simp [setObject, heq]

theorem Progress.remove (h : Progress s₀ s) (hfree : s₀.NotLive o) :
    Progress s₀ (s.setObject o false) where
  repositories := h.repositories
  backends := h.backends
  keepsLive := h.keepsLive
  shrinks o' ho' := h.shrinks o' (setObject_false.mp ho').2
  collects := by
    refine ⟨fun a ha hn => ?_, fun a ha hlive ho => ?_⟩
    · by_contra hstored
      have hkept := (setObject_false.mp (Bool.eq_true_of_not_eq_false hstored)).2
      simp [h.collects.rows a ha hn] at hkept
    · refine setObject_false.mpr ⟨fun heq => ?_, h.collects.live a ha hlive ho⟩
      simp [heq, hfree a ha hlive heq] at ho

theorem Progress.failDelete (h : Progress s₀ s) (hfree : s₀.NotLive o) (removed : Bool) :
    Progress s₀ (s.failDelete o removed) := by
  unfold CollectorState.failDelete
  split
  · exact h.remove hfree
  · exact h

theorem Progress.rollback (h : Progress s₀ s) (htx : Progress s₀ tx)
    (hshrinks : ∀ o, tx.objects o = true → s.objects o = true) : Progress s₀ (s.rollback tx) where
  repositories := h.repositories
  backends := h.backends
  keepsLive := h.keepsLive
  shrinks := htx.shrinks
  collects := by
    refine ⟨fun a ha hn => ?_, htx.collects.live⟩
    by_contra hstored
    have hkept := hshrinks _ (Bool.eq_true_of_not_eq_false hstored)
    simp [h.collects.rows a ha hn] at hkept

/-- A key that no row of the backend has is the key of no live row there. -/
theorem Progress.notLive_of_not_rowBacked (h : Progress s₀ s) (location : StorageLocation)
    {key : String} (hfree : s.rowBacked location.backend key = false) :
    s₀.NotLive (location.store, key) := by
  intro a ha hlive heq
  simp only [rowBacked, List.any_eq_false, Bool.and_eq_true, beq_iff_eq, not_and] at hfree
  have hbackend : (s₀.locationOf a).backend = location.backend := by
    have hstore : (s₀.locationOf a).store = location.store := congrArg Prod.fst heq
    rw [← StorageLocation.store_backend, hstore, StorageLocation.store_backend]
  have hne := hfree a (h.keepsLive a ha hlive) (congrArg Prod.snd heq)
  rw [h.locationOf] at hne
  exact (hne hbackend).elim

/-- A key that is still an orphan is the key of no live row anywhere. -/
theorem Progress.notLive_of_isStillOrphan (h : Progress s₀ s) (horphan : s.isStillOrphan k = true)
    (store : StorageLocation) : s₀.NotLive (store, k.storageKey) := by
  intro a ha hlive heq
  simp only [isStillOrphan, Bool.and_eq_true, Bool.not_eq_true',
    List.isEmpty_eq_false_iff_exists_mem, List.all_eq_true] at horphan
  obtain ⟨⟨c, hc⟩, hall⟩ := horphan
  have hpred := hall c hc
  simp only [List.mem_filter, Bool.and_eq_true, beq_iff_eq] at hc
  simp only [GcState.orphanPredicate, Bool.and_eq_true, Bool.not_eq_true', List.any_eq_false,
    beq_iff_eq, not_and, Bool.not_eq_false] at hpred
  have hkey : a.storageKey = c.storageKey := (congrArg Prod.snd heq).trans hc.2.1.symm
  have hdeleted := hpred.1.1.1.2 a (h.keepsLive a ha hlive) hkey
  simp [hlive] at hdeleted

theorem deleteSidecars_progress (faults : String → SidecarFaults) (k : OrphanKey)
    (suffixes : List String) (h : Progress s₀ s) :
    Progress s₀ (s.deleteSidecars faults k suffixes).1 := by
  induction suffixes generalizing s with
  | nil => exact h
  | cons suffix rest ih =>
    simp only [deleteSidecars]
    split
    · exact h
    split
    · exact ih h
    · next hbacked =>
      have hfree := h.notLive_of_not_rowBacked k.location (Bool.eq_false_of_not_eq_true hbacked)
      split
      · exact h.failDelete hfree _
      · exact ih (h.remove hfree)

theorem deleteSidecars_shrinks (faults : String → SidecarFaults) (k : OrphanKey)
    (suffixes : List String)
    (h : (s.deleteSidecars faults k suffixes).1.objects o = true) : s.objects o = true := by
  induction suffixes generalizing s with
  | nil => exact h
  | cons suffix rest ih =>
    simp only [deleteSidecars] at h
    split at h
    · exact h
    split at h
    · exact ih h
    split at h
    · unfold CollectorState.failDelete at h
      split at h
      · exact (setObject_false.mp h).2
      · exact h
    · exact (setObject_false.mp (ih h)).2

theorem reclaimMavenSidecars_progress (faults : GroupFaults) (k : OrphanKey) (h : Progress s₀ s) :
    Progress s₀ (s.reclaimMavenSidecars faults k).1 := by
  unfold reclaimMavenSidecars
  split
  · exact h
  have hside := deleteSidecars_progress faults.sidecars k mavenSidecarSuffixes h
  split
  · next heq => simpa only [heq] using hside
  · next heq =>
    simp only [heq] at hside
    split
    · exact hside
    · exact hside.congr rfl rfl rfl rfl

theorem reclaimMavenSidecars_shrinks {faults : GroupFaults}
    (h : (s.reclaimMavenSidecars faults k).1.objects o = true) : s.objects o = true := by
  unfold reclaimMavenSidecars at h
  split at h
  · exact h
  have hside := deleteSidecars_shrinks (s := s) (o := o) faults.sidecars k mavenSidecarSuffixes
  split at h
  · next heq => exact hside (by simpa only [heq] using h)
  · next heq =>
    simp only [heq] at hside
    split at h <;> exact hside h

/-- The rows of the group go with their object; those of other storages never had one. -/
theorem Progress.deleteArtifacts (h : Progress s₀ s) (key : String) (location : StorageLocation)
    (hgone : s.objects (location.store, key) = false)
    (hothers : ∀ a ∈ s₀.artifacts, a.isDeleted = true → a.storageKey = key →
      (s₀.locationOf a).store ≠ location.store → s₀.objects (s₀.objectOf a) = false) :
    Progress s₀ (s.deleteArtifacts key) where
  repositories := h.repositories
  backends := h.backends
  keepsLive a ha hlive := List.mem_filter.mpr ⟨h.keepsLive a ha hlive, by simp [hlive]⟩
  shrinks := h.shrinks
  collects := by
    refine ⟨fun a ha hn => ?_, h.collects.live⟩
    by_cases hmem : a ∈ s.artifacts
    · simp only [CollectorState.deleteArtifacts, List.mem_filter, hmem, true_and,
        Bool.not_eq_true', Bool.not_eq_false, Bool.and_eq_true, beq_iff_eq] at hn
      obtain ⟨hkey, hdeleted⟩ := hn
      by_cases hstore : (s₀.locationOf a).store = location.store
      · simpa only [CollectorState.deleteArtifacts, CollectorState.objectOf, hkey, hstore]
          using hgone
      · by_contra hstored
        have hfirst := h.shrinks _ (Bool.eq_true_of_not_eq_false hstored)
        simp [hothers a ha hdeleted hkey hstore] at hfirst
    · exact h.collects.rows a ha hmem

theorem storageForLocation_ok {l store : StorageLocation} (h : s.storageForLocation l = .ok store) :
    store = l.store ∧ s.resolves l = true := by
  unfold storageForLocation at h
  split at h
  · cases h
    exact ⟨rfl, ‹_›⟩
  · cases h

theorem collectGroup_progress {faults : GroupFaults} (h : Progress s₀ s)
    (hothers : s₀.resolves k.location = true → ∀ a ∈ s₀.artifacts, a.isDeleted = true →
      a.storageKey = k.storageKey → (s₀.locationOf a).store ≠ k.location.store →
      s₀.objects (s₀.objectOf a) = false) :
    Progress s₀ (s.collectGroup faults k) := by
  unfold collectGroup
  split
  · exact h.fail ..
  next store hstore =>
  obtain ⟨rfl, hresolves⟩ := storageForLocation_ok hstore
  have hresolves₀ : s₀.resolves k.location = true := by
    simpa only [resolves, h.backends] using hresolves
  split
  · exact h.fail ..
  split
  · exact h.fail ..
  split
  · exact h
  next horphan =>
  have hfree := h.notLive_of_isStillOrphan (by simpa using horphan) k.location.store
  have hgone := h.remove hfree
  split
  · exact (h.failDelete hfree _).fail ..
  dsimp only
  split
  · exact hgone.fail ..
  split
  · exact hgone.fail ..
  have hrows := hgone.deleteArtifacts k.storageKey k.location (Function.update_self ..)
    (hothers hresolves₀)
  have htx := reclaimMavenSidecars_progress faults k hrows
  have hshrinks : ∀ o, (((s.setObject (k.location.store, k.storageKey) false).deleteArtifacts
      k.storageKey).reclaimMavenSidecars faults k).1.objects o = true → s.objects o = true := by
    intro o ho
    have hgone := reclaimMavenSidecars_shrinks ho
    exact (setObject_false.mp hgone).2
  split
  · next heq =>
    simp only [heq] at htx hshrinks
    exact (h.rollback htx hshrinks).fail ..
  · next heq =>
    simp only [heq] at htx hshrinks
    split
    · exact (h.rollback htx hshrinks).fail ..
    · exact htx.addResult ..

/-- The groups of the initial scan, whatever fails. -/
theorem collectOrphans_progress (faults : GcFaults) (hsafe : s.SafeToCollect) :
    Progress s (s.collectOrphans faults) := by
  unfold collectOrphans
  refine List.foldlRecOn _ _ (Progress.refl s) fun st hst k hk => ?_
  refine collectGroup_progress hst fun hresolves a ha hdeleted hkey hstore => ?_
  obtain ⟨b, hb, horphan, hbkey, hbloc⟩ := GcState.mem_selectOrphans hk
  have hbloc : s.locationOf b = k.location := hbloc
  refine hsafe.groups b hb horphan (by rwa [hbloc]) a ha hdeleted (hkey.trans hbkey.symm) ?_
  rwa [hbloc]

end CollectorState
end Progress

namespace UploadTables
variable {t : UploadTables} {ids : List Uuid} {id : Uuid} {u : OciUploadSession}

theorem deleteSessions_nil : t.deleteSessions [] = t := by
  simp [deleteSessions]

theorem deleteSessions_cons :
    (t.deleteSessions ids).deleteSession id = t.deleteSessions (id :: ids) := by
  simp only [deleteSessions, deleteSession, List.filter_filter, List.contains_cons, Bool.not_or,
    bne]

theorem lock_deleteSessions :
    (t.deleteSessions ids).lockAbandonedOciUploadSession id =
      if ids.contains id then none else t.lockAbandonedOciUploadSession id := by
  have habandoned : (t.deleteSessions ids).abandoned = t.abandoned := rfl
  simp only [lockAbandonedOciUploadSession, habandoned]
  simp only [deleteSessions, List.find?_filter]
  split
  · next hmem =>
    refine List.find?_eq_none.mpr fun u _ => ?_
    by_cases hid : u.id = id
    · simp [hid, List.contains_iff_mem.mp hmem]
    · simp [hid]
  · next hmem =>
    congr 1
    funext u
    by_cases hid : u.id = id
    · have hmem : id ∉ ids := by simpa using hmem
      simp [hid, hmem]
    · simp [hid]

theorem lock_spec (h : t.lockAbandonedOciUploadSession id = some u) : u.id = id := by
  have hp := List.find?_some h
  simp only [Bool.and_eq_true, beq_iff_eq] at hp
  exact hp.1

theorem sessionStorageKeys_deleteSessions (h : u.id ∉ ids) :
    (t.deleteSessions ids).sessionStorageKeys u = t.sessionStorageKeys u := by
  have hparts : (t.parts.filter fun p => !ids.contains p.uploadSessionId).filter
      (·.uploadSessionId == u.id) = t.parts.filter (·.uploadSessionId == u.id) := by
    rw [List.filter_filter]
    refine List.filter_congr fun p _ => ?_
    by_cases hp : p.uploadSessionId = u.id
    · simp [hp, h]
    · simp [hp]
  simp only [sessionStorageKeys, deleteSessions, hparts]

/-- Rows with a completed write are no rows of the pending reaper. -/
theorem selectPending_deleteCleanupKey (n : ℕ) :
    (t.deleteCleanupKey .unreferenced n).selectCleanupKeys .pending =
      t.selectCleanupKeys .pending := by
  have hrows : (t.cleanupKeys.filter fun c =>
      !(c.id == n && t.reapable .unreferenced c)).filter (fun c =>
        t.aged .pending c && t.reapable .pending c) =
      t.cleanupKeys.filter fun c => t.aged .pending c && t.reapable .pending c := by
    rw [List.filter_filter]
    refine List.filter_congr fun c _ => ?_
    cases hmark : c.storageWriteCompletedAt with
    | none => simp [reapable, unreferenced, hmark]
    | some at' => simp [reapable, pending, hmark]
  have hsame : (fun c => (t.deleteCleanupKey .unreferenced n).aged .pending c &&
      (t.deleteCleanupKey .unreferenced n).reapable .pending c) =
      fun c => t.aged .pending c && t.reapable .pending c := rfl
  simp only [selectCleanupKeys, hsame]
  simp only [deleteCleanupKey, hrows]

end UploadTables

section Sweeps
variable {s₀ s : CollectorState}

namespace CollectorState

@[simp] theorem failDelete_uploads (o : ObjectRef) (removed : Bool) :
    (s.failDelete o removed).uploads = s.uploads := by
  unfold failDelete
  split <;> rfl

theorem deleteSidecars_uploads (faults : String → SidecarFaults) (k : OrphanKey)
    (suffixes : List String) : (s.deleteSidecars faults k suffixes).1.uploads = s.uploads := by
  induction suffixes generalizing s with
  | nil => rfl
  | cons suffix rest ih =>
    simp only [deleteSidecars]
    split
    · rfl
    split
    · exact ih
    split
    · exact failDelete_uploads ..
    · exact ih

theorem reclaimMavenSidecars_uploads (faults : GroupFaults) (k : OrphanKey) :
    (s.reclaimMavenSidecars faults k).1.uploads = s.uploads := by
  unfold reclaimMavenSidecars
  split
  · rfl
  have hside := deleteSidecars_uploads (s := s) faults.sidecars k mavenSidecarSuffixes
  split
  · next heq => simpa only [heq] using hside
  · next heq =>
    simp only [heq] at hside
    split <;> exact hside

theorem collectGroup_uploads {faults : GroupFaults} {k : OrphanKey} :
    (s.collectGroup faults k).uploads = s.uploads := by
  unfold collectGroup
  split
  · rfl
  next store _ =>
  split
  · rfl
  split
  · rfl
  split
  · rfl
  split
  · exact failDelete_uploads ..
  dsimp only
  split
  · rfl
  split
  · rfl
  have hside := reclaimMavenSidecars_uploads faults k
    (s := (s.setObject (store, k.storageKey) false).deleteArtifacts k.storageKey)
  split
  · rfl
  · next heq =>
    simp only [heq] at hside
    split
    · rfl
    · exact hside

theorem collectOrphans_uploads {faults : GcFaults} :
    (s.collectOrphans faults).uploads = s.uploads := by
  unfold collectOrphans
  exact List.foldlRecOn (motive := fun st : CollectorState => st.uploads = s.uploads) _ _ rfl
    fun st hst k _ => collectGroup_uploads.trans hst

/-- A live row has no object that the upload sweeps may delete. -/
theorem SafeToCollect.notLive {o : ObjectRef} (h : s.SafeToCollect)
    (hcollect : s.UploadCollectable o) : s.NotLive o := by
  rintro a ha hlive rfl
  by_contra hstored
  exact h.uploads a ha hlive (Bool.eq_true_of_not_eq_false hstored) hcollect

/-- The progress of the sweeps, with the sessions they have removed. -/
structure SweepProgress (s₀ s : CollectorState) (ids : List Uuid) : Prop where
  progress : Progress s₀ s
  uploads : s.uploads = s₀.uploads.deleteSessions ids
  abandoned : ∀ id ∈ ids, ∃ u, s₀.Abandoned id u

theorem deleteSessionKeys_spec (outcome : String → DeleteResult) {store : StorageLocation}
    {keys : List String} (h : Progress s₀ s) (hfree : ∀ key ∈ keys, s₀.NotLive (store, key)) :
    Progress s₀ (s.deleteSessionKeys outcome store keys) ∧
      (s.deleteSessionKeys outcome store keys).uploads = s.uploads := by
  unfold deleteSessionKeys
  refine List.foldlRecOn (motive := fun st => Progress s₀ st ∧ st.uploads = s.uploads) keys _
    ⟨h, rfl⟩ fun st ⟨hst, hup⟩ key hkey => ?_
  split
  · exact ⟨hst.remove (hfree key hkey), hup⟩
  · refine ⟨(hst.failDelete (hfree key hkey) _).fail .., ?_⟩
    simp only [CollectorState.fail, failDelete, ← hup]
    split <;> rfl

theorem cleanupSession_spec {faults : SessionFaults} {id : Uuid} {ids : List Uuid}
    (hsafe : s₀.SafeToCollect) (hid : id ∈ s₀.uploads.selectAbandonedOciUploadSessionIds)
    (h : SweepProgress s₀ s ids) : ∃ ids', SweepProgress s₀ (s.cleanupSession faults id) ids' := by
  unfold cleanupSession
  split
  · exact ⟨ids, h.progress.fail .., h.uploads, h.abandoned⟩
  split
  · exact ⟨ids, h.progress.fail .., h.uploads, h.abandoned⟩
  split
  · exact ⟨ids, h⟩
  next u hlock =>
  rw [h.uploads, UploadTables.lock_deleteSessions] at hlock
  split at hlock
  · cases hlock
  next hnew =>
  split
  · exact ⟨ids, h.progress.fail .., h.uploads, h.abandoned⟩
  next store hstore =>
  obtain ⟨rfl, hresolves⟩ := storageForLocation_ok hstore
  have hu : u.id ∉ ids := by
    rw [UploadTables.lock_spec hlock]
    simpa using hnew
  have habandoned : s₀.Abandoned id u := by
    refine ⟨hid, hlock, ?_⟩
    simpa only [resolves, h.progress.backends, h.progress.repositories] using hresolves
  have hfree : ∀ key ∈ s.uploads.sessionStorageKeys u,
      s₀.NotLive ((s.uploads.repositories u.repositoryId).store, key) := by
    intro key hkey
    rw [h.uploads, UploadTables.sessionStorageKeys_deleteSessions hu] at hkey
    refine hsafe.notLive (.inl ⟨id, u, habandoned, ?_, hkey⟩)
    rw [h.progress.repositories]
  obtain ⟨hgone, hup⟩ := deleteSessionKeys_spec faults.delete h.progress hfree
  have hgoneUploads := hup.trans h.uploads
  dsimp only
  split
  · exact ⟨ids, hgone, hgoneUploads, h.abandoned⟩
  split
  · exact ⟨ids, hgone.fail .., hgoneUploads, h.abandoned⟩
  split
  · exact ⟨ids, hgone.fail .., hgoneUploads, h.abandoned⟩
  refine ⟨id :: ids, ?_, ?_, ?_⟩
  · refine Progress.addResult ?_ ..
    refine hgone.congr ?_ rfl rfl rfl
    simp only [UploadTables.deleteSession]
  · simp only [addResult, hgoneUploads, UploadTables.deleteSessions_cons]
  · intro id' hid'
    rcases List.mem_cons.mp hid' with rfl | hold
    · exact ⟨u, habandoned⟩
    · exact h.abandoned id' hold

theorem cleanupAbandonedOciUploads_spec (faults : GcFaults) (hsafe : s₀.SafeToCollect)
    (h : Progress s₀ s) (hup : s.uploads = s₀.uploads) :
    ∃ ids, SweepProgress s₀ (s.cleanupAbandonedOciUploads faults) ids := by
  have hstart : SweepProgress s₀ s [] :=
    ⟨h, hup.trans UploadTables.deleteSessions_nil.symm, nofun⟩
  unfold cleanupAbandonedOciUploads
  split
  · exact ⟨[], hstart.progress.fail .., hstart.uploads, hstart.abandoned⟩
  · refine List.foldlRecOn (motive := fun st => ∃ ids, SweepProgress s₀ st ids) _ _ ⟨[], hstart⟩ ?_
    rintro st ⟨ids, hst⟩ id hid
    exact cleanupSession_spec hsafe (hup ▸ hid) hst

theorem reapKey_progress {reaper : Reaper} {faults : KeyFaults} {k : OciUploadCleanupKey}
    (h : Progress s₀ s) (hfree : s₀.resolves k.location = true → s₀.NotLive k.object) :
    Progress s₀ (s.reapKey reaper faults k) := by
  unfold reapKey
  split
  · exact h.fail ..
  next store hstore =>
  obtain ⟨rfl, hresolves⟩ := storageForLocation_ok hstore
  have hfree : s₀.NotLive k.object :=
    hfree (by simpa only [resolves, h.backends] using hresolves)
  split
  · exact (h.failDelete hfree _).fail ..
  have hgone : Progress s₀ (s.setObject (k.location.store, k.storageKey) false) := h.remove hfree
  dsimp only
  split
  · exact hgone.fail ..
  · refine Progress.addResult ?_ ..
    exact hgone.congr rfl rfl rfl rfl

theorem reapCleanupKeys_progress (faults : GcFaults) {reaper : Reaper} {ids : List Uuid}
    (hsafe : s₀.SafeToCollect) (habandoned : ∀ id ∈ ids, ∃ u, s₀.Abandoned id u)
    (h : Progress s₀ s) (hselect : s.uploads.selectCleanupKeys reaper =
      (s₀.uploads.deleteSessions ids).selectCleanupKeys reaper) :
    Progress s₀ (s.reapCleanupKeys faults reaper) := by
  unfold reapCleanupKeys
  split
  · exact h.fail ..
  · refine List.foldlRecOn _ _ h fun st hst k hk => reapKey_progress hst fun hresolves => ?_
    exact hsafe.notLive (.inr ⟨ids, habandoned, reaper, k, hselect ▸ hk, hresolves, rfl⟩)

theorem reapKey_selectPending {faults : KeyFaults} {k : OciUploadCleanupKey} :
    (s.reapKey .unreferenced faults k).uploads.selectCleanupKeys .pending =
      s.uploads.selectCleanupKeys .pending := by
  unfold reapKey
  split
  · rfl
  split
  · simp only [CollectorState.fail, failDelete_uploads]
  dsimp only
  split
  · rfl
  · exact UploadTables.selectPending_deleteCleanupKey k.id

theorem reapCleanupKeys_selectPending {faults : GcFaults} :
    (s.reapCleanupKeys faults .unreferenced).uploads.selectCleanupKeys .pending =
      s.uploads.selectCleanupKeys .pending := by
  unfold reapCleanupKeys
  split
  · rfl
  · exact List.foldlRecOn (motive := fun st : CollectorState =>
      st.uploads.selectCleanupKeys .pending = s.uploads.selectCleanupKeys .pending) _ _ rfl
      fun st hst k _ => reapKey_selectPending.trans hst

/-- A flat object that is still an orphan belongs to no row of its backend. -/
theorem cleanupFlat_progress {faults : FlatFaults} {o : FlatOwner} (h : Progress s₀ s) :
    Progress s₀ (s.cleanupFlat faults o) := by
  unfold cleanupFlat
  split
  · exact h.fail ..
  next store hstore =>
  obtain ⟨rfl, -⟩ := storageForLocation_ok hstore
  split
  · exact h.fail ..
  split
  · exact h.fail ..
  split
  · exact h
  next horphan =>
  simp only [isMavenFlatObjectStillOrphan, flatOrphan, Bool.not_eq_true', Bool.not_eq_false,
    List.any_eq_true, Bool.and_eq_true, beq_iff_eq] at horphan
  obtain ⟨o', -, ⟨hbackend, hkey⟩, hpred⟩ := horphan
  have hbacked : s.rowBacked o.storageBackend o.storageKey = false := by
    rw [← hbackend, ← hkey]
    exact hpred.1.1.1.1.2
  have hfree := h.notLive_of_not_rowBacked ⟨o.storageBackend,
    (s.uploads.repositories o.repositoryId).path⟩ hbacked
  have hgone := h.remove hfree
  split
  · exact (h.failDelete hfree _).fail ..
  dsimp only
  split
  · exact hgone.fail ..
  split
  · exact hgone.fail ..
  · refine Progress.addResult ?_ ..
    exact hgone.congr rfl rfl rfl rfl

theorem cleanupOrphanMavenFlatObjects_progress {faults : GcFaults} (h : Progress s₀ s) :
    Progress s₀ (s.cleanupOrphanMavenFlatObjects faults) := by
  unfold cleanupOrphanMavenFlatObjects
  split
  · exact h.fail ..
  · exact List.foldlRecOn _ _ h fun st hst o _ => cleanupFlat_progress hst

theorem runSweeps_progress (faults : GcFaults) (hsafe : s₀.SafeToCollect) (h : Progress s₀ s)
    (hup : s.uploads = s₀.uploads) : Progress s₀ (s.runSweeps faults) := by
  obtain ⟨ids, hsessions⟩ := cleanupAbandonedOciUploads_spec faults hsafe h hup
  have hselect : ∀ reaper, (s.cleanupAbandonedOciUploads faults).uploads.selectCleanupKeys reaper =
      (s₀.uploads.deleteSessions ids).selectCleanupKeys reaper := by
    intro reaper
    rw [hsessions.uploads]
  have hunreferenced := reapCleanupKeys_progress faults hsafe hsessions.abandoned
    hsessions.progress (hselect .unreferenced)
  have hpending := reapCleanupKeys_progress faults hsafe hsessions.abandoned
    hunreferenced (reapCleanupKeys_selectPending.trans (hselect .pending))
  exact cleanupOrphanMavenFlatObjects_progress hpending

end CollectorState
end Sweeps

/-- Everything the collector does to one group succeeds. -/
def okGroup : GroupFaults where
  begin := none
  recheck := none
  delete := .deleted
  approvals := none
  rows := none
  sidecars _ := ⟨none, .deleted⟩
  owners := none
  commit := none

def okSession : SessionFaults := ⟨none, none, fun _ => .deleted, none, none⟩

/-- Nothing succeeds but the initial scan. -/
def allFail : GcFaults where
  selectOrphans := none
  group _ := { okGroup with begin := some "" }
  selectAbandoned := some ""
  session _ := { okSession with begin := some "" }
  selectCleanup _ := some ""
  cleanupKey _ _ := ⟨.deleted, none⟩
  selectFlat := some ""
  flat _ := ⟨some "", none, .deleted, none, none⟩

/-- Only the one group is collected. -/
def onlyGroup (k : OrphanKey) : GcFaults :=
  { allFail with group := fun k' => if k' = k then okGroup else allFail.group k' }

/-- Only the listed sessions are removed. -/
def onlySessions (ids : List Uuid) : GcFaults :=
  { allFail with
    selectAbandoned := none
    session := fun id => if ids.contains id then okSession else allFail.session id }

/-- Only the listed sessions are removed, and one reaper works. -/
def onlyReaper (ids : List Uuid) (reaper : Reaper) : GcFaults :=
  { onlySessions ids with selectCleanup := fun r => if r = reaper then none else some "" }

/-- A fold that keeps `J` until it meets `k`, and then has `Q` for good. -/
theorem foldl_reaches {σ α : Type} {f : σ → α → σ} {J Q : σ → Prop} {k : α}
    (hJ : ∀ s a, a ≠ k → J s → J (f s a)) (hk : ∀ s, J s → Q (f s k)) (hQ : ∀ s a, Q s → Q (f s a))
    {l : List α} (hmem : k ∈ l) {s : σ} (h : J s) : Q (l.foldl f s) := by
  classical
  induction l generalizing s with
  | nil => cases hmem
  | cons a rest ih =>
    rw [List.foldl_cons]
    by_cases ha : a = k
    · subst ha
      exact List.foldlRecOn rest f (hk s h) fun s hs a _ => hQ s a hs
    · have hrest : k ∈ rest := (List.mem_cons.mp hmem).resolve_left fun heq => ha heq.symm
      exact ih hrest (hJ s a ha h)

section Necessary
variable {s₀ s st : CollectorState} {o : ObjectRef} {k : OrphanKey}

namespace CollectorState

/-- Same but for what the run has reported. -/
def SameData (s s' : CollectorState) : Prop := ∃ r, s' = { s with result := r }

theorem SameData.fail (h : SameData s st) (operation key error : String) :
    SameData s (st.fail operation key error) := by
  obtain ⟨r, rfl⟩ := h
  exact ⟨_, rfl⟩

theorem collectGroup_begin_fails {faults : GroupFaults} {e : String} (h : faults.begin = some e) :
    SameData s (s.collectGroup faults k) := by
  unfold collectGroup
  split
  · exact SameData.fail ⟨s.result, rfl⟩ ..
  · simp only [h]
    exact SameData.fail ⟨s.result, rfl⟩ ..

theorem deleteSidecars_ok (suffixes : List String) :
    (∃ keys, (s.deleteSidecars okGroup.sidecars k suffixes).2 = .ok keys) ∧
      (s.deleteSidecars okGroup.sidecars k suffixes).1.artifacts = s.artifacts ∧
      ∀ o : ObjectRef, o.1 ≠ k.location.store →
        (s.deleteSidecars okGroup.sidecars k suffixes).1.objects o = s.objects o := by
  induction suffixes generalizing s with
  | nil => exact ⟨⟨[], rfl⟩, rfl, fun _ _ => rfl⟩
  | cons suffix rest ih =>
    simp only [deleteSidecars, okGroup]
    split
    · exact ih
    · obtain ⟨⟨keys, hkeys⟩, hrows, hobjects⟩ :=
        ih (s := s.setObject (k.location.store, k.storageKey ++ suffix) false)
      simp only [okGroup] at hkeys hrows hobjects
      refine ⟨⟨_, by rw [hkeys]; rfl⟩, hrows, fun o ho => ?_⟩
      rw [hobjects o ho]
      exact Function.update_of_ne (fun heq => ho (congrArg Prod.fst heq)) ..

theorem reclaimMavenSidecars_ok :
    (s.reclaimMavenSidecars okGroup k).2 = none ∧
      (s.reclaimMavenSidecars okGroup k).1.artifacts = s.artifacts ∧
      ∀ o : ObjectRef, o.1 ≠ k.location.store →
        (s.reclaimMavenSidecars okGroup k).1.objects o = s.objects o := by
  unfold reclaimMavenSidecars
  split
  · exact ⟨rfl, rfl, fun _ _ => rfl⟩
  obtain ⟨⟨keys, hkeys⟩, hrows, hobjects⟩ :=
    deleteSidecars_ok (s := s) (k := k) mavenSidecarSuffixes
  split
  · next heq =>
    rw [heq] at hkeys
    cases hkeys
  · next heq =>
    simp only [heq] at hrows hobjects
    exact ⟨rfl, hrows, hobjects⟩

/-- A group that is collected loses its deleted rows; objects of other stores are untouched. -/
theorem collectGroup_ok (hresolves : s.resolves k.location = true)
    (horphan : s.isStillOrphan k = true) :
    (s.collectGroup okGroup k).artifacts = s.artifacts.filter
        (fun a => !(a.storageKey == k.storageKey && a.isDeleted)) ∧
      ∀ o : ObjectRef, o.1 ≠ k.location.store →
        (s.collectGroup okGroup k).objects o = s.objects o := by
  have hstore : s.storageForLocation k.location = .ok k.location.store := by
    simp only [storageForLocation, hresolves, ↓reduceIte]
  obtain ⟨hok, hrows, hobjects⟩ := reclaimMavenSidecars_ok (k := k)
    (s := (s.setObject (k.location.store, k.storageKey) false).deleteArtifacts k.storageKey)
  have hstep : s.collectGroup okGroup k = (((s.setObject (k.location.store, k.storageKey)
      false).deleteArtifacts k.storageKey).reclaimMavenSidecars okGroup k).1.addResult 1
        k.artifactCount k.totalBytes := by
    unfold collectGroup
    simp only [hstore, horphan, Bool.not_true, Bool.false_eq_true, ↓reduceIte]
    simp only [okGroup] at hok ⊢
    split
    · next heq =>
      rw [heq] at hok
      cases hok
    · next heq => rw [heq]
  rw [hstep]
  refine ⟨hrows, fun o ho => (hobjects o ho).trans ?_⟩
  exact Function.update_of_ne (fun heq => ho (congrArg Prod.fst heq)) ..

theorem collectGroup_ok_frame : (∀ a ∈ (s.collectGroup okGroup k).artifacts, a ∈ s.artifacts) ∧
    ∀ o : ObjectRef, o.1 ≠ k.location.store →
      (s.collectGroup okGroup k).objects o = s.objects o := by
  by_cases hresolves : s.resolves k.location = true
  · by_cases horphan : s.isStillOrphan k = true
    · obtain ⟨hrows, hobjects⟩ := collectGroup_ok hresolves horphan
      exact ⟨fun a ha => List.mem_of_mem_filter (hrows ▸ ha), hobjects⟩
    · have hskip : s.collectGroup okGroup k = s := by
        simp only [collectGroup, storageForLocation, hresolves, ↓reduceIte, okGroup, horphan,
          Bool.not_false]
      rw [hskip]
      exact ⟨fun a ha => ha, fun _ _ => rfl⟩
  · have hskip : SameData s (s.collectGroup okGroup k) := by
      simp only [collectGroup, storageForLocation, hresolves]
      exact SameData.fail ⟨s.result, rfl⟩ ..
    obtain ⟨r, hr⟩ := hskip
    rw [hr]
    exact ⟨fun a ha => ha, fun _ _ => rfl⟩

/-- Whether a deleted row is an orphan depends on its key and its store only. -/
theorem orphanPredicate_store {a b : ArtifactRow} (hkey : a.storageKey = b.storageKey)
    (hdeleted : a.isDeleted = b.isDeleted)
    (hstore : (s.locationOf a).store = (s.locationOf b).store) :
    s.tables.orphanPredicate s.artifacts a = s.tables.orphanPredicate s.artifacts b := by
  have hcovers : ∀ l : StorageLocation, l.covers (s.tables.repositories a.repositoryId) =
      l.covers (s.tables.repositories b.repositoryId) := by
    intro l
    rw [Bool.eq_iff_iff, StorageLocation.covers_iff, StorageLocation.covers_iff]
    exact Eq.congr_right hstore
  simp only [GcState.orphanPredicate, hkey, hdeleted, hcovers]

theorem isStillOrphan_of_orphan {b : ArtifactRow} (hb : b ∈ s.artifacts)
    (horphan : s.tables.orphanPredicate s.artifacts b = true) (hkey : k.storageKey = b.storageKey)
    (hlocation : k.location = s.locationOf b) : s.isStillOrphan k = true := by
  simp only [isStillOrphan, Bool.and_eq_true, Bool.not_eq_true',
    List.isEmpty_eq_false_iff_exists_mem, List.all_eq_true, List.mem_filter, beq_iff_eq,
    StorageLocation.covers_iff, hlocation, hkey]
  refine ⟨⟨b, hb, rfl, rfl⟩, fun c ⟨hc, hckey, hcstore⟩ => ?_⟩
  have hdeleted : b.isDeleted = true ∧ c.isDeleted = true := by
    simp only [GcState.orphanPredicate, Bool.and_eq_true, Bool.not_eq_true', List.any_eq_false,
      beq_iff_eq, not_and, Bool.not_eq_false] at horphan
    exact ⟨horphan.1.1.1.1, horphan.1.1.1.2 c hc hckey⟩
  rw [orphanPredicate_store hckey (hdeleted.2.trans hdeleted.1.symm) hcstore.symm]
  exact horphan

theorem exists_group {b : ArtifactRow} (hb : b ∈ s.artifacts)
    (horphan : s.tables.orphanPredicate s.artifacts b = true) :
    ∃ k ∈ s.selectOrphanGroups, k.storageKey = b.storageKey ∧ k.location = s.locationOf b := by
  refine ⟨_, List.mem_map.mpr ⟨(b.storageKey, s.locationOf b), ?_, rfl⟩, rfl, rfl⟩
  exact List.mem_dedup.mpr (List.mem_map.mpr ⟨b, List.mem_filter.mpr ⟨hb, horphan⟩, rfl⟩)

theorem runSweeps_fail (faults : GcFaults) (habandoned : faults.selectAbandoned = some "")
    (hcleanup : ∀ r, faults.selectCleanup r = some "") (hflat : faults.selectFlat = some "") :
    SameData s (s.runSweeps faults) := by
  simp only [runSweeps, cleanupAbandonedOciUploads, habandoned, reapCleanupKeys, hcleanup,
    cleanupOrphanMavenFlatObjects, hflat]
  exact (((SameData.fail ⟨s.result, rfl⟩ _ _ _).fail _ _ _).fail _ _ _).fail _ _ _

/-- A deleted row of another store goes with the group of its key, and its object stays. -/
theorem SafeToCollect.groups_of_exact (h : ∀ faults, s.CollectsExactly (s.afterGc faults))
    {b : ArtifactRow} (hb : b ∈ s.artifacts)
    (horphan : s.tables.orphanPredicate s.artifacts b = true)
    (hresolves : s.resolves (s.locationOf b) = true) {a : ArtifactRow} (ha : a ∈ s.artifacts)
    (hdeleted : a.isDeleted = true) (hkey : a.storageKey = b.storageKey)
    (hstore : (s.locationOf a).store ≠ (s.locationOf b).store) :
    s.objects (s.objectOf a) = false := by
  obtain ⟨k, hk, hkkey, hkloc⟩ := exists_group hb horphan
  have hne : (s.objectOf a).1 ≠ k.location.store := by rwa [hkloc]
  have hloop : a ∉ ({ s with result := emptyGcResult }.collectOrphans (onlyGroup k)).artifacts ∧
      ({ s with result := emptyGcResult }.collectOrphans (onlyGroup k)).objects (s.objectOf a) =
        s.objects (s.objectOf a) := by
    refine foldl_reaches (J := SameData s) (Q := fun st => a ∉ st.artifacts ∧
      st.objects (s.objectOf a) = s.objects (s.objectOf a)) (k := k) ?_ ?_ ?_ hk ⟨_, rfl⟩
    · rintro _ k' hk' ⟨r, rfl⟩
      have hfail : ((onlyGroup k).group k').begin = some "" := by
        simp only [onlyGroup, hk', ↓reduceIte, allFail]
      obtain ⟨r', hr'⟩ := collectGroup_begin_fails (k := k') (s := { s with result := r }) hfail
      exact ⟨r', hr'⟩
    · rintro _ ⟨r, rfl⟩
      have hok : (onlyGroup k).group k = okGroup := by simp only [onlyGroup, ↓reduceIte]
      rw [hok]
      obtain ⟨hrows, hobjects⟩ := collectGroup_ok (k := k) (s := { s with result := r })
        (hkloc ▸ hresolves) (isStillOrphan_of_orphan hb horphan hkkey hkloc)
      refine ⟨?_, hobjects _ hne⟩
      rw [hrows, List.mem_filter]
      simp [hkey, hkkey, hdeleted]
    · rintro st k' ⟨hgone, hobject⟩
      by_cases hk' : k' = k
      · subst hk'
        have hok : (onlyGroup k').group k' = okGroup := by simp only [onlyGroup, ↓reduceIte]
        rw [hok]
        obtain ⟨hrows, hobjects⟩ := collectGroup_ok_frame (s := st) (k := k')
        exact ⟨fun hmem => hgone (hrows a hmem), (hobjects _ hne).trans hobject⟩
      · have hfail : ((onlyGroup k).group k').begin = some "" := by
          simp only [onlyGroup, hk', ↓reduceIte, allFail]
        obtain ⟨r', hr'⟩ := collectGroup_begin_fails (s := st) (k := k') hfail
        rw [hr']
        exact ⟨hgone, hobject⟩
  obtain ⟨r, hr⟩ := runSweeps_fail (s := { s with result := emptyGcResult }.collectOrphans
    (onlyGroup k)) (onlyGroup k) rfl (fun _ => rfl) rfl
  have hafter : s.afterGc (onlyGroup k) = _ := hr
  have hexact := (h (onlyGroup k)).rows a ha
  rw [hafter] at hexact
  exact hloop.2.symm.trans (hexact hloop.1)

theorem collectOrphans_fail (faults : GcFaults) (h : ∀ k, (faults.group k).begin = some "") :
    SameData s (s.collectOrphans faults) := by
  unfold collectOrphans
  refine List.foldlRecOn (motive := SameData s) _ _ ⟨s.result, rfl⟩ fun st ⟨r, hr⟩ k _ => ?_
  obtain ⟨r', hr'⟩ := collectGroup_begin_fails (s := st) (k := k) (h k)
  exact ⟨r', by rw [hr', hr]⟩

theorem setObject_shrinks {o' : ObjectRef} (h : s.objects o' = false) :
    (s.setObject o false).objects o' = false := by
  by_contra hstored
  have hkept := (setObject_false.mp (Bool.eq_true_of_not_eq_false hstored)).2
  simp [h] at hkept

theorem deleteSessionKeys_ok (store : StorageLocation) (keys : List String) :
    (s.deleteSessionKeys okSession.delete store keys).uploads = s.uploads ∧
      (s.deleteSessionKeys okSession.delete store keys).backends = s.backends ∧
      (∀ o, s.objects o = false →
        (s.deleteSessionKeys okSession.delete store keys).objects o = false) ∧
      ∀ key ∈ keys,
        (s.deleteSessionKeys okSession.delete store keys).objects (store, key) = false := by
  induction keys generalizing s with
  | nil => exact ⟨rfl, rfl, fun _ h => h, nofun⟩
  | cons key rest ih =>
    obtain ⟨hup, hback, hobjects, hkeys⟩ := ih (s := s.setObject (store, key) false)
    refine ⟨hup, hback, fun o ho => hobjects o (setObject_shrinks ho), fun key' hkey' => ?_⟩
    rcases List.mem_cons.mp hkey' with rfl | hrest
    · exact hobjects _ (Function.update_self ..)
    · exact hkeys key' hrest

theorem cleanupSession_ok {id : Uuid} {u : OciUploadSession}
    (hlock : s.uploads.lockAbandonedOciUploadSession id = some u)
    (hresolves : s.resolves (s.uploads.repositories u.repositoryId) = true) :
    (s.cleanupSession okSession id).uploads = s.uploads.deleteSession id ∧
      (s.cleanupSession okSession id).backends = s.backends ∧
      (∀ o, s.objects o = false → (s.cleanupSession okSession id).objects o = false) ∧
      ∀ key ∈ s.uploads.sessionStorageKeys u, (s.cleanupSession okSession id).objects
        ((s.uploads.repositories u.repositoryId).store, key) = false := by
  obtain ⟨hup, hback, hobjects, hkeys⟩ := deleteSessionKeys_ok (s := s)
    (s.uploads.repositories u.repositoryId).store (s.uploads.sessionStorageKeys u)
  have hall : (s.uploads.sessionStorageKeys u).any
      (fun key => okSession.delete key != .deleted) = false := by
    simp [okSession]
  have hstep : s.cleanupSession okSession id =
      let gone := s.deleteSessionKeys okSession.delete (s.uploads.repositories u.repositoryId).store
        (s.uploads.sessionStorageKeys u)
      { gone with uploads := gone.uploads.deleteSession id }.addResult
        (s.uploads.sessionStorageKeys u).length 0 (max u.bytesReceived 0) := by
    unfold cleanupSession
    simp only [hlock, storageForLocation, hresolves, ↓reduceIte, hall, Bool.false_eq_true]
    rfl
  rw [hstep]
  exact ⟨by rw [addResult, hup], hback, hobjects, hkeys⟩

/-- The sweep from `s` has come to `st` and removed the sessions `done`, with their objects. -/
structure Removed (s st : CollectorState) (done : List Uuid) : Prop where
  uploads : st.uploads = s.uploads.deleteSessions done
  backends : st.backends = s.backends
  objects : ∀ id ∈ done, ∀ u, s.Abandoned id u → ∀ key ∈ s.uploads.sessionStorageKeys u,
    st.objects ((s.uploads.repositories u.repositoryId).store, key) = false

theorem Removed.cleanupSession {ids done : List Uuid} {id : Uuid} (h : Removed s st done)
    (hids : ∀ id ∈ ids, ∃ u, s.Abandoned id u) :
    ∃ done', Removed s (st.cleanupSession ((onlySessions ids).session id) id) done' ∧
      (∀ i ∈ done, i ∈ done') ∧ (id ∈ ids → id ∈ done') ∧ ∀ i ∈ done', i ∈ done ∨ i ∈ ids := by
  by_cases hid : id ∈ ids
  · have hok : (onlySessions ids).session id = okSession := by simp [onlySessions, hid]
    rw [hok]
    obtain ⟨u, hu⟩ := hids id hid
    by_cases hdone : id ∈ done
    · have hskip : st.cleanupSession okSession id = st := by
        simp only [CollectorState.cleanupSession, okSession, h.uploads,
          UploadTables.lock_deleteSessions, List.contains_iff_mem, hdone, ↓reduceIte]
      rw [hskip]
      exact ⟨done, h, fun _ hi => hi, fun _ => hdone, fun _ hi => .inl hi⟩
    have hlock : st.uploads.lockAbandonedOciUploadSession id = some u := by
      rw [h.uploads, UploadTables.lock_deleteSessions]
      simp [hdone, hu.2.1]
    have hrep : st.uploads.repositories = s.uploads.repositories := by
      rw [h.uploads]
      rfl
    have hresolves : st.resolves (st.uploads.repositories u.repositoryId) = true := by
      simpa only [resolves, h.backends, hrep] using hu.2.2
    have hkeys : st.uploads.sessionStorageKeys u = s.uploads.sessionStorageKeys u := by
      rw [h.uploads]
      refine UploadTables.sessionStorageKeys_deleteSessions ?_
      rwa [UploadTables.lock_spec hu.2.1]
    obtain ⟨hup, hback, hobjects, hgone⟩ := cleanupSession_ok hlock hresolves
    refine ⟨id :: done, ⟨?_, hback.trans h.backends, fun i hi v hv key hkey => ?_⟩,
      fun i hi => List.mem_cons_of_mem _ hi, fun _ => List.mem_cons_self, fun i hi => ?_⟩
    · rw [hup, h.uploads, UploadTables.deleteSessions_cons]
    · rcases List.mem_cons.mp hi with rfl | hold
      · have heq : v = u := Option.some.inj (hv.2.1.symm.trans hu.2.1)
        subst heq
        rw [hkeys, hrep] at hgone
        exact hgone key hkey
      · exact hobjects _ (h.objects i hold v hv key hkey)
    · rcases List.mem_cons.mp hi with rfl | hold
      · exact .inr hid
      · exact .inl hold
  · have hfail : ((onlySessions ids).session id).begin = some "" := by
      simp [onlySessions, hid, allFail]
    have hskip : st.cleanupSession ((onlySessions ids).session id) id =
        st.fail "begin abandoned OCI upload cleanup tx" (toString id) "" := by
      simp only [CollectorState.cleanupSession, hfail]
    rw [hskip]
    exact ⟨done, ⟨h.uploads, h.backends, h.objects⟩, fun _ hi => hi,
      fun hmem => (hid hmem).elim, fun _ hi => .inl hi⟩

/-- The sweep removes exactly the sessions that it is let to. -/
theorem cleanupAbandonedOciUploads_only (faults : GcFaults) (ids : List Uuid)
    (hselect : faults.selectAbandoned = none)
    (hsession : faults.session = (onlySessions ids).session)
    (hids : ∀ id ∈ ids, ∃ u, s.Abandoned id u) :
    ∃ done, Removed s (s.cleanupAbandonedOciUploads faults) done ∧
      ∀ i, i ∈ done ↔ i ∈ ids := by
  have hfold : ∀ (l : List Uuid) (st : CollectorState) (done : List Uuid), Removed s st done →
      (∀ i ∈ done, i ∈ ids) → ∃ done', Removed s (l.foldl (fun st id =>
        st.cleanupSession ((onlySessions ids).session id) id) st) done' ∧
        (∀ i ∈ done, i ∈ done') ∧ (∀ i ∈ l, i ∈ ids → i ∈ done') ∧ ∀ i ∈ done', i ∈ ids := by
    intro l
    induction l with
    | nil => exact fun st done h hdone => ⟨done, h, fun _ hi => hi, nofun, hdone⟩
    | cons id rest ih =>
      intro st done h hdone
      obtain ⟨done₁, h₁, hmono₁, hnew₁, hold₁⟩ := h.cleanupSession hids
      have hdone₁ : ∀ i ∈ done₁, i ∈ ids := fun i hi => (hold₁ i hi).elim (hdone i) fun hmem => hmem
      obtain ⟨done₂, h₂, hmono₂, hnew₂, hdone₂⟩ := ih _ done₁ h₁ hdone₁
      refine ⟨done₂, h₂, fun i hi => hmono₂ i (hmono₁ i hi), fun i hi hmem => ?_, hdone₂⟩
      rcases List.mem_cons.mp hi with rfl | hrest
      · exact hmono₂ _ (hnew₁ hmem)
      · exact hnew₂ i hrest hmem
  have hstart : Removed s s [] := ⟨UploadTables.deleteSessions_nil.symm, rfl, nofun⟩
  obtain ⟨done, hremoved, -, hnew, hdone⟩ :=
    hfold s.uploads.selectAbandonedOciUploadSessionIds s [] hstart nofun
  refine ⟨done, ?_, fun i => ⟨hdone i, fun hi => ?_⟩⟩
  · simpa only [cleanupAbandonedOciUploads, hselect, hsession] using hremoved
  · obtain ⟨u, hu⟩ := hids i hi
    exact hnew i hu.1 hi

theorem reapKey_ok {reaper : Reaper} {key : OciUploadCleanupKey} :
    (s.reapKey reaper ⟨.deleted, none⟩ key).backends = s.backends ∧
      (∀ o, s.objects o = false → (s.reapKey reaper ⟨.deleted, none⟩ key).objects o = false) ∧
      (s.resolves key.location = true →
        (s.reapKey reaper ⟨.deleted, none⟩ key).objects key.object = false) := by
  by_cases hresolves : s.resolves key.location = true
  · simp only [reapKey, storageForLocation, hresolves, ↓reduceIte]
    exact ⟨rfl, fun o ho => setObject_shrinks ho, fun _ => Function.update_self ..⟩
  · simp only [reapKey, storageForLocation, hresolves]
    exact ⟨rfl, fun o ho => ho, nofun⟩

theorem reapCleanupKeys_only {faults : GcFaults} {reaper : Reaper}
    (hselect : faults.selectCleanup reaper = none)
    (hkeys : ∀ n, faults.cleanupKey reaper n = ⟨.deleted, none⟩) {key : OciUploadCleanupKey}
    (hkey : key ∈ s.uploads.selectCleanupKeys reaper) (hresolves : s.resolves key.location = true) :
    (s.reapCleanupKeys faults reaper).objects key.object = false := by
  simp only [reapCleanupKeys, hselect, hkeys]
  refine foldl_reaches (J := fun st : CollectorState => st.backends = s.backends)
    (Q := fun st => st.objects key.object = false) (k := key) ?_ ?_ ?_ hkey rfl
  · exact fun st k _ hst => reapKey_ok.1.trans hst
  · exact fun st hst => reapKey_ok.2.2 (by simpa only [resolves, hst] using hresolves)
  · exact fun st k hst => reapKey_ok.2.1 _ hst

theorem deleteSessions_congr {t : UploadTables} {ids ids' : List Uuid}
    (h : ∀ i, i ∈ ids ↔ i ∈ ids') : t.deleteSessions ids = t.deleteSessions ids' := by
  have hcontains : ∀ i, ids.contains i = ids'.contains i := by
    intro i
    rw [Bool.eq_iff_iff, List.contains_iff_mem, List.contains_iff_mem, h]
  simp only [UploadTables.deleteSessions, hcontains]

theorem afterGc_eq {faults : GcFaults} (h : faults.selectOrphans = none) : s.afterGc faults =
    ({ s with result := emptyGcResult }.collectOrphans faults).runSweeps faults := by
  simp only [afterGc, runGc, h]

theorem reapCleanupKeys_fail {faults : GcFaults} (reaper : Reaper)
    (h : faults.selectCleanup reaper = some "") :
    s.reapCleanupKeys faults reaper = s.fail reaper.sweepText "<sweep>" "" := by
  simp only [reapCleanupKeys, h]

theorem cleanupFlat_fail {faults : GcFaults} (h : faults.selectFlat = some "") :
    s.cleanupOrphanMavenFlatObjects faults =
      s.fail "run orphan Maven flat-object sweep" "<sweep>" "" := by
  simp only [cleanupOrphanMavenFlatObjects, h]

/-- Only the sessions and one reaper: what a run leaves is what that reaper leaves. -/
theorem afterGc_onlyReaper (ids : List Uuid) (reaper : Reaper) {st : CollectorState}
    (hst : { s with result := emptyGcResult }.collectOrphans (onlyReaper ids reaper) = st)
    (h : ∀ r, ((st.cleanupAbandonedOciUploads (onlyReaper ids reaper)).reapCleanupKeys
      (onlyReaper ids reaper) reaper).objects o = false ∧
      (((st.cleanupAbandonedOciUploads (onlyReaper ids reaper)).fail r "<sweep>" "").reapCleanupKeys
        (onlyReaper ids reaper) reaper).objects o = false) :
    (s.afterGc (onlyReaper ids reaper)).objects o = false := by
  have hfail : ∀ (t : CollectorState) operation key e, (t.fail operation key e).objects o =
    t.objects o := fun _ _ _ _ => rfl
  rw [afterGc_eq rfl, hst, runSweeps, cleanupFlat_fail rfl, hfail]
  cases reaper with
  | unreferenced =>
    rw [reapCleanupKeys_fail .pending (by simp [onlyReaper]), hfail]
    exact (h "").1
  | pending =>
    rw [reapCleanupKeys_fail .unreferenced (by simp [onlyReaper])]
    exact (h _).2

/-- Where the sweeps may delete an object, some run deletes it. -/
theorem exists_run_collecting (h : s.UploadCollectable o) :
    ∃ faults, (s.afterGc faults).objects o = false := by
  rcases h with ⟨id, u, hu, hstore, hkey⟩ | ⟨ids, hids, reaper, key, hkey, hresolves, rfl⟩
  · refine ⟨onlySessions [id], ?_⟩
    obtain ⟨r, hr⟩ := collectOrphans_fail (onlySessions [id])
      (s := { s with result := emptyGcResult }) fun _ => rfl
    obtain ⟨done, hremoved, hdone⟩ := cleanupAbandonedOciUploads_only
      (s := { s with result := r }) (onlySessions [id]) [id] rfl rfl
      fun i hi => ⟨u, List.mem_singleton.mp hi ▸ hu⟩
    have hgone := hremoved.objects id ((hdone id).mpr List.mem_cons_self) u hu o.2 hkey
    rw [afterGc_eq rfl, hr, runSweeps, cleanupFlat_fail rfl, reapCleanupKeys_fail _ rfl,
      reapCleanupKeys_fail _ rfl]
    rwa [← hstore] at hgone
  · refine ⟨onlyReaper ids reaper, ?_⟩
    obtain ⟨r, hr⟩ := collectOrphans_fail (onlyReaper ids reaper)
      (s := { s with result := emptyGcResult }) fun _ => rfl
    obtain ⟨done, hremoved, hdone⟩ := cleanupAbandonedOciUploads_only
      (s := { s with result := r }) (onlyReaper ids reaper) ids rfl rfl hids
    have hkey' : key ∈ ({ s with result := r }.cleanupAbandonedOciUploads
        (onlyReaper ids reaper)).uploads.selectCleanupKeys reaper := by
      rw [hremoved.uploads, deleteSessions_congr hdone]
      exact hkey
    have hresolves' : ({ s with result := r }.cleanupAbandonedOciUploads
        (onlyReaper ids reaper)).resolves key.location = true := by
      simpa only [resolves, hremoved.backends] using hresolves
    have hselect : (onlyReaper ids reaper).selectCleanup reaper = none := by simp [onlyReaper]
    exact afterGc_onlyReaper ids reaper hr fun _ =>
      ⟨reapCleanupKeys_only hselect (fun _ => rfl) hkey' hresolves',
        reapCleanupKeys_only hselect (fun _ => rfl) hkey' hresolves'⟩

end CollectorState
end Necessary

/-- Two repositories on file systems of their own, each with a deleted artifact of the same
coordinate and its file. -/
def sharedKey : CollectorState where
  uploads :=
    { now := 0
      repositories := fun r => ⟨"filesystem", if r = 1 then "/a" else "/b"⟩
      blobs := []
      sessions := []
      parts := []
      cleanupKeys := []
      nextCleanupId := 1 }
  tags := []
  manifestRefs := []
  artifacts := [⟨10, 1, "lib.jar", none, "generic/lib.jar", 5, true⟩,
    ⟨20, 2, "lib.jar", none, "generic/lib.jar", 7, true⟩]
  approvals := []
  metadataFiles := []
  flatOwners := []
  backends := []
  objects _ := true
  result := emptyGcResult

end ArtifactKeeper.Gc
