import ArtifactKeeper.Lifecycle.Policy
import ArtifactKeeper.ShortestPrefix
import Mathlib.Data.List.Sort

/-! The storage quota of a repository: how many of the least recently used artifacts go. -/

namespace ArtifactKeeper.Lifecycle

open Chunking ShortestPrefix

/-- `i64::saturating_add`. -/
def saturatingAdd (x y : ℤ) : Traced ℤ :=
  ⟨max (-2 ^ 63) (min (x + y) (2 ^ 63 - 1)), decide (FitsI64 (x + y))⟩

theorem saturatingAdd_eq {x y : ℤ} (h : FitsI64 (x + y)) : saturatingAdd x y = ⟨x + y, true⟩ := by
  have hmax : max (-2 ^ 63) (min (x + y) (2 ^ 63 - 1)) = x + y := by
    rw [min_eq_left (Int.le_sub_one_of_lt h.2), max_eq_right h.1]
  rw [saturatingAdd, hmax, decide_eq_true h]

/-- The loop of `select_size_quota_evictions`. -/
def selectFrom (excess : ℤ) : List (Uuid × ℤ) → List Uuid → ℤ → Traced (List Uuid × ℤ)
  | [], toRemove, accumulated => pure (toRemove, accumulated)
  | (id, size) :: rest, toRemove, accumulated =>
    if accumulated ≥ excess then pure (toRemove, accumulated)
    else do
      let accumulated ← saturatingAdd accumulated size
      selectFrom excess rest (toRemove ++ [id]) accumulated

def selectSizeQuotaEvictions (candidates : List (Uuid × ℤ)) (excess : ℤ) :
    Traced (List Uuid × ℤ) :=
  selectFrom excess candidates [] 0

/-- The loop takes the shortest prefix for what is still missing, and no sum on the way saturates
when all sizes together do not. -/
theorem selectFrom_eq {excess : ℤ} {candidates : List (Uuid × ℤ)} {toRemove : List Uuid}
    {accumulated : ℤ} (hsizes : ∀ c ∈ candidates, 0 ≤ c.2) (hacc : 0 ≤ accumulated)
    (htotal : accumulated + weigh Prod.snd candidates < 2 ^ 63) :
    selectFrom excess candidates toRemove accumulated =
      ⟨(toRemove ++ (reach Prod.snd (excess - accumulated) candidates).map (·.1),
        accumulated + weigh Prod.snd (reach Prod.snd (excess - accumulated) candidates)),
        true⟩ := by
  induction candidates generalizing toRemove accumulated with
  | nil => simp [selectFrom, reach, pure]
  | cons c rest ih =>
    obtain ⟨id, size⟩ := c
    have hsize : 0 ≤ size := hsizes (id, size) List.mem_cons_self
    have hrest : ∀ c ∈ rest, 0 ≤ c.2 := fun c hc => hsizes c (List.mem_cons_of_mem _ hc)
    have hweigh : 0 ≤ weigh Prod.snd rest := weigh_nonneg hrest
    rw [weigh_cons] at htotal
    rw [selectFrom, reach]
    by_cases hdone : excess ≤ accumulated
    · rw [if_pos hdone, if_pos (by omega)]
      simp [pure]
    · have hadd := saturatingAdd_eq (x := accumulated) (y := size) ⟨by omega, by omega⟩
      have hnext := @ih (toRemove ++ [id]) (accumulated + size) hrest (by omega)
        (by dsimp only at htotal; omega)
      rw [if_neg (by omega), if_neg (by omega), hadd]
      simp only [bind, hnext, weigh_cons, List.map_cons, List.append_assoc, List.singleton_append,
        Bool.and_self, add_assoc, sub_sub]

/-- `MAX(ds.downloaded_at)` of an artifact. -/
def lastDownloadedAt (downloads : List Download) (a : Artifact) : Option Timestamp :=
  ((downloads.filter (·.artifactId = a.id)).map (·.downloadedAt)).max?

/-- `last_downloaded_at ASC NULLS FIRST, created_at ASC`. -/
def evictedBefore (downloads : List Download) (a b : Artifact) : Bool :=
  match lastDownloadedAt downloads a, lastDownloadedAt downloads b with
  | none, none => a.createdAt ≤ b.createdAt
  | none, some _ => true
  | some _, none => false
  | some x, some y => x < y || (x = y && a.createdAt ≤ b.createdAt)

/-- What `ORDER BY` promises of its rows. -/
structure IsOrdered (downloads : List Download) (rows ordered : List Artifact) : Prop where
  perm : ordered.Perm rows
  sorted : ordered.Pairwise fun a b => evictedBefore downloads a b = true

/-- `WHERE repository_id = $1 AND is_deleted = false`. -/
def liveIn (repoId : Uuid) (rows : List Artifact) : List Artifact :=
  (live rows).filter (·.repositoryId = repoId)

/-- The order of rows that `ORDER BY` does not tell apart is the database's. -/
def executeSizeQuota (orderBy : List Download → List Artifact → List Artifact)
    (policy : LifecyclePolicy) (dryRun : Bool) (db : Tables) :
    Except AppError (Traced (PolicyExecutionResult × Tables)) := do
  let quotaBytes ← parseI64Field policy.config PolicyType.sizeQuotaBytes.asWireStr "quota_bytes"
  match policy.repositoryId with
  | none => throw (.validation "size_quota_bytes requires a repository_id")
  | some repoId =>
    let total ← sumBytes (liveIn repoId db.artifacts)
    if total ≤ quotaBytes then return pure (buildExecutionResult policy dryRun 0 0 0, db)
    return do
      let excess ← i64 (total - quotaBytes)
      let candidates := orderBy db.downloads (liveIn repoId db.artifacts)
      let (toRemove, accumulated) ←
        selectSizeQuotaEvictions (candidates.map fun c => (c.id, c.sizeBytes)) excess
      -- A list in memory is never as long as 2^63, so its length fits.
      let matched : ℤ := toRemove.length
      if !dryRun && !toRemove.isEmpty then
        let (after, removed) := db.softDelete fun a => toRemove.contains a.id
        return (buildExecutionResult policy dryRun matched removed accumulated, after)
      return (buildExecutionResult policy dryRun matched 0 accumulated, db)

section Eviction
variable {rows evicted rest : List Artifact}

theorem weigh_map_pair (rows : List Artifact) :
    weigh Prod.snd (rows.map fun c => (c.id, c.sizeBytes)) = totalBytes rows := by
  rw [weigh, List.map_map]
  rfl

theorem reach_map_pair (goal : ℤ) (rows : List Artifact) :
    reach Prod.snd goal (rows.map fun c => (c.id, c.sizeBytes)) =
      (reach Artifact.sizeBytes goal rows).map fun c => (c.id, c.sizeBytes) := by
  induction rows generalizing goal with
  | nil => rfl
  | cons a rows ih =>
    rw [List.map_cons, reach, reach]
    split
    · rfl
    · rw [ih, List.map_cons]

/-- The selection on the rows of the query. -/
theorem selectSizeQuotaEvictions_rows {excess : ℤ} (hsizes : ∀ a ∈ rows, 0 ≤ a.sizeBytes)
    (htotal : totalBytes rows < 2 ^ 63) :
    selectSizeQuotaEvictions (rows.map fun c => (c.id, c.sizeBytes)) excess =
      ⟨((reach Artifact.sizeBytes excess rows).map (·.id),
        totalBytes (reach Artifact.sizeBytes excess rows)), true⟩ := by
  have hpairs : ∀ c ∈ rows.map fun c => (c.id, c.sizeBytes), 0 ≤ c.2 := by
    intro c hc
    obtain ⟨a, ha, rfl⟩ := List.mem_map.mp hc
    exact hsizes a ha
  rw [selectSizeQuotaEvictions,
    selectFrom_eq hpairs (Int.le_refl 0) (by rw [weigh_map_pair]; omega)]
  rw [Int.sub_zero, reach_map_pair, weigh_map_pair, List.map_map, List.nil_append, zero_add]
  rfl

/-- Ids tell the rows of the table apart. -/
theorem contains_id_iff (hnodup : (rows.map (·.id)).Nodup) (hsub : evicted ⊆ rows) {a : Artifact}
    (ha : a ∈ rows) : (evicted.map (·.id)).contains a.id = decide (a ∈ evicted) := by
  rw [Bool.eq_iff_iff, List.contains_iff_mem, decide_eq_true_iff, List.mem_map]
  constructor
  · rintro ⟨b, hb, hid⟩
    exact (List.inj_on_of_nodup_map hnodup (hsub hb) ha hid) ▸ hb
  · intro h
    exact ⟨a, h, rfl⟩

theorem filter_mem_perm (hnodup : rows.Nodup) (hevicted : evicted.Nodup) (hsub : evicted ⊆ rows) :
    (rows.filter (· ∈ evicted)).Perm evicted := by
  rw [List.perm_ext_iff_of_nodup (hnodup.filter _) hevicted]
  intro a
  simp only [List.mem_filter, decide_eq_true_eq]
  exact ⟨And.right, fun h => ⟨hsub h, h⟩⟩

/-- What is left of a list without the front of one of its arrangements is the arrangement's
rest. -/
theorem filter_not_mem_perm (hnodup : rows.Nodup) (hperm : (evicted ++ rest).Perm rows) :
    (rows.filter (· ∉ evicted)).Perm rest := by
  have hsplit := (hperm.nodup_iff.mpr hnodup)
  refine (hperm.symm.filter _).trans ?_
  rw [List.filter_append, List.filter_eq_nil_iff.mpr (by simp), List.nil_append,
    List.filter_eq_self.mpr]
  intro a ha
  simpa using fun h => (List.disjoint_of_nodup_append hsplit) h ha

theorem liveIn_markRows (repoId : Uuid) (cond : Artifact → Bool) (rows : List Artifact) :
    liveIn repoId (markRows cond rows) = (liveIn repoId rows).filter (!cond ·) := by
  rw [liveIn, live_markRows, List.filter_filter, liveIn, List.filter_filter]
  exact List.filter_congr fun a _ => Bool.and_comm _ _

theorem liveIn_subset (repoId : Uuid) (rows : List Artifact) : liveIn repoId rows ⊆ rows :=
  fun _ h => (List.mem_filter.mp (List.mem_filter.mp h).1).1

theorem markRows_congr {cond cond' : Artifact → Bool} (h : ∀ a ∈ rows, cond a = cond' a) :
    markRows cond rows = markRows cond' rows :=
  List.map_congr_left fun a ha => by rw [h a ha]

/-- The update by ids marks the rows that were picked, each once. -/
theorem softDelete_ids {db : Tables} (hsub : evicted ⊆ db.artifacts) (hevicted : evicted.Nodup) :
    (db.softDelete fun a => (evicted.map (·.id)).contains a.id).1.artifacts =
        markRows (fun a => decide (a ∈ evicted)) db.artifacts ∧
      (db.softDelete fun a => (evicted.map (·.id)).contains a.id).2 = evicted.length := by
  have hids : ∀ a ∈ db.artifacts,
      (evicted.map (·.id)).contains a.id = decide (a ∈ evicted) := fun a ha =>
    contains_id_iff db.nodup hsub ha
  refine ⟨markRows_congr hids, ?_⟩
  rw [Tables.softDelete, List.filter_congr hids,
    (filter_mem_perm (db.nodup.of_map _) hevicted hsub).length_eq]

end Eviction

section Run
variable {orderBy : List Download → List Artifact → List Artifact} {policy : LifecyclePolicy}
  {db : Tables} {quota : ℤ} {repoId : Uuid}

/-- The run in one expression: the shortest prefix is marked, and reported as it is. -/
theorem executeSizeQuota_eq
    (hquota : parseI64Field policy.config "size_quota_bytes" "quota_bytes" = .ok quota)
    (hpos : 0 < quota) (hrepo : policy.repositoryId = some repoId)
    (horder : IsOrdered db.downloads (liveIn repoId db.artifacts)
      (orderBy db.downloads (liveIn repoId db.artifacts)))
    (hsizes : ∀ a ∈ liveIn repoId db.artifacts, 0 ≤ a.sizeBytes)
    (htotal : totalBytes (liveIn repoId db.artifacts) < 2 ^ 63) :
    ∃ after evicted,
      executeSizeQuota orderBy policy false db =
        .ok ⟨(buildExecutionResult policy false evicted.length evicted.length (totalBytes evicted),
          after), true⟩ ∧
      IsShortest Artifact.sizeBytes (totalBytes (liveIn repoId db.artifacts) - quota) evicted
        (orderBy db.downloads (liveIn repoId db.artifacts)) ∧
      after.now = db.now ∧ after.downloads = db.downloads ∧
      after.artifacts = markRows (fun a => decide (a ∈ evicted)) db.artifacts := by
  set rows := liveIn repoId db.artifacts
  set ordered := orderBy db.downloads rows
  have htotal_nonneg : 0 ≤ totalBytes rows := weigh_nonneg hsizes
  have hsum : sumBytes rows = .ok (totalBytes rows) := if_pos ⟨by omega, htotal⟩
  have hordered : weigh Artifact.sizeBytes ordered = totalBytes rows := weigh_perm horder.perm
  have hlabel : PolicyType.sizeQuotaBytes.asWireStr = "size_quota_bytes" := rfl
  rw [executeSizeQuota, hlabel, hquota, hrepo]
  dsimp only [bind, Except.bind]
  rw [hsum]
  dsimp only
  by_cases hle : totalBytes rows ≤ quota
  · rw [if_pos hle]
    refine ⟨db, [], rfl, isShortest_nil (by omega), rfl, rfl, by simp [markRows]⟩
  · rw [if_neg hle, i64_eq (by omega) (by omega)]
    have hreach : totalBytes rows - quota ≤ weigh Artifact.sizeBytes ordered := by omega
    have hshortest := reach_isShortest hreach
    have hselect : selectSizeQuotaEvictions (ordered.map fun c => (c.id, c.sizeBytes))
        (totalBytes rows - quota) = _ :=
      selectSizeQuotaEvictions_rows (fun a ha => hsizes a (horder.perm.subset ha))
        (hordered.trans_lt htotal)
    set evicted := reach Artifact.sizeBytes (totalBytes rows - quota) ordered
    have hne : evicted ≠ [] := fun hnil => by
      have henough := hshortest.enough
      rw [hnil, weigh_nil] at henough
      omega
    have hsub : evicted ⊆ db.artifacts := fun a ha =>
      liveIn_subset repoId _ (horder.perm.subset (hshortest.isPrefix.subset ha))
    have hrows : rows.Nodup := ((db.nodup.of_map _).filter _).filter _
    have hevicted : evicted.Nodup :=
      (horder.perm.nodup_iff.mpr hrows).sublist hshortest.isPrefix.sublist
    obtain ⟨hmarked, hremoved⟩ := softDelete_ids hsub hevicted
    dsimp only
    rw [hselect]
    dsimp only
    rw [if_pos (by simpa using hne)]
    refine ⟨(db.softDelete fun a => (evicted.map (·.id)).contains a.id).1, evicted, ?_, hshortest,
      rfl, rfl, hmarked⟩
    rw [hremoved, List.length_map]
    rfl

/-- After a run with a quota the repository's live artifacts are the ones that the shortest prefix
of the eviction order has left, as many bytes as the quota allows, and without the last of the
prefix they would be more. -/
theorem executeSizeQuota_shortest
    (hquota : parseI64Field policy.config "size_quota_bytes" "quota_bytes" = .ok quota)
    (hpos : 0 < quota) (hrepo : policy.repositoryId = some repoId)
    (horder : IsOrdered db.downloads (liveIn repoId db.artifacts)
      (orderBy db.downloads (liveIn repoId db.artifacts)))
    (hsizes : ∀ a ∈ liveIn repoId db.artifacts, 0 ≤ a.sizeBytes)
    (htotal : totalBytes (liveIn repoId db.artifacts) < 2 ^ 63) :
    ∃ result after evicted,
      executeSizeQuota orderBy policy false db = .ok ⟨(result, after), true⟩ ∧
      IsShortest Artifact.sizeBytes (totalBytes (liveIn repoId db.artifacts) - quota) evicted
        (orderBy db.downloads (liveIn repoId db.artifacts)) ∧
      after.now = db.now ∧ after.downloads = db.downloads ∧
      after.artifacts = markRows (fun a => decide (a ∈ evicted)) db.artifacts ∧
      totalBytes (liveIn repoId after.artifacts) ≤ quota ∧
      (∀ h : evicted ≠ [],
        quota < totalBytes (liveIn repoId after.artifacts) + (evicted.getLast h).sizeBytes) ∧
      result.bytesFreed = totalBytes evicted ∧ result.artifactsRemoved = evicted.length ∧
      result.artifactsMatched = evicted.length := by
  obtain ⟨after, evicted, hrun, hshortest, hnow, hdownloads, hafter⟩ :=
    executeSizeQuota_eq hquota hpos hrepo horder hsizes htotal
  have hrows : (liveIn repoId db.artifacts).Nodup := ((db.nodup.of_map _).filter _).filter _
  have hleft : totalBytes (liveIn repoId after.artifacts) =
      totalBytes (liveIn repoId db.artifacts) - totalBytes evicted := by
    obtain ⟨rest, hrest⟩ := hshortest.isPrefix
    have hperm : (evicted ++ rest).Perm (liveIn repoId db.artifacts) := hrest ▸ horder.perm
    have hsum : totalBytes evicted + totalBytes rest =
        totalBytes (liveIn repoId db.artifacts) :=
      (weigh_append evicted rest).symm.trans (weigh_perm hperm)
    have hkept : totalBytes ((liveIn repoId db.artifacts).filter (· ∉ evicted)) =
        totalBytes rest := weigh_perm (filter_not_mem_perm hrows hperm)
    rw [hafter, liveIn_markRows]
    simp only [← decide_not]
    omega
  refine ⟨_, after, evicted, hrun, hshortest, hnow, hdownloads, hafter, ?_, fun hne => ?_, rfl, rfl,
    rfl⟩
  · have henough : _ ≤ totalBytes evicted := hshortest.enough
    omega
  · have hshort := hshortest.dropLast_lt hne
    have hlast : totalBytes evicted =
        weigh Artifact.sizeBytes evicted.dropLast + (evicted.getLast hne).sizeBytes := by
      conv_lhs => rw [← List.dropLast_append_getLast hne]
      exact (weigh_append _ _).trans (by simp)
    omega

/-- A sort as `ORDER BY` may do it. -/
def leastRecentFirst (downloads : List Download) (rows : List Artifact) : List Artifact :=
  rows.insertionSort fun a b => evictedBefore downloads a b = true

/-- Three artifacts of one repository, the first of them downloaded, and one of another. -/
def fourArtifacts : Tables where
  now := ⟨90, by decide⟩
  artifacts := [⟨10, 1, 6, ⟨10, by decide⟩, false⟩, ⟨11, 1, 0, ⟨30, by decide⟩, false⟩,
    ⟨12, 1, 7, ⟨20, by decide⟩, false⟩, ⟨13, 2, 50, ⟨20, by decide⟩, false⟩]
  downloads := [⟨10, ⟨40, by decide⟩⟩, ⟨10, ⟨50, by decide⟩⟩]
  nodup := by decide

def tenBytes : LifecyclePolicy where
  id := 1
  repositoryId := some 1
  name := "quota"
  policyType := "size_quota_bytes"
  config := .object [("quota_bytes", .number "10")]

theorem executeSizeQuota_tenBytes :
    ∃ result after, executeSizeQuota leastRecentFirst tenBytes false fourArtifacts =
        .ok ⟨(result, after), true⟩ ∧
      totalBytes (liveIn 1 after.artifacts) ≤ 10 := by
  have hquota : parseI64Field tenBytes.config "size_quota_bytes" "quota_bytes" = .ok 10 := by decide
  have horder : IsOrdered fourArtifacts.downloads (liveIn 1 fourArtifacts.artifacts)
      (leastRecentFirst fourArtifacts.downloads (liveIn 1 fourArtifacts.artifacts)) :=
    ⟨List.perm_insertionSort _ _, by decide⟩
  obtain ⟨result, after, evicted, hrun, -, -, -, -, hleft, -⟩ :=
    executeSizeQuota_shortest hquota (by decide) rfl horder (by decide) (by decide)
  exact ⟨result, after, hrun, hleft⟩

end Run

end ArtifactKeeper.Lifecycle
