import Mathlib.Data.List.Nodup
import Mathlib.Data.List.Perm.Basic
import ArtifactKeeper.Machine

/-! The status of curated packages: an administrator's decisions on one package or many, and the
evaluations that read the pending packages and write what the rules say of them later on. -/

namespace ArtifactKeeper.Curation

/-- The values that the `CHECK` constraint on `status` admits. -/
inductive Status where
  | pending | approved | blocked | review
  deriving DecidableEq, Repr

inductive CurationDecision where
  | allow
  | block (reason : String)
  | flag (reason : String)
  | notApplicable
  deriving DecidableEq, Repr

/-- The columns of `curation_packages` that a decision reads and writes. -/
structure CurationPackage where
  id : ℕ
  stagingRepoId : ℕ
  status : Status
  evaluationReason : Option String
  evaluatedBy : Option ℕ
  ruleId : Option ℕ
  deriving DecidableEq, Repr

def decisionToStatusReason (decision : CurationDecision) (ruleId : Option ℕ) : Status × String :=
  match decision with
  | .allow =>
    match ruleId with
    | some id => (.approved, "Allowed by curation rule " ++ toString id)
    | none => (.approved, "No matching rule; default action: allow")
  | .block reason => (.blocked, reason)
  | .flag reason => (.review, reason)
  | .notApplicable =>
    (.review, "Rule evaluation rendered no decision; routed to manual review")

/-- What an administrator decides. -/
inductive Verdict where
  | approve | block
  deriving DecidableEq, Repr

def Verdict.status : Verdict → Status
  | .approve => .approved
  | .block => .blocked

def Verdict.reason : Verdict → String
  | .approve => "Manually approved"
  | .block => "Manually blocked"

abbrev Table := List CurationPackage

/-- A row that `upsert_package` inserts. -/
def newPackage (id stagingRepoId : ℕ) : CurationPackage :=
  ⟨id, stagingRepoId, .pending, none, none, none⟩

namespace Table

/-- `UPDATE curation_packages SET … WHERE id = ANY(ids)`. -/
def update (table : Table) (ids : List ℕ) (set : CurationPackage → CurationPackage) : Table :=
  table.map fun pkg => if pkg.id ∈ ids then set pkg else pkg

def rowsAffected (table : Table) (ids : List ℕ) : ℕ := table.countP (·.id ∈ ids)

/-- `set_package_status`; without a row `fetch_one` fails. -/
def setPackageStatus (table : Table) (id : ℕ) (status : Status) (reason : String)
    (evaluatedBy ruleId : Option ℕ) : Table :=
  table.update [id] fun pkg =>
    { pkg with
      status := status, evaluationReason := some reason, evaluatedBy := evaluatedBy,
      ruleId := ruleId }

def bulkSetStatus (table : Table) (ids : List ℕ) (status : Status) (reason : String)
    (evaluatedBy : Option ℕ) : Table :=
  table.update ids fun pkg =>
    { pkg with status := status, evaluationReason := some reason, evaluatedBy := evaluatedBy }

/-- The first statement of `re_evaluate_pending`. -/
def selectPending (table : Table) (stagingRepoId : ℕ) : List CurationPackage :=
  table.filter fun pkg => pkg.stagingRepoId = stagingRepoId ∧ pkg.status = .pending

/-- `upsert_package`: a row that is there keeps its status. -/
def upsertPackage (table : Table) (id stagingRepoId : ℕ) : Table :=
  if id ∈ table.map (·.id) then table else table ++ [newPackage id stagingRepoId]

end Table

/-- The key of a batch: the status, the reason and the rule. -/
abbrev GroupKey := Status × String × Option ℕ

/-- `groups.entry(key).or_default().push(id)`. -/
def pushGroup (key : GroupKey) (id : ℕ) : List (GroupKey × List ℕ) → List (GroupKey × List ℕ)
  | [] => [(key, [id])]
  | (k, ids) :: rest =>
    if k = key then (k, ids ++ [id]) :: rest else (k, ids) :: pushGroup key id rest

/-- The statement that writes one batch of `re_evaluate_pending`. -/
def updateGroup (table : Table) (group : GroupKey × List ℕ) : Table :=
  table.update group.2 fun pkg =>
    { pkg with
      status := group.1.1, evaluationReason := some group.1.2.1, evaluatedBy := none,
      ruleId := group.1.2.2 }

/-- A call: not begun, a re-evaluation with the packages still to be evaluated and the batches still
to be written, a synchronised package on its way through the rules, or done. -/
inductive CurationProc where
  | idle
  | reEvaluating (todo : List CurationPackage) (groups : List (GroupKey × List ℕ)) (updated : ℕ)
  | syncing (id : ℕ)
  | reEvaluated (updated : ℕ)
  | statusSet (found : Bool)
  | bulkSet (affected : ℕ)
  | synced
  | failed
  deriving DecidableEq, Repr

/-- What the rules say of a package is given with the step: they are read, and the download counts
are looked up, while the call runs. -/
inductive CurationAction where
  | setPackageStatus (id : ℕ) (verdict : Verdict) (user : ℕ)
  | bulkSetStatus (ids : List ℕ) (verdict : Verdict) (reason : String) (user : ℕ)
  | reEvaluatePending (stagingRepoId : ℕ)
  | evaluate (decision : CurationDecision) (ruleId : Option ℕ)
  | updateGroup (index : ℕ)
  | upsertPackage (id stagingRepoId : ℕ)
  | setEvaluated (decision : CurationDecision) (ruleId : Option ℕ)
  | fail
  deriving DecidableEq, Repr

def curationProtocol : Protocol Table CurationProc CurationAction where
  step _ table l a :=
    match l, a with
    | .idle, .setPackageStatus id verdict user =>
      some (table.setPackageStatus id verdict.status verdict.reason (some user) none,
        .statusSet (id ∈ table.map (·.id)))
    | .idle, .bulkSetStatus ids verdict reason user =>
      some (table.bulkSetStatus ids verdict.status reason (some user),
        .bulkSet (table.rowsAffected ids))
    | .idle, .reEvaluatePending stagingRepoId =>
      match table.selectPending stagingRepoId with
      | [] => some (table, .reEvaluated 0)
      | pending => some (table, .reEvaluating pending [] 0)
    | .reEvaluating (pkg :: todo) groups updated, .evaluate decision ruleId =>
      let (status, reason) := decisionToStatusReason decision ruleId
      some (table, .reEvaluating todo (pushGroup (status, reason, ruleId) pkg.id groups) updated)
    | .reEvaluating [] groups updated, .updateGroup index =>
      -- the batches are written in the order in which the map yields them, which may be any
      match groups[index]? with
      | none => none
      | some group =>
        let updated := updated + table.rowsAffected group.2
        match groups.eraseIdx index with
        | [] => some (updateGroup table group, .reEvaluated updated)
        | rest => some (updateGroup table group, .reEvaluating [] rest updated)
    | .idle, .upsertPackage id stagingRepoId =>
      let table := table.upsertPackage id stagingRepoId
      if ∃ pkg ∈ table, pkg.id = id ∧ pkg.status = .pending then some (table, .syncing id)
      else some (table, .synced)
    | .syncing id, .setEvaluated decision ruleId =>
      let (status, reason) := decisionToStatusReason decision ruleId
      some (table.setPackageStatus id status reason none ruleId, .synced)
    | .reEvaluating .., .fail => some (table, .failed)
    | .syncing _, .fail => some (table, .failed)
    | _, _ => none

/-- The packages that a call has read as pending and has not written yet. -/
def CurationProc.unwritten : CurationProc → List ℕ
  | .reEvaluating todo groups _ => todo.map (·.id) ++ groups.flatMap (·.2)
  | .syncing id => [id]
  | _ => []

/-- The packages that the statement of a step writes. -/
def CurationProc.writes : CurationProc → CurationAction → List ℕ
  | .idle, .setPackageStatus id _ _ => [id]
  | .idle, .bulkSetStatus ids _ _ _ => ids
  | .reEvaluating _ groups _, .updateGroup index => (groups[index]?.map (·.2)).getD []
  | .syncing id, .setEvaluated _ _ => [id]
  | _, _ => []

/-- An administrator's decision on the package. -/
def decides (id : ℕ) : CurationAction → Bool
  | .setPackageStatus id' _ _ => id' == id
  | .bulkSetStatus ids _ _ _ => id ∈ ids
  | _ => false

/-- The step writes no package that another call has read as pending and has not written yet. -/
def WritesUnclaimed (w : World Table CurationProc) (a : ℕ × CurationAction) : Prop :=
  ∀ q ≠ a.1, ∀ id ∈ (w.procs a.1).writes a.2, id ∉ (w.procs q).unwritten

section Statements
variable {table : Table} {ids : List ℕ} {set : CurationPackage → CurationPackage}

theorem mem_update_of_notMem {pkg : CurationPackage} (h : pkg ∈ table) (hid : pkg.id ∉ ids) :
    pkg ∈ table.update ids set :=
  List.mem_map.mpr ⟨pkg, h, if_neg hid⟩

/-- A row after an update is one that was not named, or an updated one. -/
theorem mem_update {pkg : CurationPackage} (h : pkg ∈ table.update ids set) :
    (pkg ∈ table ∧ pkg.id ∉ ids) ∨ ∃ old ∈ table, old.id ∈ ids ∧ pkg = set old := by
  obtain ⟨old, hold, rfl⟩ := List.mem_map.mp h
  split
  · exact .inr ⟨old, hold, ‹_›, rfl⟩
  · exact .inl ⟨hold, ‹_›⟩

theorem map_id_update (hset : ∀ pkg, (set pkg).id = pkg.id) :
    (table.update ids set).map (·.id) = table.map (·.id) := by
  rw [Table.update, List.map_map]
  apply List.map_congr_left
  intro pkg _
  show (if pkg.id ∈ ids then set pkg else pkg).id = pkg.id
  split
  · exact hset pkg
  · rfl

theorem eq_of_id_eq (h : (table.map (·.id)).Nodup) {pkg pkg' : CurationPackage} (hp : pkg ∈ table)
    (hp' : pkg' ∈ table) (hid : pkg.id = pkg'.id) : pkg = pkg' :=
  List.inj_on_of_nodup_map h hp hp' hid

theorem flatMap_pushGroup (key : GroupKey) (id : ℕ) (groups : List (GroupKey × List ℕ)) :
    ((pushGroup key id groups).flatMap (·.2)).Perm (id :: groups.flatMap (·.2)) := by
  induction groups with
  | nil => simp [pushGroup]
  | cons group rest ih =>
    obtain ⟨k, ids⟩ := group
    rw [pushGroup]
    split
    · simp only [List.flatMap_cons, List.append_assoc, List.singleton_append]
      exact List.perm_middle
    · simp only [List.flatMap_cons]
      exact (ih.append_left ids).trans List.perm_middle

theorem flatMap_eraseIdx {groups : List (GroupKey × List ℕ)} {index : ℕ} {group : GroupKey × List ℕ}
    (h : groups[index]? = some group) :
    (groups.flatMap (·.2)).Perm (group.2 ++ (groups.eraseIdx index).flatMap (·.2)) := by
  obtain ⟨hlt, rfl⟩ := List.getElem?_eq_some_iff.mp h
  exact (List.Perm.flatMap_right _ (List.getElem_cons_eraseIdx_perm hlt)).symm

end Statements

/-- What a step is: a write of the packages it names, with no other write of the call to come for
them; a read or an evaluation; or an upsert. -/
inductive CurationStep (table : Table) (l : CurationProc) (a : CurationAction) :
    Table → CurationProc → Prop
  | write {l' : CurationProc} (set : CurationPackage → CurationPackage)
      (hid : ∀ pkg, (set pkg).id = pkg.id)
      (hdecided : ∀ pkg, (set pkg).evaluatedBy.isSome → (set pkg).status ≠ .pending)
      (hwho : (∀ id ∈ l.writes a, decides id a = true) ∨ l.writes a ⊆ l.unwritten)
      (hrest : l'.unwritten = [] ∨ l.unwritten.Perm (l.writes a ++ l'.unwritten)) :
      CurationStep table l a (table.update (l.writes a) set) l'
  | select {l' : CurationProc} (stagingRepoId : ℕ)
      (hunwritten : l'.unwritten = (table.selectPending stagingRepoId).map (·.id)) :
      CurationStep table l a table l'
  | proceed {l' : CurationProc} (hrest : l'.unwritten = [] ∨ l'.unwritten.Perm l.unwritten) :
      CurationStep table l a table l'
  | upsert {l' : CurationProc} (id stagingRepoId : ℕ)
      (hunwritten : ∀ id' ∈ l'.unwritten, id' = id ∧
        ∃ pkg ∈ table.upsertPackage id stagingRepoId, pkg.id = id ∧ pkg.status = .pending)
      (hnodup : l'.unwritten.Nodup) :
      CurationStep table l a (table.upsertPackage id stagingRepoId) l'

theorem curationProtocol_step {p : ℕ} {table table' : Table} {l l' : CurationProc}
    {a : CurationAction} (h : curationProtocol.step p table l a = some (table', l')) :
    CurationStep table l a table' l' := by
  unfold curationProtocol at h
  dsimp only at h
  split at h
  · next id verdict user =>
    cases h
    refine .write _ (fun _ => rfl) (fun _ _ => ?_) (.inl ?_) (.inl rfl)
    · cases verdict <;> exact Status.noConfusion
    · simp [CurationProc.writes, decides]
  · next ids verdict reason user =>
    cases h
    refine .write _ (fun _ => rfl) (fun _ _ => ?_) (.inl ?_) (.inl rfl)
    · cases verdict <;> exact Status.noConfusion
    · simp [CurationProc.writes, decides]
  · next stagingRepoId =>
    split at h
    · cases h
      exact .proceed (.inl rfl)
    · cases h
      refine .select stagingRepoId ?_
      simp [CurationProc.unwritten]
  · next pkg todo groups updated decision ruleId =>
    cases h
    refine .proceed (.inr ?_)
    simp only [CurationProc.unwritten, List.map_cons, List.cons_append]
    exact ((flatMap_pushGroup _ _ _).append_left _).trans List.perm_middle
  · next groups updated index =>
    split at h
    · cases h
    · next group hgroup =>
      have hwrites : (CurationProc.reEvaluating [] groups updated).writes (.updateGroup index) =
          group.2 := by simp [CurationProc.writes, hgroup]
      have hperm := flatMap_eraseIdx hgroup
      have hgroupWrite : ∀ l' : CurationProc, l'.unwritten = (groups.eraseIdx index).flatMap (·.2) →
          CurationStep table (.reEvaluating [] groups updated) (.updateGroup index)
            (updateGroup table group) l' := by
        intro l' hl'
        rw [updateGroup, ← hwrites]
        refine .write _ (fun _ => rfl) (fun _ hby => by cases hby) (.inr ?_) (.inr ?_)
        · rw [hwrites]
          exact fun id hid => hperm.mem_iff.mpr (List.mem_append_left _ hid)
        · rw [hwrites, hl']
          exact hperm
      split at h
      · next herase =>
        cases h
        exact hgroupWrite _ (by rw [herase]; rfl)
      · cases h
        exact hgroupWrite _ (by simp [CurationProc.unwritten])
  · next id stagingRepoId =>
    split at h
    · next hpending =>
      cases h
      exact .upsert id stagingRepoId (fun id' hid' => ⟨List.mem_singleton.mp hid', hpending⟩)
        (List.nodup_singleton id)
    · cases h
      exact .upsert id stagingRepoId (fun id' hid' => absurd hid' List.not_mem_nil) List.nodup_nil
  · next id decision ruleId =>
    cases h
    exact .write _ (fun _ => rfl) (fun _ hby => by cases hby) (.inr fun id' hid' => hid') (.inl rfl)
  · cases h
    exact .proceed (.inl rfl)
  · cases h
    exact .proceed (.inl rfl)
  · cases h

section Runs

/-- Every package has its own id, and one that an administrator decided is not pending. -/
def Consistent (table : Table) : Prop :=
  (table.map (·.id)).Nodup ∧ ∀ pkg ∈ table, pkg.evaluatedBy.isSome → pkg.status ≠ .pending

/-- The packages that a call is still to write are pending, and each is written once. -/
def StillPending (l : CurationProc) (table : Table) : Prop :=
  l.unwritten.Nodup ∧ ∀ pkg ∈ table, pkg.id ∈ l.unwritten → pkg.status = .pending

theorem StillPending.of_eq_nil {l : CurationProc} (h : l.unwritten = []) (table : Table) :
    StillPending l table := by
  rw [StillPending, h]
  exact ⟨List.nodup_nil, fun _ _ hmem => absurd hmem List.not_mem_nil⟩

/-- An update of other packages leaves what is to be written pending. -/
theorem StillPending.update {l : CurationProc} {table : Table} {ids : List ℕ}
    {set : CurationPackage → CurationPackage} (h : StillPending l table)
    (hset : ∀ pkg, (set pkg).id = pkg.id) (hdisjoint : ∀ id ∈ ids, id ∉ l.unwritten) :
    StillPending l (table.update ids set) := by
  refine ⟨h.1, fun pkg hpkg hmem => ?_⟩
  rcases mem_update hpkg with ⟨hold, -⟩ | ⟨old, -, hid, rfl⟩
  · exact h.2 pkg hold hmem
  · rw [hset] at hmem
    exact absurd hmem (hdisjoint _ hid)

theorem mem_upsertPackage {table : Table} {id stagingRepoId : ℕ} {pkg : CurationPackage}
    (h : pkg ∈ table.upsertPackage id stagingRepoId) :
    pkg ∈ table ∨ pkg = newPackage id stagingRepoId := by
  rw [Table.upsertPackage] at h
  split at h
  · exact .inl h
  · simpa using h

theorem StillPending.upsertPackage {l : CurationProc} {table : Table} (h : StillPending l table)
    (id stagingRepoId : ℕ) : StillPending l (table.upsertPackage id stagingRepoId) := by
  refine ⟨h.1, fun pkg hpkg hmem => ?_⟩
  rcases mem_upsertPackage hpkg with hold | rfl
  · exact h.2 pkg hold hmem
  · rfl

theorem Consistent.update {table : Table} {ids : List ℕ} {set : CurationPackage → CurationPackage}
    (h : Consistent table) (hset : ∀ pkg, (set pkg).id = pkg.id)
    (hdecided : ∀ pkg, (set pkg).evaluatedBy.isSome → (set pkg).status ≠ .pending) :
    Consistent (table.update ids set) := by
  refine ⟨by rw [map_id_update hset]; exact h.1, fun pkg hpkg hby => ?_⟩
  rcases mem_update hpkg with ⟨hold, -⟩ | ⟨old, -, -, rfl⟩
  · exact h.2 pkg hold hby
  · exact hdecided old hby

theorem Consistent.upsertPackage {table : Table} (h : Consistent table) (id stagingRepoId : ℕ) :
    Consistent (table.upsertPackage id stagingRepoId) := by
  refine ⟨?_, fun pkg hpkg hby => ?_⟩
  · rw [Table.upsertPackage]
    split
    · exact h.1
    · next hfresh =>
      rw [List.map_append]
      exact List.Nodup.append h.1 (List.nodup_singleton _) (by
        simpa [newPackage] using hfresh)
  · rcases mem_upsertPackage hpkg with hold | rfl
    · exact h.2 pkg hold hby
    · cases hby

theorem stillPending_selectPending {table : Table} (h : Consistent table) {l : CurationProc}
    {stagingRepoId : ℕ} (hl : l.unwritten = (table.selectPending stagingRepoId).map (·.id)) :
    StillPending l table := by
  rw [StillPending, hl]
  refine ⟨h.1.sublist (List.filter_sublist.map _), fun pkg hpkg hmem => ?_⟩
  obtain ⟨pkg', hselected, hid⟩ := List.mem_map.mp hmem
  obtain ⟨hpkg', hpending⟩ := List.mem_filter.mp hselected
  obtain rfl := eq_of_id_eq h.1 hpkg' hpkg hid
  exact (of_decide_eq_true hpending).2

/-- One step keeps the table consistent, what its own call is still to write pending and, where it
writes nothing that is claimed, what the others are to write. -/
theorem stillPending_of_step {table table' : Table} {l l' : CurationProc} {a : CurationAction}
    (hconsistent : Consistent table) (hl : StillPending l table)
    (h : CurationStep table l a table' l') :
    Consistent table' ∧ StillPending l' table' ∧
      ∀ m : CurationProc, StillPending m table → (∀ id ∈ l.writes a, id ∉ m.unwritten) →
        StillPending m table' := by
  cases h with
  | write set hid hdecided hwho hrest =>
    refine ⟨hconsistent.update hid hdecided, ?_, fun m hm hdisjoint => hm.update hid hdisjoint⟩
    rcases hrest with hnil | hperm
    · exact .of_eq_nil hnil _
    · obtain ⟨-, hnodup, hdisjoint⟩ := List.nodup_append.mp (hperm.nodup hl.1)
      have hrest : StillPending l' table := by
        refine ⟨hnodup, fun pkg hpkg hmem => hl.2 pkg hpkg ?_⟩
        exact hperm.mem_iff.mpr (List.mem_append_right _ hmem)
      exact hrest.update hid fun id hid hmem => hdisjoint id hid id hmem rfl
  | select stagingRepoId hunwritten =>
    exact ⟨hconsistent, stillPending_selectPending hconsistent hunwritten, fun m hm _ => hm⟩
  | proceed hrest =>
    refine ⟨hconsistent, ?_, fun m hm _ => hm⟩
    rcases hrest with hnil | hperm
    · exact .of_eq_nil hnil _
    · exact ⟨hperm.symm.nodup hl.1, fun pkg hpkg hmem => hl.2 pkg hpkg (hperm.mem_iff.mp hmem)⟩
  | upsert id stagingRepoId hunwritten hnodup =>
    have hconsistent' := hconsistent.upsertPackage id stagingRepoId
    refine ⟨hconsistent', ⟨hnodup, fun pkg hpkg hmem => ?_⟩,
      fun m hm _ => hm.upsertPackage id stagingRepoId⟩
    obtain ⟨hid, pkg', hpkg', hid', hpending⟩ := hunwritten _ hmem
    obtain rfl := eq_of_id_eq hconsistent'.1 hpkg' hpkg (hid'.trans hid.symm)
    exact hpending

/-- A decided package that no administrator decides again is untouched by a step. -/
theorem mem_of_step {table table' : Table} {l l' : CurationProc} {a : CurationAction}
    (hl : StillPending l table) (h : CurationStep table l a table' l') {pkg : CurationPackage}
    (hpkg : pkg ∈ table) (hstatus : pkg.status ≠ .pending) (hdecides : decides pkg.id a = false) :
    pkg ∈ table' := by
  cases h with
  | write set hid hdecided hwho hrest =>
    apply mem_update_of_notMem hpkg
    intro hmem
    rcases hwho with hwho | hsub
    · rw [hwho _ hmem] at hdecides
      cases hdecides
    · exact hstatus (hl.2 pkg hpkg (hsub hmem))
  | select stagingRepoId hunwritten => exact hpkg
  | proceed hrest => exact hpkg
  | upsert id stagingRepoId hunwritten hnodup =>
    rw [Table.upsertPackage]
    split
    · exact hpkg
    · exact List.mem_append_left _ hpkg

/-- No package yet, and no call. -/
def curationStart : World Table CurationProc := ⟨[], fun _ => .idle⟩

theorem stillPending_of_reach {w : World Table CurationProc}
    (h : curationProtocol.machine.Reach WritesUnclaimed curationStart w) :
    Consistent w.shared ∧ ∀ p, StillPending (w.procs p) w.shared := by
  apply Protocol.reach_rely_guarantee (I := Consistent) (A := fun _ => StillPending) h
  · exact ⟨List.nodup_nil, fun _ hmem => absurd hmem List.not_mem_nil⟩
  · exact fun p => .of_eq_nil rfl _
  · intro w p a table' l' hconsistent hpending hok hstep
    obtain ⟨hconsistent', hown, hothers⟩ :=
      stillPending_of_step hconsistent (hpending p) (curationProtocol_step hstep)
    exact ⟨hconsistent', hown, fun q hq => hothers _ (hpending q) (hok q hq)⟩

/-- An administrator's decision stands until the next one, along every run that meets `ok`, and the
batches of a re-evaluation leave packages that are not pending alone. -/
structure DecisionsStand (ok : World Table CurationProc → ℕ × CurationAction → Prop)
    (w : World Table CurationProc) : Prop where
  kept : ∀ pkg ∈ w.shared, pkg.evaluatedBy.isSome → ∀ w',
    curationProtocol.machine.Reach (fun u a => ok u a ∧ decides pkg.id a.2 = false) w w' →
    pkg ∈ w'.shared
  onlyPending : ∀ p index w', curationProtocol.machine.step w (p, .updateGroup index) = some w' →
    ∀ pkg ∈ w.shared, pkg.status ≠ .pending → pkg ∈ w'.shared

/-- Where no step writes a package that another call has claimed, decisions stand in every state
that is reached. -/
theorem decisionsStand_of_writesUnclaimed {w : World Table CurationProc}
    (h : curationProtocol.machine.Reach WritesUnclaimed curationStart w) :
    DecisionsStand WritesUnclaimed w := by
  constructor
  · intro pkg hpkg hby w' hreach
    have hstatus : pkg.status ≠ .pending := (stillPending_of_reach h).1.2 pkg hpkg hby
    have hall : curationProtocol.machine.Reach WritesUnclaimed curationStart w' ∧
        pkg ∈ w'.shared := by
      induction hreach with
      | refl => exact ⟨h, hpkg⟩
      | @tail u u' a _ hok hstep ih =>
        refine ⟨ih.1.tail hok.1 hstep, ?_⟩
        obtain ⟨p, a⟩ := a
        obtain ⟨table', l', hlocal, rfl⟩ := Protocol.machine_step hstep
        exact mem_of_step ((stillPending_of_reach ih.1).2 p) (curationProtocol_step hlocal) ih.2
          hstatus hok.2
    exact hall.2
  · intro p index w' hstep pkg hpkg hstatus
    obtain ⟨table', l', hlocal, rfl⟩ := Protocol.machine_step hstep
    exact mem_of_step ((stillPending_of_reach h).2 p) (curationProtocol_step hlocal) hpkg hstatus
      rfl

end Runs

theorem writesUnclaimed_of_unwritten {w : World Table CurationProc} {a : ℕ × CurationAction}
    (h : ∀ q, (w.procs q).unwritten = []) : WritesUnclaimed w a := by
  intro q _ id _
  rw [h q]
  exact List.not_mem_nil

/-- A package is synchronised and stays pending, and then it is approved. -/
theorem decisionsStand_approved : ∃ w : World Table CurationProc,
    w.shared = [⟨1, 7, .approved, some "Manually approved", some 5, none⟩] ∧
      DecisionsStand WritesUnclaimed w := by
  have hinsert : curationProtocol.machine.step curationStart (0, .upsertPackage 1 7) =
      some ⟨[newPackage 1 7], Function.update curationStart.procs 0 (.syncing 1)⟩ := rfl
  refine ⟨_, rfl, decisionsStand_of_writesUnclaimed
    (((Machine.Reach.refl.tail ?_ hinsert).tail (a := (0, .fail)) ?_ rfl).tail
      (a := (1, .setPackageStatus 1 .approve 5)) ?_ rfl)⟩
  · exact writesUnclaimed_of_unwritten fun _ => rfl
  · intro q _ id hid
    cases hid
  · apply writesUnclaimed_of_unwritten
    intro q
    by_cases hq : q = 0
    · rw [hq]
      rfl
    · simp [Function.update_of_ne hq, curationStart, CurationProc.unwritten]

/-- A package that is approved while a re-evaluation has it in hand ends up blocked. -/
theorem approval_overwritten :
    ¬ ∀ w, curationProtocol.machine.Reach Machine.anyStep curationStart w →
      DecisionsStand Machine.anyStep w := by
  intro h
  let approved : CurationPackage := ⟨1, 7, .approved, some "Manually approved", some 5, none⟩
  have hrun : (curationProtocol.machine.run curationStart [(0, .upsertPackage 1 7), (0, .fail),
      (1, .reEvaluatePending 7), (1, .evaluate (.block "denied") none),
      (2, .setPackageStatus 1 .approve 5)]).map
      (fun w => (w.shared, (curationProtocol.machine.step w (1, .updateGroup 0)).map (·.shared))) =
      some ([approved], some [⟨1, 7, .blocked, some "denied", none, none⟩]) := by
    decide +kernel
  obtain ⟨w, hw, hends⟩ := Option.map_eq_some_iff.mp hrun
  obtain ⟨hshared, hnext⟩ := Prod.mk.inj hends
  obtain ⟨w', hstep, hshared'⟩ := Option.map_eq_some_iff.mp hnext
  have hreach := Machine.reach_of_run _ hw (Machine.meets_anyStep _ _)
  have hkept := (h w hreach).kept approved (by rw [hshared]; exact List.mem_singleton_self _) rfl w'
    (Machine.Reach.refl.tail ⟨trivial, rfl⟩ hstep)
  rw [hshared'] at hkept
  exact absurd hkept (by decide)

end ArtifactKeeper.Curation
