import ArtifactKeeper.Repositories.UsageExact

/-! Quota admission: what `check_quota_locked` decides, and what the uploads it admits can add up to
in a repository where other transactions delete or shrink. -/

namespace ArtifactKeeper.Repositories
open Chunking RowLocks

/-- `hosted + proxy + oci` without wrapping. -/
def Usage.bytes (u : Usage) : ℤ := u.1 + u.2.1 + u.2.2

namespace UsageState

/-- The counted size of the row that an upload replaces. -/
def existingAtPath (s : UsageState) (p : ℕ) (a : Admission) : ℤ :=
  Table.weight (fun _ row => artifactContribution row) a.key (s.sources.view p a.key)

/-- The usage that an upload would leave. -/
def usageAfter (s : UsageState) (p : ℕ) (a : Admission) : ℤ :=
  Usage.bytes (s.usageSeen p a.repositoryId) - s.existingAtPath p a + a.newSize

end UsageState

/-- Rows of the repository grow by admitted uploads only: other statements delete or shrink them. -/
def uploadsAdmitted (r : Uuid) (w : World UsageState TxProc) (a : ℕ × UsageAction) : Prop :=
  match a.2 with
  | .change k new => k.repositoryId = r →
    Usage.bytes (Table.weight (counted r) k new) ≤
      Usage.bytes (Table.weight (counted r) k (w.shared.sources.view a.1 k))
  | .move _ repositoryId _ => repositoryId ≠ r
  | .checkQuota admission => admission.newSize < 2 ^ 63
  | _ => True

/-- The usage an upload would leave fits an `i64` when its admission is decided. -/
def admissionFits (r : Uuid) (w : World UsageState TxProc) (a : ℕ × UsageAction) : Prop :=
  match w.procs a.1, a.2 with
  | .active ⟨_, _, _, .quotaNet admission _ _⟩, .netExisting =>
    admission.repositoryId = r → w.shared.usageAfter a.1 admission < 2 ^ 63
  | _, _ => True

instance (r : Uuid) (w : World UsageState TxProc) (a : ℕ × UsageAction) :
    Decidable (uploadsAdmitted r w a) := by
  unfold uploadsAdmitted
  split <;> infer_instance

instance (r : Uuid) (w : World UsageState TxProc) (a : ℕ × UsageAction) :
    Decidable (admissionFits r w a) := by
  unfold admissionFits
  split <;> infer_instance

section Bytes
variable {s : UsageState} {p : ℕ} {r : Uuid} {a : Admission} {k : RowKey}

@[simp] theorem bytes_add (u v : Usage) : (u + v).bytes = u.bytes + v.bytes := by
  simp only [Usage.bytes, Prod.fst_add, Prod.snd_add]
  ring

@[simp] theorem bytes_sub (u v : Usage) : (u - v).bytes = u.bytes - v.bytes := by
  simp only [Usage.bytes, Prod.fst_sub, Prod.snd_sub]
  ring

@[simp] theorem bytes_zero : (0 : Usage).bytes = 0 := rfl

theorem bytes_le {u v : Usage} (h : u ≤ v) : u.bytes ≤ v.bytes := by
  obtain ⟨h₁, h₂, h₃⟩ : u.1 ≤ v.1 ∧ u.2.1 ≤ v.2.1 ∧ u.2.2 ≤ v.2.2 := h
  unfold Usage.bytes
  omega

/-- What the row of an upload's path counts is hosted. -/
theorem weight_key (v : Option SourceRow) : Table.weight (counted a.repositoryId) a.key v =
    (Table.weight (fun _ row => artifactContribution row) a.key v, 0, 0) := by
  cases v with
  | none => rfl
  | some row => simp [Table.weight, counted, Admission.key, SourceTable.component,
      SourceTable.contribution]

theorem bytes_weight_key (v : Option SourceRow) :
    Usage.bytes (Table.weight (counted a.repositoryId) a.key v) =
      Table.weight (fun _ row => artifactContribution row) a.key v := by
  rw [weight_key]
  simp [Usage.bytes]

theorem existingAtPath_nonneg : 0 ≤ s.existingAtPath p a :=
  Table.weight_nonneg fun _ row => contribution_nonneg .artifacts row

/-- The replaced row is part of the usage. -/
theorem existingAtPath_le :
    s.existingAtPath p a ≤ Usage.bytes (s.usageSeen p a.repositoryId) := by
  rw [UsageState.existingAtPath, ← bytes_weight_key]
  exact bytes_le (Table.weight_le_total (counted_nonneg a.repositoryId))

/-- The machine total is the sum where the sum fits. -/
theorem ledgerTotal_eq {u : Usage} (h : 0 ≤ u) (hfits : u.bytes < 2 ^ 63) :
    ledgerTotal u = u.bytes := by
  obtain ⟨h₁, h₂, h₃⟩ : 0 ≤ u.1 ∧ 0 ≤ u.2.1 ∧ 0 ≤ u.2.2 := h
  unfold Usage.bytes at hfits ⊢
  rw [ledgerTotal, asI64_of_lt (x := u.1 + u.2.1) (by omega) (by omega), asI64_of_lt (by omega)
    (by omega)]

end Bytes

/-- The admission that a transaction is deciding, with the quota it read. -/
def TxStage.admission : TxStage → Option (Admission × ℤ)
  | .ready | .admitted _ => none
  | .reconcileInsert _ next | .reconcileLock _ next | .reconcileHosted _ next
  | .reconcileProxy _ _ next | .reconcileOci _ _ _ next | .reconcileWrite _ _ _ _ next => next
  | .quotaLock admission quota | .quotaNet admission quota _ => some (admission, quota)

/-- What holds of an open transaction in a repository with a quota: where it has made usage grow, it
holds the ledger row and is within the quota; an admission is decided against the quota, and what it
allows stays within it. -/
structure QuotaTxOk (r : Uuid) (quota : ℤ) (p : ℕ) (tx : Tx) (s : UsageState) : Prop where
  grown : Usage.bytes (s.usageSeen p r) ≤ Usage.bytes (s.usageCommitted r) ∨
    s.ledger.heldBy p r = true ∧ Usage.bytes (s.usageSeen p r) ≤ quota
  asked : ∀ a ∈ tx.stage.admission, a.1.repositoryId = r → a.2 = quota
  admitted : ∀ a, tx.stage = .admitted a → a.repositoryId = r →
    s.ledger.heldBy p r = true ∧ s.usageAfter p a ≤ quota

def QuotaOk (r : Uuid) (quota : ℤ) (p : ℕ) (l : TxProc) (s : UsageState) : Prop :=
  match l with
  | .active tx => QuotaTxOk r quota p tx s
  | _ => True

/-- Committed usage is within the quota of the repository. -/
structure UsageState.Within (s : UsageState) (r : Uuid) (quota : ℤ) : Prop where
  quotaBytes : s.quotaBytes r = some quota
  pos : 0 < quota
  fits : quota < 2 ^ 63
  usage : Usage.bytes (s.usageCommitted r) ≤ quota

section Steps
variable {s s' : UsageState} {p q : ℕ} {tx tx' : Tx} {l l' : TxProc} {r : Uuid} {quota : ℤ}

/-- A step that changes no row and admits nothing. -/
theorem QuotaTxOk.stay (h : QuotaTxOk r quota p tx s)
    (hseen : s'.usageSeen p r = s.usageSeen p r)
    (hcommitted : s'.usageCommitted r = s.usageCommitted r)
    (hheld : s.ledger.heldBy p r = true → s'.ledger.heldBy p r = true)
    (hasked : ∀ a ∈ tx'.stage.admission, a ∈ tx.stage.admission)
    (hnot : ∀ a, tx'.stage ≠ .admitted a) : QuotaTxOk r quota p tx' s' := by
  refine ⟨?_, fun a ha => h.asked a (hasked a ha), fun a ha => absurd ha (hnot a)⟩
  rw [hseen, hcommitted]
  exact h.grown.imp_right fun hg => ⟨hheld hg.1, hg.2⟩

/-- A step that leaves no more usage than the quota has room for, with the ledger row locked, or no
more than before. -/
theorem QuotaTxOk.shrink (h : QuotaTxOk r quota p tx s)
    (hseen : Usage.bytes (s'.usageSeen p r) ≤ Usage.bytes (s.usageSeen p r))
    (hcommitted : s'.usageCommitted r = s.usageCommitted r) (hledger : s'.ledger = s.ledger)
    (hready : tx'.stage = .ready) : QuotaTxOk r quota p tx' s' := by
  refine ⟨?_, fun a ha => ?_, fun a ha => ?_⟩
  · rw [hcommitted, hledger]
    exact h.grown.imp hseen.trans fun hg => ⟨hg.1, hseen.trans hg.2⟩
  · rw [hready] at ha
    cases ha
  · rw [hready] at ha
    cases ha

theorem QuotaTxOk.seen_le (h : QuotaTxOk r quota p tx s) (hw : s.Within r quota) :
    Usage.bytes (s.usageSeen p r) ≤ quota := by
  rcases h.grown with hle | ⟨-, hle⟩
  · exact hle.trans hw.usage
  · exact hle

/-- The admission arithmetic does not wrap: what it compares with the quota is the usage after the
upload, where that fits. -/
theorem admission_exact {a : Admission} (hr : a.repositoryId = r) (h : QuotaTxOk r quota p tx s)
    (hw : s.Within r quota) (hfits : s.usageAfter p a < 2 ^ 63) :
    ledgerTotal (s.usageSeen p a.repositoryId) = Usage.bytes (s.usageSeen p a.repositoryId) ∧
      asI64 (Usage.bytes (s.usageSeen p a.repositoryId) - s.existingAtPath p a) =
        Usage.bytes (s.usageSeen p a.repositoryId) - s.existingAtPath p a ∧
      asI64 (Usage.bytes (s.usageSeen p a.repositoryId) - s.existingAtPath p a + a.newSize) =
        s.usageAfter p a := by
  have hseen := h.seen_le hw
  have hquota := hw.fits
  have hnonneg := existingAtPath_nonneg (s := s) (p := p) (a := a)
  have hle := existingAtPath_le (s := s) (p := p) (a := a)
  unfold UsageState.usageAfter at hfits ⊢
  rw [← hr] at hseen
  refine ⟨ledgerTotal_eq (usageSeen_nonneg p) (by omega), asI64_of_lt (by omega) (by omega),
    asI64_of_lt (by omega) (by omega)⟩

/-- `check_quota_locked` admits an upload if and only if it leaves the usage within the quota. -/
theorem netExisting_eq {a : Admission} {quota' total : ℤ} (hr : a.repositoryId = r)
    (hok : TxOk p tx s) (h : QuotaTxOk r quota p tx s) (hw : s.Within r quota)
    (hstage : tx.stage = .quotaNet a quota' total) (hfits : s.usageAfter p a < 2 ^ 63) :
    txStep p s tx .netExisting =
      some (s, tx.atStage (if s.usageAfter p a ≤ quota then .admitted a else .ready)) := by
  obtain ⟨htotal, hbase, hafter⟩ := admission_exact hr h hw hfits
  have hread := hok.stage
  rw [StageOk, hstage] at hread
  have hquota : quota' = quota := h.asked (a, quota') (by rw [hstage]; rfl) hr
  have hallows : quotaAllows (some quota')
      (asI64 (total - s.existingAtPath p a)) a.newSize = decide (s.usageAfter p a ≤ quota) := by
    rw [hread.2.2.2, htotal, hbase, hquota]
    simp only [quotaAllows, if_pos hw.pos, hafter]
  simp only [UsageState.existingAtPath] at hallows
  simp only [txStep, hstage, hallows, decide_eq_true_eq]

/-- An admitted upload leaves the usage within the quota. -/
theorem upsert_within {a : Admission} {storageKey : String} (h : QuotaTxOk r quota p tx s)
    (hstage : tx.stage = .admitted a) {calls : List (RowKey × Usage)} :
    QuotaTxOk r quota p (tx.queue calls)
      { s with sources := s.sources.write p a.key (some ⟨a.newSize, false, storageKey⟩) } := by
  by_cases hr : a.repositoryId = r
  · obtain ⟨hheld, hafter⟩ := h.admitted a hstage hr
    refine ⟨.inr ⟨hheld, ?_⟩, fun b hb => (by cases hb), fun b hb => (by cases hb)⟩
    have hcontribution : artifactContribution ⟨a.newSize, false, storageKey⟩ ≤ a.newSize := by
      unfold artifactContribution
      split
      · exact Int.natCast_nonneg _
      · exact le_rfl
    subst hr
    rw [usageSeen_write, bytes_add, bytes_sub, bytes_weight_key, bytes_weight_key]
    simp only [UsageState.usageAfter, UsageState.existingAtPath] at hafter
    have hnew : Table.weight (fun _ row => artifactContribution row) a.key
        (some ⟨a.newSize, false, storageKey⟩) ≤ a.newSize := hcontribution
    omega
  · refine h.shrink ?_ Table.total_write_committed rfl rfl
    rw [usageSeen_write, weight_counted_of_ne hr, weight_counted_of_ne hr, sub_self, add_zero]

/-- A row that moves to another repository leaves no more usage behind. -/
theorem QuotaTxOk.moved_away (h : QuotaTxOk r quota p tx s) {k k' : RowKey} {new : SourceRow}
    (hr : k'.repositoryId ≠ r) (hready : tx'.stage = .ready) : QuotaTxOk r quota p tx'
      { s with sources := (s.sources.write p k none).write p k' (some new) } := by
  have hcommitted : UsageState.usageCommitted
      { s with sources := (s.sources.write p k none).write p k' (some new) } r =
        s.usageCommitted r := Table.total_write_committed.trans Table.total_write_committed
  refine h.shrink ?_ hcommitted rfl hready
  have hfirst : UsageState.usageSeen { s with sources := s.sources.write p k none } p r =
      s.usageSeen p r + (0 - Table.weight (counted r) k (s.sources.view p k)) := usageSeen_write
  have hsecond : UsageState.usageSeen
      { s with sources := (s.sources.write p k none).write p k' (some new) } p r =
        UsageState.usageSeen { s with sources := s.sources.write p k none } p r := by
    refine (usageSeen_write (s := { s with sources := s.sources.write p k none })).trans ?_
    rw [weight_counted_of_ne hr, weight_counted_of_ne hr, sub_self, add_zero]
  rw [hsecond, hfirst, bytes_add, bytes_sub, bytes_zero]
  have hold : Usage.bytes 0 ≤ Usage.bytes (Table.weight (counted r) k (s.sources.view p k)) :=
    bytes_le (Table.weight_nonneg (counted_nonneg r))
  rw [bytes_zero] at hold
  omega

/-- A row write that does not raise the usage of the repository. -/
theorem QuotaTxOk.write (h : QuotaTxOk r quota p tx s) {k : RowKey} {new : Option SourceRow}
    (hcharge : k.repositoryId = r → Usage.bytes (Table.weight (counted r) k new) ≤
      Usage.bytes (Table.weight (counted r) k (s.sources.view p k)))
    (hready : tx'.stage = .ready) :
    QuotaTxOk r quota p tx' { s with sources := s.sources.write p k new } := by
  refine h.shrink ?_ Table.total_write_committed rfl hready
  rw [usageSeen_write, bytes_add, bytes_sub]
  by_cases hr : k.repositoryId = r
  · have hle := hcharge hr
    omega
  · rw [weight_counted_of_ne hr, weight_counted_of_ne hr]
    omega

/-- An admission reads the quota of its repository. -/
theorem QuotaTxOk.checkQuota (h : QuotaTxOk r quota p tx s) (hw : s.Within r quota)
    (a : Admission) :
    QuotaTxOk r quota p (tx.atStage (match s.quotaBytes a.repositoryId with
      | some quota => if 0 < quota then .quotaLock a quota else .admitted a
      | none => .admitted a)) s := by
  by_cases hr : a.repositoryId = r
  · rw [hr, hw.quotaBytes]
    simp only [if_pos hw.pos]
    exact ⟨h.grown, fun b hb _ => by cases hb; rfl, fun b hb => by cases hb⟩
  · refine ⟨h.grown, fun b hb hb' => absurd hb' ?_, fun b hb hb' => absurd hb' ?_⟩
    · simp only [Tx.atStage] at hb
      split at hb
      · split at hb <;> cases hb
        exact hr
      · cases hb
    · simp only [Tx.atStage] at hb
      split at hb
      · split at hb <;> cases hb
        exact hr
      · cases hb
        exact hr

/-- An admission that passes leaves the usage after its upload within the quota. -/
theorem QuotaTxOk.netExisting {a : Admission} {quota' total : ℤ} (h : QuotaTxOk r quota p tx s)
    (hok : TxOk p tx s) (hw : s.Within r quota) (hstage : tx.stage = .quotaNet a quota' total)
    (hfits : a.repositoryId = r → s.usageAfter p a < 2 ^ 63)
    (hstep : txStep p s tx .netExisting = some (s', tx')) : QuotaTxOk r quota p tx' s' := by
  by_cases hr : a.repositoryId = r
  · rw [netExisting_eq hr hok h hw hstage (hfits hr)] at hstep
    cases hstep
    have hread := hok.stage
    rw [StageOk, hstage] at hread
    refine ⟨h.grown, fun b hb => ?_, fun b hb _ => ?_⟩
    · simp only [Tx.atStage] at hb
      split at hb <;> cases hb
    · simp only [Tx.atStage] at hb
      split at hb
      · next hle =>
        cases hb
        exact ⟨hr ▸ hread.2.2.1, hle⟩
      · cases hb
  · simp only [txStep, hstage] at hstep
    cases hstep
    refine ⟨h.grown, fun b hb => ?_, fun b hb hb' => absurd hb' ?_⟩
    · simp only [Tx.atStage] at hb
      split at hb <;> cases hb
    · simp only [Tx.atStage] at hb
      split at hb <;> cases hb
      exact hr

theorem quota_txStep_ok {w : World UsageState TxProc} {a : UsageAction}
    (hp : w.procs p = .active tx) (hok : TxOk p tx w.shared)
    (h : QuotaTxOk r quota p tx w.shared) (hw : w.shared.Within r quota)
    (hadmitted : uploadsAdmitted r w (p, a)) (hfits : admissionFits r w (p, a))
    (hstep : txStep p w.shared tx a = some (s', tx')) : QuotaTxOk r quota p tx' s' := by
  have hheld : ∀ {r' v}, w.shared.ledger.heldBy p r = true →
      (w.shared.ledger.write p r' v).heldBy p r = true := Table.heldBy_write_of_held
  have hwhole := hstep
  unfold txStep at hstep
  split at hstep
  case h_1 k new hready =>
    obtain ⟨hg, heq⟩ := Option.ite_none_right_eq_some.mp hstep
    cases heq
    exact h.write hadmitted rfl
  case h_2 k r' new hready =>
    split at hstep
    · cases hstep
    · obtain ⟨hg, heq⟩ := Option.ite_none_right_eq_some.mp hstep
      cases heq
      exact h.moved_away hadmitted rfl
  case h_3 hready =>
    split at hstep
    · cases hstep
    · next k delta rest hcalls =>
      obtain ⟨ledger, hcall, heq⟩ := Option.map_eq_some_iff.mp hstep
      cases heq
      refine h.stay rfl rfl (fun hr => ?_) (fun a ha => ha) fun a ha => ?_
      · rcases akUsageLedgerApply_cases hcall with ⟨rfl, -⟩ | ⟨-, -, -, rfl⟩
        · exact hr
        · exact hheld hr
      · rw [hready] at ha
        cases ha
  case h_4 r' hready =>
    obtain ⟨hcalls, heq⟩ := Option.ite_none_right_eq_some.mp hstep
    cases heq
    refine h.stay rfl rfl id (fun a ha => ha) fun a ha => ?_
    rw [hready] at ha
    cases ha
  case h_5 r' hready =>
    obtain ⟨hg, heq⟩ := Option.ite_none_right_eq_some.mp hstep
    cases heq
    refine h.stay rfl rfl hheld (fun a ha => ha) fun a ha => ?_
    rw [hready] at ha
    cases ha
  case h_6 r' hready =>
    obtain ⟨hg, heq⟩ := Option.ite_none_right_eq_some.mp hstep
    cases heq
    exact h.stay rfl rfl id (fun a ha => by cases ha) fun a ha => by cases ha
  case h_7 r' next hinsert =>
    dsimp only at hstep
    split at hstep
    · cases hstep
      exact h.stay rfl rfl id (fun a ha => by rwa [hinsert]) fun a ha => by cases ha
    · obtain ⟨hw, heq⟩ := Option.ite_none_right_eq_some.mp hstep
      cases heq
      exact h.stay rfl rfl hheld (fun a ha => by rwa [hinsert]) fun a ha => by cases ha
  case h_8 r' next hlock =>
    obtain ⟨hg, heq⟩ := Option.ite_none_right_eq_some.mp hstep
    cases heq
    exact h.stay rfl rfl hheld (fun a ha => by rwa [hlock]) fun a ha => by cases ha
  case h_9 r' next hsum =>
    cases hstep
    exact h.stay rfl rfl id (fun a ha => by rwa [hsum]) fun a ha => by cases ha
  case h_10 r' hosted next hsum =>
    cases hstep
    exact h.stay rfl rfl id (fun a ha => by rwa [hsum]) fun a ha => by cases ha
  case h_11 r' hosted proxy next hsum =>
    cases hstep
    exact h.stay rfl rfl id (fun a ha => by rwa [hsum]) fun a ha => by cases ha
  case h_12 r' hosted proxy oci next hwrite =>
    cases hstep
    refine h.stay rfl rfl hheld (fun a ha => ?_) fun a ha => ?_
    · rw [hwrite]
      cases next with
      | none => cases ha
      | some b => exact ha
    · cases next <;> cases ha
  case h_13 a hready =>
    obtain ⟨hg, heq⟩ := Option.ite_none_right_eq_some.mp hstep
    cases heq
    exact h.checkQuota hw a
  case h_14 a quota' hlock =>
    split at hstep
    · cases hstep
      exact h.stay rfl rfl id (fun a ha => by rwa [hlock]) fun a ha => by cases ha
    · obtain ⟨hg, heq⟩ := Option.ite_none_right_eq_some.mp hstep
      cases heq
      exact h.stay rfl rfl hheld (fun a ha => by rwa [hlock]) fun a ha => by cases ha
  case h_15 a quota' total hnet =>
    refine h.netExisting hok hw hnet ?_ hwhole
    obtain ⟨deleting, dropped, calls, stage⟩ := tx
    cases hnet
    simp only [admissionFits, hp] at hfits
    exact hfits
  case h_16 a storageKey hstage =>
    obtain ⟨hg, heq⟩ := Option.ite_none_right_eq_some.mp hstep
    cases heq
    exact upsert_within h hstage
  case h_17 => cases hstep

theorem QuotaOk.frame (h : QuotaOk r quota q l s) (hf : UsageFrame q s s')
    (hcommitted : s'.usageCommitted r = s.usageCommitted r) : QuotaOk r quota q l s' := by
  cases l with
  | idle | finished => trivial
  | active tx =>
    refine ⟨?_, h.asked, fun a ha hr => ?_⟩
    · rw [hf.usage, hf.ledgerHeld, hcommitted]
      exact h.grown
    · have hafter : s'.usageAfter q a = s.usageAfter q a := by
        simp only [UsageState.usageAfter, UsageState.existingAtPath, hf.usage, hf.sourcesView]
      rw [hf.ledgerHeld, hafter]
      exact h.admitted a ha hr

/-- While an upload holds the ledger row, no commit changes what it nets out. -/
theorem existingAtPath_committedBy {a : Admission} (hp : TxOk p tx s) (hcalls : tx.calls = [])
    (hq : q ≠ p) (hheld : s.ledger.heldBy q a.repositoryId = true) :
    (s.committedBy p).existingAtPath q a = s.existingAtPath q a := by
  have hunheld : s.ledger.heldBy p a.key.repositoryId = false :=
    Table.heldBy_unique hheld hq.symm
  have hsame := hp.weight_unlocked hcalls hunheld
  simp only [UsageState.existingAtPath, ← bytes_weight_key]
  by_cases hrow : s.sources.heldBy q a.key = true
  · have hview : (s.committedBy p).sources.view q a.key = s.sources.view q a.key :=
      Table.view_commit_of_held hrow hq
    rw [hview]
  · have hnot : s.sources.heldBy q a.key = false := by simpa using hrow
    have hview : (s.committedBy p).sources.view q a.key = s.sources.view p a.key :=
      Table.view_commit_of_not_held hnot hq
    rw [hview, Table.view_of_not_held hnot]
    exact congrArg Usage.bytes hsame

theorem QuotaOk.committedBy (hp : TxOk p tx s) (hcalls : tx.calls = []) (hq : q ≠ p)
    (h : QuotaOk r quota q l s) : QuotaOk r quota q l (s.committedBy p) := by
  have hledger : (s.committedBy p).ledger.heldBy q = s.ledger.heldBy q :=
    Table.heldBy_commit_other hq
  cases l with
  | idle | finished => trivial
  | active txq =>
    refine ⟨?_, h.asked, fun a ha hr => ?_⟩
    · rw [hledger]
      rcases h.grown with hle | ⟨hheld, hle⟩
      · left
        rw [usageSeen_committedBy hq, usageCommitted_committedBy, bytes_add, bytes_sub]
        omega
      · right
        rw [hp.usageSeen_locked hcalls hq hheld]
        exact ⟨hheld, hle⟩
    · obtain ⟨hheld, hle⟩ := h.admitted a ha hr
      subst hr
      have hafter : (s.committedBy p).usageAfter q a = s.usageAfter q a := by
        rw [UsageState.usageAfter, hp.usageSeen_locked hcalls hq hheld,
          existingAtPath_committedBy hp hcalls hq hheld]
        rfl
      rw [hledger, hafter]
      exact ⟨hheld, hle⟩

/-- What a step of one process leaves true of the quota. -/
theorem quotaStep_ok {w : World UsageState TxProc} {a : UsageAction}
    (hw : w.shared.Within r quota) (hall : ∀ p, UsageOk p (w.procs p) w.shared)
    (hquota : ∀ p, QuotaOk r quota p (w.procs p) w.shared)
    (hadmitted : uploadsAdmitted r w (p, a)) (hfits : admissionFits r w (p, a))
    (hstep : usageProtocol.step p w.shared (w.procs p) a = some (s', l')) :
    s'.Within r quota ∧ QuotaOk r quota p l' s' ∧
      ∀ q, q ≠ p → QuotaOk r quota q (w.procs q) s' := by
  have hown := hall p
  have hownq := hquota p
  generalize hl : w.procs p = l at hown hownq hstep
  simp only [usageProtocol] at hstep
  split at hstep
  · cases hstep
    have hview : w.shared.sources.view p = w.shared.sources.committed :=
      funext fun k => Table.view_of_not_held (hown.2 k)
    refine ⟨hw, ⟨.inl ?_, fun a ha => (by cases ha), fun a ha => (by cases ha)⟩,
      fun q _ => hquota q⟩
    rw [UsageState.usageSeen, hview]
    exact le_rfl
  · next tx =>
    obtain ⟨⟨-, hcalls, hcascaded⟩, heq⟩ := Option.ite_none_right_eq_some.mp hstep
    cases heq
    refine ⟨⟨hw.quotaBytes, hw.pos, hw.fits, ?_⟩, trivial, fun q hq =>
      (hquota q).committedBy hown hcalls hq⟩
    exact (congrArg Usage.bytes usageCommitted_committedBy).trans_le (hownq.seen_le hw)
  · cases hstep
    have hcommitted : UsageState.usageCommitted { w.shared with
        sources := w.shared.sources.rollback p, ledger := w.shared.ledger.rollback p } r =
          w.shared.usageCommitted r := Table.total_rollback_committed
    exact ⟨⟨hw.quotaBytes, hw.pos, hw.fits, hcommitted ▸ hw.usage⟩, trivial, fun q hq =>
      (hquota q).frame (.rollback hq) hcommitted⟩
  · next tx _ _ =>
    obtain ⟨⟨s₁, tx'⟩, htx, heq⟩ := Option.map_eq_some_iff.mp hstep
    cases heq
    have hok := txStep_ok hown htx
    refine ⟨⟨hok.quotaBytes ▸ hw.quotaBytes, hw.pos, hw.fits, ?_⟩,
      quota_txStep_ok hl hown hownq hw hadmitted hfits htx,
      fun q hq => (hquota q).frame (hok.others q hq) (hok.usage r)⟩
    rw [hok.usage]
    exact hw.usage
  · cases hstep

end Steps

section Runs
variable {r : Uuid} {quota : ℤ}

theorem quota_ok_of_reach (w₀ : World UsageState TxProc) {w : World UsageState TxProc}
    (hexact : w₀.shared.Exact)
    (hw : w₀.shared.Within r quota) (hall : ∀ p, UsageOk p (w₀.procs p) w₀.shared)
    (hquota : ∀ p, QuotaOk r quota p (w₀.procs p) w₀.shared)
    (h : usageProtocol.machine.Reach (fun w a => uploadsAdmitted r w a ∧ admissionFits r w a)
      w₀ w) :
    (w.shared.Exact ∧ w.shared.Within r quota) ∧
      ∀ p, UsageOk p (w.procs p) w.shared ∧ QuotaOk r quota p (w.procs p) w.shared := by
  refine Protocol.reach_rely_guarantee (I := fun s => s.Exact ∧ s.Within r quota)
    (A := fun p l s => UsageOk p l s ∧ QuotaOk r quota p l s) h ⟨hexact, hw⟩
    (fun p => ⟨hall p, hquota p⟩) ?_
  rintro w p a s' l' ⟨hexact, hw⟩ hok ⟨hadmitted, hfits⟩ hstep
  obtain ⟨hexact', hown, hothers⟩ := usageStep_ok hexact (hok p).1 hstep
  obtain ⟨hw', hownq, hothersq⟩ := quotaStep_ok hw (fun p => (hok p).1)
    (fun p => (hok p).2) hadmitted hfits hstep
  exact ⟨⟨hexact', hw'⟩, ⟨hown, hownq⟩, fun q hq => ⟨hothers q _ hq (hok q).1, hothersq q hq⟩⟩

theorem bytes_usageCommitted (s : UsageState) :
    Usage.bytes (s.usageCommitted r) = s.getStorageUsage r := by
  rw [UsageState.usageCommitted, total_counted]
  rfl

/-- An admitted upload queues one charge: its size less that of the row it replaces. -/
theorem upsert_charge {s s' : UsageState} {p : ℕ} {tx tx' : Tx} {a : Admission}
    {storageKey : String} (h : TxOk p tx s) (hstage : tx.stage = .admitted a)
    (hstep : txStep p s tx (.upsert storageKey) = some (s', tx')) :
    tx'.calls = [(a.key, (artifactContribution ⟨a.newSize, false, storageKey⟩ -
      s.existingAtPath p a, 0, 0))] := by
  have hread := h.stage
  rw [StageOk, hstage] at hread
  simp only [txStep, hstage] at hstep
  obtain ⟨-, heq⟩ := Option.ite_none_right_eq_some.mp hstep
  cases heq
  have hcharge : triggered a.key (s.sources.view p a.key)
      (some ⟨a.newSize, false, storageKey⟩) = [(a.key,
        Table.weight (counted a.repositoryId) a.key (some ⟨a.newSize, false, storageKey⟩) -
          Table.weight (counted a.repositoryId) a.key (s.sources.view p a.key))] := by
    rw [triggered_eq]
    cases s.sources.view p a.key <;> rfl
  rw [weight_key, weight_key] at hcharge
  have hcalls : tx.calls = [] := hread.1
  simp only [Tx.queue, hcalls, List.nil_append, hcharge]
  rfl

/-- Where every admission of the repository is decided on a usage that fits, committed usage stays
within the quota, an upload is admitted exactly if it leaves usage within the quota and is charged
its net size, and the arithmetic of the admission never wraps. -/
theorem quota_never_exceeded (s : UsageState) (hrest : s.AtRest)
    (hexact : ∀ r, (s.ledger.committed r).getD 0 = s.liveSums r)
    (hquota : s.quotaBytes r = some quota) (hpos : 0 < quota) (hfits : quota < 2 ^ 63)
    (husage : s.getStorageUsage r ≤ quota) (w : World UsageState TxProc)
    (h : usageProtocol.machine.Reach (fun w a => uploadsAdmitted r w a ∧ admissionFits r w a)
      ⟨s, fun _ => .idle⟩ w) :
    w.shared.getStorageUsage r ≤ quota ∧
    ∀ p tx, w.procs p = .active tx →
      (∀ a quota' total, tx.stage = .quotaNet a quota' total → a.repositoryId = r →
        w.shared.usageAfter p a < 2 ^ 63 →
        txStep p w.shared tx .netExisting = some (w.shared,
          tx.atStage (if w.shared.usageAfter p a ≤ quota then .admitted a else .ready)) ∧
        total = Usage.bytes (w.shared.usageSeen p r) ∧
        asI64 (total - w.shared.existingAtPath p a) = total - w.shared.existingAtPath p a ∧
        asI64 (total - w.shared.existingAtPath p a + a.newSize) = w.shared.usageAfter p a) ∧
      ∀ a storageKey s' tx', tx.stage = .admitted a →
        txStep p w.shared tx (.upsert storageKey) = some (s', tx') →
        tx'.calls = [(a.key, (artifactContribution ⟨a.newSize, false, storageKey⟩ -
          w.shared.existingAtPath p a, 0, 0))] := by
  have hstart : s.Exact := fun r => (hexact r).trans (total_counted s.sources.committed).symm
  have hwithin : s.Within r quota :=
    ⟨hquota, hpos, hfits, (bytes_usageCommitted s).trans_le husage⟩
  obtain ⟨⟨-, hw⟩, hall⟩ := quota_ok_of_reach ⟨s, fun _ => .idle⟩ hstart hwithin
    (fun p => ⟨hrest.2 p, hrest.1 p⟩) (fun _ => trivial) h
  refine ⟨(bytes_usageCommitted w.shared).symm.trans_le hw.usage, fun p tx hp =>
    ⟨fun a quota' total hstage hr hafter => ?_, fun a storageKey s' tx' hstage hstep => ?_⟩⟩
  · obtain ⟨hok, hq⟩ := hall p
    rw [hp] at hok hq
    obtain ⟨htotal, hbase, hsum⟩ := admission_exact hr hq hw hafter
    have hread := TxOk.stage hok
    rw [StageOk, hstage] at hread
    have heq : total = Usage.bytes (w.shared.usageSeen p a.repositoryId) :=
      hread.2.2.2.trans htotal
    refine ⟨netExisting_eq hr hok hq hw hstage hafter, hr ▸ heq, ?_, ?_⟩
    · rw [heq, hbase]
    · rw [heq, hsum]
  · have hok := (hall p).1
    rw [hp] at hok
    exact upsert_charge hok hstage hstep

/-- A repository with a quota of 10 bytes and nothing in it. -/
def tenBytes : UsageState := { noUsage with quotaBytes := fun _ => some 10 }

def tenBytesIdle : World UsageState TxProc := ⟨tenBytes, fun _ => .idle⟩

/-- An upload into repository 1 from admission to commit. -/
def uploadCall (p : ℕ) (path : String) (newSize : ℕ) : List (ℕ × UsageAction) :=
  [(p, .checkQuota ⟨1, path, newSize⟩), (p, .lockLedger), (p, .netExisting), (p, .upsert path),
    (p, .fire), (p, .commit)]

/-- The first upload finds no ledger row; the second replaces it, and a third is refused. -/
def threeUploads : List (ℕ × UsageAction) :=
  ([(0, .begin), (1, .begin), (2, .begin), (0, .checkQuota ⟨1, "a", 8⟩), (0, .lockLedger),
    (0, .insertLedger), (0, .lockLedger), (0, .sum), (0, .sum), (0, .sum), (0, .writeSums),
    (0, .netExisting), (0, .upsert "a"), (0, .fire), (0, .commit)] : List (ℕ × UsageAction)) ++
  uploadCall 1 "a" 9 ++
  ([(2, .checkQuota ⟨1, "b", 2⟩), (2, .lockLedger), (2, .netExisting), (2, .commit)] :
    List (ℕ × UsageAction))

theorem quota_never_exceeded_of_three_uploads :
    ∃ w, usageProtocol.machine.run tenBytesIdle threeUploads = some w ∧
      w.shared.ledger.committed 1 = some (9, 0, 0) ∧ w.shared.getStorageUsage 1 ≤ 10 := by
  have hrun : ∃ w, usageProtocol.machine.run tenBytesIdle threeUploads = some w ∧
      w.shared.ledger.committed 1 = some (9, 0, 0) := ⟨_, rfl, by decide⟩
  have hmeets : usageProtocol.machine.Meets
      (fun w a => uploadsAdmitted 1 w a ∧ admissionFits 1 w a) tenBytesIdle threeUploads := by
    decide
  obtain ⟨w, hw, hrow⟩ := hrun
  exact ⟨w, hw, hrow, (quota_never_exceeded tenBytes ⟨fun _ _ => rfl, fun _ _ => rfl⟩
    (fun _ => rfl) rfl (by decide) (by decide) (by decide) w
    (Machine.reach_of_run _ hw hmeets)).1⟩

def blobKey : RowKey := ⟨.ociBlobs, 1, "sha256:00"⟩

/-- The same quota, with an OCI blob of one byte in the repository. -/
def oneBlob : UsageState where
  sources := ⟨fun k => if k = blobKey then ⟨some ⟨1, false, ""⟩, none⟩ else Cell.empty, {blobKey},
    fun k hk => if_neg (by simpa using hk)⟩
  ledger := ⟨fun r => if r = 1 then ⟨some (0, 0, 1), none⟩ else Cell.empty, {1},
    fun r hr => if_neg (by simpa using hr)⟩
  quotaBytes _ := some 10

/-- An upload so large that the usage after it does not fit is admitted: 2^63 bytes under a quota of
10. -/
theorem wrapped_upload_admitted :
    oneBlob.quotaBytes 1 = some 10 ∧ oneBlob.getStorageUsage 1 = 1 ∧
      ∃ w, usageProtocol.machine.Reach (uploadsAdmitted 1) ⟨oneBlob, fun _ => .idle⟩ w ∧
        w.procs 0 = .finished ∧ w.shared.ledger.committed 1 = some (2 ^ 63 - 1, 0, 1) ∧
        w.shared.getStorageUsage 1 = 2 ^ 63 := by
  have hmeets : usageProtocol.machine.Meets (uploadsAdmitted 1) ⟨oneBlob, fun _ => .idle⟩
      ((0, .begin) :: uploadCall 0 "b" (2 ^ 63 - 1)) := by decide
  exact ⟨rfl, by decide, _, Machine.reach_of_run _ rfl hmeets, rfl, by decide, by decide⟩

end Runs

end ArtifactKeeper.Repositories
