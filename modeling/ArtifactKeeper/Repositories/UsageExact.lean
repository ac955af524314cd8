import ArtifactKeeper.Repositories.UsageLedger

/-! The usage ledger is exact: whatever a transaction sees of it, together with the trigger calls it
has still to make, is what the rows it sees add up to. -/

namespace ArtifactKeeper.Repositories
open RowLocks

def SourceTable.component : SourceTable → ℤ → Usage
  | .artifacts, n => (n, 0, 0)
  | .proxyCacheArtifacts, n => (0, n, 0)
  | .ociBlobs, n => (0, 0, n)

/-- What a row counts towards a repository. -/
def counted (r : Uuid) (k : RowKey) (row : SourceRow) : Usage :=
  if k.repositoryId = r then k.table.component (k.table.contribution row) else 0

/-- What queued calls will add to the ledger row of a repository. -/
def callsDelta (r : Uuid) (calls : List (RowKey × Usage)) : Usage :=
  (calls.map fun c => if c.1.repositoryId = r then c.2 else 0).sum

/-- What queued calls will add on behalf of one source row. -/
def keyDelta (k : RowKey) (calls : List (RowKey × Usage)) : Usage :=
  (calls.map fun c => if c.1 = k then c.2 else 0).sum

namespace UsageState

/-- The usage of a repository as a transaction sees it. -/
def usageSeen (s : UsageState) (p : ℕ) (r : Uuid) : Usage :=
  s.sources.total (counted r) (s.sources.view p)

def usageCommitted (s : UsageState) (r : Uuid) : Usage :=
  s.sources.total (counted r) s.sources.committed

end UsageState

section Triggers
variable {k k' : RowKey} {r : Uuid} {old new : Option SourceRow} {calls : List (RowKey × Usage)}

theorem contribution_nonneg (table : SourceTable) (row : SourceRow) :
    0 ≤ table.contribution row := by
  cases table with
  | artifacts =>
    simp only [SourceTable.contribution, artifactContribution]
    split <;> simp
  | proxyCacheArtifacts => exact Int.natCast_nonneg _
  | ociBlobs => exact Int.natCast_nonneg _

theorem component_sub (table : SourceTable) (m n : ℤ) :
    table.component (m - n) = table.component m - table.component n := by
  cases table <;> simp [SourceTable.component]

theorem component_neg (table : SourceTable) (n : ℤ) :
    table.component (-n) = -table.component n := by
  cases table <;> simp [SourceTable.component]

theorem component_nonneg (table : SourceTable) {n : ℤ} (h : 0 ≤ n) : 0 ≤ table.component n := by
  cases table <;> simp [SourceTable.component, Prod.le_def, h]

theorem counted_nonneg (r : Uuid) (k : RowKey) (row : SourceRow) : 0 ≤ counted r k row := by
  unfold counted
  split
  · exact component_nonneg _ (contribution_nonneg _ _)
  · exact le_rfl

theorem trigger_eq (table : SourceTable) :
    table.trigger = ledgerTrigger table.component table.contribution := by
  cases table <;> rfl

/-- The calls for one row all name this row. -/
theorem triggered_eq : triggered k old new =
    match old, new with
    | none, none => []
    | _, _ => [(k, Table.weight (counted k.repositoryId) k new -
        Table.weight (counted k.repositoryId) k old)] := by
  cases old <;> cases new <;>
    simp [triggered, trigger_eq, ledgerTrigger, Table.weight, counted, component_sub,
      component_neg]

theorem callsDelta_append (calls calls' : List (RowKey × Usage)) :
    callsDelta r (calls ++ calls') = callsDelta r calls + callsDelta r calls' := by
  simp [callsDelta]

theorem keyDelta_append (calls calls' : List (RowKey × Usage)) :
    keyDelta k (calls ++ calls') = keyDelta k calls + keyDelta k calls' := by
  simp [keyDelta]

theorem weight_counted_of_ne (h : k.repositoryId ≠ r) (v : Option SourceRow) :
    Table.weight (counted r) k v = 0 := by
  cases v <;> simp [Table.weight, counted, h]

/-- The calls for a row change add up to the difference it makes. -/
theorem callsDelta_triggered : callsDelta r (triggered k old new) =
    Table.weight (counted r) k new - Table.weight (counted r) k old := by
  by_cases h : k.repositoryId = r
  · subst h
    cases old <;> cases new <;> simp [triggered_eq, callsDelta]
  · rw [weight_counted_of_ne h, weight_counted_of_ne h, sub_self]
    cases old <;> cases new <;> simp [triggered_eq, callsDelta, h]

theorem keyDelta_triggered_self : keyDelta k (triggered k old new) =
    Table.weight (counted k.repositoryId) k new -
      Table.weight (counted k.repositoryId) k old := by
  cases old <;> cases new <;> simp [triggered_eq, keyDelta]

theorem keyDelta_triggered_of_ne (h : k' ≠ k) : keyDelta k' (triggered k old new) = 0 := by
  cases old <;> cases new <;> simp [triggered_eq, keyDelta, h.symm]

/-- A move is the removal from the one repository and the insertion into the other. -/
theorem triggeredMove_eq {r : Uuid} (h : r ≠ k.repositoryId) (old new : SourceRow) :
    triggeredMove k r old new = triggered k (some old) none ++
      triggered { k with repositoryId := r } none (some new) := by
  simp [triggeredMove, triggered, trigger_eq, ledgerTrigger, h]

theorem triggered_nonpos {c : RowKey × Usage} (h : c ∈ triggered k old none) : c.2 ≤ 0 := by
  cases old with
  | none => simp [triggered_eq] at h
  | some row =>
    simp only [triggered_eq, List.mem_singleton] at h
    subst h
    rw [Table.weight_none, zero_sub, neg_nonpos]
    exact Table.weight_nonneg (counted_nonneg _)

theorem key_of_mem_triggered {c : RowKey × Usage} (h : c ∈ triggered k old new) : c.1 = k := by
  cases old <;> cases new <;> simp [triggered_eq] at h <;> rw [h]

end Triggers

section Sums
variable {s : UsageState} {r : Uuid}

/-- The three sums are the components of the usage. -/
theorem total_counted (rows : RowKey → Option SourceRow) : s.sources.total (counted r) rows =
    (s.sumBytes rows .artifacts r, s.sumBytes rows .proxyCacheArtifacts r,
      s.sumBytes rows .ociBlobs r) := by
  have hweight : ∀ (g : Usage → ℤ) (table : SourceTable), (∀ u v, g (u + v) = g u + g v) →
      (∀ t n, g (SourceTable.component t n) = if t = table then n else 0) →
      g (s.sources.total (counted r) rows) = s.sumBytes rows table r := by
    intro g table hadd hcomponent
    have hzero : g 0 = 0 := by
      have := hadd 0 0
      simpa using this
    have hmap : g (s.sources.total (counted r) rows) =
        s.sources.keys.sum fun k => g (Table.weight (counted r) k (rows k)) :=
      map_sum (AddMonoidHom.mk' g hadd) _ _
    refine hmap.trans (Finset.sum_congr rfl fun k _ => ?_)
    cases hrow : rows k with
    | none => simpa [Table.weight] using hzero
    | some row =>
      by_cases hr : k.repositoryId = r
      · by_cases ht : k.table = table
        · simp [Table.weight, counted, hr, ht, hcomponent]
        · simp [Table.weight, counted, hr, ht, hcomponent]
      · simp [Table.weight, counted, hr, hzero]
  refine Prod.ext ?_ (Prod.ext ?_ ?_)
  · exact hweight (fun u => u.1) .artifacts (fun _ _ => rfl) fun t n => by cases t <;> rfl
  · exact hweight (fun u => u.2.1) .proxyCacheArtifacts (fun _ _ => rfl) fun t n => by
      cases t <;> rfl
  · exact hweight (fun u => u.2.2) .ociBlobs (fun _ _ => rfl) fun t n => by cases t <;> rfl

theorem usageSeen_nonneg (p : ℕ) : 0 ≤ s.usageSeen p r :=
  Table.total_nonneg (counted_nonneg r) _

end Sums

/-- A reconciliation runs between statements, for the repository of the admission that asked for
it. -/
def Reconciling (tx : Tx) (r : Uuid) (next : Option (Admission × ℤ)) : Prop :=
  tx.calls = [] ∧ r ∉ tx.deleting ∧ ∀ a ∈ next, a.1.repositoryId = r

/-- The stages of a transaction hold what they have read: the ledger row is locked, and the sums are
those of the rows it sees. -/
def StageOk (p : ℕ) (tx : Tx) (s : UsageState) : Prop :=
  match tx.stage with
  | .ready => True
  | .reconcileInsert r next | .reconcileLock r next => Reconciling tx r next
  | .reconcileHosted r next => Reconciling tx r next ∧ s.ledger.heldBy p r = true
  | .reconcileProxy r hosted next =>
    Reconciling tx r next ∧ s.ledger.heldBy p r = true ∧ hosted = (s.usageSeen p r).1
  | .reconcileOci r hosted proxy next =>
    Reconciling tx r next ∧ s.ledger.heldBy p r = true ∧
      hosted = (s.usageSeen p r).1 ∧ proxy = (s.usageSeen p r).2.1
  | .reconcileWrite r hosted proxy oci next =>
    Reconciling tx r next ∧ s.ledger.heldBy p r = true ∧
      (hosted, proxy, oci) = s.usageSeen p r
  | .quotaNet admission _ total => tx.calls = [] ∧ admission.repositoryId ∉ tx.deleting ∧
    s.ledger.heldBy p admission.repositoryId = true ∧
      total = ledgerTotal (s.usageSeen p admission.repositoryId)
  | .quotaLock admission _ | .admitted admission =>
    tx.calls = [] ∧ admission.repositoryId ∉ tx.deleting

/-- What holds of an open transaction: ledger and queued calls make up the usage it sees; no end of
the queue exceeds what its own rows count; where it has not locked the ledger row, the queued calls
are all it has changed; and a dropped ledger row stays locked and gone. -/
structure TxOk (p : ℕ) (tx : Tx) (s : UsageState) : Prop where
  exact : ∀ r, r ∉ tx.dropped →
    (s.ledger.view p r).getD 0 + callsDelta r tx.calls = s.usageSeen p r
  bounded : ∀ l, l <:+ tx.calls → ∀ r, callsDelta r l ≤ s.sources.own (counted r) p
  rows : ∀ k, s.ledger.heldBy p k.repositoryId = false →
    Table.weight (counted k.repositoryId) k (s.sources.view p k) =
      Table.weight (counted k.repositoryId) k (s.sources.committed k) + keyDelta k tx.calls
  dropped : ∀ r ∈ tx.dropped, r ∈ tx.deleting ∧ s.ledger.heldBy p r = true ∧
    s.ledger.view p r = none
  shrinking : ∀ c ∈ tx.calls, c.1.repositoryId ∈ tx.deleting → c.2 ≤ 0
  stage : StageOk p tx s

/-- A process that has not begun holds no lock. -/
def UsageOk (p : ℕ) (l : TxProc) (s : UsageState) : Prop :=
  match l with
  | .idle => (∀ r, s.ledger.heldBy p r = false) ∧ ∀ k, s.sources.heldBy p k = false
  | .active tx => TxOk p tx s
  | .finished => True

/-- The committed ledger is exact; a missing row counts as 0. -/
def UsageState.Exact (s : UsageState) : Prop :=
  ∀ r, (s.ledger.committed r).getD 0 = s.usageCommitted r

/-- Nothing that transaction `q` sees or holds has changed. -/
structure UsageFrame (q : ℕ) (s s' : UsageState) : Prop where
  sourcesView : s'.sources.view q = s.sources.view q
  sourcesHeld : s'.sources.heldBy q = s.sources.heldBy q
  sourcesCommitted : s'.sources.committed = s.sources.committed
  usage : ∀ r, s'.usageSeen q r = s.usageSeen q r
  own : ∀ r, s'.sources.own (counted r) q = s.sources.own (counted r) q
  ledgerView : s'.ledger.view q = s.ledger.view q
  ledgerHeld : s'.ledger.heldBy q = s.ledger.heldBy q

section Frame
variable {s s' : UsageState} {p q : ℕ} {tx : Tx} {l : TxProc}

theorem StageOk.frame (h : StageOk q tx s) (hheld : s'.ledger.heldBy q = s.ledger.heldBy q)
    (husage : ∀ r, s.ledger.heldBy q r = true → s'.usageSeen q r = s.usageSeen q r) :
    StageOk q tx s' := by
  obtain ⟨deleting, dropped, calls, stage⟩ := tx
  cases stage with
  | ready | reconcileInsert _ _ | reconcileLock _ _ | quotaLock _ _ | admitted _ => exact h
  | reconcileHosted r next => exact ⟨h.1, hheld ▸ h.2⟩
  | reconcileProxy r hosted next =>
    obtain ⟨hrec, hlock, rfl⟩ := h
    exact ⟨hrec, hheld ▸ hlock, by rw [husage _ hlock]⟩
  | reconcileOci r hosted proxy next =>
    obtain ⟨hrec, hlock, rfl, rfl⟩ := h
    exact ⟨hrec, hheld ▸ hlock, by rw [husage _ hlock], by rw [husage _ hlock]⟩
  | reconcileWrite r hosted proxy oci next =>
    obtain ⟨hrec, hlock, hsums⟩ := h
    exact ⟨hrec, hheld ▸ hlock, by rw [husage _ hlock, hsums]⟩
  | quotaNet admission quota total =>
    obtain ⟨hcalls, hr, hlock, rfl⟩ := h
    exact ⟨hcalls, hr, hheld ▸ hlock, by rw [husage _ hlock]⟩

theorem UsageOk.frame (h : UsageOk q l s) (hf : UsageFrame q s s') : UsageOk q l s' := by
  cases l with
  | idle => exact ⟨fun r => by rw [hf.ledgerHeld, h.1], fun k => by rw [hf.sourcesHeld, h.2]⟩
  | finished => trivial
  | active tx =>
    refine ⟨fun r hr => ?_, fun l hl r => ?_, fun k hk => ?_, fun r hr => ?_, h.shrinking,
      h.stage.frame hf.ledgerHeld fun r _ => hf.usage r⟩
    · rw [hf.ledgerView, hf.usage]
      exact h.exact r hr
    · rw [hf.own]
      exact h.bounded l hl r
    · rw [hf.sourcesView, hf.sourcesCommitted]
      exact h.rows k (hf.ledgerHeld ▸ hk)
    · rw [hf.ledgerHeld, hf.ledgerView]
      exact h.dropped r hr

theorem UsageFrame.refl (s : UsageState) : UsageFrame q s s :=
  ⟨rfl, rfl, rfl, fun _ => rfl, fun _ => rfl, rfl, rfl⟩

theorem UsageFrame.sources {k : RowKey} {v : Option SourceRow} (hq : q ≠ p)
    (hw : s.sources.writable p k = true) :
    UsageFrame q s { s with sources := s.sources.write p k v } :=
  ⟨Table.view_write_other hw hq, Table.heldBy_write_other hw hq, Table.committed_write,
    fun _ => Table.total_write_other hw hq, fun _ => Table.own_write_other hw hq, rfl, rfl⟩

theorem UsageFrame.ledger {r : Uuid} {v : Option Usage} (hq : q ≠ p)
    (hw : s.ledger.writable p r = true) :
    UsageFrame q s { s with ledger := s.ledger.write p r v } :=
  ⟨rfl, rfl, rfl, fun _ => rfl, fun _ => rfl, Table.view_write_other hw hq,
    Table.heldBy_write_other hw hq⟩

theorem UsageFrame.trans {s'' : UsageState} (h : UsageFrame q s s') (h' : UsageFrame q s' s'') :
    UsageFrame q s s'' :=
  ⟨h'.sourcesView.trans h.sourcesView, h'.sourcesHeld.trans h.sourcesHeld,
    h'.sourcesCommitted.trans h.sourcesCommitted, fun r => (h'.usage r).trans (h.usage r),
    fun r => (h'.own r).trans (h.own r), h'.ledgerView.trans h.ledgerView,
    h'.ledgerHeld.trans h.ledgerHeld⟩

theorem UsageFrame.rollback (hq : q ≠ p) : UsageFrame q s
    { s with sources := s.sources.rollback p, ledger := s.ledger.rollback p } := by
  refine ⟨Table.view_rollback_other hq, Table.heldBy_rollback_other hq, Table.committed_rollback,
    fun r => ?_, fun _ => Table.own_rollback_other hq, Table.view_rollback_other hq,
    Table.heldBy_rollback_other hq⟩
  simp only [UsageState.usageSeen, Table.view_rollback_other hq]
  rfl

end Frame

section OwnSteps
variable {s : UsageState} {p : ℕ} {tx tx' : Tx} {k : RowKey} {r : Uuid}

/-- A write changes what the writer sees by the difference it makes. -/
theorem usageSeen_write {v : Option SourceRow} :
    UsageState.usageSeen { s with sources := s.sources.write p k v } p r = s.usageSeen p r +
      (Table.weight (counted r) k v - Table.weight (counted r) k (s.sources.view p k)) :=
  Table.total_write_self

theorem suffix_triggered {old new : Option SourceRow} {l : List (RowKey × Usage)}
    (h : l <:+ triggered k old new) : l = [] ∨ l = triggered k old new := by
  have hlength : (triggered k old new).length ≤ 1 := by
    cases old <;> cases new <;> simp [triggered_eq]
  rcases Nat.eq_zero_or_pos l.length with hzero | hpos
  · exact .inl (List.eq_nil_of_length_eq_zero hzero)
  · exact .inr (h.eq_of_length (by have := h.length_le; omega))

/-- The locked rows count at least what any end of the queue will add. -/
theorem bounded_append {calls : List (RowKey × Usage)} {v : Option SourceRow}
    (h : ∀ l, l <:+ calls → ∀ r, callsDelta r l ≤ s.sources.own (counted r) p)
    {l : List (RowKey × Usage)} (hl : l <:+ calls ++ triggered k (s.sources.view p k) v)
    (r : Uuid) : callsDelta r l ≤ (s.sources.write p k v).own (counted r) p := by
  have hgrow := Table.own_write_self (t := s.sources) (p := p) (k := k) (v := v)
    (counted_nonneg r)
  have hwhole : ∀ l', l' <:+ calls →
      callsDelta r (l' ++ triggered k (s.sources.view p k) v) ≤
        (s.sources.write p k v).own (counted r) p := by
    intro l' hl'
    rw [callsDelta_append, callsDelta_triggered]
    exact (add_le_add_left (h l' hl' r) _).trans hgrow
  obtain ⟨front, hfront⟩ := hl
  rcases List.append_eq_append_iff.mp hfront with ⟨a, hcalls, rfl⟩ | ⟨c, -, htrig⟩
  · exact hwhole a ⟨front, hcalls.symm⟩
  · rcases suffix_triggered ⟨c, htrig.symm⟩ with rfl | hl
    · exact Table.own_nonneg (counted_nonneg r)
    · rw [hl]
      simpa using hwhole [] (List.nil_suffix)

/-- A change of a row queues its difference. -/
theorem TxOk.write (h : TxOk p tx s) {v : Option SourceRow}
    (hdeleting : k.repositoryId ∈ tx.deleting → v = none) :
    TxOk p (tx.queue (triggered k (s.sources.view p k) v))
      { s with sources := s.sources.write p k v } := by
  refine ⟨fun r hr => ?_, fun l hl r => bounded_append h.bounded hl r, fun k' hk' => ?_, h.dropped,
    fun c hc hc' => ?_, trivial⟩
  · rw [usageSeen_write, ← h.exact r hr]
    simp only [Tx.queue, callsDelta_append, callsDelta_triggered]
    abel
  · have hrows := h.rows k' hk'
    simp only [Tx.queue, keyDelta_append, Table.committed_write]
    by_cases hk : k' = k
    · subst hk
      rw [Table.view_write_self, keyDelta_triggered_self, hrows]
      abel
    · rw [Table.view_write_ne hk, keyDelta_triggered_of_ne hk, add_zero]
      exact hrows
  · rcases List.mem_append.mp hc with hold | hnew
    · exact h.shrinking c hold hc'
    · rw [key_of_mem_triggered hnew] at hc'
      rw [hdeleting hc'] at hnew
      exact triggered_nonpos hnew

/-- A ledger row given the value that the remaining calls leave to it. -/
theorem TxOk.ledgerWrite (h : TxOk p tx s) (hr : r ∉ tx.dropped) {v : Option Usage}
    (hdeleting : tx'.deleting = tx.deleting) (hdropped : tx'.dropped = tx.dropped)
    (hcalls : tx'.calls <:+ tx.calls)
    (hvalue : v.getD 0 + callsDelta r tx'.calls = s.usageSeen p r)
    (hother : ∀ r', r' ≠ r → callsDelta r' tx'.calls = callsDelta r' tx.calls)
    (hkeys : ∀ k, k.repositoryId ≠ r → keyDelta k tx'.calls = keyDelta k tx.calls)
    (hstage : StageOk p tx' { s with ledger := s.ledger.write p r v }) :
    TxOk p tx' { s with ledger := s.ledger.write p r v } := by
  refine ⟨fun r' hr' => ?_, fun l hl => h.bounded l (hl.trans hcalls), fun k hk => ?_,
    fun r' hr' => ?_, fun c hc => ?_, hstage⟩
  · by_cases hne : r' = r
    · subst hne
      rw [Table.view_write_self]
      exact hvalue
    · rw [Table.view_write_ne hne, hother r' hne]
      exact h.exact r' (hdropped ▸ hr')
  · have hne : k.repositoryId ≠ r := by
      rintro rfl
      simp at hk
    rw [hkeys k hne]
    exact h.rows k (by rwa [Table.heldBy_write_ne hne] at hk)
  · rw [hdropped] at hr'
    have hne : r' ≠ r := fun heq => hr (heq ▸ hr')
    rw [Table.heldBy_write_ne hne, Table.view_write_ne hne, hdeleting]
    exact h.dropped r' hr'
  · rw [hdeleting]
    exact h.shrinking c (hcalls.subset hc)

/-- The next call never takes the ledger row below 0. -/
theorem TxOk.call_nonneg (h : TxOk p tx s) {delta : Usage} {rest : List (RowKey × Usage)}
    (hcalls : tx.calls = (k, delta) :: rest) (hr : k.repositoryId ∉ tx.dropped) :
    0 ≤ (s.ledger.view p k.repositoryId).getD 0 + delta := by
  have hexact := h.exact k.repositoryId hr
  have hrest := h.bounded rest (hcalls ▸ List.suffix_cons _ _) k.repositoryId
  have hown := hrest.trans (Table.own_le_total (counted_nonneg k.repositoryId))
  rw [hcalls] at hexact
  simp only [callsDelta, List.map_cons, List.sum_cons, if_true] at hexact
  have hvalue : (s.ledger.view p k.repositoryId).getD 0 + delta =
      s.usageSeen p k.repositoryId - callsDelta k.repositoryId rest := by
    rw [← hexact]
    simp only [callsDelta]
    abel
  rw [hvalue]
  exact sub_nonneg.mpr hown

theorem akUsageLedgerApply_cases {ledger ledger' : Table Uuid Usage} {delta : Usage}
    (h : akUsageLedgerApply p ledger r delta = some ledger') :
    (ledger' = ledger ∧ (delta = 0 ∨ ¬0 ≤ delta ∧ ledger.view p r = none)) ∨
    (ledger.writable p r = true ∧ delta ≠ 0 ∧ (0 ≤ delta ∨ (ledger.view p r).isSome) ∧
      ledger' = ledger.write p r (some (((ledger.view p r).getD 0 + delta) ⊔ 0))) := by
  unfold akUsageLedgerApply at h
  split at h
  · next hzero => exact .inl ⟨(Option.some.inj h).symm, .inl hzero⟩
  next hzero =>
  split at h
  · next hgrowth =>
    split at h
    · next hw =>
      refine .inr ⟨hw, hzero, .inl hgrowth, ?_⟩
      rw [← Option.some.inj h]
      cases ledger.view p r with
      | none => simp [sup_of_le_left hgrowth]
      | some u => rfl
    · cases h
  · next hshrink =>
    split at h
    · next hview => exact .inl ⟨(Option.some.inj h).symm, .inr ⟨hshrink, hview⟩⟩
    · next u hview =>
      split at h
      · next hw =>
        refine .inr ⟨hw, hzero, .inr (by simp [hview]), ?_⟩
        rw [← Option.some.inj h, hview]
        rfl
      · cases h

/-- The next call of the queue has no effect. -/
theorem TxOk.skip (h : TxOk p tx s) {delta : Usage} {rest : List (RowKey × Usage)}
    (hcalls : tx.calls = (k, delta) :: rest) (hstage : tx.stage = .ready)
    (hskip : delta = 0 ∨ k.repositoryId ∈ tx.dropped) :
    TxOk p { tx with calls := rest } s := by
  have hdelta : ∀ r, r ∉ tx.dropped → callsDelta r tx.calls = callsDelta r rest := by
    intro r hr
    rw [hcalls]
    rcases hskip with rfl | hk
    · simp [callsDelta]
    · have hne : k.repositoryId ≠ r := fun heq => hr (heq ▸ hk)
      simp [callsDelta, hne]
  have hkeys : ∀ k', s.ledger.heldBy p k'.repositoryId = false →
      keyDelta k' tx.calls = keyDelta k' rest := by
    intro k' hk'
    rw [hcalls]
    rcases hskip with rfl | hk
    · simp [keyDelta]
    · have hne : k ≠ k' := by
        rintro rfl
        simp [(h.dropped _ hk).2.1] at hk'
      simp [keyDelta, hne]
  have hsuffix : rest <:+ tx.calls := hcalls ▸ List.suffix_cons _ _
  refine ⟨fun r hr => ?_, fun l hl => h.bounded l (hl.trans hsuffix), fun k' hk' => ?_, h.dropped,
    fun c hc => h.shrinking c (hsuffix.subset hc), by simp [StageOk, hstage]⟩
  · rw [← h.exact r hr, hdelta r hr]
  · rw [h.rows k' hk', hkeys k' hk']

/-- A trigger call takes its part of the queue to the ledger. -/
theorem TxOk.fire (h : TxOk p tx s) {delta : Usage} {rest : List (RowKey × Usage)}
    {ledger : Table Uuid Usage} (hcalls : tx.calls = (k, delta) :: rest)
    (hstage : tx.stage = .ready)
    (hcall : akUsageLedgerApply p s.ledger k.repositoryId delta = some ledger) :
    TxOk p { tx with calls := rest } { s with ledger := ledger } := by
  rcases akUsageLedgerApply_cases hcall with ⟨rfl, hno⟩ | ⟨-, hne, hgrows, rfl⟩
  · refine h.skip hcalls hstage (hno.imp_right fun hmissing => ?_)
    -- a ledger row that is missing has nothing to shrink, unless the cascade took it
    by_contra hr
    have hnonneg := h.call_nonneg hcalls hr
    rw [hmissing.2] at hnonneg
    exact hmissing.1 (by simpa using hnonneg)
  · by_cases hr : k.repositoryId ∈ tx.dropped
    · obtain ⟨hdeleting, hheld, hview⟩ := h.dropped _ hr
      have hle : delta ≤ 0 := h.shrinking (k, delta) (by simp [hcalls]) hdeleting
      rcases hgrows with hgrowth | hrow
      · exact absurd (le_antisymm hle hgrowth) hne
      · simp [hview] at hrow
    · have hclamp := sup_of_le_left (h.call_nonneg hcalls hr)
      rw [hclamp]
      have hexact := h.exact _ hr
      rw [hcalls] at hexact
      refine h.ledgerWrite hr rfl rfl (hcalls ▸ List.suffix_cons _ _) ?_ (fun r' hr' => ?_)
        (fun k' hk' => ?_) (by simp [StageOk, hstage])
      · rw [← hexact]
        simp [callsDelta, add_assoc]
      · simp [hcalls, callsDelta, hr'.symm]
      · have hne : k ≠ k' := fun heq => hk' (by rw [heq])
        simp [hcalls, keyDelta, hne]

/-- What an open transaction does: it keeps its own assertion, no other transaction sees a
difference, and nothing committed changes. -/
structure TxStepOk (p : ℕ) (tx' : Tx) (s s' : UsageState) : Prop where
  own : TxOk p tx' s'
  others : ∀ q, q ≠ p → UsageFrame q s s'
  ledger : s'.ledger.committed = s.ledger.committed
  usage : ∀ r, s'.usageCommitted r = s.usageCommitted r
  quotaBytes : s'.quotaBytes = s.quotaBytes

theorem TxStepOk.refl (h : TxOk p tx' s) : TxStepOk p tx' s s :=
  ⟨h, fun _ _ => .refl s, rfl, fun _ => rfl, rfl⟩

theorem TxStepOk.sources {v : Option SourceRow} (hw : s.sources.writable p k = true)
    (h : TxOk p tx' { s with sources := s.sources.write p k v }) :
    TxStepOk p tx' s { s with sources := s.sources.write p k v } :=
  ⟨h, fun _ hq => .sources hq hw, rfl, fun _ => Table.total_write_committed, rfl⟩

theorem TxStepOk.ledgerRow {v : Option Usage} (hw : s.ledger.writable p r = true)
    (h : TxOk p tx' { s with ledger := s.ledger.write p r v }) :
    TxStepOk p tx' s { s with ledger := s.ledger.write p r v } :=
  ⟨h, fun _ hq => .ledger hq hw, Table.committed_write, fun _ => rfl, rfl⟩

/-- A step that only moves to another stage. -/
theorem TxOk.atStage (h : TxOk p tx s) {stage : TxStage} (hstage : StageOk p (tx.atStage stage) s) :
    TxOk p (tx.atStage stage) s :=
  ⟨h.exact, h.bounded, h.rows, h.dropped, h.shrinking, hstage⟩

theorem TxOk.not_dropped (h : TxOk p tx s) (hr : r ∉ tx.deleting) : r ∉ tx.dropped :=
  fun hd => hr (h.dropped r hd).1

theorem TxOk.view_eq (h : TxOk p tx s) (hcalls : tx.calls = []) (hr : r ∉ tx.deleting) :
    (s.ledger.view p r).getD 0 = s.usageSeen p r := by
  have hexact := h.exact r (h.not_dropped hr)
  simpa [hcalls, callsDelta] using hexact

/-- A ledger row written between statements with the usage the transaction sees. -/
theorem TxOk.setLedger (h : TxOk p tx s) (hcalls : tx.calls = []) (hr : r ∉ tx.deleting)
    {v : Option Usage} (hv : v.getD 0 = s.usageSeen p r) {stage : TxStage}
    (hstage : StageOk p (tx.atStage stage) { s with ledger := s.ledger.write p r v }) :
    TxOk p (tx.atStage stage) { s with ledger := s.ledger.write p r v } := by
  refine h.ledgerWrite (h.not_dropped hr) rfl rfl (List.suffix_refl _) ?_ (fun _ _ => rfl)
    (fun _ _ => rfl) hstage
  simpa [Tx.atStage, hcalls, callsDelta] using hv

/-- The cascade of a repository's deletion takes its ledger row. -/
theorem TxOk.dropLedger (h : TxOk p tx s) (hr : r ∈ tx.deleting) (hstage : tx.stage = .ready) :
    TxOk p { tx with dropped := r :: tx.dropped }
      { s with ledger := s.ledger.write p r none } := by
  refine ⟨fun r' hr' => ?_, h.bounded, fun k hk => ?_, fun r' hr' => ?_, h.shrinking,
    by simp [StageOk, hstage]⟩
  · have hne : r' ≠ r := fun heq => hr' (heq ▸ List.mem_cons_self)
    rw [Table.view_write_ne hne]
    exact h.exact r' fun hd => hr' (List.mem_cons_of_mem r hd)
  · have hne : k.repositoryId ≠ r := by
      rintro rfl
      simp at hk
    exact h.rows k (by rwa [Table.heldBy_write_ne hne] at hk)
  · by_cases hne : r' = r
    · subst hne
      exact ⟨hr, Table.heldBy_write_self, Table.view_write_self⟩
    · rw [Table.heldBy_write_ne hne, Table.view_write_ne hne]
      exact h.dropped r' ((List.mem_cons.mp hr').resolve_left hne)

/-- A row of one repository becomes a row of another one. -/
theorem TxStepOk.move (h : TxOk p tx s) {k' : RowKey} {old new : SourceRow}
    (hk' : k' = { k with repositoryId := r }) (hr : r ≠ k.repositoryId)
    (hw : s.sources.writable p k = true) (hw' : s.sources.writable p k' = true)
    (hold : s.sources.view p k = some old) (hnone : s.sources.view p k' = none)
    (hk : k.repositoryId ∉ tx.deleting) (hrd : r ∉ tx.deleting) :
    TxStepOk p (tx.queue (triggeredMove k r old new)) s
      { s with sources := (s.sources.write p k none).write p k' (some new) } := by
  have hid : k'.repositoryId = r := by rw [hk']
  have hne : k' ≠ k := fun heq => hr (by rw [← hid, heq])
  have hremoved := h.write (k := k) (v := none) fun hd => absurd hd hk
  have hfirst := TxStepOk.sources hw hremoved
  have hadded := hremoved.write (k := k') (v := some new) fun hd => absurd hd (hid ▸ hrd)
  rw [Table.view_write_ne hne, hnone, hold] at hadded
  have hsecond := TxStepOk.sources ((Table.writable_write_ne hne).trans hw') hadded
  have hqueue : (tx.queue (triggered k (some old) none)).queue (triggered k' none (some new)) =
      tx.queue (triggeredMove k r old new) := by
    simp [triggeredMove_eq hr, Tx.queue, hk']
  rw [hqueue] at hsecond
  exact ⟨hsecond.own, fun q hq => (hfirst.others q hq).trans (hsecond.others q hq),
    hsecond.ledger.trans hfirst.ledger, fun r => (hsecond.usage r).trans (hfirst.usage r), rfl⟩

theorem TxStepOk.fire (h : TxOk p tx s) {delta : Usage} {rest : List (RowKey × Usage)}
    {ledger : Table Uuid Usage} (hcalls : tx.calls = (k, delta) :: rest)
    (hstage : tx.stage = .ready)
    (hcall : akUsageLedgerApply p s.ledger k.repositoryId delta = some ledger) :
    TxStepOk p { tx with calls := rest } s { s with ledger := ledger } := by
  have hok := h.fire hcalls hstage hcall
  rcases akUsageLedgerApply_cases hcall with ⟨rfl, -⟩ | ⟨hw, -, -, rfl⟩
  · exact .refl hok
  · exact .ledgerRow hw hok

theorem txStep_ok {s' : UsageState} {a : UsageAction} (h : TxOk p tx s)
    (hstep : txStep p s tx a = some (s', tx')) : TxStepOk p tx' s s' := by
  have hstage := h.stage
  unfold txStep at hstep
  split at hstep
  case h_1 k new hready =>
    obtain ⟨hg, heq⟩ := Option.ite_none_right_eq_some.mp hstep
    cases heq
    exact .sources hg.1 (h.write hg.2)
  case h_2 k r new hready =>
    split at hstep
    · cases hstep
    · next old hold =>
      obtain ⟨⟨hr, hw, hw', hnone, hk, hrd⟩, heq⟩ := Option.ite_none_right_eq_some.mp hstep
      cases heq
      exact .move h rfl hr hw hw' hold hnone hk hrd
  case h_3 hready =>
    split at hstep
    · cases hstep
    · next k delta rest hcalls =>
      obtain ⟨ledger, hcall, heq⟩ := Option.map_eq_some_iff.mp hstep
      cases heq
      exact .fire h hcalls hready hcall
  case h_4 r hready =>
    obtain ⟨hcalls, heq⟩ := Option.ite_none_right_eq_some.mp hstep
    cases heq
    refine .refl ⟨h.exact, h.bounded, h.rows, fun r hr => ?_, fun c hc => ?_, ?_⟩
    · exact ⟨List.mem_cons_of_mem _ (h.dropped r hr).1, (h.dropped r hr).2⟩
    · simp [hcalls] at hc
    · simp [StageOk, hready]
  case h_5 r hready =>
    obtain ⟨⟨hr, -, hw⟩, heq⟩ := Option.ite_none_right_eq_some.mp hstep
    cases heq
    exact .ledgerRow hw (h.dropLedger hr hready)
  case h_6 r hready =>
    obtain ⟨hg, heq⟩ := Option.ite_none_right_eq_some.mp hstep
    cases heq
    exact .refl (h.atStage ⟨hg.1, hg.2, fun a ha => by cases ha⟩)
  case h_7 r next hinsert =>
    rw [StageOk, hinsert] at hstage
    dsimp only at hstep
    split at hstep
    · cases hstep
      exact .refl (h.atStage hstage)
    · next hnone =>
      obtain ⟨hw, heq⟩ := Option.ite_none_right_eq_some.mp hstep
      cases heq
      have hview := h.view_eq hstage.1 hstage.2.1
      rw [Option.not_isSome_iff_eq_none.mp hnone] at hview
      exact .ledgerRow hw (h.setLedger (v := some 0) hstage.1 hstage.2.1 hview hstage)
  case h_8 r next hlock =>
    rw [StageOk, hlock] at hstage
    obtain ⟨⟨hrow, hw⟩, heq⟩ := Option.ite_none_right_eq_some.mp hstep
    cases heq
    exact .ledgerRow hw (h.setLedger hstage.1 hstage.2.1 (h.view_eq hstage.1 hstage.2.1)
      ⟨hstage, Table.heldBy_write_self⟩)
  case h_9 r next hsum =>
    rw [StageOk, hsum] at hstage
    cases hstep
    exact .refl (h.atStage ⟨hstage.1, hstage.2, by rw [UsageState.usageSeen, total_counted]⟩)
  case h_10 r hosted next hsum =>
    rw [StageOk, hsum] at hstage
    obtain ⟨hrec, hheld, hhosted⟩ := hstage
    cases hstep
    exact .refl (h.atStage ⟨hrec, hheld, hhosted, by rw [UsageState.usageSeen, total_counted]⟩)
  case h_11 r hosted proxy next hsum =>
    rw [StageOk, hsum] at hstage
    obtain ⟨hrec, hheld, hhosted, hproxy⟩ := hstage
    cases hstep
    refine .refl (h.atStage ⟨hrec, hheld, ?_⟩)
    rw [hhosted, hproxy, UsageState.usageSeen, total_counted]
  case h_12 r hosted proxy oci next hwrite =>
    rw [StageOk, hwrite] at hstage
    obtain ⟨⟨hcalls, hr, hnext⟩, hheld, hsums⟩ := hstage
    cases hstep
    refine .ledgerRow (Table.writable_of_held hheld)
      (h.setLedger (v := some (hosted, proxy, oci)) hcalls hr hsums ?_)
    cases next with
    | none => trivial
    | some a =>
      obtain rfl := hnext a rfl
      exact ⟨hcalls, hr, Table.heldBy_write_self, congrArg ledgerTotal hsums⟩
  case h_13 admission hready =>
    obtain ⟨hg, heq⟩ := Option.ite_none_right_eq_some.mp hstep
    cases heq
    refine .refl (h.atStage ?_)
    cases s.quotaBytes admission.repositoryId with
    | none => exact hg
    | some quota =>
      dsimp only
      split <;> exact hg
  case h_14 admission quota hlock =>
    rw [StageOk, hlock] at hstage
    split at hstep
    · cases hstep
      exact .refl (h.atStage ⟨hstage.1, hstage.2, fun a ha => by cases ha; rfl⟩)
    · next u hview =>
      obtain ⟨hw, heq⟩ := Option.ite_none_right_eq_some.mp hstep
      cases heq
      have hseen : u = s.usageSeen p admission.repositoryId := by
        simpa [hview] using h.view_eq hstage.1 hstage.2
      exact .ledgerRow hw (h.setLedger (v := some u) hstage.1 hstage.2 hseen
        ⟨hstage.1, hstage.2, Table.heldBy_write_self, congrArg ledgerTotal hseen⟩)
  case h_15 admission quota total hnet =>
    rw [StageOk, hnet] at hstage
    cases hstep
    refine .refl (h.atStage ?_)
    split
    · exact ⟨hstage.1, hstage.2.1⟩
    · trivial
  case h_16 admission storageKey hadmitted =>
    rw [StageOk, hadmitted] at hstage
    obtain ⟨hw, heq⟩ := Option.ite_none_right_eq_some.mp hstep
    cases heq
    exact .sources hw (h.write fun hd => absurd hd hstage.2)
  case h_17 => cases hstep

end OwnSteps

section Commit
variable {s : UsageState} {p q : ℕ} {tx : Tx} {l : TxProc} {k : RowKey} {r : Uuid}

/-- Both tables with the changes of a transaction made permanent. -/
def UsageState.committedBy (s : UsageState) (p : ℕ) : UsageState :=
  { s with sources := s.sources.commit p, ledger := s.ledger.commit p }

/-- Without the lock on the ledger row nothing of the repository has changed. -/
theorem TxOk.weight_unlocked (h : TxOk p tx s) (hcalls : tx.calls = [])
    (hk : s.ledger.heldBy p k.repositoryId = false) :
    Table.weight (counted k.repositoryId) k (s.sources.view p k) =
      Table.weight (counted k.repositoryId) k (s.sources.committed k) := by
  simpa [hcalls, keyDelta] using h.rows k hk

theorem TxOk.usage_unlocked (h : TxOk p tx s) (hcalls : tx.calls = [])
    (hr : s.ledger.heldBy p r = false) : s.usageSeen p r = s.usageCommitted r := by
  refine Finset.sum_congr rfl fun k _ => ?_
  by_cases hk : k.repositoryId = r
  · subst hk
    exact h.weight_unlocked hcalls hr
  · rw [weight_counted_of_ne hk, weight_counted_of_ne hk]

theorem usageCommitted_committedBy : (s.committedBy p).usageCommitted r = s.usageSeen p r :=
  Table.total_commit_committed

theorem usageSeen_committedBy (hq : q ≠ p) : (s.committedBy p).usageSeen q r =
    s.usageSeen q r + (s.usageSeen p r - s.usageCommitted r) :=
  Table.total_commit_other hq

/-- What a transaction with the lock on the ledger row sees does not change. -/
theorem TxOk.usageSeen_locked (h : TxOk p tx s) (hcalls : tx.calls = []) (hq : q ≠ p)
    (hheld : s.ledger.heldBy q r = true) : (s.committedBy p).usageSeen q r = s.usageSeen q r := by
  have hp := Table.heldBy_unique hheld hq.symm
  rw [usageSeen_committedBy hq, h.usage_unlocked hcalls hp, sub_self, add_zero]

theorem TxOk.exact_committedBy (h : TxOk p tx s) (hcalls : tx.calls = [])
    (hcascaded : ∀ r ∈ tx.deleting, s.cascaded p r = true) : (s.committedBy p).Exact := by
  intro r
  have hledger : (s.committedBy p).ledger.committed r = s.ledger.view p r := by
    simp [UsageState.committedBy]
  rw [usageCommitted_committedBy, hledger]
  by_cases hr : r ∈ tx.dropped
  · obtain ⟨hdeleting, -, hview⟩ := h.dropped r hr
    have hempty := hcascaded r hdeleting
    simp only [UsageState.cascaded, Bool.and_eq_true, decide_eq_true_eq] at hempty
    rw [hview]
    refine (Finset.sum_eq_zero fun k hk => ?_).symm
    by_cases hkr : k.repositoryId = r
    · rw [hempty.1 k hk hkr, Table.weight_none]
    · exact weight_counted_of_ne hkr _
  · simpa [hcalls, callsDelta] using h.exact r hr

/-- Where another transaction has not locked the ledger row, it sees of a row what was committed,
and its queue has nothing for rows it has not locked. -/
theorem TxOk.rows_committedBy (h : TxOk q tx s) (hq : q ≠ p)
    (hk : s.ledger.heldBy q k.repositoryId = false) :
    Table.weight (counted k.repositoryId) k ((s.committedBy p).sources.view q k) =
      Table.weight (counted k.repositoryId) k ((s.committedBy p).sources.committed k) +
        keyDelta k tx.calls := by
  have hrows := h.rows k hk
  have hcommitted : (s.committedBy p).sources.committed k = s.sources.view p k := by
    simp [UsageState.committedBy]
  rw [hcommitted]
  by_cases hheld : s.sources.heldBy q k = true
  · have hview : (s.committedBy p).sources.view q k = s.sources.view q k :=
      Table.view_commit_of_held hheld hq
    rw [hview, hrows, Table.view_of_not_held (Table.heldBy_unique hheld hq.symm)]
  · have hnot : s.sources.heldBy q k = false := by simpa using hheld
    have hview : (s.committedBy p).sources.view q k = s.sources.view p k :=
      Table.view_commit_of_not_held hnot hq
    rw [Table.view_of_not_held hnot] at hrows
    rw [hview, ← add_left_cancel (a := Table.weight (counted k.repositoryId) k
      (s.sources.committed k)) ((add_zero _).trans hrows), add_zero]

/-- A commit leaves every other transaction's assertion intact. -/
theorem UsageOk.committedBy (hp : TxOk p tx s) (hcalls : tx.calls = [])
    (hexact : s.Exact) (hexact' : (s.committedBy p).Exact) (hq : q ≠ p) (h : UsageOk q l s) :
    UsageOk q l (s.committedBy p) := by
  have hledger : (s.committedBy p).ledger.heldBy q = s.ledger.heldBy q :=
    Table.heldBy_commit_other hq
  have hsources : (s.committedBy p).sources.heldBy q = s.sources.heldBy q :=
    Table.heldBy_commit_other hq
  cases l with
  | idle => exact ⟨fun r => by rw [hledger, h.1], fun k => by rw [hsources, h.2]⟩
  | finished => trivial
  | active txq =>
    have hview : ∀ r, s.ledger.heldBy q r = true →
        (s.committedBy p).ledger.view q r = s.ledger.view q r :=
      fun r hr => Table.view_commit_of_held hr hq
    refine ⟨fun r hr => ?_, fun l hl r => ?_, fun k hk => ?_, fun r hr => ?_, h.shrinking,
      h.stage.frame hledger fun r hr => hp.usageSeen_locked hcalls hq hr⟩
    · have hold := h.exact r hr
      by_cases hheld : s.ledger.heldBy q r = true
      · rw [hview r hheld, hp.usageSeen_locked hcalls hq hheld]
        exact hold
      · have hnot : s.ledger.heldBy q r = false := by simpa using hheld
        have hnew := hexact' r
        rw [usageCommitted_committedBy] at hnew
        rw [Table.view_of_not_held hnot, hexact r] at hold
        rw [Table.view_of_not_held (hledger ▸ hnot), hnew, usageSeen_committedBy hq, ← hold]
        abel
    · exact (h.bounded l hl r).trans_eq (Table.own_commit_other hq).symm
    · exact TxOk.rows_committedBy h hq (hledger ▸ hk)
    · obtain ⟨hdeleting, hheld, hnone⟩ := h.dropped r hr
      exact ⟨hdeleting, hledger ▸ hheld, (hview r hheld).trans hnone⟩

end Commit

section Runs
variable {s s' : UsageState} {p : ℕ} {l l' : TxProc} {a : UsageAction}

/-- A transaction that begins sees what is committed. -/
theorem begin_ok (hexact : s.Exact) (h : UsageOk p .idle s) :
    TxOk p ⟨[], [], [], .ready⟩ s := by
  have hview : s.sources.view p = s.sources.committed :=
    funext fun k => Table.view_of_not_held (h.2 k)
  refine ⟨fun r _ => ?_, fun l hl r => ?_, fun k _ => ?_, fun r hr => ?_, fun c hc => ?_, trivial⟩
  · rw [Table.view_of_not_held (h.1 r), hexact r, UsageState.usageSeen, hview]
    exact add_zero _
  · rw [List.suffix_nil.mp hl]
    exact Table.own_nonneg (counted_nonneg r)
  · rw [hview]
    exact (add_zero _).symm
  · cases hr
  · cases hc

/-- What a step of one process leaves true. -/
theorem usageStep_ok (hexact : s.Exact) (h : UsageOk p l s)
    (hstep : usageProtocol.step p s l a = some (s', l')) :
    s'.Exact ∧ UsageOk p l' s' ∧ ∀ q lq, q ≠ p → UsageOk q lq s → UsageOk q lq s' := by
  simp only [usageProtocol] at hstep
  split at hstep
  · cases hstep
    exact ⟨hexact, begin_ok hexact h, fun q lq _ hlq => hlq⟩
  · next tx =>
    obtain ⟨⟨-, hcalls, hcascaded⟩, heq⟩ := Option.ite_none_right_eq_some.mp hstep
    cases heq
    have hexact' := TxOk.exact_committedBy h hcalls hcascaded
    exact ⟨hexact', trivial, fun q lq hq hlq => hlq.committedBy h hcalls hexact hexact' hq⟩
  · cases hstep
    refine ⟨fun r => ?_, trivial, fun q lq hq hlq => hlq.frame (.rollback hq)⟩
    have hledger : (s.ledger.rollback p).committed r = s.ledger.committed r := by
      rw [Table.committed_rollback]
    rw [hledger, hexact r]
    exact Table.total_rollback_committed.symm
  · next tx _ _ =>
    obtain ⟨⟨s₁, tx'⟩, htx, heq⟩ := Option.map_eq_some_iff.mp hstep
    cases heq
    have hok := txStep_ok h htx
    refine ⟨fun r => ?_, hok.own, fun q lq hq hlq => hlq.frame (hok.others q hq)⟩
    rw [hok.ledger, hok.usage]
    exact hexact r
  · cases hstep

theorem usage_ok_of_reach (w₀ : World UsageState TxProc) {w : World UsageState TxProc}
    (hexact : w₀.shared.Exact)
    (hidle : ∀ p, UsageOk p (w₀.procs p) w₀.shared)
    (h : usageProtocol.machine.Reach Machine.anyStep w₀ w) :
    w.shared.Exact ∧ ∀ p, UsageOk p (w.procs p) w.shared := by
  refine Protocol.reach_rely_guarantee h hexact hidle ?_
  intro w p a s' l' hexact hall _ hstep
  obtain ⟨hexact', hown, hothers⟩ := usageStep_ok hexact (hall p) hstep
  exact ⟨hexact', hown, fun q hq => hothers q _ hq (hall q)⟩

/-- The three sums that `get_storage_usage` adds up. -/
def UsageState.liveSums (s : UsageState) (r : Uuid) : Usage :=
  (s.sumBytes s.sources.committed .artifacts r,
    s.sumBytes s.sources.committed .proxyCacheArtifacts r,
    s.sumBytes s.sources.committed .ociBlobs r)

/-- No transaction is open. -/
def UsageState.AtRest (s : UsageState) : Prop := s.sources.Quiet ∧ s.ledger.Quiet

/-- In every committed state the ledger row of a repository holds the live sums, a missing row
standing for sums of 0, and the floor of `ak_usage_ledger_apply` never shows. -/
theorem usage_ledger_exact (s : UsageState) (hrest : s.AtRest)
    (hexact : ∀ r, (s.ledger.committed r).getD 0 = s.liveSums r) (w : World UsageState TxProc)
    (h : usageProtocol.machine.Reach Machine.anyStep ⟨s, fun _ => .idle⟩ w) :
    (∀ r, (w.shared.ledger.committed r).getD 0 = w.shared.liveSums r ∧
      ∀ hosted proxy oci, w.shared.ledger.committed r = some (hosted, proxy, oci) →
        hosted + proxy + oci = w.shared.getStorageUsage r) ∧
    ∀ p tx k delta rest u, w.procs p = .active tx → tx.calls = (k, delta) :: rest →
      w.shared.ledger.view p k.repositoryId = some u → (u + delta) ⊔ 0 = u + delta := by
  have hsums : ∀ (s : UsageState) r, s.usageCommitted r = s.liveSums r :=
    fun s r => total_counted s.sources.committed
  have hstart : s.Exact := fun r => (hexact r).trans (hsums s r).symm
  obtain ⟨hexact', hall⟩ := usage_ok_of_reach ⟨s, fun _ => .idle⟩ hstart
    (fun p => ⟨hrest.2 p, hrest.1 p⟩) h
  refine ⟨fun r => ⟨(hexact' r).trans (hsums _ r), fun hosted proxy oci hrow => ?_⟩,
    fun p tx k delta rest u hp hcalls hview => ?_⟩
  · have hr := (hexact' r).trans (hsums _ r)
    rw [hrow] at hr
    obtain ⟨rfl, rfl, rfl⟩ : hosted = (w.shared.liveSums r).1 ∧
        proxy = (w.shared.liveSums r).2.1 ∧ oci = (w.shared.liveSums r).2.2 :=
      ⟨congrArg (·.1) hr, congrArg (·.2.1) hr, congrArg (·.2.2) hr⟩
    rfl
  · have hok := hall p
    rw [hp] at hok
    have hr : k.repositoryId ∉ tx.dropped := by
      intro hd
      rw [(TxOk.dropped hok _ hd).2.2] at hview
      cases hview
    have hnonneg := TxOk.call_nonneg hok hcalls hr
    rw [hview] at hnonneg
    exact sup_of_le_left hnonneg

def noUsage : UsageState :=
  ⟨⟨fun _ => Cell.empty, ∅, fun _ _ => rfl⟩, ⟨fun _ => Cell.empty, ∅, fun _ _ => rfl⟩,
    fun _ => none⟩

/-- Two uploads at once, a reconciliation, and a deletion that is rolled back. -/
def uploadsAndReconcile : List (ℕ × UsageAction) :=
  [(0, .begin), (0, .change ⟨.artifacts, 1, "a"⟩ (some ⟨5, false, "a"⟩)), (1, .begin),
    (1, .change ⟨.ociBlobs, 1, "d"⟩ (some ⟨3, false, ""⟩)), (0, .fire), (0, .commit), (1, .fire),
    (2, .begin), (2, .reconcile 1), (2, .insertLedger), (1, .commit), (2, .lockLedger), (2, .sum),
    (2, .sum), (2, .sum), (2, .writeSums), (2, .commit), (3, .begin),
    (3, .change ⟨.artifacts, 1, "a"⟩ none), (3, .fire), (3, .rollback)]

theorem usage_ledger_exact_of_uploads :
    ∃ w, usageProtocol.machine.run ⟨noUsage, fun _ => .idle⟩ uploadsAndReconcile = some w ∧
      w.shared.ledger.committed 1 = some (5, 0, 3) ∧ 5 + 0 + 3 = w.shared.getStorageUsage 1 := by
  have hrun : ∃ w, usageProtocol.machine.run ⟨noUsage, fun _ => .idle⟩ uploadsAndReconcile =
      some w ∧ w.shared.ledger.committed 1 = some (5, 0, 3) := ⟨_, rfl, by decide⟩
  obtain ⟨w, hw, hrow⟩ := hrun
  have hreach : usageProtocol.machine.Reach Machine.anyStep ⟨noUsage, fun _ => .idle⟩ w :=
    Machine.reach_of_run _ hw (by repeat' constructor)
  exact ⟨w, hw, hrow, ((usage_ledger_exact noUsage ⟨fun _ _ => rfl, fun _ _ => rfl⟩
    (fun _ => rfl) w hreach).1 1).2 5 0 3 hrow⟩

end Runs

end ArtifactKeeper.Repositories
