import ArtifactKeeper.Oci.UploadInvariant

/-! Runs of the upload protocol: the steps that dig a hole into an open session, and the invariant
along every run without them. -/

namespace ArtifactKeeper.Oci

/-! ### Where the protocol loses objects -/

/-- A completion would now take over the stale claim of a cancel. -/
def takesOverCancel (w : UploadWorld) : Bool :=
  w.shared.session.any fun row => row.state = .committing ∧ w.shared.claimable row ∧
    row.stateToken.any fun q => (w.procs q).request = some .cancel

def UploadState.sweptRow (s : UploadState) : Bool := s.rowLock.any RowLock.deleted

/-- The sweep takes the row: nobody has touched it for a day. -/
def UploadState.abandoned (s : UploadState) : Bool :=
  s.session.any fun row => row.updatedAt + abandonedOciUploadTtl < s.now

/-- The steps that leave, or may come to leave, an open session without some of its objects. -/
def digsHole (w : UploadWorld) (a : ℕ × Action) : Bool :=
  match (w.procs a.1).pc, a.2 with
  -- the cancel may have deleted objects, or go on to do so
  | .completeClaim .., .step o => o ≠ .failed && takesOverCancel w
  -- the delete of the row failed after the objects were deleted
  | .cancelReset _, .step o => o ≠ .failed && w.shared.holdsToken a.1
  -- the ambiguous commit landed, and the session was claimed before the recovery looked at it
  | .patchRecover row _, .step o =>
    o = .ok && !w.shared.isOpen && w.shared.parts.any fun part => part.storageKey = row.partKey a.1
  -- the sweep deletes the objects before the row, and does not take the row out of `open` first
  | .sweepLock, .step o =>
    o = .ok && w.shared.abandoned && w.shared.isOpen && !w.shared.parts.isEmpty
  | .sweepDelete [] failed, .step o =>
    (failed || o = .failed || o = .commitFailed) && w.shared.sweptRow
  | .sweepDelete _ _, .crash => w.shared.sweptRow
  | _, _ => false

/-- A step that digs no hole. -/
def keepsObjects (w : UploadWorld) (a : ℕ × Action) : Prop := digsHole w a = false

instance (w : UploadWorld) (a : ℕ × Action) : Decidable (keepsObjects w a) :=
  inferInstanceAs (Decidable (_ = _))

/-! ### The outcomes of a step -/

/-- What is asked of a step: of its effect, and of the place it moves to in the state it leaves. -/
structure StepSpec where
  safe : Effect → Prop
  nop : safe .nop
  ok : UploadState → Pc → Prop

def StepSpec.Met (D : StepSpec) (cfg : UploadConfig) (s : UploadState) (r : Effect × Pc) : Prop :=
  D.safe r.1 ∧ D.ok (s.apply cfg r.1) r.2

section Outcomes
variable {D : StepSpec} {s : UploadState} {cfg : UploadConfig} {o : Outcome} {r : Effect × Pc}
  {next failed ambiguous missed : Pc}

theorem StepSpec.met_nop {pc : Pc} (h : D.ok s pc) : D.Met cfg s (.nop, pc) := ⟨D.nop, h⟩

theorem answered_cases (h : answered o next failed = some r) :
    (o = .ok ∧ r = (.nop, next)) ∨ r = (.nop, failed) := by
  cases o <;> simp_all [answered]

theorem answered_met (h : answered o next failed = some r) (hnext : o = .ok → D.ok s next)
    (hfailed : D.ok s failed) : D.Met cfg s r := by
  rcases answered_cases h with ⟨ho, rfl⟩ | rfl
  · exact D.met_nop (hnext ho)
  · exact D.met_nop hfailed

theorem bestEffortDelete_cases {key : UploadKey} (h : bestEffortDelete key o next = some r) :
    r = (.delete key, next) ∨ r = (.nop, next) := by
  cases o <;> simp_all [bestEffortDelete]

theorem bestEffortDelete_met {key : UploadKey} (h : bestEffortDelete key o next = some r)
    (hsafe : D.safe (.delete key)) (hkept : D.ok s next) (hgone : D.ok (s.deleteUpload key) next) :
    D.Met cfg s r := by
  rcases bestEffortDelete_cases h with rfl | rfl
  · exact ⟨hsafe, hgone⟩
  · exact D.met_nop hkept

theorem putting_cases {key : UploadKey} {body : Bytes}
    (h : putting key body o next failed = some r) :
    r = (.put key body, next) ∨ r = (.put key body, failed) ∨ r = (.nop, failed) := by
  cases o <;> simp_all [putting]

theorem putting_met {key : UploadKey} {body : Bytes} (h : putting key body o next failed = some r)
    (hsafe : D.safe (.put key body)) (hnext : D.ok (s.putUpload key body) next)
    (hwrote : D.ok (s.putUpload key body) failed) (hfailed : D.ok s failed) : D.Met cfg s r := by
  rcases putting_cases h with rfl | rfl | rfl
  · exact ⟨hsafe, hnext⟩
  · exact ⟨hsafe, hwrote⟩
  · exact D.met_nop hfailed

theorem puttingRequestBody_met {existing : ℕ} {key : UploadKey} {body : Bytes}
    {failed : Response → Pc}
    (h : puttingRequestBody cfg existing key body o next failed = some r)
    (hsafe : D.safe (.put key body)) (hnext : D.ok (s.putUpload key body) next)
    (hwrote : D.ok (s.putUpload key body) (failed .backendError))
    (hfailed : D.ok s (failed .backendError))
    (hlarge : D.ok s (failed (bodyTooLarge cfg.maxUploadSizeBytes))) : D.Met cfg s r := by
  unfold puttingRequestBody at h
  split at h
  · cases h
    exact D.met_nop hlarge
  · exact putting_met h hsafe hnext hwrote hfailed

theorem copying_cases {src : Option Bytes} {digest : Sha256Digest}
    (h : copying src digest o next failed = some r) :
    (o ≠ .failed ∧ ∃ body, src = some body ∧ (r = (.putBlob digest body, next) ∨
      r = (.putBlob digest body, failed))) ∨ r = (.nop, failed) := by
  cases o <;> cases src <;> simp_all [copying]

theorem copying_met {src : Option Bytes} {digest : Sha256Digest}
    (h : copying src digest o next failed = some r) (hfailed : D.ok s failed)
    (hcopy : o ≠ .failed → ∀ body, src = some body → D.safe (.putBlob digest body) ∧
      D.ok (s.putBlob digest body) next ∧ D.ok (s.putBlob digest body) failed) :
    D.Met cfg s r := by
  rcases copying_cases h with ⟨ho, body, hsrc, hr⟩ | rfl
  · obtain ⟨hsafe, hnext, hcopied⟩ := hcopy ho body hsrc
    rcases hr with rfl | rfl
    · exact ⟨hsafe, hnext⟩
    · exact ⟨hsafe, hcopied⟩
  · exact D.met_nop hfailed

theorem transacting_cases {hit : Bool} {e : Effect}
    (h : transacting s o hit e next failed ambiguous missed = some r) :
    r = (.nop, failed) ∨ (hit = false ∧ r = (.nop, missed)) ∨
      (o ≠ .failed ∧ hit = true ∧ s.rowLock = none ∧
        (r = (e, next) ∨ r = (e, ambiguous) ∨ r = (.nop, ambiguous))) := by
  cases o <;> cases hit <;> cases hl : s.rowLock <;> simp_all [transacting]

theorem transacting_met {hit : Bool} {e : Effect}
    (h : transacting s o hit e next failed ambiguous missed = some r) (hfailed : D.ok s failed)
    (hmissed : hit = false → D.ok s missed) (hambiguous : hit = true → D.ok s ambiguous)
    (hhit : o ≠ .failed → hit = true → s.rowLock = none →
      D.safe e ∧ D.ok (s.apply cfg e) next ∧ D.ok (s.apply cfg e) ambiguous) : D.Met cfg s r := by
  rcases transacting_cases h with rfl | ⟨hmiss, rfl⟩ | ⟨ho, hh, hlock, hr⟩
  · exact D.met_nop hfailed
  · exact D.met_nop (hmissed hmiss)
  · obtain ⟨hsafe, hnext, hamb⟩ := hhit ho hh hlock
    rcases hr with rfl | rfl | rfl
    · exact ⟨hsafe, hnext⟩
    · exact ⟨hsafe, hamb⟩
    · exact D.met_nop (hambiguous hh)

end Outcomes

/-! ### The moving request -/

/-- A safe effect, and the assertion of the place the request moves to. -/
abbrev keepsSpec (p : ℕ) (req : Option Request) (free : ℕ → Prop) (s : UploadState) :
    StepSpec where
  safe := Effect.Safe p req free s
  nop := trivial
  ok s' pc := PcOk p s' req pc

abbrev Good (cfg : UploadConfig) (p : ℕ) (req : Option Request) (free : ℕ → Prop)
    (s : UploadState) (r : Effect × Pc) : Prop :=
  (keepsSpec p req free s).Met cfg s r

/-- That a step digs no hole, for the request that takes it. -/
def Pc.Clear (p : ℕ) (free : ℕ → Prop) (s : UploadState) (o : Outcome) : Pc → Prop
  | .completeClaim .. =>
    o ≠ .failed → s.rowLock = none → (claimReturning s).isSome = true →
      s.Intact ∧ ∀ row q, s.session = some row → row.stateToken = some q → free q
  | .cancelReset _ => o ≠ .failed → s.holdsToken p = false
  | .patchRecover row _ =>
    o = .ok → (∃ part ∈ s.parts, part.storageKey = row.partKey p) → s.isOpen = true
  | .sweepLock => o = .ok → s.abandoned = true → s.isOpen = true → s.parts = []
  | .sweepDelete [] failed =>
    failed = true ∨ o = .failed ∨ o = .commitFailed → s.sweptRow = false
  | _ => True

section Moving
variable {p : ℕ} {s : UploadState} {cfg : UploadConfig} {o : Outcome} {r : Effect × Pc}
  {req : Option Request} {free : ℕ → Prop}

theorem discardable_own {key : UploadKey} (howner : key.owner = some p) (h : Unlisted p s) :
    ∀ k ∈ [key], Discardable p s k := by
  intro k hk
  rw [List.mem_singleton] at hk
  exact .inl ⟨hk ▸ howner, h⟩

theorem Finalizing.discardable {c : Completion} (h : Finalizing p s req c) :
    ∀ key ∈ c.finalKeys, Discardable p s key :=
  fun key hkey => .inl ⟨h.2 key hkey, h.1.2.1⟩

theorem Finalizing.discardable_complete {c : Completion} (h : Finalizing p s req c) :
    ∀ key ∈ UploadKey.complete p :: c.finalKeys, Discardable p s key := by
  intro key hkey
  rcases List.mem_cons.mp hkey with rfl | hkey
  · exact .inl ⟨rfl, h.1.2.1⟩
  · exact h.discardable key hkey

/-- A completion may give up at any point, with what it has put under its own keys. -/
theorem Completing.abort {keys : List UploadKey} (h : Completing p s req)
    (hkeys : ∀ key ∈ keys, Discardable p s key) : Abortable p s req keys :=
  ⟨hkeys, fun hc => absurd hc h.1⟩

theorem Completing.lease {keys : List UploadKey} {next : Pc} (h : Completing p s req)
    (hkeys : ∀ key ∈ keys, Discardable p s key) (hnext : PcOk p s req next) :
    PcOk p s req (.lease keys next) :=
  ⟨h.1, hkeys, hnext⟩

theorem Finalizing.abort {c : Completion} (h : Finalizing p s req c) :
    Abortable p s req c.finalKeys :=
  h.1.abort h.discardable

theorem Finalizing.abort_complete {c : Completion} (h : Finalizing p s req c) :
    Abortable p s req (.complete p :: c.finalKeys) :=
  h.1.abort h.discardable_complete

theorem Finalizing.lease {c : Completion} {next : Pc} (h : Finalizing p s req c)
    (hnext : PcOk p s req next) : PcOk p s req (.lease c.finalKeys next) :=
  h.1.lease h.discardable hnext

theorem isOpen_row (h : s.isOpen = true) : ∃ row, s.session = some row ∧ row.state = .opened := by
  obtain ⟨row, hrow, hopened⟩ := (Option.any_eq_true _ _).mp h
  exact ⟨row, hrow, of_decide_eq_true hopened⟩

theorem holdsToken_row (h : s.holdsToken p = true) :
    ∃ row, s.session = some row ∧ row.stateToken = some p := by
  obtain ⟨row, hrow, htoken⟩ := (Option.any_eq_true _ _).mp h
  exact ⟨row, hrow, of_decide_eq_true htoken⟩

/-- The keys a cancel or a sweep reads are those of the part rows, and the session's own. -/
theorem listed_cleanupKeys :
    ∀ key ∈ cleanupKeys (s.orderedParts.map PartRow.storageKey), Listed s key := by
  intro key hkey _
  simp only [cleanupKeys, List.mem_dedup, List.mem_cons, List.mem_map] at hkey
  rcases hkey with htemp | ⟨part, hpart, rfl⟩
  · exact .inl htemp
  · exact .inr ⟨part, (List.mem_insertionSort _).mp hpart, rfl⟩

theorem patchFetched_ok (hI : Inv cfg s) {h : UploadHeaders} {body : Bytes}
    (hpc : PcOk p s req (.patchFetch h body)) : PcOk p s req (patchFetched cfg s h body) := by
  unfold patchFetched
  split
  · trivial
  · next r hr =>
    split
    · trivial
    split
    · trivial
    split
    · trivial
    refine ⟨hpc.1, hpc.2, hI.created (by simp [hr]), ?_, fun _ => le_refl _⟩
    intro hzero
    have hnil : s.parts = [] := List.eq_nil_of_length_eq_zero hzero
    have hreceived := hI.received r hr
    rw [hnil] at hreceived
    exact hreceived.symm

/-- Where the recovery finds nothing, no part row names the PATCH's object. -/
theorem patchRecovered_ok (hI : Inv cfg s) {row : OciUploadSessionRecord} {body : Bytes}
    (hpc : PcOk p s req (.patchRecover row body))
    (hclear : (∃ part ∈ s.parts, part.storageKey = row.partKey p) → s.isOpen = true) :
    PcOk p s req (patchRecovered p s row body) := by
  unfold patchRecovered
  split
  · trivial
  · next hrecover =>
    apply discardable_own rfl
    intro part hpart howner
    have hkey := hpc part hpart howner
    obtain ⟨r, hr, hopened⟩ := isOpen_row (hclear ⟨part, hpart, hkey⟩)
    have hindex : part.partIndex = row.nextPartIndex := by
      rcases hI.keyed part hpart with htemp | ⟨id, hid⟩
      · rw [htemp] at howner
        cases howner
      · have := hid.symm.trans hkey
        simp only [OciUploadSessionRecord.partKey, UploadKey.part.injEq] at this
        exact this.1
    have hfound : (s.parts.find? fun part => part.partIndex = row.nextPartIndex ∧
        part.storageKey = row.partKey p).isSome = true := by
      rw [List.find?_isSome]
      exact ⟨part, hpart, by simp [hindex, hkey]⟩
    obtain ⟨part', hpart'⟩ := Option.isSome_iff_exists.mp hfound
    simp only [UploadState.recoverCommittedPatch, hr, hpart', hopened, ne_eq, not_true_eq_false,
      ↓reduceIte] at hrecover
    split at hrecover <;> cases hrecover
  · trivial

theorem claimedCompletion_ok {row : OciUploadSessionRecord} {digest : Sha256Digest}
    {h : UploadHeaders} {exactLen : Option ℕ} {body : Bytes} (hunwritten : Unwritten p s)
    (hcompleting : Completing p s req) :
    PcOk p s req (claimedCompletion cfg row digest h exactLen body) := by
  unfold claimedCompletion
  split
  · exact hcompleting.abort nofun
  split
  · exact hcompleting.lease nofun ⟨⟨hcompleting, nofun⟩, hunwritten _ rfl⟩
  · exact ⟨hunwritten, hcompleting⟩

theorem routeParts_ok {c : Completion} {fetched : List OciUploadPartRecord}
    (hpc : PcOk p s req (.fetchParts c)) : PcOk p s req (routeParts c fetched) := by
  unfold routeParts
  split
  · split
    · split
      · exact hpc.1.1.lease nofun hpc
      · exact hpc
    · exact hpc.1.1.abort nofun
  · exact hpc

theorem completionRecovered_ok {c : Completion} {parts : List OciUploadPartRecord} {size : ℕ}
    (hpc : PcOk p s req (.completeRecover c parts size)) :
    PcOk p s req (completionRecovered s c parts size) := by
  unfold completionRecovered UploadState.recoverCommittedCompletion
  by_cases hsome : s.session.isSome = true
  · simp only [hsome, ↓reduceIte]
    exact Finalizing.abort hpc
  · simp only [hsome, Bool.false_eq_true, ↓reduceIte]
    by_cases hblob : s.blobs c.digest = some size
    · simp only [hblob, ↓reduceIte]
      exact ⟨by simpa using hsome, hpc.1.2.2⟩
    · simp only [hblob, ↓reduceIte]
      trivial

/-- The transaction of a PATCH lists its own part and no other of its keys. -/
theorem patchTx_good {row : OciUploadSessionRecord} {body : Bytes} {lv : Bool}
    (hpc : PcOk p s req (.patchTx row body))
    (h : (Pc.patchTx row body).next cfg p s lv o = some r) :
    Good cfg p req free s r := by
  obtain ⟨hunlisted, hfetched, hobject⟩ := hpc
  refine transacting_met h (discardable_own rfl hunlisted)
    (fun _ => discardable_own rfl hunlisted) ?_ ?_
  · intro _ part hpart howner
    exact absurd howner (hunlisted part hpart)
  · intro _ happlies hlock
    obtain ⟨r, hr, -, -⟩ := patchApplies_row happlies
    refine ⟨⟨rfl, hlock, happlies, hunlisted, hfetched, hobject (by simp [hr])⟩, trivial, ?_⟩
    intro part hpart howner
    simp only [UploadState.apply, UploadState.appendPart, hfetched.backfill_eq, List.mem_append,
      List.mem_singleton] at hpart
    rcases hpart with hpart | rfl
    · exact absurd howner (hunlisted part hpart)
    · rfl

/-- A claim is given back only where every object is there. -/
theorem resetting_good {resp : Response} (hheld : Held p s) (h : resetting p s o resp = some r) :
    Good cfg p req free s r := by
  refine transacting_met h trivial (fun _ => trivial) (fun _ => trivial) ?_
  intro _ htoken hlock
  obtain ⟨row, hrow, hrowtoken⟩ := holdsToken_row htoken
  have hintact : s.Intact := by
    rcases hheld row hrow hrowtoken with hintact | ⟨lock, hlock', -⟩
    · exact hintact
    · cases hlock.symm.trans hlock'
  refine ⟨⟨hlock, hintact, fun row' hrow' => ?_⟩, trivial, trivial⟩
  cases hrow.symm.trans hrow'
  exact hrowtoken

theorem completeClaim_good (hI : Inv cfg s) {digest : Sha256Digest} {h : UploadHeaders}
    {exactLen : Option ℕ} {body : Bytes} {lv : Bool}
    (hpc : PcOk p s req (.completeClaim digest h exactLen body))
    (hclear : (Pc.completeClaim digest h exactLen body).Clear p free s o)
    (hnext : (Pc.completeClaim digest h exactLen body).next cfg p s lv o = some r) :
    Good cfg p req free s r := by
  simp only [Pc.next] at hnext
  split at hnext
  · next row hrow =>
    refine transacting_met hnext trivial (fun _ => trivial) (fun _ => trivial) ?_
    intro ho _ hlock
    have hsome : s.session.isSome = true := by
      cases hs : s.session with
      | none => simp [claimReturning, hs] at hrow
      | some _ => rfl
    refine ⟨⟨rfl, hlock, hclear ho hlock (by simp [hrow])⟩, ?_, trivial⟩
    exact claimedCompletion_ok hpc.2.1 ⟨hpc.1, hpc.2.2, hI.created hsome⟩
  · exact transacting_met hnext trivial (fun _ => trivial) (fun _ => trivial) nofun

theorem sweepLock_good (hI : Inv cfg s) {lv : Bool} (hclear : Pc.sweepLock.Clear p free s o)
    (hnext : Pc.sweepLock.next cfg p s lv o = some r) : Good cfg p req free s r := by
  simp only [Pc.next] at hnext
  split at hnext
  · cases hnext
  · cases hnext
    exact StepSpec.met_nop trivial
  · cases hnext
    exact StepSpec.met_nop trivial
  · cases hnext
    exact StepSpec.met_nop trivial
  · next row hrow =>
    split at hnext
    · next hold =>
      split at hnext
      · cases hnext
      · next hlock =>
        cases hnext
        refine ⟨⟨rfl, by simpa using hlock⟩, ⟨⟨false, rfl⟩, hI.created (by simp [hrow]),
          by simp [UploadState.apply, hrow], ?_⟩, listed_cleanupKeys⟩
        intro row' hrow' hopened
        cases hrow.symm.trans hrow'
        refine hclear rfl ?_ ?_
        · exact (Option.any_eq_true _ _).mpr ⟨row, hrow, decide_eq_true hold⟩
        · simp [UploadState.isOpen, hrow, hopened]
    · cases hnext
      exact StepSpec.met_nop trivial

theorem sweepDelete_good {keys : List UploadKey} {failed : Bool} {lv : Bool}
    (hpc : PcOk p s req (.sweepDelete keys failed))
    (hclear : (Pc.sweepDelete keys failed).Clear p free s o)
    (hnext : (Pc.sweepDelete keys failed).next cfg p s lv o = some r) :
    Good cfg p req free s r := by
  obtain ⟨hsweeping, hlisted⟩ := hpc
  have hunlock : s.sweptRow = false → Effect.unlock.Safe p req free s := by
    intro hswept
    obtain ⟨deleted, hlock⟩ := hsweeping.1
    simp only [UploadState.sweptRow, hlock, Option.any_some] at hswept
    rw [hswept] at hlock
    exact hlock
  cases keys with
  | nil =>
    simp only [Pc.next] at hnext
    split at hnext
    · next hfailed =>
      cases hnext
      exact ⟨hunlock (hclear (.inl hfailed)), trivial⟩
    · split at hnext
      · cases hnext
        exact ⟨.inr hsweeping.1, trivial⟩
      · cases hnext
        exact ⟨.inr hsweeping.1, trivial⟩
      · cases hnext
        exact ⟨hunlock (hclear (.inr (.inl rfl))), trivial⟩
      · cases hnext
        exact ⟨hunlock (hclear (.inr (.inr rfl))), trivial⟩
  | cons key rest =>
    have hrest : ∀ k ∈ rest, Listed s k := fun k hk => hlisted k (List.mem_cons_of_mem _ hk)
    have hswept : Sweeping p (s.apply cfg (.sweepDelete key)) := by
      obtain ⟨⟨deleted, hlock⟩, hcreated, hsome, hempty⟩ := hsweeping
      exact ⟨⟨true, by simp [UploadState.apply, hlock]⟩, hcreated, hsome, hempty⟩
    have hsafe : (Effect.sweepDelete key).Safe p req free s := ⟨hsweeping, hlisted key (by simp)⟩
    simp only [Pc.next] at hnext
    split at hnext
    · cases hnext
      exact ⟨hsafe, hswept, hrest⟩
    · cases hnext
      exact StepSpec.met_nop ⟨hsweeping, hrest⟩
    · cases hnext
      exact ⟨hsafe, hswept, hrest⟩
    · cases hnext

theorem cancelDelete_good {keys : List UploadKey} {lv : Bool}
    (hpc : PcOk p s req (.cancelDelete keys))
    (hnext : (Pc.cancelDelete keys).next cfg p s lv o = some r) : Good cfg p req free s r := by
  obtain ⟨hcancel, hclaimed, hlisted⟩ := hpc
  cases keys with
  | nil =>
    exact transacting_met hnext trivial (fun _ => trivial) (fun _ => trivial) fun _ _ hlock =>
      ⟨.inl hlock, trivial, trivial⟩
  | cons key rest =>
    have hrest : ∀ k ∈ rest, Listed s k := fun k hk => hlisted k (List.mem_cons_of_mem _ hk)
    have hsafe : (Effect.delete key).Safe p req free s :=
      .inr (.inr ⟨hcancel, hclaimed, hlisted key (by simp)⟩)
    simp only [Pc.next] at hnext
    split at hnext
    · cases hnext
      exact ⟨hsafe, hcancel, hclaimed, hrest⟩
    · cases hnext
      exact StepSpec.met_nop trivial
    · cases hnext
      exact ⟨hsafe, trivial⟩
    · cases hnext

theorem concatRead_good {c : Completion} {parts todo : List OciUploadPartRecord} {acc : Bytes}
    {lv : Bool} (hpc : PcOk p s req (.concatRead c parts todo acc))
    (hnext : (Pc.concatRead c parts todo acc).next cfg p s lv o = some r) :
    Good cfg p req free s r := by
  have habort := hpc.1.abort
  cases todo with
  | nil => exact putting_met hnext ⟨hpc.2, .inl rfl⟩ hpc.1 (Finalizing.abort hpc.1) habort
  | cons part todo =>
    simp only [Pc.next] at hnext
    split at hnext
    · cases hnext
      exact StepSpec.met_nop hpc
    · split at hnext
      · exact answered_met hnext (fun _ => hpc) habort
      · cases hnext
        exact StepSpec.met_nop habort

/-- Deleting the first of the keys a request may discard. -/
theorem discarding_good {key : UploadKey} {keys : List UploadKey} {next : Pc}
    (h : bestEffortDelete key o next = some r) (hkeys : ∀ k ∈ key :: keys, Discardable p s k)
    (hnext : ∀ s', (∀ k ∈ keys, Discardable p s' k) → PcOk p s' req next) :
    Good cfg p req free s r := by
  have hrest : ∀ k ∈ keys, Discardable p s k := fun k hk => hkeys k (List.mem_cons_of_mem _ hk)
  exact bestEffortDelete_met h (.inl (hkeys key (by simp))) (hnext s hrest) (hnext _ hrest)

/-- One step of a request: its effect is safe and the assertion of its next place holds. -/
theorem next_good (hI : Inv cfg s) {pc : Pc} {failures : Option ℕ} {lv : Bool}
    (hl : ProcOk p ⟨req, pc, failures⟩ s) (hclear : pc.Clear p free s o)
    (hnext : pc.next cfg p s lv o = some r) : Good cfg p req free s r := by
  have hpc : PcOk p s req pc := hl.pcOk
  cases pc with
  | idle => cases hnext
  | done resp => cases hnext
  | postRegister body =>
    exact answered_met hnext (fun _ => hpc) trivial
  | postPut body =>
    refine puttingRequestBody_met hnext ⟨hpc.2, .inr ⟨rfl, hpc.1⟩⟩ ⟨hpc.1, ?_⟩ trivial trivial
      trivial
    simp [UploadState.putUpload]
  | postMark body =>
    refine answered_met hnext (fun _ => hpc) ?_
    intro key hkey
    exact .inr ⟨List.mem_singleton.mp hkey, hpc.1⟩
  | postTx body =>
    refine transacting_met hnext ?_ (fun _ => trivial) (fun _ => trivial)
      fun _ _ _ => ⟨hpc, trivial, trivial⟩
    intro key hkey
    exact .inr ⟨List.mem_singleton.mp hkey, hpc.1⟩
  | patchFetch h body =>
    exact answered_met hnext (fun _ => patchFetched_ok hI hpc) trivial
  | patchRegister row body =>
    exact answered_met hnext (fun _ => hpc) trivial
  | patchPut row body =>
    obtain ⟨hunwritten, hunlisted, hfetched⟩ := hpc
    refine puttingRequestBody_met hnext ⟨hunwritten _ rfl, .inl rfl⟩
      ⟨hunlisted, hfetched, fun _ => ?_⟩ trivial trivial trivial
    simp [UploadState.putUpload]
  | patchMark row body =>
    exact answered_met hnext (fun _ => hpc) (discardable_own rfl hpc.1)
  | patchTx row body =>
    exact patchTx_good hpc hnext
  | patchRecover row body =>
    exact answered_met hnext (fun ho => patchRecovered_ok hI hpc (hclear ho)) trivial
  | discard keys resp =>
    cases keys with
    | nil =>
      cases hnext
      exact StepSpec.met_nop trivial
    | cons key keys => exact discarding_good hnext hpc fun _ h => h
  | abort keys resp =>
    cases keys with
    | nil =>
      apply resetting_good _ hnext
      by_cases hc : req = some .cancel
      · exact (hpc.2 hc).2
      · exact hl.held hc
    | cons key keys =>
      exact discarding_good hnext hpc.1 fun _ h => ⟨h, fun hc => absurd (hpc.2 hc).1 (by simp)⟩
  | cancelClaim =>
    refine transacting_met hnext trivial (fun _ => trivial) (fun _ => trivial) ?_
    intro _ hopen hlock
    obtain ⟨row, hrow, hopened⟩ := isOpen_row hopen
    have hintact := hI.intact row hrow hopened
    have hnone := hI.token row hrow hopened
    refine ⟨⟨rfl, hlock, hintact, ?_⟩, ⟨hpc, ⟨hI.created (by simp [hrow]), ?_⟩,
      fun _ _ _ => .inl (hintact.of_eq rfl rfl)⟩, trivial⟩
    · intro row' q hrow' htoken
      cases hrow.symm.trans hrow'
      cases hnone.symm.trans htoken
    · intro row' hrow'
      obtain ⟨_, _, rfl⟩ := Option.map_eq_some_iff.mp hrow'
      rfl
  | cancelFetch =>
    obtain ⟨hcancel, hclaimed, hheld⟩ := hpc
    exact answered_met hnext (fun _ => ⟨hcancel, hclaimed, listed_cleanupKeys⟩)
      ⟨List.forall_mem_nil _, fun _ => ⟨rfl, hheld⟩⟩
  | cancelDelete keys => exact cancelDelete_good hpc hnext
  | cancelReset resp =>
    refine transacting_met hnext trivial (fun _ => trivial) (fun _ => trivial) ?_
    intro ho htoken _
    rw [hclear ho] at htoken
    cases htoken
  | completeClaim digest h exactLen body => exact completeClaim_good hI hpc hclear hnext
  | finalRegister row digest body =>
    exact answered_met hnext (fun _ => hpc) (hpc.2.abort (List.forall_mem_nil _))
  | finalPut row digest body =>
    obtain ⟨hunwritten, hcompleting⟩ := hpc
    have hown : ∀ key ∈ [finalPartKey p], Discardable p s key := discardable_own rfl hcompleting.2.1
    refine puttingRequestBody_met hnext ⟨hunwritten _ rfl, .inl rfl⟩ ?_
      (Completing.abort hcompleting hown) (hcompleting.abort hown) (hcompleting.abort hown)
    have hcomplete : (s.putUpload (finalPartKey p) body).written (.complete p) = none := by
      simpa [UploadState.putUpload, finalPartKey] using hunwritten (.complete p) rfl
    split
    · exact ⟨hcompleting, hcomplete⟩
    · exact ⟨hcompleting, hcomplete⟩
  | finalDrop row digest =>
    obtain ⟨hcompleting, hwritten⟩ := hpc
    exact bestEffortDelete_met hnext (.inl (.inl ⟨rfl, hcompleting.2.1⟩))
      (hcompleting.lease (List.forall_mem_nil _) ⟨⟨hcompleting, List.forall_mem_nil _⟩, hwritten⟩)
      (Completing.lease hcompleting (List.forall_mem_nil _)
        ⟨⟨hcompleting, List.forall_mem_nil _⟩, hwritten⟩)
  | finalMark row digest sizeBytes =>
    obtain ⟨hcompleting, hwritten⟩ := hpc
    have hown : ∀ key ∈ [finalPartKey p], Discardable p s key := discardable_own rfl hcompleting.2.1
    refine answered_met hnext (fun _ => hcompleting.lease hown ⟨⟨hcompleting, ?_⟩, hwritten⟩)
      (hcompleting.abort hown)
    intro key hkey
    rw [List.mem_singleton.mp hkey]
    rfl
  | lease lost next =>
    obtain ⟨hreq, hlost, hpc⟩ := hpc
    simp only [Pc.next, Option.some.injEq] at hnext
    rw [← hnext]
    split
    · exact StepSpec.met_nop hpc
    · exact StepSpec.met_nop ⟨hlost, fun hc => absurd hc hreq⟩
  | fetchParts c => exact answered_met hnext (fun _ => routeParts_ok hpc) hpc.1.abort
  | promoteRegister c part =>
    exact answered_met hnext (fun _ => hpc) (hpc.1.1.abort (List.forall_mem_nil _))
  | promoteCopy c part =>
    exact copying_met hnext (hpc.1.1.abort (List.forall_mem_nil _)) fun _ _ _ =>
      ⟨trivial, Finalizing.lease hpc.1 hpc.1, Completing.abort hpc.1.1 (List.forall_mem_nil _)⟩
  | concatRegister c parts => exact answered_met hnext (fun _ => hpc.1.lease hpc) hpc.1.abort
  | concatRead c parts todo acc => exact concatRead_good hpc hnext
  | concatMark c parts acc =>
    exact answered_met hnext (fun _ => hpc.1.lease hpc.discardable_complete hpc)
      hpc.abort_complete
  | concatVerify c parts acc =>
    simp only [Pc.next] at hnext
    split at hnext
    · exact answered_met hnext (fun _ => hpc) hpc.abort_complete
    · cases hnext
      exact StepSpec.met_nop hpc.abort_complete
  | concatCopy c parts acc =>
    exact copying_met hnext hpc.abort_complete fun _ _ _ =>
      ⟨trivial, hpc, Finalizing.abort_complete hpc⟩
  | concatDrop c parts sizeBytes =>
    exact bestEffortDelete_met hnext (.inl (.inl ⟨rfl, hpc.1.2.1⟩)) (hpc.lease hpc)
      (Finalizing.lease hpc hpc)
  | completeTx c parts sizeBytes =>
    refine transacting_met hnext hpc.abort (fun _ => hpc.abort) (fun _ => hpc) ?_
    intro _ _ hlock
    exact ⟨.inl hlock, ⟨rfl, hpc.1.2.2⟩, ⟨hpc.1.1, List.forall_mem_nil _, hpc.1.2.2⟩, hpc.2⟩
  | completeRecover c parts sizeBytes =>
    exact answered_met hnext (fun _ => completionRecovered_ok hpc) trivial
  | cleanup keys digest =>
    cases keys with
    | nil =>
      cases hnext
      exact StepSpec.met_nop trivial
    | cons key keys => exact bestEffortDelete_met hnext (.inr (.inl hpc)) hpc hpc
  | sweepLock =>
    exact sweepLock_good hI hclear hnext
  | sweepDelete keys failed =>
    exact sweepDelete_good hpc hclear hnext

theorem heartbeat_cases {failures : ℕ} {failures' : Option ℕ} {e : Effect}
    (h : heartbeat p s failures o = some (e, failures')) :
    e = .nop ∨ (e = .touch ∧ s.rowLock = none) := by
  cases o with
  | failed =>
    cases h
    exact .inl rfl
  | ok =>
    simp only [heartbeat] at h
    split at h
    · split at h
      · cases h
      · next hlock =>
        cases h
        exact .inr ⟨rfl, by simpa using hlock⟩
    · cases h
      exact .inl rfl
  | lostAck =>
    simp only [heartbeat] at h
    split at h
    · next hhit =>
      cases h
      exact .inr ⟨rfl, hhit.2⟩
    · cases h
  | commitFailed => cases h

/-- One action of a request. -/
theorem react_good (hI : Inv cfg s) {l l' : Proc} {a : Action} {e : Effect} (hl : ProcOk p l s)
    (hclear : ∀ o, a = .step o → l.pc.Clear p free s o)
    (hcrash : a = .crash → ∀ keys failed, l.pc = .sweepDelete keys failed → s.sweptRow = false)
    (h : l.react cfg p s a = some (e, l')) :
    e.Safe p l'.request free s ∧ ProcOk p l' (s.apply cfg e) := by
  obtain ⟨req, pc, failures⟩ := l
  cases a with
  | begin r =>
    simp only [Proc.react] at h
    split at h
    · next hidle =>
      obtain ⟨rfl, hadmitted⟩ := hidle
      obtain ⟨rfl, hunwritten, hunlisted⟩ := hl.pcOk
      have hheld : Held p s := hl.held nofun
      cases h
      cases r with
      | post body =>
        have hnone : s.poster = none := Option.isNone_iff_eq_none.mp hadmitted
        obtain ⟨hcreated, hwritten⟩ := hI.undrawn hnone
        exact ⟨⟨rfl, hnone⟩, fun _ => hheld, ⟨rfl, hcreated⟩, hwritten⟩
      | patch headers body => exact ⟨trivial, fun _ => hheld, hunwritten, hunlisted⟩
      | complete digest headers exactLen body =>
        exact ⟨trivial, fun _ => hheld, nofun, hunwritten, hunlisted⟩
      | cancel => exact ⟨trivial, fun hreq => absurd rfl hreq, rfl⟩
      | sweep => exact ⟨trivial, fun _ => hheld, trivial⟩
    · cases h
  | step o =>
    simp only [Proc.react, Option.map_eq_some_iff] at h
    obtain ⟨⟨e', pc'⟩, hnext, heq⟩ := h
    obtain ⟨hsafe, hpc⟩ := next_good hI hl (hclear o rfl) hnext
    have hprocs : e = e' ∧ l'.request = req ∧ l'.pc = pc' := by
      split at heq <;> cases heq <;> exact ⟨rfl, rfl, rfl⟩
    obtain ⟨rfl, hrequest, rfl⟩ := hprocs
    rw [hrequest]
    refine ⟨hsafe, fun hreq => ?_, ?_⟩
    · rw [hrequest] at hreq
      exact hsafe.held hI hreq (hl.held hreq)
    · rw [hrequest]
      exact hpc
  | heartbeat o =>
    simp only [Proc.react] at h
    split at h
    · cases h
    · cases h
    · next hfailures =>
      obtain ⟨⟨e', failures'⟩, hbeat, heq⟩ := Option.map_eq_some_iff.mp h
      cases heq
      rcases heartbeat_cases hbeat with rfl | ⟨rfl, hlock⟩
      · exact ⟨trivial, hl.held, hl.pcOk⟩
      · have htouch : Effect.touch.Safe p req free s := hlock
        exact ⟨hlock, fun hreq => htouch.held hI hreq (hl.held hreq),
          hl.pcOk.rely (Rely.touch htouch)⟩
  | crash =>
    simp only [Proc.react] at h
    split at h
    · cases h
      obtain ⟨⟨⟨deleted, hlock⟩, -⟩, -⟩ := hl.pcOk
      have hunlock : Effect.unlock.Safe p req free s := by
        have hswept := hcrash rfl _ _ rfl
        simp only [UploadState.sweptRow, hlock, Option.any_some] at hswept
        rw [hswept] at hlock
        exact hlock
      exact ⟨hunlock, fun hreq => hunlock.held hI hreq (hl.held hreq), trivial⟩
    · cases h
  | tick seconds =>
    cases h
    exact ⟨trivial, hl.held, hl.pcOk.rely (.of_eq rfl rfl rfl rfl rfl rfl rfl)⟩

end Moving

/-! ### Runs -/

section Runs
variable {cfg : UploadConfig} {w : UploadWorld} {p : ℕ}

/-- A claim that is no cancel's may be taken over. -/
def Free (w : UploadWorld) (q : ℕ) : Prop := (w.procs q).request ≠ some .cancel

theorem clear_completeClaim (hI : Inv cfg w.shared) (hA : ∀ q, ProcOk q (w.procs q) w.shared)
    (hsafe : takesOverCancel w = false) (hlock : w.shared.rowLock = none)
    (hclaim : (claimReturning w.shared).isSome = true) :
    w.shared.Intact ∧
      ∀ row q, w.shared.session = some row → row.stateToken = some q → Free w q := by
  obtain ⟨row, hrow, hclaimable⟩ : ∃ row, w.shared.session = some row ∧
      w.shared.claimable row = true := by
    cases hs : w.shared.session with
    | none => simp [claimReturning, hs] at hclaim
    | some row =>
      refine ⟨row, rfl, ?_⟩
      by_contra hnot
      simp [claimReturning, hs, hnot] at hclaim
  cases hstate : row.state with
  | opened =>
    refine ⟨hI.intact row hrow hstate, ?_⟩
    intro row' q hrow' htoken
    cases hrow.symm.trans hrow'
    cases (hI.token row hrow hstate).symm.trans htoken
  | committing =>
    have hfree : ∀ q, row.stateToken = some q → Free w q := by
      intro q htoken hcancel
      simp [takesOverCancel, hrow, hstate, hclaimable, htoken, hcancel] at hsafe
    obtain ⟨q, htoken⟩ := hI.owned row hrow hstate
    constructor
    · rcases (hA q).held (hfree q htoken) row hrow htoken with hintact | ⟨l, hl, -⟩
      · exact hintact
      · cases hlock.symm.trans hl
    · intro row' q' hrow' htoken'
      cases hrow.symm.trans hrow'
      exact hfree q' htoken'

theorem clear_of_keepsObjects (hI : Inv cfg w.shared) (hA : ∀ q, ProcOk q (w.procs q) w.shared)
    {o : Outcome} (h : keepsObjects w (p, .step o)) :
    (w.procs p).pc.Clear p (Free w) w.shared o := by
  unfold keepsObjects digsHole at h
  cases hpc : (w.procs p).pc with
  | completeClaim digest headers exactLen body =>
    intro ho hlock hclaim
    have hsafe : takesOverCancel w = false := by simpa [hpc, ho] using h
    exact clear_completeClaim hI hA hsafe hlock hclaim
  | cancelReset resp =>
    intro ho
    simpa [hpc, ho] using h
  | patchRecover row body =>
    rintro rfl ⟨part, hpart, hkey⟩
    have hfound : (w.shared.parts.any fun part => part.storageKey = row.partKey p) = true :=
      List.any_eq_true.mpr ⟨part, hpart, by simpa using hkey⟩
    simpa [hpc, hfound] using h
  | sweepLock =>
    rintro rfl habandoned hopen
    simpa [hpc, habandoned, hopen] using h
  | sweepDelete keys failed =>
    cases keys with
    | nil =>
      intro hrollback
      have hroll : (failed || o = .failed || o = .commitFailed) = true := by
        rcases hrollback with rfl | rfl | rfl <;> simp
      simpa [hpc, hroll] using h
    | cons key keys => trivial
  | _ => trivial

/-- A step that digs no hole has a safe effect. -/
theorem react_safe (hI : Inv cfg w.shared) (hA : ∀ q, ProcOk q (w.procs q) w.shared) {a : Action}
    {e : Effect} {l' : Proc} (hok : keepsObjects w (p, a))
    (hreact : (w.procs p).react cfg p w.shared a = some (e, l')) :
    e.Safe p l'.request (Free w) w.shared ∧ ProcOk p l' (w.shared.apply cfg e) := by
  have hcrash : a = .crash → ∀ keys failed, (w.procs p).pc = .sweepDelete keys failed →
      w.shared.sweptRow = false := by
    rintro rfl keys failed hpc
    simpa [keepsObjects, digsHole, hpc] using hok
  have hclear : ∀ o, a = .step o → (w.procs p).pc.Clear p (Free w) w.shared o := by
    rintro o rfl
    exact clear_of_keepsObjects hI hA hok
  exact react_good hI (hA p) hclear hcrash hreact

theorem start_inv (store : BlobStore cfg) (now : ℕ) : Inv cfg (UploadState.start store now) := by
  refine ⟨rfl, nofun, nofun, nofun, fun _ => rfl, nofun, nofun, nofun, nofun, nofun, nofun,
    fun _ => ⟨rfl, rfl⟩, fun _ => ⟨rfl, rfl⟩⟩

/-- Along every run whose steps dig no hole the invariant holds, with what each request relies
on. -/
theorem reach_inv {store : BlobStore cfg} {now : ℕ}
    (h : (uploadMachine cfg).Reach keepsObjects (UploadWorld.start store now) w) :
    Inv cfg w.shared ∧ ∀ p, ProcOk p (w.procs p) w.shared := by
  refine Protocol.reach_rely_guarantee (I := Inv cfg) (A := ProcOk) h (start_inv store now) ?_ ?_
  · intro p
    exact ⟨nofun, rfl, fun _ _ => rfl, nofun⟩
  · intro w p a s' l' hI hA hok hstep
    obtain ⟨⟨e, l''⟩, hreact, heq⟩ := Option.map_eq_some_iff.mp hstep
    cases heq
    obtain ⟨hsafe, hproc⟩ := react_safe hI hA hok hreact
    refine ⟨hsafe.inv hI, hproc, fun q hq => ?_⟩
    exact (hA q).rely (hsafe.rely hq hI fun hcancel hfree => hfree hcancel)

/-- An open upload session never has a hole: along every run whose steps dig none, with failures of
the store and the database anywhere, each part row of an open session has its object. -/
theorem open_session_without_hole (cfg : UploadConfig) (store : BlobStore cfg) (now : ℕ)
    (w : UploadWorld)
    (h : (uploadMachine cfg).Reach keepsObjects (UploadWorld.start store now) w)
    (hopen : w.shared.isOpen = true) :
    ∀ part ∈ w.shared.parts, ∃ body, w.shared.uploads part.storageKey = some body := by
  obtain ⟨row, hrow, hopened⟩ := isOpen_row hopen
  exact (reach_inv h).1.intact row hrow hopened

end Runs

/-! #### Small runs -/

/-- SHA-256 on the bodies of the runs below: nothing, `a`, and `ab`. -/
def smallConfig : UploadConfig where
  sha256 body :=
    if body = [] then ⟨"e3b0c44298fc1c149afbf4c8996fb92427ae41e4649b934ca495991b7852b855"⟩
    else if body = [97] then ⟨"ca978112ca1bbdcafac231b39a23dc4da786eff8147c4e72b9807785afee48bb"⟩
    else if body = [97, 98] then
      ⟨"fb8e20fc2e4c3f248c60c39bd652f3c1347298bb977b8b4d5903b85055620603"⟩
    else ⟨""⟩
  maxUploadSizeBytes := 0

def smallStart : UploadWorld := UploadWorld.start (BlobStore.empty smallConfig) 0

/-- Request `p` begins and its next steps end in the outcomes given. -/
def requestRun (p : ℕ) (r : Request) (outcomes : List Outcome) : List (ℕ × Action) :=
  (p, .begin r) :: outcomes.map fun o => (p, .step o)

def noHeaders : UploadHeaders := ⟨none, none⟩

/-- A POST without a body, and a PATCH with the body `a`. -/
def uploadOfA : List (ℕ × Action) :=
  List.flatten [
    requestRun 0 (.post []) [.ok, .ok, .ok, .ok],
    requestRun 1 (.patch noHeaders [97]) [.ok, .ok, .ok, .ok, .ok]]

def digestOfA : Sha256Digest := smallConfig.sha256 [97]

def completionOfA : Request := .complete digestOfA noHeaders (some 0) []

/-- The delete of the row fails after the cancel has deleted the objects, and it resets the
session. -/
def cancelDropFails : List (ℕ × Action) :=
  List.flatten [uploadOfA, requestRun 2 .cancel [.ok, .ok, .ok, .ok, .failed, .ok]]

/-- The cancel stands still before its delete of the row; six hours on a completion takes its claim,
misses the object and resets the session. -/
def cancelTakenOver : List (ℕ × Action) :=
  List.flatten [uploadOfA, requestRun 2 .cancel [.ok, .ok, .ok, .ok], [(9, .tick 21601)],
    requestRun 3 completionOfA [.ok, .ok, .ok, .ok, .ok, .ok, .ok]]

/-- The commit of the PATCH lands and its answer is lost; its recovery looks while a completion
holds the claim, and deletes the part that was committed. -/
def recoveryMisses : List (ℕ × Action) :=
  List.flatten [requestRun 0 (.post []) [.ok, .ok, .ok, .ok],
    requestRun 1 (.patch noHeaders [97]) [.ok, .ok, .ok, .ok, .lostAck],
    requestRun 3 completionOfA [.ok], [(1, .step .ok), (1, .step .ok)],
    [(3, .step .ok), (3, .step .failed), (3, .step .ok)]]

/-- The sweep has deleted the objects and not yet the row. -/
def sweepOfOpen : List (ℕ × Action) :=
  List.flatten [uploadOfA, [(9, .tick 86401)], requestRun 4 .sweep [.ok, .ok, .ok]]

/-- The sweep of a claimed session rolls back after its deletes; the claim is then given back. -/
def sweepRollsBack : List (ℕ × Action) :=
  List.flatten [uploadOfA, requestRun 3 completionOfA [.ok], [(9, .tick 86401)],
    requestRun 4 .sweep [.ok, .ok, .ok, .failed],
    [(3, .step .ok), (3, .step .failed), (3, .step .ok)]]

/-- One run for each kind of step in `digsHole`. -/
def holeRuns : List (List (ℕ × Action)) :=
  [cancelDropFails, cancelTakenOver, recoveryMisses, sweepOfOpen, sweepRollsBack]

/-- An open session with a part row whose object is not there. -/
def UploadState.holed (s : UploadState) : Bool :=
  s.isOpen && s.parts.any fun part => (s.uploads part.storageKey).isNone

theorem hazards_leave_holes :
    (holeRuns.all fun labels =>
      ((uploadMachine smallConfig).run smallStart labels).any fun w => w.shared.holed) = true := by
  decide

/-- The commit of the PATCH loses its answer and is recovered; a cancel and a completion fail and
give their claims back. -/
def failingRequests : List (ℕ × Action) :=
  List.flatten [requestRun 0 (.post []) [.ok, .ok, .ok, .ok],
    requestRun 1 (.patch noHeaders [97]) [.ok, .ok, .ok, .ok, .lostAck, .ok],
    requestRun 2 .cancel [.ok, .failed, .ok],
    requestRun 3 completionOfA [.ok, .ok, .ok, .ok, .failed, .ok]]

theorem open_session_after_failures :
    ∃ w, (uploadMachine smallConfig).run smallStart failingRequests = some w ∧
      w.shared.isOpen = true ∧ w.shared.parts ≠ [] ∧
      ∀ part ∈ w.shared.parts, ∃ body, w.shared.uploads part.storageKey = some body := by
  have hmeets : (uploadMachine smallConfig).Meets keepsObjects smallStart failingRequests := by
    decide
  have hreach := fun w h => @Machine.reach_of_run _ _ _ _ smallStart w _ h hmeets
  exact ⟨_, rfl, rfl, by decide,
    open_session_without_hole smallConfig (.empty smallConfig) 0 _ (hreach _ rfl) rfl⟩

end ArtifactKeeper.Oci
