import ArtifactKeeper.Oci.UploadRun

/-! Integrity of chunked uploads: what an open session holds is what was accepted, and what a
completion stores under a digest has that digest. -/

namespace ArtifactKeeper.Oci

/-! ### Open sessions -/

section OpenSessions
variable {cfg : UploadConfig} {s : UploadState}

/-- The part objects one after the other, by part index; `none` where one is missing. -/
def UploadState.concatParts (s : UploadState) : Option Bytes :=
  (s.orderedParts.mapM fun part => s.uploads part.storageKey).map List.flatten

theorem Inv.orderedParts_eq (hI : Inv cfg s) : s.orderedParts = s.parts := by
  apply List.Pairwise.insertionSort_eq
  have hrange : (s.parts.map PartRow.partIndex).Pairwise (· ≤ ·) := by
    rw [hI.indexed]
    exact List.pairwise_le_range
  exact List.pairwise_map.mp hrange

theorem bodies_flatten : s.bodies.flatten = s.initial ++ s.accepted.flatten := by
  unfold UploadState.bodies
  by_cases hinitial : s.initial = []
  · simp [hinitial]
  · simp [hinitial]

theorem mapM_uploads_eq
    (hstored : ∀ key body, s.uploads key = some body → s.written key = some body)
    {parts : List PartRow} {bodies : List Bytes} (h : List.Forall₂ (DescribesBody s) parts bodies)
    (hintact : ∀ part ∈ parts, ∃ body, s.uploads part.storageKey = some body) :
    (parts.mapM fun part => s.uploads part.storageKey) = some bodies := by
  induction h with
  | nil => rfl
  | @cons part body parts bodies hpart _ ih =>
    obtain ⟨body', hbody'⟩ := hintact part (by simp)
    have hsame : body' = body := by
      have := (hstored _ _ hbody').symm.trans hpart.1
      simpa using this
    have hrest := ih fun part hmem => hintact part (List.mem_cons_of_mem _ hmem)
    rw [List.mapM_cons, hbody', hrest, hsame]
    rfl

/-- The objects of an open session are what the POST and the PATCH requests sent. -/
theorem Inv.concatParts_eq (hI : Inv cfg s) {row : SessionRow} (hrow : s.session = some row)
    (hopened : row.state = .opened) :
    s.concatParts = some (s.initial ++ s.accepted.flatten) := by
  unfold UploadState.concatParts
  rw [hI.orderedParts_eq, mapM_uploads_eq hI.stored (hI.contents (by simp [hrow]))
    (hI.intact row hrow hopened), Option.map_some, bodies_flatten]

end OpenSessions

/-! ### Stored blobs -/

section Blobs
variable (cfg : UploadConfig) (p : ℕ) (s : UploadState)

/-- Every object lies under its digest, and every row has an object of its size. -/
structure BlobInv : Prop where
  sound : ∀ d body, s.blobObjects d = some body → cfg.sha256 body = d
  sized : ∀ d n, s.blobs d = some n → ∃ body, s.blobObjects d = some body ∧ body.length = n

/-- The digest a claim returned is that of the first body. -/
def Snapshot (row : OciUploadSessionRecord) : Prop :=
  s.created = true ∧ ∀ d, row.computedDigest = some d →
    ∃ body, s.bodies.head? = some body ∧ cfg.sha256 body = d

/-- An object of this size lies under the digest. -/
def Stored (d : Sha256Digest) (sizeBytes : ℕ) : Prop :=
  ∃ body, s.blobObjects d = some body ∧ body.length = sizeBytes

/-- What an answer promises. -/
def Answer : Response → Prop
  | .created d => (s.blobs d).isSome = true
  | _ => True

/-- What a completion knows of the bytes it promotes. -/
def CopyOk : Pc → Prop
  | .finalRegister row _ _ | .finalPut row _ _ | .finalDrop row _ | .finalMark row _ _ =>
    Snapshot cfg s row
  | .fetchParts c => Snapshot cfg s c.session
  | .promoteRegister c part | .promoteCopy c part =>
    ∃ body, s.written part.storageKey = some body ∧ cfg.sha256 body = c.digest ∧
      body.length = part.sizeBytes
  | .concatMark _ _ acc | .concatVerify _ _ acc => s.written (.complete p) = some acc
  | .concatCopy c _ acc => s.written (.complete p) = some acc ∧ cfg.sha256 acc = c.digest
  | .concatDrop c _ sizeBytes | .completeTx c _ sizeBytes | .completeRecover c _ sizeBytes =>
    Stored s c.digest sizeBytes
  | .cleanup _ d => (s.blobs d).isSome = true
  | .done resp | .discard _ resp | .abort _ resp | .cancelReset resp => Answer s resp
  | .lease _ next => CopyOk next
  | _ => True

/-- When an effect keeps the blobs sound. -/
def Effect.Verified : Effect → Prop
  | .putBlob d body => cfg.sha256 body = d ∧
      ∀ old, s.blobObjects d = some old → old.length = body.length
  | .finish d sizeBytes => Stored s d sizeBytes
  | _ => True

end Blobs

/-- What no effect takes away. -/
structure Grows (s s' : UploadState) : Prop where
  created : s.created = true → s'.created = true
  written : ∀ key body, s.written key = some body → s'.written key = some body
  first : s.created = true → ∀ body, s.bodies.head? = some body → s'.bodies.head? = some body
  rows : ∀ d, (s.blobs d).isSome = true → (s'.blobs d).isSome = true
  objects : ∀ d n, Stored s d n → Stored s' d n

section Growth
variable {cfg : UploadConfig} {p q : ℕ} {req : Option Request} {free : ℕ → Prop}
  {s s' : UploadState}

theorem Grows.of_eq (hcreated : s'.created = s.created) (hwritten : s'.written = s.written)
    (hinitial : s'.initial = s.initial) (haccepted : s'.accepted = s.accepted)
    (hblobs : s'.blobs = s.blobs) (hobjects : s'.blobObjects = s.blobObjects) : Grows s s' := by
  have hbodies : s'.bodies = s.bodies := by simp [UploadState.bodies, hinitial, haccepted]
  refine ⟨fun h => hcreated.trans h, ?_, ?_, ?_, ?_⟩
  · rw [hwritten]
    exact fun _ _ h => h
  · rw [hbodies]
    exact fun _ _ h => h
  · rw [hblobs]
    exact fun _ h => h
  · unfold Stored
    rw [hobjects]
    exact fun _ _ h => h

theorem Snapshot.grows {row : OciUploadSessionRecord} (h : Snapshot cfg s row)
    (hg : Grows s s') : Snapshot cfg s' row := by
  refine ⟨hg.created h.1, fun d hd => ?_⟩
  obtain ⟨body, hfirst, hsha⟩ := h.2 d hd
  exact ⟨body, hg.first h.1 body hfirst, hsha⟩

theorem CopyOk.grows {pc : Pc} (h : CopyOk cfg p s pc) (hg : Grows s s') : CopyOk cfg p s' pc := by
  induction pc with
  | finalRegister _ _ _ | finalPut _ _ _ | finalDrop _ _ | finalMark _ _ _ | fetchParts _ =>
    exact Snapshot.grows h hg
  | promoteRegister _ _ | promoteCopy _ _ =>
    obtain ⟨body, hwritten, hsha, hsize⟩ := h
    exact ⟨body, hg.written _ _ hwritten, hsha, hsize⟩
  | concatMark _ _ _ | concatVerify _ _ _ => exact hg.written _ _ h
  | concatCopy _ _ _ => exact ⟨hg.written _ _ h.1, h.2⟩
  | concatDrop _ _ _ | completeTx _ _ _ | completeRecover _ _ _ => exact hg.objects _ _ h
  | cleanup _ _ => exact hg.rows _ h
  | done resp | discard _ resp | abort _ resp | cancelReset resp =>
    cases resp with
    | created d => exact hg.rows d h
    | _ => trivial
  | lease _ _ ih => exact ih h
  | _ => trivial

/-- Safe and verified effects take nothing away: the keys of uploads are written once. -/
theorem Effect.Safe.grows {e : Effect} (h : e.Safe p req free s) (hv : e.Verified cfg s) :
    Grows s (s.apply cfg e) := by
  cases e with
  | put key body =>
    refine ⟨id, ?_, fun _ _ h => h, fun _ h => h, fun _ _ h => h⟩
    intro key' body' hwritten
    have hne : key' ≠ key := by
      rintro rfl
      cases hwritten.symm.trans h.1
    simpa [UploadState.apply, UploadState.putUpload, hne] using hwritten
  | create body =>
    have hfalse : ¬ s.created = true := by simp [h.1.2]
    exact ⟨fun h => absurd h hfalse, fun _ _ h => h, fun h => absurd h hfalse, fun _ h => h,
      fun _ _ h => h⟩
  | append part row body =>
    refine ⟨id, fun _ _ h => h, ?_, fun _ h => h, fun _ _ h => h⟩
    intro _ first hfirst
    have hbodies : (s.appendPart cfg part row body).bodies = s.bodies ++ [body] :=
      (List.append_assoc _ _ _).symm
    show (s.appendPart cfg part row body).bodies.head? = some first
    rw [hbodies, List.head?_append, hfirst]
    rfl
  | putBlob d body =>
    refine ⟨id, fun _ _ h => h, fun _ _ h => h, fun _ h => h, ?_⟩
    rintro d' n ⟨old, hold, hsize⟩
    by_cases hd : d' = d
    · subst hd
      exact ⟨body, by simp [UploadState.apply, UploadState.putBlob], (hv.2 old hold) ▸ hsize⟩
    · exact ⟨old, by simpa [UploadState.apply, UploadState.putBlob, hd] using hold, hsize⟩
  | finish d sizeBytes =>
    refine ⟨id, fun _ _ h => h, fun _ _ h => h, ?_, fun _ _ h => h⟩
    intro d' hsome
    by_cases hd : d' = d
    · simp [UploadState.apply, UploadState.finishSession, hd]
    · simpa [UploadState.apply, UploadState.finishSession, hd] using hsome
  | nop | draw _ | delete _ | claim _ | touch | reset | drop | lock _ | sweepDelete _ | unlock
  | tick _ => exact .of_eq rfl rfl rfl rfl rfl rfl

theorem BlobInv.congr (h : BlobInv cfg s) (hblobs : s'.blobs = s.blobs)
    (hobjects : s'.blobObjects = s.blobObjects) : BlobInv cfg s' := by
  refine ⟨?_, ?_⟩
  · rw [hobjects]
    exact h.sound
  · rw [hobjects, hblobs]
    exact h.sized

theorem Effect.Verified.blobInv {e : Effect} (hv : e.Verified cfg s) (h : BlobInv cfg s) :
    BlobInv cfg (s.apply cfg e) := by
  cases e with
  | putBlob d body =>
    obtain ⟨hsha, hlength⟩ := hv
    refine ⟨?_, ?_⟩
    · intro d' body' hbody'
      by_cases hd : d' = d
      · subst hd
        simp only [UploadState.apply, UploadState.putBlob, Function.update_self,
          Option.some.injEq] at hbody'
        exact hbody' ▸ hsha
      · exact h.sound d' body' (by simpa [UploadState.apply, UploadState.putBlob, hd] using hbody')
    · intro d' n hn
      obtain ⟨old, hold, hsize⟩ := h.sized d' n hn
      by_cases hd : d' = d
      · subst hd
        exact ⟨body, by simp [UploadState.apply, UploadState.putBlob], (hlength old hold) ▸ hsize⟩
      · exact ⟨old, by simpa [UploadState.apply, UploadState.putBlob, hd] using hold, hsize⟩
  | finish d sizeBytes =>
    refine ⟨h.sound, ?_⟩
    intro d' n hn
    by_cases hd : d' = d
    · subst hd
      simp only [UploadState.apply, UploadState.finishSession, Function.update_self,
        Option.some.injEq] at hn
      cases hrow : s.blobs d' with
      | none =>
        rw [hrow, Option.getD_none] at hn
        exact hn ▸ hv
      | some m =>
        rw [hrow, Option.getD_some] at hn
        exact hn ▸ h.sized d' m hrow
    · exact h.sized d' n (by simpa [UploadState.apply, UploadState.finishSession, hd] using hn)
  | nop | draw _ | put _ _ | delete _ | create _ | append _ _ _ | claim _ | touch | reset | drop
  | lock _ | sweepDelete _ | unlock | tick _ => exact h.congr rfl rfl

end Growth

/-! ### The moving completion -/

/-- That a step mixes up no bytes, for the request that takes it. -/
def Pc.Faithful (cfg : UploadConfig) (p : ℕ) (s : UploadState) (o : Outcome) : Pc → Prop
  | .fetchParts _ => o = .ok → s.session.isSome = true
  | .promoteCopy c part => o ≠ .failed → ∀ body old, s.uploads part.storageKey = some body →
      s.blobObjects c.digest = some old → cfg.sha256 old = cfg.sha256 body →
      old.length = body.length
  | .concatCopy c _ _ => o ≠ .failed → ∀ body old, s.uploads (.complete p) = some body →
      s.blobObjects c.digest = some old → cfg.sha256 old = cfg.sha256 body →
      old.length = body.length
  | _ => True

/-- A verified effect, and what is known of the bytes at the place the request moves to. -/
abbrev verifiesSpec (cfg : UploadConfig) (p : ℕ) (s : UploadState) : StepSpec where
  safe := Effect.Verified cfg s
  nop := trivial
  ok s' pc := CopyOk cfg p s' pc

section Verifying
variable {cfg : UploadConfig} {p : ℕ} {req : Option Request} {s : UploadState} {o : Outcome}
  {r : Effect × Pc}

theorem answer_validate {h : UploadHeaders} {n : ℕ} {resp : Response}
    (hresp : validatePatchContentRange h n = some resp) : Answer s resp := by
  unfold validatePatchContentRange rangeNotSatisfiable at hresp
  repeat' (first | cases hresp; done | cases hresp; trivial | split at hresp)

theorem answer_reject {h : UploadHeaders} {n m : ℕ} {resp : Response}
    (hresp : rejectOversizedContentLength h n m = some resp) : Answer s resp := by
  unfold rejectOversizedContentLength uploadSessionSizeError at hresp
  repeat' (first | cases hresp; done | cases hresp; trivial | split at hresp)

theorem patchFetched_copy {h : UploadHeaders} {body : Bytes} :
    CopyOk cfg p s (patchFetched cfg s h body) := by
  unfold patchFetched
  split
  · trivial
  · split
    · trivial
    split
    · next hresp => exact answer_validate hresp
    split
    · next hresp => exact answer_reject hresp
    · trivial

theorem patchRecovered_copy {row : OciUploadSessionRecord} {body : Bytes} :
    CopyOk cfg p s (patchRecovered p s row body) := by
  unfold patchRecovered
  split
  · trivial
  · trivial
  · next resp hresp =>
    unfold UploadState.recoverCommittedPatch at hresp
    split at hresp
    · cases hresp
    split at hresp
    · cases hresp
    split at hresp
    · cases hresp
    split at hresp
    · cases hresp
      trivial
    · cases hresp

theorem completionRecovered_copy {c : Completion} {parts : List OciUploadPartRecord} {size : ℕ} :
    CopyOk cfg p s (completionRecovered s c parts size) := by
  unfold completionRecovered UploadState.recoverCommittedCompletion
  by_cases hsome : s.session.isSome = true
  · simp only [hsome, ↓reduceIte]
    trivial
  · simp only [hsome, Bool.false_eq_true, ↓reduceIte]
    by_cases hblob : s.blobs c.digest = some size
    · simp only [hblob, ↓reduceIte]
      exact Option.isSome_iff_exists.mpr ⟨size, hblob⟩
    · simp only [hblob, ↓reduceIte]
      trivial

theorem claimReturning_snapshot (hI : Inv cfg s) {row : OciUploadSessionRecord}
    (h : claimReturning s = some row) : Snapshot cfg s row := by
  unfold claimReturning at h
  split at h
  · next r hr =>
    split at h
    · cases h
      refine ⟨hI.created (by simp [hr]), fun d hd => ?_⟩
      obtain ⟨body, hbodies, hsha⟩ := hI.digest r d hr hd
      exact ⟨body, by rw [hbodies]; rfl, hsha⟩
    · cases h
  · cases h

theorem claimedCompletion_copy {row : OciUploadSessionRecord} {digest : Sha256Digest}
    {h : UploadHeaders} {exactLen : Option ℕ} {body : Bytes} (hrow : Snapshot cfg s row) :
    CopyOk cfg p s (claimedCompletion cfg row digest h exactLen body) := by
  unfold claimedCompletion
  split
  · next hresp => exact answer_reject hresp
  split
  · exact hrow
  · exact hrow

/-- The one part a completion reads while the session is there is the first body. -/
theorem fetched_single (hI : Inv cfg s) (hsome : s.session.isSome = true) {body : Bytes} {n : ℕ}
    {part : OciUploadPartRecord} (hfirst : s.bodies.head? = some body)
    (h : s.fetchOciUploadParts n = [part]) :
    s.written part.storageKey = some body ∧ body.length = part.sizeBytes := by
  have hcontents := hI.contents hsome
  unfold UploadState.fetchOciUploadParts at h
  rw [hI.orderedParts_eq] at h
  split at h
  · next hnil =>
    rw [hnil, List.forall₂_nil_left_iff] at hcontents
    simp [hcontents] at hfirst
  · obtain ⟨prow, hprow, rfl⟩ := List.map_eq_singleton_iff.mp h
    rw [hprow] at hcontents
    obtain ⟨body', rest, hbody', hrest, hbodies⟩ := List.forall₂_cons_left_iff.mp hcontents
    rw [hbodies, List.head?_cons, Option.some.injEq] at hfirst
    exact hfirst ▸ ⟨hbody'.1, hbody'.2.symm⟩

theorem routeParts_copy (hI : Inv cfg s) (hsome : s.session.isSome = true) {c : Completion} {n : ℕ}
    (h : Snapshot cfg s c.session) : CopyOk cfg p s (routeParts c (s.fetchOciUploadParts n)) := by
  unfold routeParts
  split
  · next computed _ hcomputed =>
    split
    · next hdigest =>
      split
      · next part hfetched =>
        obtain ⟨body, hfirst, hsha⟩ := h.2 computed hcomputed
        obtain ⟨hwritten, hsize⟩ := fetched_single hI hsome hfirst hfetched
        exact ⟨body, hwritten, hsha.trans hdigest, hsize⟩
      · trivial
    · trivial
  · trivial

/-- A copy of bytes that are known to have the digest. -/
theorem verified_putBlob (hB : BlobInv cfg s) {d : Sha256Digest} {body : Bytes}
    (hsha : cfg.sha256 body = d)
    (hclear : ∀ old, s.blobObjects d = some old → cfg.sha256 old = cfg.sha256 body →
      old.length = body.length) : (Effect.putBlob d body).Verified cfg s :=
  ⟨hsha, fun old hold => hclear old hold ((hB.sound d old hold).trans hsha.symm)⟩

theorem stored_putBlob {d : Sha256Digest} {body : Bytes} :
    Stored (s.putBlob d body) d body.length :=
  ⟨body, by simp [UploadState.putBlob], rfl⟩

/-- One step of a request: what it stores under a digest has that digest, and what it records as
the size is the length. -/
theorem next_verified (hI : Inv cfg s) (hB : BlobInv cfg s) {pc : Pc} {lv : Bool}
    (hcopy : CopyOk cfg p s pc) (hfaithful : pc.Faithful cfg p s o)
    (hnext : pc.next cfg p s lv o = some r) : (verifiesSpec cfg p s).Met cfg s r := by
  cases pc with
  | idle => cases hnext
  | done resp => cases hnext
  | postRegister body => exact answered_met hnext (fun _ => trivial) trivial
  | postPut body => exact puttingRequestBody_met hnext trivial trivial trivial trivial trivial
  | postMark body => exact answered_met hnext (fun _ => trivial) trivial
  | postTx body =>
    exact transacting_met hnext trivial (fun _ => trivial) (fun _ => trivial) fun _ _ _ =>
      ⟨trivial, trivial, trivial⟩
  | patchFetch h body => exact answered_met hnext (fun _ => patchFetched_copy) trivial
  | patchRegister row body => exact answered_met hnext (fun _ => trivial) trivial
  | patchPut row body => exact puttingRequestBody_met hnext trivial trivial trivial trivial trivial
  | patchMark row body => exact answered_met hnext (fun _ => trivial) trivial
  | patchTx row body =>
    exact transacting_met hnext trivial (fun _ => trivial) (fun _ => trivial) fun _ _ _ =>
      ⟨trivial, trivial, trivial⟩
  | patchRecover row body => exact answered_met hnext (fun _ => patchRecovered_copy) trivial
  | discard keys resp =>
    cases keys with
    | nil =>
      cases hnext
      exact StepSpec.met_nop hcopy
    | cons key keys => exact bestEffortDelete_met hnext trivial hcopy hcopy
  | abort keys resp =>
    cases keys with
    | nil =>
      exact transacting_met hnext trivial (fun _ => trivial) (fun _ => trivial) fun _ _ _ =>
        ⟨trivial, hcopy, trivial⟩
    | cons key keys => exact bestEffortDelete_met hnext trivial hcopy hcopy
  | cancelClaim =>
    refine transacting_met hnext trivial (fun _ => ?_) (fun _ => trivial) fun _ _ _ =>
      ⟨trivial, trivial, trivial⟩
    unfold claimMissed
    split
    · trivial
    · trivial
  | cancelFetch => exact answered_met hnext (fun _ => trivial) trivial
  | cancelDelete keys =>
    cases keys with
    | nil =>
      exact transacting_met hnext trivial (fun _ => trivial) (fun _ => trivial) fun _ _ _ =>
        ⟨trivial, trivial, trivial⟩
    | cons key keys =>
      simp only [Pc.next] at hnext
      split at hnext
      · cases hnext
        exact ⟨trivial, trivial⟩
      · cases hnext
        exact ⟨trivial, trivial⟩
      · cases hnext
        exact ⟨trivial, trivial⟩
      · cases hnext
  | cancelReset resp =>
    exact transacting_met hnext trivial (fun _ => trivial) (fun _ => trivial) fun _ _ _ =>
      ⟨trivial, hcopy, trivial⟩
  | completeClaim digest h exactLen body =>
    have hmissed : CopyOk cfg p s (.done (claimMissed s)) := by
      unfold claimMissed
      split
      · trivial
      · trivial
    simp only [Pc.next] at hnext
    split at hnext
    · next row hrow =>
      refine transacting_met hnext trivial (fun _ => hmissed) (fun _ => trivial) fun _ _ _ =>
        ⟨trivial, claimedCompletion_copy ?_, trivial⟩
      exact (claimReturning_snapshot hI hrow).grows (.of_eq rfl rfl rfl rfl rfl rfl)
    · refine transacting_met hnext trivial (fun _ => hmissed) (fun _ => trivial) fun _ hopen _ => ?_
      cases hopen
  | finalRegister row digest body => exact answered_met hnext (fun _ => hcopy) trivial
  | finalPut row digest body =>
    refine puttingRequestBody_met hnext trivial ?_ trivial trivial trivial
    split
    · exact hcopy
    · exact hcopy
  | finalDrop row digest => exact bestEffortDelete_met hnext trivial hcopy hcopy
  | finalMark row digest sizeBytes => exact answered_met hnext (fun _ => hcopy) trivial
  | lease lost next =>
    simp only [Pc.next, Option.some.injEq] at hnext
    rw [← hnext]
    split
    · exact StepSpec.met_nop hcopy
    · exact StepSpec.met_nop trivial
  | fetchParts c =>
    exact answered_met hnext (fun ho => routeParts_copy hI (hfaithful ho) hcopy) trivial
  | promoteRegister c part => exact answered_met hnext (fun _ => hcopy) trivial
  | promoteCopy c part =>
    obtain ⟨body, hwritten, hsha, hsize⟩ := hcopy
    refine copying_met hnext trivial fun ho body' hbody' => ?_
    have hsame : body' = body := by
      have := (hI.stored _ _ hbody').symm.trans hwritten
      simpa using this
    subst hsame
    refine ⟨verified_putBlob hB hsha fun old hold => hfaithful ho body' old hbody' hold, ?_,
      trivial⟩
    exact hsize ▸ stored_putBlob
  | concatRegister c parts => exact answered_met hnext (fun _ => trivial) trivial
  | concatRead c parts todo acc =>
    cases todo with
    | nil =>
      refine putting_met hnext trivial ?_ trivial trivial
      simp [CopyOk, UploadState.putUpload]
    | cons part todo =>
      simp only [Pc.next] at hnext
      split at hnext
      · cases hnext
        exact StepSpec.met_nop trivial
      · split at hnext
        · exact answered_met hnext (fun _ => trivial) trivial
        · cases hnext
          exact StepSpec.met_nop trivial
  | concatMark c parts acc => exact answered_met hnext (fun _ => hcopy) trivial
  | concatVerify c parts acc =>
    simp only [Pc.next] at hnext
    split at hnext
    · next hsha => exact answered_met hnext (fun _ => ⟨hcopy, hsha⟩) trivial
    · cases hnext
      exact StepSpec.met_nop trivial
  | concatCopy c parts acc =>
    obtain ⟨hwritten, hsha⟩ := hcopy
    refine copying_met hnext trivial fun ho body hbody => ?_
    have hsame : body = acc := by
      have := (hI.stored _ _ hbody).symm.trans hwritten
      simpa using this
    subst hsame
    exact ⟨verified_putBlob hB hsha fun old hold => hfaithful ho body old hbody hold,
      stored_putBlob, trivial⟩
  | concatDrop c parts sizeBytes => exact bestEffortDelete_met hnext trivial hcopy hcopy
  | completeTx c parts sizeBytes =>
    refine transacting_met hnext trivial (fun _ => trivial) (fun _ => hcopy) fun _ _ _ =>
      ⟨hcopy, ?_, hcopy⟩
    simp [CopyOk, UploadState.apply, UploadState.finishSession]
  | completeRecover c parts sizeBytes =>
    exact answered_met hnext (fun _ => completionRecovered_copy) trivial
  | cleanup keys digest =>
    cases keys with
    | nil =>
      cases hnext
      exact StepSpec.met_nop hcopy
    | cons key keys => exact bestEffortDelete_met hnext trivial hcopy hcopy
  | sweepLock =>
    simp only [Pc.next] at hnext
    split at hnext
    · cases hnext
    · cases hnext
      exact StepSpec.met_nop trivial
    · cases hnext
      exact StepSpec.met_nop trivial
    · cases hnext
      exact StepSpec.met_nop trivial
    · split at hnext
      · split at hnext
        · cases hnext
        · cases hnext
          exact ⟨trivial, trivial⟩
      · cases hnext
        exact StepSpec.met_nop trivial
  | sweepDelete keys failed =>
    cases keys with
    | nil =>
      simp only [Pc.next] at hnext
      split at hnext
      · cases hnext
        exact ⟨trivial, trivial⟩
      · split at hnext <;> cases hnext <;> exact ⟨trivial, trivial⟩
    | cons key keys =>
      simp only [Pc.next] at hnext
      split at hnext <;> cases hnext <;> exact ⟨trivial, trivial⟩

theorem react_verified (hI : Inv cfg s) (hB : BlobInv cfg s) {l l' : Proc} {a : Action}
    {e : Effect} (hcopy : CopyOk cfg p s l.pc)
    (hfaithful : ∀ o, a = .step o → l.pc.Faithful cfg p s o)
    (h : l.react cfg p s a = some (e, l')) :
    e.Verified cfg s ∧ CopyOk cfg p (s.apply cfg e) l'.pc := by
  obtain ⟨req, pc, failures⟩ := l
  cases a with
  | begin r =>
    simp only [Proc.react] at h
    split at h
    · cases h
      cases r <;> exact ⟨trivial, trivial⟩
    · cases h
  | step o =>
    simp only [Proc.react, Option.map_eq_some_iff] at h
    obtain ⟨⟨e', pc'⟩, hnext, heq⟩ := h
    have hmet := next_verified hI hB hcopy (hfaithful o rfl) hnext
    have hprocs : e = e' ∧ l'.pc = pc' := by
      split at heq <;> cases heq <;> exact ⟨rfl, rfl⟩
    obtain ⟨rfl, rfl⟩ := hprocs
    exact hmet
  | heartbeat o =>
    simp only [Proc.react] at h
    split at h
    · cases h
    · cases h
    · obtain ⟨⟨e', failures'⟩, hbeat, heq⟩ := Option.map_eq_some_iff.mp h
      cases heq
      rcases heartbeat_cases hbeat with rfl | ⟨rfl, -⟩
      · exact ⟨trivial, hcopy⟩
      · exact ⟨trivial, hcopy.grows (.of_eq rfl rfl rfl rfl rfl rfl)⟩
  | crash =>
    simp only [Proc.react] at h
    split at h
    · cases h
      exact ⟨trivial, trivial⟩
    · cases h
  | tick seconds =>
    cases h
    exact ⟨trivial, hcopy.grows (.of_eq rfl rfl rfl rfl rfl rfl)⟩

end Verifying

/-! ### Runs -/

/-- An object of another length lies under the digest of the bytes to be copied there, and SHA-256
does not tell the two apart. -/
def exposesCollision (cfg : UploadConfig) (s : UploadState) (d : Sha256Digest)
    (src : Option Bytes) : Bool :=
  src.any fun body => (s.blobObjects d).any fun old =>
    old.length ≠ body.length ∧ cfg.sha256 old = cfg.sha256 body

/-- The steps by which a completion may store other bytes than those it verified. -/
def mixesUpBytes (cfg : UploadConfig) (w : UploadWorld) (a : ℕ × Action) : Bool :=
  match (w.procs a.1).pc, a.2 with
  -- the session is gone, and the part list falls back to the session's own key
  | .fetchParts _, .step o => o = .ok && w.shared.session.isNone
  | .promoteCopy c part, .step o =>
    o ≠ .failed && exposesCollision cfg w.shared c.digest (w.shared.uploads part.storageKey)
  | .concatCopy c _ _, .step o =>
    o ≠ .failed && exposesCollision cfg w.shared c.digest (w.shared.uploads (.complete a.1))
  | _, _ => false

/-- A step that digs no hole and mixes up no bytes. -/
def keepsBytes (cfg : UploadConfig) (w : UploadWorld) (a : ℕ × Action) : Prop :=
  keepsObjects w a ∧ mixesUpBytes cfg w a = false

instance (cfg : UploadConfig) (w : UploadWorld) (a : ℕ × Action) :
    Decidable (keepsBytes cfg w a) :=
  inferInstanceAs (Decidable (_ ∧ _))

section Runs
variable {cfg : UploadConfig} {w : UploadWorld} {p : ℕ}

theorem length_eq_of_not_exposesCollision {s : UploadState} {d : Sha256Digest}
    {src : Option Bytes} (h : exposesCollision cfg s d src = false) :
    ∀ body old, src = some body → s.blobObjects d = some old →
      cfg.sha256 old = cfg.sha256 body → old.length = body.length := by
  rintro body old rfl hold hsha
  by_contra hlength
  simp [exposesCollision, hold, hsha, hlength] at h

theorem faithful_of_keepsBytes {o : Outcome} (h : mixesUpBytes cfg w (p, .step o) = false) :
    (w.procs p).pc.Faithful cfg p w.shared o := by
  unfold mixesUpBytes at h
  cases hpc : (w.procs p).pc with
  | fetchParts c =>
    rintro rfl
    simpa [hpc, Option.isSome_iff_ne_none] using h
  | promoteCopy c part =>
    intro ho
    have hclear : exposesCollision cfg w.shared c.digest
        (w.shared.uploads part.storageKey) = false := by simpa [hpc, ho] using h
    exact length_eq_of_not_exposesCollision hclear
  | concatCopy c parts acc =>
    intro ho
    have hclear : exposesCollision cfg w.shared c.digest
        (w.shared.uploads (.complete p)) = false := by simpa [hpc, ho] using h
    exact length_eq_of_not_exposesCollision hclear
  | _ => trivial

theorem reach_blobInv {store : BlobStore cfg} {now : ℕ}
    (h : (uploadMachine cfg).Reach (keepsBytes cfg) (UploadWorld.start store now) w) :
    BlobInv cfg w.shared ∧ ∀ p, CopyOk cfg p w.shared (w.procs p).pc := by
  -- the invariant of the session is known at every step
  have hstrong := h.strengthen (I := fun w => Inv cfg w.shared ∧
    ∀ p, ProcOk p (w.procs p) w.shared) fun t ht => reach_inv (ht.mono fun _ _ hok => hok.1)
  refine Protocol.reach_rely_guarantee (I := BlobInv cfg)
    (A := fun (p : ℕ) (l : Proc) (s : UploadState) => CopyOk cfg p s l.pc) hstrong
    ⟨store.sound, store.stored⟩ (fun _ => trivial) ?_
  rintro w p a s' l' hB hA ⟨⟨hkeeps, hbytes⟩, hI, hprocs⟩ hstep
  obtain ⟨⟨e, l''⟩, hreact, heq⟩ := Option.map_eq_some_iff.mp hstep
  cases heq
  have hfaithful : ∀ o, a = .step o → (w.procs p).pc.Faithful cfg p w.shared o := by
    rintro o rfl
    exact faithful_of_keepsBytes hbytes
  obtain ⟨hsafe, -⟩ := react_safe hI hprocs hkeeps hreact
  obtain ⟨hverified, hcopy⟩ := react_verified hI hB (hA p) hfaithful hreact
  exact ⟨hverified.blobInv hB, hcopy, fun q _ => (hA q).grows (hsafe.grows hverified)⟩

/-- Integrity of chunked uploads. While the session is open its part rows are numbered without a
gap, their sizes add up to `bytes_received`, and their objects are the body of the POST followed by
the bodies of the PATCH requests in the order they were accepted. Where a completion has answered
201, the object under the digest has that digest and the recorded size is its length. -/
theorem upload_integrity (cfg : UploadConfig) (store : BlobStore cfg) (now : ℕ) (w : UploadWorld)
    (h : (uploadMachine cfg).Reach (keepsBytes cfg) (UploadWorld.start store now) w) :
    (∀ row, w.shared.session = some row → row.state = .opened →
      w.shared.orderedParts.map PartRow.partIndex = List.range w.shared.parts.length ∧
      (w.shared.orderedParts.map PartRow.sizeBytes).sum = row.bytesReceived ∧
      w.shared.concatParts = some (w.shared.initial ++ w.shared.accepted.flatten)) ∧
    ∀ p d, (w.procs p).pc = .done (.created d) →
      ∃ body, w.shared.blobObjects d = some body ∧ cfg.sha256 body = d ∧
        w.shared.blobs d = some body.length := by
  constructor
  · intro row hrow hopened
    have hI := (reach_inv (h.mono fun _ _ hok => hok.1)).1
    rw [hI.orderedParts_eq]
    exact ⟨hI.indexed, hI.received row hrow, hI.concatParts_eq hrow hopened⟩
  · intro p d hdone
    obtain ⟨hB, hcopy⟩ := reach_blobInv h
    have hrow := hcopy p
    rw [hdone] at hrow
    obtain ⟨n, hn⟩ := Option.isSome_iff_exists.mp hrow
    obtain ⟨body, hbody, hlength⟩ := hB.sized d n hn
    exact ⟨body, hbody, hB.sound d body hbody, by rw [hn, hlength]⟩

end Runs

/-- A POST that carries the first bytes itself. -/
def postOfA : List (ℕ × Action) := requestRun 0 (.post [97]) [.ok, .ok, .ok, .ok]

/-- A completion claims the session and stands still; six hours on another one takes its claim and
commits. Before that one has deleted the session's own empty object the first one reads the part
list, finds no row, and promotes the empty object to the digest. -/
def staleCompletion : List (ℕ × Action) :=
  List.flatten [uploadOfA, requestRun 2 completionOfA [.ok, .ok], [(9, .tick 21601)],
    requestRun 3 completionOfA (List.replicate 8 .ok), List.replicate 4 (2, .step .ok),
    List.replicate 3 (3, .step .ok)]

/-- Without the conditions: the bytes of a POST are no PATCH's; a sweep takes the objects of an open
session; and an overtaken completion overwrites a blob that was answered with 201. -/
theorem integrity_exceptions :
    (∃ w, (uploadMachine smallConfig).run smallStart postOfA = some w ∧
      w.shared.isOpen = true ∧ w.shared.concatParts ≠ some w.shared.accepted.flatten) ∧
    (∃ w, (uploadMachine smallConfig).run smallStart sweepOfOpen = some w ∧
      w.shared.isOpen = true ∧ w.shared.concatParts = none) ∧
    ∃ w, (uploadMachine smallConfig).run smallStart staleCompletion = some w ∧
      (w.procs 3).pc = .done (.created digestOfA) ∧
      w.shared.blobObjects digestOfA = some [] ∧ smallConfig.sha256 [] ≠ digestOfA :=
  ⟨⟨_, rfl, rfl, by decide⟩, ⟨_, rfl, rfl, by decide⟩, ⟨_, rfl, rfl, rfl, by decide⟩⟩

/-- The single part is promoted as it is. -/
def promotedUpload : List (ℕ × Action) :=
  List.flatten [uploadOfA, requestRun 2 completionOfA (List.replicate 11 .ok)]

/-- The part and the last byte, which comes with the completion, are concatenated. -/
def concatenatedUpload : List (ℕ × Action) :=
  List.flatten [uploadOfA,
    requestRun 2 (.complete (smallConfig.sha256 [97, 98]) noHeaders none [98])
      (List.replicate 22 .ok)]

theorem upload_integrity_of_a :
    (∃ w, (uploadMachine smallConfig).run smallStart uploadOfA = some w ∧
      w.shared.isOpen = true ∧
      w.shared.concatParts = some (w.shared.initial ++ w.shared.accepted.flatten)) ∧
    (∃ w, (uploadMachine smallConfig).run smallStart promotedUpload = some w ∧
      ∃ body, w.shared.blobObjects digestOfA = some body ∧ smallConfig.sha256 body = digestOfA ∧
        w.shared.blobs digestOfA = some body.length) ∧
    ∃ w, (uploadMachine smallConfig).run smallStart concatenatedUpload = some w ∧
      ∃ body, w.shared.blobObjects (smallConfig.sha256 [97, 98]) = some body ∧
        smallConfig.sha256 body = smallConfig.sha256 [97, 98] ∧
        w.shared.blobs (smallConfig.sha256 [97, 98]) = some body.length := by
  have hopen : (uploadMachine smallConfig).Meets (keepsBytes smallConfig) smallStart uploadOfA := by
    decide
  have hpromoted : (uploadMachine smallConfig).Meets (keepsBytes smallConfig) smallStart
      promotedUpload := by
    decide
  have hconcat : (uploadMachine smallConfig).Meets (keepsBytes smallConfig) smallStart
      concatenatedUpload := by
    decide
  have hintegrity := fun w => upload_integrity smallConfig (.empty smallConfig) 0 w
  refine ⟨⟨_, rfl, rfl, ?_⟩, ⟨_, rfl, ?_⟩, ⟨_, rfl, ?_⟩⟩
  · exact ((hintegrity _ (Machine.reach_of_run _ rfl hopen)).1 _ rfl rfl).2.2
  · exact (hintegrity _ (Machine.reach_of_run _ rfl hpromoted)).2 2 _ rfl
  · exact (hintegrity _ (Machine.reach_of_run _ rfl hconcat)).2 2 _ rfl

end ArtifactKeeper.Oci
