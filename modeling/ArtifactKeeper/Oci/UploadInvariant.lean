import ArtifactKeeper.Oci.Upload
import Mathlib.Data.List.Forall2
import Mathlib.Data.List.Infix

/-! What holds of an upload session while no step digs a hole into it: the part rows describe what
was accepted, and the objects of an open session are all there. -/

namespace ArtifactKeeper.Oci

namespace UploadState
variable (s : UploadState)

/-- Every part row has its object. -/
def Intact : Prop := ∀ part ∈ s.parts, ∃ body, s.uploads part.storageKey = some body

/-- A sweep holds the row and has deleted objects of the session. -/
def Swept : Prop := ∃ l, s.rowLock = some l ∧ l.deleted = true

/-- The bodies behind the part rows, in order. -/
def bodies : List Bytes := (if s.initial = [] then [] else [s.initial]) ++ s.accepted

end UploadState

def DescribesBody (s : UploadState) (part : PartRow) (body : Bytes) : Prop :=
  s.written part.storageKey = some body ∧ part.sizeBytes = body.length

structure Inv (cfg : UploadConfig) (s : UploadState) : Prop where
  indexed : s.parts.map PartRow.partIndex = List.range s.parts.length
  keyed : ∀ part ∈ s.parts,
    part.storageKey = .temp ∨ ∃ id, part.storageKey = .part part.partIndex id
  stored : ∀ key body, s.uploads key = some body → s.written key = some body
  contents : s.session.isSome = true → List.Forall₂ (DescribesBody s) s.parts s.bodies
  gone : s.session = none → s.parts = []
  received : ∀ row, s.session = some row →
    (s.parts.map PartRow.sizeBytes).sum = row.bytesReceived
  digest : ∀ row d, s.session = some row → row.computedDigest = some d →
    ∃ body, s.bodies = [body] ∧ cfg.sha256 body = d
  token : ∀ row, s.session = some row → row.state = .opened → row.stateToken = none
  owned : ∀ row, s.session = some row → row.state = .committing → ∃ q, row.stateToken = some q
  intact : ∀ row, s.session = some row → row.state = .opened → s.Intact
  created : s.session.isSome = true → s.created = true
  fresh : s.created = false → s.initial = [] ∧ s.accepted = []
  undrawn : s.poster = none → s.created = false ∧ s.written .temp = none

/-! ### What a request relies on -/

section Assertions
variable (p : ℕ) (s : UploadState)

def Unwritten : Prop := ∀ key : UploadKey, key.owner = some p → s.written key = none

def Unlisted : Prop := ∀ part ∈ s.parts, part.storageKey.owner ≠ some p

/-- The POST `p` has drawn the session id and not inserted the row. -/
def Posting : Prop := s.poster = some p ∧ s.created = false

/-- `row` was read by a PATCH when the session was open. -/
def Fetched (row : OciUploadSessionRecord) : Prop :=
  s.created = true ∧ (row.partCount = 0 → row.bytesReceived = 0) ∧
    (s.session.isSome = true → row.partCount ≤ s.parts.length)

/-- The row is gone, or claimed by `p`. -/
def Claimed : Prop :=
  s.created = true ∧ ∀ row, s.session = some row → row.stateToken = some p

def Listed (key : UploadKey) : Prop :=
  s.session.isSome = true → key = .temp ∨ ∃ part ∈ s.parts, part.storageKey = key

/-- A key no part row names, nor will. -/
def Discardable (key : UploadKey) : Prop :=
  (key.owner = some p ∧ Unlisted p s) ∨ (key = .temp ∧ Posting p s)

/-- `p` sweeps the session and holds its row lock. -/
def Sweeping : Prop :=
  (∃ deleted, s.rowLock = some ⟨p, deleted⟩) ∧ s.created = true ∧ s.session.isSome = true ∧
    ∀ row, s.session = some row → row.state = .opened → s.parts = []

/-- Where `p` holds the claim, the objects are there or a sweep is at work on them. -/
def Held : Prop :=
  ∀ row, s.session = some row → row.stateToken = some p → s.Intact ∨ s.Swept

/-- A completion past its claim. -/
def Completing (req : Option Request) : Prop :=
  req ≠ some .cancel ∧ Unlisted p s ∧ s.created = true

def Finalizing (req : Option Request) (c : Completion) : Prop :=
  Completing p s req ∧ ∀ key ∈ c.finalKeys, key.owner = some p

/-- A request on its way back: it may delete the keys, and give back a claim. -/
def Abortable (req : Option Request) (keys : List UploadKey) : Prop :=
  (∀ key ∈ keys, Discardable p s key) ∧ (req = some .cancel → keys = [] ∧ Held p s)

/-- What request `p`, which is `req`, relies on at each place. -/
def PcOk (req : Option Request) : Pc → Prop
  | .idle => req = none ∧ Unwritten p s ∧ Unlisted p s
  | .patchFetch _ _ => Unwritten p s ∧ Unlisted p s
  | .completeClaim .. => req ≠ some .cancel ∧ Unwritten p s ∧ Unlisted p s
  | .postRegister _ | .postPut _ => Posting p s ∧ s.written .temp = none
  | .postMark body | .postTx body => Posting p s ∧ s.uploads .temp = some body
  | .patchRegister row _ | .patchPut row _ => Unwritten p s ∧ Unlisted p s ∧ Fetched s row
  | .patchMark row body | .patchTx row body =>
    Unlisted p s ∧ Fetched s row ∧
      (s.session.isSome = true → s.uploads (row.partKey p) = some body)
  | .patchRecover row _ =>
    ∀ part ∈ s.parts, part.storageKey.owner = some p → part.storageKey = row.partKey p
  | .discard keys _ => ∀ key ∈ keys, Discardable p s key
  | .abort keys _ => Abortable p s req keys
  | .cancelReset _ | .sweepLock | .done _ => True
  | .cancelClaim => req = some .cancel
  | .cancelFetch => req = some .cancel ∧ Claimed p s ∧ Held p s
  | .cancelDelete keys => req = some .cancel ∧ Claimed p s ∧ ∀ key ∈ keys, Listed s key
  | .finalRegister .. | .finalPut .. => Unwritten p s ∧ Completing p s req
  | .finalDrop _ _ | .finalMark _ _ _ => Completing p s req ∧ s.written (.complete p) = none
  | .fetchParts c | .promoteRegister c _ | .promoteCopy c _ | .concatRegister c _
  | .concatRead c _ _ _ => Finalizing p s req c ∧ s.written (.complete p) = none
  | .concatMark c _ _ | .concatVerify c _ _ | .concatCopy c _ _ | .concatDrop c _ _
  | .completeTx c _ _ | .completeRecover c _ _ => Finalizing p s req c
  | .lease lost next =>
    req ≠ some .cancel ∧ (∀ key ∈ lost, Discardable p s key) ∧ PcOk req next
  | .cleanup _ _ => s.session = none ∧ s.created = true
  | .sweepDelete keys _ => Sweeping p s ∧ ∀ key ∈ keys, Listed s key

end Assertions

structure ProcOk (p : ℕ) (l : Proc) (s : UploadState) : Prop where
  /-- Only a cancel deletes objects under its claim. -/
  held : l.request ≠ some .cancel → Held p s
  pcOk : PcOk p s l.request l.pc

/-! ### Effects -/

/-- When an effect of request `p` keeps the invariant and what every other request relies on; the
claims of the requests in `free` may be taken over. -/
def Effect.Safe (p : ℕ) (req : Option Request) (free : ℕ → Prop) (s : UploadState) : Effect → Prop
  | .nop | .tick _ | .putBlob _ _ => True
  | .draw id => id = p ∧ s.poster = none
  | .put key _ => s.written key = none ∧ (key.owner = some p ∨ key = .temp ∧ Posting p s)
  | .delete key => Discardable p s key ∨ (s.session = none ∧ s.created = true) ∨
      (req = some .cancel ∧ Claimed p s ∧ Listed s key)
  | .create body => Posting p s ∧ s.uploads .temp = some body
  | .append id row body => id = p ∧ s.rowLock = none ∧ s.patchApplies row = true ∧
      Unlisted p s ∧ Fetched s row ∧ s.uploads (row.partKey p) = some body
  | .claim token => token = p ∧ s.rowLock = none ∧ s.Intact ∧
      ∀ row q, s.session = some row → row.stateToken = some q → free q
  | .touch => s.rowLock = none
  | .reset => s.rowLock = none ∧ s.Intact ∧ ∀ row, s.session = some row → row.stateToken = some p
  | .drop | .finish _ _ => s.rowLock = none ∨ ∃ deleted, s.rowLock = some ⟨p, deleted⟩
  | .lock holder => holder = p ∧ s.rowLock = none
  | .sweepDelete key => Sweeping p s ∧ Listed s key
  | .unlock => s.rowLock = some ⟨p, false⟩

/-- What the effects of other requests leave to request `q`. A cancel is promised its claim. -/
structure Rely (q : ℕ) (cancels : Prop) (s s' : UploadState) : Prop where
  unwritten : ∀ key : UploadKey, key.owner = some q → s.written key = none → s'.written key = none
  drawn : Posting q s → Posting q s' ∧ s'.uploads .temp = s.uploads .temp ∧
    s'.written .temp = s.written .temp
  created : s.created = true → s'.created = true
  survives : s.created = true → s'.session.isSome = true →
    s.session.isSome = true ∧ s.parts <+: s'.parts
  unlisted : ∀ part ∈ s'.parts, part ∈ s.parts ∨ part.storageKey.owner ≠ some q
  own : s.created = true → s'.session.isSome = true → Unlisted q s →
    ∀ key : UploadKey, key.owner = some q → s'.uploads key = s.uploads key
  locked : s.created = true → ∀ deleted, s.rowLock = some ⟨q, deleted⟩ →
    s'.rowLock = s.rowLock ∧ s'.session = s.session ∧ s'.parts = s.parts
  claimed : cancels → Claimed q s → Claimed q s'
  holds : ∀ row', s'.session = some row' → row'.stateToken = some q →
    ∃ row, s.session = some row ∧ row.stateToken = some q ∧
      (s.Intact ∨ s.Swept → s'.Intact ∨ s'.Swept)

/-! #### Effects on the session's objects -/

section Effects
variable {p : ℕ} {s : UploadState}

@[simp] theorem UploadState.withSession_isSome (f : SessionRow → SessionRow) :
    (s.withSession f).session.isSome = s.session.isSome := by
  simp [UploadState.withSession]

theorem UploadState.Intact.putUpload (h : s.Intact) (key : UploadKey) (body : Bytes) :
    (s.putUpload key body).Intact := by
  intro part hpart
  obtain ⟨b, hb⟩ := h part hpart
  by_cases hk : part.storageKey = key
  · exact ⟨body, by simp [UploadState.putUpload, hk]⟩
  · exact ⟨b, by simpa [UploadState.putUpload, hk] using hb⟩

theorem UploadState.Intact.deleteUpload (h : s.Intact) {key : UploadKey}
    (hkey : ∀ part ∈ s.parts, part.storageKey ≠ key) : (s.deleteUpload key).Intact := by
  intro part hpart
  obtain ⟨b, hb⟩ := h part hpart
  exact ⟨b, by simpa [UploadState.deleteUpload, hkey part hpart] using hb⟩

theorem Posting.session_none {cfg : UploadConfig} (h : Posting p s) (hI : Inv cfg s) :
    s.session = none := by
  by_contra hsome
  have hcreated := hI.created (Option.isSome_iff_ne_none.mpr hsome)
  rw [h.2] at hcreated
  cases hcreated

/-- A discardable key is the key of no part row. -/
theorem Discardable.unlisted {cfg : UploadConfig} {key : UploadKey} (h : Discardable p s key)
    (hI : Inv cfg s) : ∀ part ∈ s.parts, part.storageKey ≠ key := by
  intro part hpart heq
  rcases h with ⟨howner, hunlisted⟩ | ⟨-, hposting⟩
  · exact hunlisted part hpart (heq ▸ howner)
  · simp [hI.gone (hposting.session_none hI)] at hpart

/-- Two requests cannot both be the POST that draws the session id. -/
theorem Posting.eq {q : ℕ} (h : Posting p s) (h' : Posting q s) : p = q := by
  have := h.1.symm.trans h'.1
  simpa using this

theorem UploadState.Intact.of_eq {s' : UploadState} (h : s.Intact) (hparts : s'.parts = s.parts)
    (huploads : s'.uploads = s.uploads) : s'.Intact := by
  intro part hpart
  rw [hparts] at hpart
  rw [huploads]
  exact h part hpart

end Effects

/-! #### What the effects of one request leave to another -/

section Relying
variable {p q : ℕ} {req : Option Request} {free : ℕ → Prop} {cancels : Prop}
  {s s' : UploadState} {cfg : UploadConfig}

/-- An effect that leaves the session, its parts and its objects alone. -/
theorem Rely.of_eq (hsession : s'.session = s.session) (hparts : s'.parts = s.parts)
    (huploads : s'.uploads = s.uploads) (hlock : s'.rowLock = s.rowLock)
    (hposter : s'.poster = s.poster) (hcreated : s'.created = s.created)
    (hwritten : s'.written = s.written) : Rely q cancels s s' where
  unwritten key _ h := by rw [hwritten]; exact h
  drawn h := ⟨⟨hposter.trans h.1, hcreated.trans h.2⟩, by rw [huploads], by rw [hwritten]⟩
  created h := hcreated.trans h
  survives _ h := ⟨hsession ▸ h, hparts ▸ List.prefix_refl _⟩
  unlisted part h := .inl (hparts ▸ h)
  own _ _ _ key _ := by rw [huploads]
  locked _ _ _ := ⟨hlock, hsession, hparts⟩
  claimed _ h := ⟨hcreated.trans h.1, fun row hrow => h.2 row (hsession ▸ hrow)⟩
  holds row hrow htoken := by
    refine ⟨row, hsession ▸ hrow, htoken, ?_⟩
    rintro (hintact | ⟨l, hl, hdeleted⟩)
    · exact .inl (hintact.of_eq hparts huploads)
    · exact .inr ⟨l, hlock.trans hl, hdeleted⟩

theorem Rely.put (hq : q ≠ p) {key : UploadKey} {body : Bytes}
    (h : (Effect.put key body).Safe p req free s) :
    Rely q cancels s (s.putUpload key body) := by
  obtain ⟨-, hkey⟩ := h
  have hother : ∀ key', key'.owner = some q → key' ≠ key := by
    rintro key' howner rfl
    rcases hkey with hp | ⟨rfl, -⟩
    · exact hq (by simpa using howner.symm.trans hp)
    · cases howner
  refine ⟨?_, ?_, id, fun _ h => ⟨h, List.prefix_refl _⟩, fun _ h => .inl h, ?_,
    fun _ _ _ => ⟨rfl, rfl, rfl⟩, fun _ h => h, ?_⟩
  · intro key' howner hnone
    simpa [UploadState.putUpload, hother key' howner] using hnone
  · intro hposting
    have htemp : UploadKey.temp ≠ key := by
      rintro rfl
      rcases hkey with hp | ⟨-, hp⟩
      · cases hp
      · exact hq (hposting.eq hp)
    exact ⟨hposting, by simp [UploadState.putUpload, htemp], by simp [UploadState.putUpload, htemp]⟩
  · intro _ _ _ key' howner
    simp [UploadState.putUpload, hother key' howner]
  · intro row hrow htoken
    refine ⟨row, hrow, htoken, ?_⟩
    rintro (hintact | hswept)
    · exact .inl (hintact.putUpload key body)
    · exact .inr hswept

theorem Rely.delete (hq : q ≠ p) (hI : Inv cfg s) {key : UploadKey}
    (h : (Effect.delete key).Safe p req free s) : Rely q cancels s (s.deleteUpload key) := by
  refine ⟨fun _ _ h => h, ?_, id, fun _ h => ⟨h, List.prefix_refl _⟩, fun _ h => .inl h, ?_,
    fun _ _ _ => ⟨rfl, rfl, rfl⟩, fun _ h => h, ?_⟩
  · intro hposting
    have htemp : UploadKey.temp ≠ key := by
      rintro rfl
      rcases h with (⟨howner, -⟩ | ⟨-, hp⟩) | ⟨-, hcreated⟩ | ⟨-, hclaimed, -⟩
      · cases howner
      · exact hq (hposting.eq hp)
      · exact absurd hcreated (by simp [hposting.2])
      · exact absurd hclaimed.1 (by simp [hposting.2])
    exact ⟨hposting, by simp [UploadState.deleteUpload, htemp], rfl⟩
  · intro _ hsome hunlisted key' howner
    have hne : key' ≠ key := by
      rintro rfl
      rcases h with (⟨howner', -⟩ | ⟨rfl, -⟩) | ⟨hnone, -⟩ | ⟨-, -, hlisted⟩
      · exact hq (by simpa using howner.symm.trans howner')
      · cases howner
      · simp [UploadState.deleteUpload, hnone] at hsome
      · rcases hlisted hsome with rfl | ⟨part, hpart, rfl⟩
        · cases howner
        · exact hunlisted part hpart howner
    simp [UploadState.deleteUpload, hne]
  · intro row hrow htoken
    refine ⟨row, hrow, htoken, ?_⟩
    rintro (hintact | hswept)
    · rcases h with hdiscard | ⟨hnone, -⟩ | ⟨-, hclaimed, -⟩
      · exact .inl (hintact.deleteUpload (hdiscard.unlisted hI))
      · cases hnone.symm.trans hrow
      · exact absurd (hclaimed.2 row hrow) (by simpa [htoken] using hq)
    · exact .inr hswept

theorem Rely.sweepDelete (hq : q ≠ p) {key : UploadKey}
    (h : (Effect.sweepDelete key).Safe p req free s) :
    Rely q cancels s (s.apply cfg (.sweepDelete key)) := by
  obtain ⟨⟨⟨deleted, hlock⟩, hcreated, hsession, -⟩, hlisted⟩ := h
  refine ⟨fun _ _ h => h, ?_, id, fun _ h => ⟨h, List.prefix_refl _⟩, fun _ h => .inl h, ?_, ?_,
    fun _ h => h, ?_⟩
  · intro hposting
    exact absurd hcreated (by simp [hposting.2])
  · intro _ hsome hunlisted key' howner
    have hne : key' ≠ key := by
      rintro rfl
      rcases hlisted hsome with rfl | ⟨part, hpart, rfl⟩
      · cases howner
      · exact hunlisted part hpart howner
    simp [UploadState.apply, UploadState.deleteUpload, hne]
  · intro _ deleted' hlock'
    rw [hlock] at hlock'
    simp only [Option.some.injEq, RowLock.mk.injEq] at hlock'
    exact absurd hlock'.1.symm hq
  · intro row hrow htoken
    exact ⟨row, hrow, htoken, fun _ => .inr ⟨⟨p, true⟩, by simp [UploadState.apply, hlock], rfl⟩⟩

theorem Rely.unlock (hq : q ≠ p) (h : Effect.unlock.Safe p req free s) :
    Rely q cancels s (s.apply cfg .unlock) := by
  refine ⟨fun _ _ h => h, fun h => ⟨h, rfl, rfl⟩, id, fun _ h => ⟨h, List.prefix_refl _⟩,
    fun _ h => .inl h, fun _ _ _ _ _ => rfl, ?_, fun _ h => h, ?_⟩
  · intro _ deleted' hlock'
    have := h.symm.trans hlock'
    simp only [Option.some.injEq, RowLock.mk.injEq] at this
    exact absurd this.1.symm hq
  · intro row hrow htoken
    refine ⟨row, hrow, htoken, ?_⟩
    rintro (hintact | ⟨l, hl, hdeleted⟩)
    · exact .inl hintact
    · cases h.symm.trans hl
      cases hdeleted

theorem Rely.lock (h : (Effect.lock p).Safe p req free s) :
    Rely q cancels s (s.apply cfg (.lock p)) := by
  refine ⟨fun _ _ h => h, fun h => ⟨h, rfl, rfl⟩, id, fun _ h => ⟨h, List.prefix_refl _⟩,
    fun _ h => .inl h, fun _ _ _ _ _ => rfl, ?_, fun _ h => h, ?_⟩
  · intro _ deleted' hlock'
    cases h.2.symm.trans hlock'
  · intro row hrow htoken
    refine ⟨row, hrow, htoken, ?_⟩
    rintro (hintact | ⟨l, hl, -⟩)
    · exact .inl hintact
    · cases h.2.symm.trans hl

theorem Rely.draw (h : (Effect.draw p).Safe p req free s) :
    Rely q cancels s (s.apply cfg (.draw p)) := by
  refine ⟨fun _ _ h => h, ?_, id, fun _ h => ⟨h, List.prefix_refl _⟩, fun _ h => .inl h,
    fun _ _ _ _ _ => rfl, fun _ _ _ => ⟨rfl, rfl, rfl⟩, fun _ h => h,
    fun row hrow htoken => ⟨row, hrow, htoken, id⟩⟩
  intro hposting
  cases h.2.symm.trans hposting.1

theorem Rely.create (hq : q ≠ p) {body : Bytes}
    (h : (Effect.create body).Safe p req free s) : Rely q cancels s (s.createSession cfg body) := by
  obtain ⟨hposting, -⟩ := h
  have hfalse : ¬ s.created = true := by simp [hposting.2]
  refine ⟨fun _ _ h => h, fun h => absurd (h.eq hposting) hq, fun h => absurd h hfalse,
    fun h => absurd h hfalse, ?_, fun h => absurd h hfalse, fun h => absurd h hfalse,
    fun _ h => absurd h.1 hfalse, ?_⟩
  · intro part hpart
    right
    by_cases hbody : body = []
    · simp [UploadState.createSession, hbody] at hpart
    · simp only [UploadState.createSession, hbody, ↓reduceIte, List.mem_singleton] at hpart
      simp [hpart, UploadKey.owner]
  · intro row hrow htoken
    simp only [UploadState.createSession, Option.some.injEq] at hrow
    simp [← hrow] at htoken

/-- A change of the row alone, made while no sweep holds it. -/
theorem Rely.withSession {f : SessionRow → SessionRow} (hlock : s.rowLock = none)
    (hclaimed : cancels → ∀ row, s.session = some row → row.stateToken = some q →
      (f row).stateToken = some q)
    (hholds : ∀ row, s.session = some row → (f row).stateToken = some q →
      row.stateToken = some q) : Rely q cancels s (s.withSession f) := by
  refine ⟨fun _ _ h => h, fun h => ⟨h, rfl, rfl⟩, id, ?_, fun _ h => .inl h,
    fun _ _ _ _ _ => rfl, ?_, ?_, ?_⟩
  · intro _ hsome
    exact ⟨by simpa using hsome, List.prefix_refl _⟩
  · intro _ deleted hl
    cases hlock.symm.trans hl
  · rintro hc ⟨hcreated, htoken⟩
    refine ⟨hcreated, fun row' hrow' => ?_⟩
    obtain ⟨row, hrow, rfl⟩ := Option.map_eq_some_iff.mp hrow'
    exact hclaimed hc row hrow (htoken row hrow)
  · intro row' hrow' htoken
    obtain ⟨row, hrow, rfl⟩ := Option.map_eq_some_iff.mp hrow'
    exact ⟨row, hrow, hholds row hrow htoken, id⟩

theorem Rely.claim (hq : q ≠ p) (h : (Effect.claim p).Safe p req free s)
    (hfree : cancels → ¬ free q) : Rely q cancels s (s.apply cfg (.claim p)) := by
  refine Rely.withSession h.2.1 ?_ ?_
  · intro hc row hrow htoken
    exact absurd (h.2.2.2 row q hrow htoken) (hfree hc)
  · intro row _ htoken
    simp only [Option.some.injEq] at htoken
    exact absurd htoken.symm hq

theorem Rely.reset (hq : q ≠ p) (h : Effect.reset.Safe p req free s) :
    Rely q cancels s (s.apply cfg .reset) := by
  refine Rely.withSession h.1 ?_ ?_
  · intro _ row hrow htoken
    have := htoken.symm.trans (h.2.2 row hrow)
    exact absurd (by simpa using this) hq
  · intro row _ htoken
    cases htoken

theorem Rely.touch (h : Effect.touch.Safe p req free s) : Rely q cancels s (s.apply cfg .touch) :=
  Rely.withSession h (fun _ _ _ h => h) (fun _ _ h => h)

/-- The row goes, with its parts. -/
theorem Rely.gone (hq : q ≠ p) (hsession : s'.session = none) (hparts : s'.parts = [])
    (hlock : s.rowLock = none ∨ ∃ deleted, s.rowLock = some ⟨p, deleted⟩)
    (huploads : s'.uploads = s.uploads) (hposter : s'.poster = s.poster)
    (hcreated : s'.created = s.created) (hwritten : s'.written = s.written) :
    Rely q cancels s s' where
  unwritten key _ h := by rw [hwritten]; exact h
  drawn h := ⟨⟨hposter.trans h.1, hcreated.trans h.2⟩, by rw [huploads], by rw [hwritten]⟩
  created h := hcreated.trans h
  survives _ h := by simp [hsession] at h
  unlisted part h := by simp [hparts] at h
  own _ h := by simp [hsession] at h
  locked _ deleted h := by
    rcases hlock with hnone | ⟨deleted', hp⟩
    · cases hnone.symm.trans h
    · have := hp.symm.trans h
      simp only [Option.some.injEq, RowLock.mk.injEq] at this
      exact absurd this.1.symm hq
  claimed _ h := ⟨hcreated.trans h.1, fun row hrow => by simp [hsession] at hrow⟩
  holds row hrow := by simp [hsession] at hrow

/-! #### The transaction of a PATCH -/

theorem Fetched.nextPartIndex_eq {row : OciUploadSessionRecord} (h : Fetched s row) :
    row.nextPartIndex = row.partCount := by
  unfold OciUploadSessionRecord.nextPartIndex
  by_cases hcount : row.partCount = 0
  · simp [hcount, h.2.1 hcount]
  · simp [hcount]

/-- Sessions from before part rows existed are not made any more. -/
theorem Fetched.backfill_eq {row : OciUploadSessionRecord} (h : Fetched s row)
    (parts : List PartRow) : row.backfill parts = parts := by
  unfold OciUploadSessionRecord.backfill
  by_cases hcount : row.partCount = 0
  · simp [h.2.1 hcount]
  · simp [hcount]

theorem patchApplies_row {row : OciUploadSessionRecord} (h : s.patchApplies row = true) :
    ∃ r, s.session = some r ∧ r.state = .opened ∧ r.bytesReceived = row.bytesReceived := by
  simp only [UploadState.patchApplies, decide_eq_true_eq, Option.any_eq_true] at h
  obtain ⟨-, r, hr, heq⟩ := h
  exact ⟨r, hr, by simpa using heq⟩

/-- The optimistic claim of an index: the free index a PATCH read is the next one. -/
theorem patchApplies_index {row : OciUploadSessionRecord} (hI : Inv cfg s) (hf : Fetched s row)
    (h : s.patchApplies row = true) : row.nextPartIndex = s.parts.length := by
  obtain ⟨r, hr, -, -⟩ := patchApplies_row h
  have hle : row.partCount ≤ s.parts.length := hf.2.2 (by simp [hr])
  simp only [UploadState.patchApplies, hf.backfill_eq, decide_eq_true_eq, List.any_eq_true,
    not_exists, not_and] at h
  have hnot : row.nextPartIndex ∉ s.parts.map PartRow.partIndex := by
    simp only [List.mem_map, not_exists, not_and]
    exact fun part hpart => by simpa using h.1 part hpart
  rw [hI.indexed, List.mem_range] at hnot
  rw [hf.nextPartIndex_eq] at hnot ⊢
  omega

theorem Rely.append (hq : q ≠ p) (hI : Inv cfg s) {row : OciUploadSessionRecord} {body : Bytes}
    (h : (Effect.append p row body).Safe p req free s) :
    Rely q cancels s (s.appendPart cfg p row body) := by
  obtain ⟨-, hlock, happlies, -, hfetched, -⟩ := h
  obtain ⟨r, hr, hopened, -⟩ := patchApplies_row happlies
  have hparts : (s.appendPart cfg p row body).parts =
      s.parts ++ [⟨row.nextPartIndex, row.partKey p, body.length⟩] := by
    simp [UploadState.appendPart, hfetched.backfill_eq]
  refine ⟨fun _ _ h => h, fun h => ⟨h, rfl, rfl⟩, id, ?_, ?_, fun _ _ _ _ _ => rfl, ?_, ?_, ?_⟩
  · intro _ _
    exact ⟨by simp [hr], hparts ▸ List.prefix_append _ _⟩
  · intro part hpart
    rw [hparts, List.mem_append, List.mem_singleton] at hpart
    rcases hpart with hpart | rfl
    · exact .inl hpart
    · right
      simpa [OciUploadSessionRecord.partKey, UploadKey.owner] using hq.symm
  · intro _ deleted hl
    cases hlock.symm.trans hl
  · rintro - ⟨hcreated, htoken⟩
    refine ⟨hcreated, fun row' hrow' => ?_⟩
    obtain ⟨r', hr', rfl⟩ := Option.map_eq_some_iff.mp hrow'
    exact htoken r' hr'
  · intro row' hrow' htoken
    obtain ⟨r', hr', rfl⟩ := Option.map_eq_some_iff.mp hrow'
    cases hr.symm.trans hr'
    cases (hI.token r hr hopened).symm.trans htoken

/-- Every safe effect of `p` leaves `q` what it relies on. -/
theorem Effect.Safe.rely (hq : q ≠ p) (hI : Inv cfg s) {e : Effect} (h : e.Safe p req free s)
    (hfree : cancels → ¬ free q) : Rely q cancels s (s.apply cfg e) := by
  cases e with
  | nop => exact .of_eq rfl rfl rfl rfl rfl rfl rfl
  | tick seconds => exact .of_eq rfl rfl rfl rfl rfl rfl rfl
  | putBlob digest body => exact .of_eq rfl rfl rfl rfl rfl rfl rfl
  | draw id =>
    obtain rfl : id = p := h.1
    exact .draw h
  | put key body => exact .put hq h
  | delete key => exact .delete hq hI h
  | create body => exact .create hq h
  | append id row body =>
    obtain rfl : id = p := h.1
    exact .append hq hI h
  | claim token =>
    obtain rfl : token = p := h.1
    exact .claim hq h hfree
  | touch => exact .touch h
  | reset => exact .reset hq h
  | drop => exact .gone hq rfl rfl h rfl rfl rfl rfl
  | finish digest sizeBytes => exact .gone hq rfl rfl h rfl rfl rfl rfl
  | lock holder =>
    obtain rfl : holder = p := h.1
    exact .lock h
  | sweepDelete key => exact .sweepDelete hq h
  | unlock => exact .unlock hq h

end Relying

/-! #### Assertions are stable -/

section Stability
variable {q : ℕ} {cancels : Prop} {s s' : UploadState}

theorem Unwritten.rely (h : Unwritten q s) (hr : Rely q cancels s s') : Unwritten q s' :=
  fun key howner => hr.unwritten key howner (h key howner)

theorem Unlisted.rely (h : Unlisted q s) (hr : Rely q cancels s s') : Unlisted q s' := by
  intro part hpart
  rcases hr.unlisted part hpart with hold | hnew
  · exact h part hold
  · exact hnew

theorem Fetched.rely {row : OciUploadSessionRecord} (h : Fetched s row)
    (hr : Rely q cancels s s') : Fetched s' row := by
  obtain ⟨hcreated, hzero, hcount⟩ := h
  refine ⟨hr.created hcreated, hzero, fun hsome => ?_⟩
  obtain ⟨hsome', hprefix⟩ := hr.survives hcreated hsome
  exact (hcount hsome').trans hprefix.length_le

theorem Listed.rely {key : UploadKey} (h : Listed s key) (hcreated : s.created = true)
    (hr : Rely q cancels s s') : Listed s' key := by
  intro hsome
  obtain ⟨hsome', hprefix⟩ := hr.survives hcreated hsome
  rcases h hsome' with htemp | ⟨part, hpart, hkey⟩
  · exact .inl htemp
  · exact .inr ⟨part, hprefix.subset hpart, hkey⟩

theorem Discardable.rely {key : UploadKey} (h : Discardable q s key)
    (hr : Rely q cancels s s') : Discardable q s' key := by
  rcases h with ⟨howner, hunlisted⟩ | ⟨htemp, hposting⟩
  · exact .inl ⟨howner, hunlisted.rely hr⟩
  · exact .inr ⟨htemp, (hr.drawn hposting).1⟩

theorem Sweeping.rely (h : Sweeping q s) (hr : Rely q cancels s s') : Sweeping q s' := by
  obtain ⟨⟨deleted, hlock⟩, hcreated, hsome, hempty⟩ := h
  obtain ⟨hlock', hsession, hparts⟩ := hr.locked hcreated deleted hlock
  refine ⟨⟨deleted, hlock'.trans hlock⟩, hr.created hcreated, hsession ▸ hsome, ?_⟩
  intro row hrow hopened
  rw [hparts]
  exact hempty row (hsession ▸ hrow) hopened

theorem Held.rely (h : Held q s) (hr : Rely q cancels s s') : Held q s' := by
  intro row' hrow' htoken'
  obtain ⟨row, hrow, htoken, hkeep⟩ := hr.holds row' hrow' htoken'
  exact hkeep (h row hrow htoken)

theorem Completing.rely {req : Option Request} (h : Completing q s req)
    (hr : Rely q cancels s s') : Completing q s' req :=
  ⟨h.1, h.2.1.rely hr, hr.created h.2.2⟩

theorem Finalizing.rely {req : Option Request} {c : Completion} (h : Finalizing q s req c)
    (hr : Rely q cancels s s') : Finalizing q s' req c :=
  ⟨h.1.rely hr, h.2⟩

theorem PcOk.rely {req : Option Request} {pc : Pc} (h : PcOk q s req pc)
    (hr : Rely q (req = some .cancel) s s') : PcOk q s' req pc := by
  induction pc with
  | idle | completeClaim _ _ _ _ => exact ⟨h.1, h.2.1.rely hr, h.2.2.rely hr⟩
  | patchFetch _ _ => exact ⟨h.1.rely hr, h.2.rely hr⟩
  | finalRegister _ _ _ | finalPut _ _ _ => exact ⟨h.1.rely hr, h.2.rely hr⟩
  | postRegister _ | postPut _ =>
    obtain ⟨hposting, -, hwritten⟩ := hr.drawn h.1
    exact ⟨hposting, hwritten.trans h.2⟩
  | postMark _ | postTx _ =>
    obtain ⟨hposting, huploads, -⟩ := hr.drawn h.1
    exact ⟨hposting, huploads.trans h.2⟩
  | patchRegister _ _ | patchPut _ _ => exact ⟨h.1.rely hr, h.2.1.rely hr, h.2.2.rely hr⟩
  | patchMark row _ | patchTx row _ =>
    obtain ⟨hunlisted, hfetched, hobject⟩ := h
    refine ⟨hunlisted.rely hr, hfetched.rely hr, fun hsome => ?_⟩
    rw [hr.own hfetched.1 hsome hunlisted _ rfl]
    exact hobject (hr.survives hfetched.1 hsome).1
  | patchRecover _ _ =>
    intro part hpart howner
    rcases hr.unlisted part hpart with hold | hnew
    · exact h part hold howner
    · exact absurd howner hnew
  | discard _ _ => exact fun key hkey => (h key hkey).rely hr
  | abort _ _ =>
    exact ⟨fun key hkey => (h.1 key hkey).rely hr, fun hc => ⟨(h.2 hc).1, (h.2 hc).2.rely hr⟩⟩
  | cancelReset _ | sweepLock | done _ => trivial
  | cancelClaim => exact h
  | cancelFetch => exact ⟨h.1, hr.claimed h.1 h.2.1, h.2.2.rely hr⟩
  | cancelDelete _ =>
    obtain ⟨hcancel, hclaimed, hlisted⟩ := h
    exact ⟨hcancel, hr.claimed hcancel hclaimed,
      fun key hkey => (hlisted key hkey).rely hclaimed.1 hr⟩
  | finalDrop _ _ | finalMark _ _ _ => exact ⟨h.1.rely hr, hr.unwritten _ rfl h.2⟩
  | fetchParts _ | promoteRegister _ _ | promoteCopy _ _ | concatRegister _ _
  | concatRead _ _ _ _ => exact ⟨h.1.rely hr, hr.unwritten _ rfl h.2⟩
  | concatMark _ _ _ | concatVerify _ _ _ | concatCopy _ _ _ | concatDrop _ _ _
  | completeTx _ _ _ | completeRecover _ _ _ => exact Finalizing.rely h hr
  | lease _ _ ih => exact ⟨h.1, fun key hkey => (h.2.1 key hkey).rely hr, ih h.2.2⟩
  | cleanup _ _ =>
    refine ⟨?_, hr.created h.2⟩
    by_contra hsome
    have := (hr.survives h.2 (Option.isSome_iff_ne_none.mpr hsome)).1
    simp [h.1] at this
  | sweepDelete _ _ => exact ⟨h.1.rely hr, fun key hkey => (h.2 key hkey).rely h.1.2.1 hr⟩

/-- What a request relies on survives the steps of the others. -/
theorem ProcOk.rely {l : Proc} (h : ProcOk q l s)
    (hr : Rely q (l.request = some .cancel) s s') : ProcOk q l s' :=
  ⟨fun hc => (h.held hc).rely hr, h.pcOk.rely hr⟩

end Stability

/-! #### Safe effects keep the invariant -/

section Preservation
variable {p : ℕ} {req : Option Request} {free : ℕ → Prop} {s s' : UploadState}
  {cfg : UploadConfig}

theorem Inv.congr (hI : Inv cfg s) (hsession : s'.session = s.session)
    (hparts : s'.parts = s.parts) (huploads : s'.uploads = s.uploads)
    (hwritten : s'.written = s.written) (hinitial : s'.initial = s.initial)
    (haccepted : s'.accepted = s.accepted) (hcreated : s'.created = s.created)
    (hposter : s'.poster = none → s.poster = none) : Inv cfg s' := by
  have hbodies : s'.bodies = s.bodies := by simp [UploadState.bodies, hinitial, haccepted]
  constructor
  · rw [hparts]; exact hI.indexed
  · rw [hparts]; exact hI.keyed
  · rw [huploads, hwritten]; exact hI.stored
  · intro hsome
    rw [hparts, hbodies]
    have hdescribes : DescribesBody s' = DescribesBody s := by
      funext part body
      simp [DescribesBody, hwritten]
    rw [hdescribes]
    exact hI.contents (hsession ▸ hsome)
  · intro hnone
    rw [hparts]
    exact hI.gone (hsession ▸ hnone)
  · intro row hrow
    rw [hparts]
    exact hI.received row (hsession ▸ hrow)
  · intro row d hrow hd
    rw [hbodies]
    exact hI.digest row d (hsession ▸ hrow) hd
  · exact fun row hrow => hI.token row (hsession ▸ hrow)
  · exact fun row hrow => hI.owned row (hsession ▸ hrow)
  · exact fun row hrow hopened => (hI.intact row (hsession ▸ hrow) hopened).of_eq hparts huploads
  · intro hsome
    rw [hcreated]
    exact hI.created (hsession ▸ hsome)
  · rw [hcreated, hinitial, haccepted]
    exact hI.fresh
  · intro hnone
    rw [hcreated, hwritten]
    exact hI.undrawn (hposter hnone)

/-- Write-once: a put to a key that was never written keeps what was written. -/
theorem Inv.putUpload (hI : Inv cfg s) {key : UploadKey} {body : Bytes}
    (h : (Effect.put key body).Safe p req free s) : Inv cfg (s.putUpload key body) := by
  obtain ⟨hkey, hmine⟩ := h
  refine ⟨hI.indexed, hI.keyed, ?_, ?_, hI.gone, hI.received, hI.digest, hI.token, hI.owned, ?_,
    hI.created, hI.fresh, ?_⟩
  · intro key' body' h
    by_cases hk : key' = key
    · subst hk
      simpa [UploadState.putUpload] using h
    · simp only [UploadState.putUpload, Function.update_of_ne hk] at h ⊢
      exact hI.stored key' body' h
  · intro hsome
    refine (hI.contents hsome).imp fun part body' h => ⟨?_, h.2⟩
    have hk : part.storageKey ≠ key := by
      intro hk
      rw [← hk, h.1] at hkey
      cases hkey
    simpa [UploadState.putUpload, Function.update_of_ne hk] using h.1
  · exact fun row hrow hopened => (hI.intact row hrow hopened).putUpload key body
  · intro hnone
    have htemp : UploadKey.temp ≠ key := by
      rintro rfl
      rcases hmine with howner | ⟨-, hposting⟩
      · cases howner
      · cases hposting.1.symm.trans hnone
    simpa [UploadState.putUpload, htemp] using hI.undrawn hnone

theorem Inv.deleteUpload (hI : Inv cfg s) {key : UploadKey}
    (hkey : ∀ row, s.session = some row → row.state = .opened →
      ∀ part ∈ s.parts, part.storageKey ≠ key) : Inv cfg (s.deleteUpload key) := by
  refine ⟨hI.indexed, hI.keyed, ?_, hI.contents, hI.gone, hI.received, hI.digest, hI.token,
    hI.owned, ?_, hI.created, hI.fresh, hI.undrawn⟩
  · intro key' body h
    by_cases hk : key' = key
    · simp [UploadState.deleteUpload, hk] at h
    · exact hI.stored key' body (by simpa [UploadState.deleteUpload, hk] using h)
  · intro row hrow hopened
    exact (hI.intact row hrow hopened).deleteUpload (hkey row hrow hopened)

theorem Inv.delete (hI : Inv cfg s) {key : UploadKey} (h : (Effect.delete key).Safe p req free s) :
    Inv cfg (s.deleteUpload key) := by
  apply hI.deleteUpload
  intro row hrow hopened
  rcases h with hdiscard | ⟨hnone, -⟩ | ⟨-, hclaimed, -⟩
  · exact hdiscard.unlisted hI
  · cases hnone.symm.trans hrow
  · cases (hI.token row hrow hopened).symm.trans (hclaimed.2 row hrow)

theorem Inv.sweepDelete (hI : Inv cfg s) {key : UploadKey}
    (h : (Effect.sweepDelete key).Safe p req free s) :
    Inv cfg (s.apply cfg (.sweepDelete key)) := by
  have hdelete : Inv cfg (s.deleteUpload key) := by
    apply hI.deleteUpload
    intro row hrow hopened part hpart
    simp [h.1.2.2.2 row hrow hopened] at hpart
  exact hdelete.congr rfl rfl rfl rfl rfl rfl rfl id

theorem Inv.createSession (hI : Inv cfg s) {body : Bytes}
    (h : (Effect.create body).Safe p req free s) :
    Inv cfg (s.createSession cfg body) := by
  obtain ⟨hposting, hobject⟩ := h
  have haccepted : s.accepted = [] := (hI.fresh hposting.2).2
  have hbodies : (s.createSession cfg body).bodies = if body = [] then [] else [body] := by
    simp [UploadState.bodies, UploadState.createSession, haccepted]
  have hundrawn : (s.createSession cfg body).poster = none →
      (s.createSession cfg body).created = false ∧
        (s.createSession cfg body).written .temp = none :=
    fun hnone => nomatch hposting.1.symm.trans hnone
  by_cases hbody : body = []
  · subst hbody
    refine ⟨rfl, ?_, hI.stored, ?_, nofun, ?_, ?_, ?_, by rintro row ⟨⟩ ⟨⟩, ?_, fun _ => rfl, nofun,
      hundrawn⟩
    · simp [UploadState.createSession]
    · intro _
      rw [hbodies]
      exact .nil
    · rintro row ⟨⟩
      rfl
    · rintro row d ⟨⟩ hd
      simp at hd
    · rintro row ⟨⟩ -
      rfl
    · rintro row - - part hpart
      simp [UploadState.createSession] at hpart
  · have hparts : (s.createSession cfg body).parts = [⟨0, .temp, body.length⟩] := by
      simp [UploadState.createSession, hbody]
    rw [if_neg hbody] at hbodies
    refine ⟨by rw [hparts]; rfl, ?_, hI.stored, ?_, nofun, ?_, ?_, ?_, by rintro row ⟨⟩ ⟨⟩, ?_,
      fun _ => rfl, nofun, hundrawn⟩
    · rw [hparts]
      simp
    · intro _
      rw [hparts, hbodies]
      exact .cons ⟨hI.stored _ _ hobject, rfl⟩ .nil
    · rintro row ⟨⟩
      rw [hparts]
      rfl
    · rintro row d ⟨⟩ hd
      simp only [hbody, ↓reduceIte, Option.some.injEq] at hd
      exact ⟨body, hbodies, hd⟩
    · rintro row ⟨⟩ -
      rfl
    · rintro row - - part hpart
      rw [hparts, List.mem_singleton] at hpart
      exact ⟨body, hpart ▸ hobject⟩

/-- A change of the row that leaves its count and digest. -/
theorem Inv.withSession (hI : Inv cfg s) {f : SessionRow → SessionRow}
    (hbytes : ∀ row, (f row).bytesReceived = row.bytesReceived)
    (hdigest : ∀ row, (f row).computedDigest = row.computedDigest)
    (hopened : ∀ row, s.session = some row → (f row).state = .opened →
      (f row).stateToken = none ∧ s.Intact)
    (howned : ∀ row, s.session = some row → (f row).state = .committing →
      ∃ q, (f row).stateToken = some q) : Inv cfg (s.withSession f) := by
  refine ⟨hI.indexed, hI.keyed, hI.stored, ?_, ?_, ?_, ?_, ?_, ?_, ?_, ?_, hI.fresh, hI.undrawn⟩
  · intro hsome
    exact hI.contents (by simpa using hsome)
  · intro hnone
    exact hI.gone (by simpa [UploadState.withSession] using hnone)
  · intro row' hrow'
    obtain ⟨row, hrow, rfl⟩ := Option.map_eq_some_iff.mp hrow'
    rw [hbytes]
    exact hI.received row hrow
  · intro row' d hrow' hd
    obtain ⟨row, hrow, rfl⟩ := Option.map_eq_some_iff.mp hrow'
    exact hI.digest row d hrow (hdigest row ▸ hd)
  · intro row' hrow' hstate
    obtain ⟨row, hrow, rfl⟩ := Option.map_eq_some_iff.mp hrow'
    exact (hopened row hrow hstate).1
  · intro row' hrow' hstate
    obtain ⟨row, hrow, rfl⟩ := Option.map_eq_some_iff.mp hrow'
    exact howned row hrow hstate
  · intro row' hrow' hstate
    obtain ⟨row, hrow, rfl⟩ := Option.map_eq_some_iff.mp hrow'
    exact (hopened row hrow hstate).2.of_eq rfl rfl
  · intro hsome
    exact hI.created (by simpa using hsome)

/-- The row goes, with its parts; what was accepted stays on record. -/
theorem Inv.gone_of (hI : Inv cfg s) (hsession : s'.session = none) (hparts : s'.parts = [])
    (huploads : s'.uploads = s.uploads) (hwritten : s'.written = s.written)
    (hinitial : s'.initial = s.initial) (haccepted : s'.accepted = s.accepted)
    (hcreated : s'.created = s.created) (hposter : s'.poster = s.poster) : Inv cfg s' := by
  refine ⟨by simp [hparts], by simp [hparts], ?_, by simp [hsession], fun _ => hparts,
    by simp [hsession], by simp [hsession], by simp [hsession], by simp [hsession],
    by simp [hsession], by simp [hsession], ?_, ?_⟩
  · rw [huploads, hwritten]
    exact hI.stored
  · rw [hcreated, hinitial, haccepted]
    exact hI.fresh
  · rw [hposter, hcreated, hwritten]
    exact hI.undrawn

theorem Inv.appendPart (hI : Inv cfg s) {row : OciUploadSessionRecord} {body : Bytes}
    (h : (Effect.append p row body).Safe p req free s) : Inv cfg (s.appendPart cfg p row body) := by
  obtain ⟨-, -, happlies, -, hfetched, hobject⟩ := h
  obtain ⟨r, hr, hopened, hbytes⟩ := patchApplies_row happlies
  have hindex := patchApplies_index hI hfetched happlies
  have hsome : s.session.isSome = true := by simp [hr]
  have hparts : (s.appendPart cfg p row body).parts =
      s.parts ++ [⟨row.nextPartIndex, row.partKey p, body.length⟩] := by
    simp [UploadState.appendPart, hfetched.backfill_eq]
  have hbodies : (s.appendPart cfg p row body).bodies = s.bodies ++ [body] :=
    (List.append_assoc _ _ _).symm
  have hlength : s.parts.length = s.bodies.length := (hI.contents hsome).length_eq
  have hsession : ∀ row', (s.appendPart cfg p row body).session = some row' →
      row' = { r with
        bytesReceived := row.bytesReceived + body.length
        computedDigest := if row.bytesReceived = 0 ∧ row.nextPartIndex = 0 then
          some (cfg.sha256 body) else none
        updatedAt := s.now } := by
    intro row' hrow'
    simp only [UploadState.appendPart, UploadState.withSession, hr, Option.map_some,
      Option.some.injEq] at hrow'
    exact hrow'.symm
  refine ⟨?_, ?_, hI.stored, ?_, ?_, ?_, ?_, ?_, ?_, ?_, fun _ => hI.created hsome, ?_,
    hI.undrawn⟩
  · rw [hparts]
    simp only [List.map_append, List.map_cons, List.map_nil, List.length_append, List.length_cons,
      List.length_nil, Nat.zero_add, List.range_succ, hI.indexed, hindex]
  · rw [hparts]
    intro part hpart
    rw [List.mem_append, List.mem_singleton] at hpart
    rcases hpart with hpart | rfl
    · exact hI.keyed part hpart
    · exact .inr ⟨p, rfl⟩
  · intro _
    rw [hparts, hbodies]
    exact List.rel_append (hI.contents hsome) (.cons ⟨hI.stored _ _ hobject, rfl⟩ .nil)
  · intro hnone
    simp [UploadState.appendPart, UploadState.withSession, hr] at hnone
  · intro row' hrow'
    rw [hparts, hsession row' hrow']
    simp only [List.map_append, List.map_cons, List.map_nil, List.sum_append, List.sum_cons,
      List.sum_nil, Nat.add_zero, hI.received r hr, hbytes]
  · intro row' d hrow' hd
    rw [hsession row' hrow'] at hd
    by_cases hfirst : row.bytesReceived = 0 ∧ row.nextPartIndex = 0
    · simp only [hfirst, and_self, ↓reduceIte, Option.some.injEq] at hd
      have hnil : s.bodies = [] := List.eq_nil_of_length_eq_zero (by omega)
      exact ⟨body, by rw [hbodies, hnil]; rfl, hd⟩
    · simp [hfirst] at hd
  · intro row' hrow' _
    rw [hsession row' hrow']
    exact hI.token r hr hopened
  · intro row' hrow' hcommitting
    rw [hsession row' hrow'] at hcommitting
    cases hopened.symm.trans hcommitting
  · intro row' _ _ part hpart
    rw [hparts, List.mem_append, List.mem_singleton] at hpart
    rcases hpart with hpart | rfl
    · exact hI.intact r hr hopened part hpart
    · exact ⟨body, hobject⟩
  · intro hfalse
    have hcreated : (s.appendPart cfg p row body).created = true := hI.created hsome
    rw [hfalse] at hcreated
    cases hcreated

theorem Effect.Safe.inv (hI : Inv cfg s) {e : Effect} (h : e.Safe p req free s) :
    Inv cfg (s.apply cfg e) := by
  cases e with
  | nop => exact hI
  | tick seconds => exact hI.congr rfl rfl rfl rfl rfl rfl rfl id
  | putBlob digest body => exact hI.congr rfl rfl rfl rfl rfl rfl rfl id
  | draw id => exact hI.congr rfl rfl rfl rfl rfl rfl rfl nofun
  | put key body => exact hI.putUpload h
  | delete key => exact hI.delete h
  | create body => exact hI.createSession h
  | append id row body =>
    obtain rfl : id = p := h.1
    exact hI.appendPart h
  | claim token =>
    exact hI.withSession (fun _ => rfl) (fun _ => rfl) nofun fun _ _ _ => ⟨token, rfl⟩
  | touch =>
    exact hI.withSession (fun _ => rfl) (fun _ => rfl)
      (fun row hrow hopened => ⟨hI.token row hrow hopened, hI.intact row hrow hopened⟩) hI.owned
  | reset => exact hI.withSession (fun _ => rfl) (fun _ => rfl) (fun _ _ _ => ⟨rfl, h.2.1⟩) nofun
  | drop => exact hI.gone_of rfl rfl rfl rfl rfl rfl rfl rfl
  | finish digest sizeBytes => exact hI.gone_of rfl rfl rfl rfl rfl rfl rfl rfl
  | lock holder => exact hI.congr rfl rfl rfl rfl rfl rfl rfl id
  | sweepDelete key => exact hI.sweepDelete h
  | unlock => exact hI.congr rfl rfl rfl rfl rfl rfl rfl id

/-- A request that is no cancel keeps the objects under its claim. -/
theorem Effect.Safe.held (hI : Inv cfg s) {e : Effect} (h : e.Safe p req free s)
    (hreq : req ≠ some .cancel) (hheld : Held p s) : Held p (s.apply cfg e) := by
  cases e with
  | nop => exact hheld
  | tick seconds => exact hheld
  | putBlob digest body => exact hheld
  | draw id => exact hheld
  | put key body =>
    intro row hrow htoken
    rcases hheld row hrow htoken with hintact | hswept
    · exact .inl (hintact.putUpload key body)
    · exact .inr hswept
  | delete key =>
    intro row hrow htoken
    rcases h with hdiscard | ⟨hnone, -⟩ | ⟨hcancel, -⟩
    · rcases hheld row hrow htoken with hintact | hswept
      · exact .inl (hintact.deleteUpload (hdiscard.unlisted hI))
      · exact .inr hswept
    · cases hnone.symm.trans hrow
    · exact absurd hcancel hreq
  | create body =>
    rintro row ⟨⟩ htoken
    cases htoken
  | append id row body =>
    obtain ⟨r, hr, hopened, -⟩ := patchApplies_row h.2.2.1
    intro row' hrow' htoken
    obtain ⟨r', hr', rfl⟩ := Option.map_eq_some_iff.mp hrow'
    cases hr.symm.trans hr'
    cases (hI.token r hr hopened).symm.trans htoken
  | claim token => exact fun _ _ _ => .inl (h.2.2.1.of_eq rfl rfl)
  | touch =>
    intro row' hrow' htoken
    obtain ⟨row, hrow, rfl⟩ := Option.map_eq_some_iff.mp hrow'
    exact hheld row hrow htoken
  | reset =>
    intro row' hrow' htoken
    obtain ⟨row, hrow, rfl⟩ := Option.map_eq_some_iff.mp hrow'
    cases htoken
  | drop => exact fun _ hrow => nomatch hrow
  | finish digest sizeBytes => exact fun _ hrow => nomatch hrow
  | lock holder =>
    intro row hrow htoken
    rcases hheld row hrow htoken with hintact | ⟨l, hl, -⟩
    · exact .inl hintact
    · cases h.2.symm.trans hl
  | sweepDelete key =>
    obtain ⟨deleted, hlock⟩ := h.1.1
    exact fun _ _ _ => .inr ⟨⟨p, true⟩, by simp [UploadState.apply, hlock], rfl⟩
  | unlock =>
    intro row hrow htoken
    rcases hheld row hrow htoken with hintact | ⟨l, hl, hdeleted⟩
    · exact .inl hintact
    · cases h.symm.trans hl
      cases hdeleted

end Preservation

end ArtifactKeeper.Oci
