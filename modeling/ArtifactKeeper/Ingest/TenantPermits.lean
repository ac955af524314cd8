import ArtifactKeeper.Machine
import ArtifactKeeper.Shares
import ArtifactKeeper.Auth.Claims

/-! Ingest-decode fairness: the per-tenant semaphores, kept through weak references only, and the
permits that keyed acquires take from them and from the global one. -/

namespace ArtifactKeeper.Ingest

inductive TenantKey where
  | repo (id : Uuid)
  | unattributed
  deriving DecidableEq, Repr

/-- The 503 of a shed acquire. -/
structure ServiceUnavailable where
  message : String
  deriving DecidableEq, Repr

def globalIngestBusyErr : ServiceUnavailable :=
  ⟨"Server is busy decompressing other uploads; please retry shortly"⟩

def tenantIngestBusyErr : ServiceUnavailable :=
  ⟨"Too many concurrent uploads for this repository; please retry shortly"⟩

/-- The allocation behind an `Arc<Semaphore>`: permits that are left and strong references. -/
structure SemaphoreCell where
  available : ℕ
  strong : ℕ
  deriving DecidableEq, Repr

/-- The permits left in the global semaphore, the registry of weak references, and the tenant
semaphores created so far. -/
structure IngestState where
  global : ℕ
  registry : TenantKey → Option ℕ
  semaphores : ℕ → SemaphoreCell
  next : ℕ

namespace IngestState
variable (s : IngestState)

def isAlive (sem : ℕ) : Bool := decide (0 < (s.semaphores sem).strong)

/-- `Weak::upgrade` of the entry of a key, without its effect on the count. -/
def upgrade (key : TenantKey) : Option ℕ := (s.registry key).filter s.isAlive

def setCell (sem : ℕ) (cell : SemaphoreCell) : IngestState :=
  { s with semaphores := Function.update s.semaphores sem cell }

def clone (sem : ℕ) : IngestState :=
  s.setCell sem { s.semaphores sem with strong := (s.semaphores sem).strong + 1 }

def dropArc (sem : ℕ) : IngestState :=
  s.setCell sem { s.semaphores sem with strong := (s.semaphores sem).strong - 1 }

/-- `tenant_semaphore_for`, under the lock of the registry. -/
def tenantSemaphoreFor (key : TenantKey) (perTenant : ℕ) : IngestState × ℕ :=
  match s.upgrade key with
  | some existing => (s.clone existing, existing)
  | none =>
    ({ s with
        registry := Function.update (fun key => (s.registry key).filter s.isAlive) key (some s.next)
        semaphores := Function.update s.semaphores s.next ⟨perTenant, 1⟩
        next := s.next + 1 }, s.next)

/-- `try_acquire_owned`: the permit holds a reference of its own. -/
def tryAcquireTenant (sem : ℕ) : Option IngestState :=
  let cell := s.semaphores sem
  if 0 < cell.available then some (s.setCell sem ⟨cell.available - 1, cell.strong + 1⟩) else none

def releaseTenant (sem : ℕ) : IngestState :=
  s.setCell sem { s.semaphores sem with available := (s.semaphores sem).available + 1 }

def tryAcquireGlobal : Option IngestState :=
  if 0 < s.global then some { s with global := s.global - 1 } else none

def releaseGlobal : IngestState := { s with global := s.global + 1 }

end IngestState

/-- Where a request that has a reference to its tenant's semaphore stands. -/
inductive IngestPhase where
  /-- It has looked the semaphore up. -/
  | acquiring
  | tenantAcquired
  /-- The guard is built, the reference from the lookup is still there. -/
  | acquired
  | guarded
  /-- The guard is dropped, up to its tenant permit. -/
  | dropping
  | dropped
  /-- The global ceiling is reached: the tenant permit is to be dropped. -/
  | rejecting
  | rejected
  | failing (e : ServiceUnavailable)
  deriving DecidableEq, Repr

namespace IngestPhase

/-- Strong references to the tenant's semaphore, those of a permit included. -/
def references : IngestPhase → ℕ
  | .tenantAcquired | .acquired | .rejecting | .rejected => 2
  | .acquiring | .guarded | .dropping | .dropped | .failing _ => 1

def tenantPermits : IngestPhase → ℕ
  | .tenantAcquired | .acquired | .guarded | .dropping | .rejecting => 1
  | .acquiring | .dropped | .rejected | .failing _ => 0

def globalPermits : IngestPhase → ℕ
  | .acquired | .guarded => 1
  | _ => 0

end IngestPhase

inductive IngestProc where
  | idle
  | called (key : TenantKey)
  | active (key : TenantKey) (sem : ℕ) (phase : IngestPhase)
  | failed (e : ServiceUnavailable)
  deriving DecidableEq, Repr

inductive IngestAction where
  | acquireKeyed (key : TenantKey)
  | tenantSemaphoreFor
  | tryAcquireTenant
  | tryAcquireGlobal
  | dropGuard
  | releaseTenant
  | dropPermit
  | dropSemaphore
  deriving DecidableEq, Repr

/-- `acquire_ingest_extraction_keyed` and the drop of what it returns, with one step for each access
to a semaphore, to the registry or to a reference count. -/
def ingestProtocol (perTenant : ℕ) : Protocol IngestState IngestProc IngestAction where
  step _ s l a :=
    match l, a with
    | .idle, .acquireKeyed key | .failed _, .acquireKeyed key => some (s, .called key)
    | .called key, .tenantSemaphoreFor =>
      let (s, sem) := s.tenantSemaphoreFor key perTenant
      some (s, .active key sem .acquiring)
    | .active key sem .acquiring, .tryAcquireTenant =>
      match s.tryAcquireTenant sem with
      | some s => some (s, .active key sem .tenantAcquired)
      | none => some (s, .active key sem (.failing tenantIngestBusyErr))
    | .active key sem .tenantAcquired, .tryAcquireGlobal =>
      match s.tryAcquireGlobal with
      | some s => some (s, .active key sem .acquired)
      | none => some (s, .active key sem .rejecting)
    | .active key sem .acquired, .dropSemaphore => some (s.dropArc sem, .active key sem .guarded)
    | .active key sem .guarded, .dropGuard => some (s.releaseGlobal, .active key sem .dropping)
    | .active key sem .dropping, .releaseTenant =>
      some (s.releaseTenant sem, .active key sem .dropped)
    | .active _ sem .dropped, .dropPermit => some (s.dropArc sem, .idle)
    | .active key sem .rejecting, .releaseTenant =>
      some (s.releaseTenant sem, .active key sem .rejected)
    | .active key sem .rejected, .dropPermit =>
      some (s.dropArc sem, .active key sem (.failing globalIngestBusyErr))
    | .active _ sem (.failing e), .dropSemaphore => some (s.dropArc sem, .failed e)
    | _, _ => none

def noExtractions (globalCap : ℕ) : World IngestState IngestProc :=
  ⟨⟨globalCap, fun _ => none, fun _ => ⟨0, 0⟩, 0⟩, fun _ => .idle⟩

namespace IngestProc

def references (sem : ℕ) : IngestProc → ℕ
  | .active _ sem' phase => if sem' = sem then phase.references else 0
  | _ => 0

def tenantPermits (sem : ℕ) : IngestProc → ℕ
  | .active _ sem' phase => if sem' = sem then phase.tenantPermits else 0
  | _ => 0

def globalPermits : IngestProc → ℕ
  | .active _ _ phase => phase.globalPermits
  | _ => 0

/-- The tenant and the semaphore of a live guard. -/
def guard : IngestProc → Option (TenantKey × ℕ)
  | .active key sem .acquired | .active key sem .guarded => some (key, sem)
  | _ => none

/-- The tenant and the semaphore of a tenant permit. -/
def permit : IngestProc → Option (TenantKey × ℕ)
  | .active key sem phase => if 0 < phase.tenantPermits then some (key, sem) else none
  | _ => none

end IngestProc

/-- Fairness of the ingest permits. -/
structure Fair (perTenant globalCap : ℕ) (w : World IngestState IngestProc) : Prop where
  tenantGuards : ∀ key, {p | ∃ sem, (w.procs p).guard = some (key, sem)}.encard ≤ perTenant
  guards : {p | (w.procs p).guard.isSome}.encard ≤ globalCap
  oneSemaphore : ∀ p q key sem sem', (w.procs p).guard = some (key, sem) →
    (w.procs q).guard = some (key, sem') → sem = sem'
  /-- A lookup for a tenant that holds a permit finds the semaphore of that permit. -/
  noSecond : ∀ p q key sem w', (w.procs q).permit = some (key, sem) → w.procs p = .called key →
    (ingestProtocol perTenant).machine.step w (p, .tenantSemaphoreFor) = some w' →
    w'.procs p = .active key sem .acquiring ∧ w'.shared.next = w.shared.next
  /-- What is missing in a semaphore is held by requests, none of them a failed one. -/
  globalCount : ∃ held, Shares (fun p => (w.procs p).globalPermits) held ∧
    w.shared.global + held = globalCap
  tenantCount : ∀ sem < w.shared.next, ∃ held,
    Shares (fun p => (w.procs p).tenantPermits sem) held ∧
      (w.shared.semaphores sem).available + held = perTenant
  /-- A failed acquire, beside requests that end up with the permits they had, changes no count. -/
  failed : ∀ p key e w', w.procs p = .called key →
    (ingestProtocol perTenant).machine.Reach Machine.anyStep w w' → w'.procs p = .failed e →
    (∀ q, q ≠ p → (w'.procs q).globalPermits = (w.procs q).globalPermits ∧
      ∀ sem, (w'.procs q).tenantPermits sem = (w.procs q).tenantPermits sem) →
    w'.shared.global = w.shared.global ∧ ∀ sem < w.shared.next,
      (w'.shared.semaphores sem).available = (w.shared.semaphores sem).available

section Invariant

structure IngestInv (perTenant globalCap : ℕ) (w : World IngestState IngestProc) : Prop where
  globalCount : ∃ held, Shares (fun p => (w.procs p).globalPermits) held ∧
    w.shared.global + held = globalCap
  tenantCount : ∀ sem < w.shared.next, ∃ held,
    Shares (fun p => (w.procs p).tenantPermits sem) held ∧
      (w.shared.semaphores sem).available + held = perTenant
  /-- The strong count is that of the references that requests have. -/
  references : ∀ sem, Shares (fun p => (w.procs p).references sem) (w.shared.semaphores sem).strong
  issued : ∀ key sem, w.shared.registry key = some sem → sem < w.shared.next
  fresh : ∀ sem, w.shared.next ≤ sem → (w.shared.semaphores sem).strong = 0
  /-- The semaphore that a request refers to is the registered one. -/
  registered : ∀ p key sem phase, w.procs p = .active key sem phase →
    w.shared.registry key = some sem

variable {perTenant globalCap : ℕ} {w : World IngestState IngestProc} {p : ℕ}

theorem references_pos (phase : IngestPhase) : 1 ≤ phase.references := by
  cases phase <;> simp [IngestPhase.references]

theorem IngestInv.references_le_strong (h : IngestInv perTenant globalCap w) {key : TenantKey}
    {sem : ℕ} {phase : IngestPhase} (hp : w.procs p = .active key sem phase) :
    phase.references ≤ (w.shared.semaphores sem).strong := by
  have hle := (h.references sem).apply_le p
  simpa [hp, IngestProc.references] using hle

/-- Counts follow a step of `p` that exchanges what it holds with the semaphores. -/
theorem IngestInv.move (h : IngestInv perTenant globalCap w) {s' : IngestState}
    {l l' : IngestProc} (hp : w.procs p = l) (hregistry : s'.registry = w.shared.registry)
    (hnext : s'.next = w.shared.next)
    (hglobal : s'.global + l'.globalPermits = w.shared.global + l.globalPermits)
    (havailable : ∀ sem, (s'.semaphores sem).available + l'.tenantPermits sem =
      (w.shared.semaphores sem).available + l.tenantPermits sem)
    (hstrong : ∀ sem, (s'.semaphores sem).strong + l.references sem =
      (w.shared.semaphores sem).strong + l'.references sem)
    (hactive : ∀ key sem phase, l' = .active key sem phase → w.shared.registry key = some sem) :
    IngestInv perTenant globalCap ⟨s', Function.update w.procs p l'⟩ := by
  subst hp
  constructor
  · obtain ⟨held, hshares, hheld⟩ := h.globalCount
    have hle := hshares.apply_le p
    dsimp only at hle ⊢
    refine ⟨held + l'.globalPermits - (w.procs p).globalPermits, ?_, by omega⟩
    exact hshares.update_comp p (by omega)
  · intro sem hsem
    rw [hnext] at hsem
    obtain ⟨held, hshares, hheld⟩ := h.tenantCount sem hsem
    have hle := hshares.apply_le p
    have hcell := havailable sem
    dsimp only at hle ⊢
    refine ⟨held + l'.tenantPermits sem - (w.procs p).tenantPermits sem, ?_, by omega⟩
    exact hshares.update_comp p (by omega)
  · intro sem
    exact (h.references sem).update_comp p (hstrong sem)
  · intro key sem hsem
    rw [hregistry] at hsem
    rw [hnext]
    exact h.issued key sem hsem
  · intro sem hsem
    rw [hnext] at hsem
    have hold := h.fresh sem hsem
    have hcell := hstrong sem
    -- a new reference is to a semaphore of the registry, which is an issued one
    have hnone : l'.references sem = 0 := by
      cases l' with
      | active key sem' phase =>
        have hissued := h.issued key sem' (hactive key sem' phase rfl)
        have hne : sem' ≠ sem := by omega
        simp [IngestProc.references, hne]
      | idle | called key | failed e => rfl
    show (s'.semaphores sem).strong = 0
    omega
  · intro q key sem phase hq
    rw [hregistry]
    by_cases hqp : q = p
    · subst hqp
      simp only [Function.update_self] at hq
      exact hactive key sem phase hq
    · simp only [Function.update_of_ne hqp] at hq
      exact h.registered q key sem phase hq

/-- The same where the cell of one semaphore is replaced. -/
theorem IngestInv.setCell (h : IngestInv perTenant globalCap w) {l l' : IngestProc}
    (hp : w.procs p = l) (sem : ℕ) {cell : SemaphoreCell}
    (hglobal : l'.globalPermits = l.globalPermits)
    (hother : ∀ sem', sem' ≠ sem → l'.tenantPermits sem' = l.tenantPermits sem' ∧
      l'.references sem' = l.references sem')
    (havailable : cell.available + l'.tenantPermits sem =
      (w.shared.semaphores sem).available + l.tenantPermits sem)
    (hstrong : cell.strong + l.references sem =
      (w.shared.semaphores sem).strong + l'.references sem)
    (hactive : ∀ key sem phase, l' = .active key sem phase → w.shared.registry key = some sem) :
    IngestInv perTenant globalCap
      ⟨w.shared.setCell sem cell, Function.update w.procs p l'⟩ := by
  refine h.move hp rfl rfl ?_ ?_ ?_ hactive
  · rw [hglobal]
    rfl
  · intro sem'
    by_cases hsem : sem' = sem
    · subst hsem
      simpa [IngestState.setCell] using havailable
    · simp [IngestState.setCell, Function.update_of_ne hsem, hother sem' hsem]
  · intro sem'
    by_cases hsem : sem' = sem
    · subst hsem
      simpa [IngestState.setCell] using hstrong
    · simp [IngestState.setCell, Function.update_of_ne hsem, hother sem' hsem]

@[simp] theorem references_self {key : TenantKey} {sem : ℕ} (phase : IngestPhase) :
    (IngestProc.active key sem phase).references sem = phase.references := if_pos rfl

@[simp] theorem tenantPermits_self {key : TenantKey} {sem : ℕ} (phase : IngestPhase) :
    (IngestProc.active key sem phase).tenantPermits sem = phase.tenantPermits := if_pos rfl

theorem references_of_ne {key : TenantKey} {sem sem' : ℕ} (h : sem' ≠ sem) (phase : IngestPhase) :
    (IngestProc.active key sem phase).references sem' = 0 ∧
      (IngestProc.active key sem phase).tenantPermits sem' = 0 := by
  simp [IngestProc.references, IngestProc.tenantPermits, h.symm]

/-- One request goes from phase to phase. -/
theorem IngestInv.phase (h : IngestInv perTenant globalCap w) {key : TenantKey} {sem : ℕ}
    {phase phase' : IngestPhase} (hp : w.procs p = .active key sem phase) {cell : SemaphoreCell}
    (hglobal : phase'.globalPermits = phase.globalPermits)
    (havailable : cell.available + phase'.tenantPermits =
      (w.shared.semaphores sem).available + phase.tenantPermits)
    (hstrong : cell.strong + phase.references =
      (w.shared.semaphores sem).strong + phase'.references) :
    IngestInv perTenant globalCap ⟨w.shared.setCell sem cell,
      Function.update w.procs p (.active key sem phase')⟩ := by
  refine h.setCell hp sem hglobal ?_ ?_ ?_ ?_
  · intro sem' hsem
    simp [references_of_ne hsem]
  · simpa using havailable
  · simpa using hstrong
  · intro key' sem' phase'' heq
    cases heq
    exact h.registered p key sem phase hp

theorem IngestInv.dropArc (h : IngestInv perTenant globalCap w) {key : TenantKey} {sem : ℕ}
    {phase phase' : IngestPhase} (hp : w.procs p = .active key sem phase)
    (hglobal : phase'.globalPermits = phase.globalPermits)
    (htenant : phase'.tenantPermits = phase.tenantPermits)
    (hreferences : phase.references = phase'.references + 1) :
    IngestInv perTenant globalCap ⟨w.shared.dropArc sem,
      Function.update w.procs p (.active key sem phase')⟩ := by
  have hpos := h.references_le_strong hp
  refine h.phase hp hglobal ?_ ?_
  · rw [htenant]
  · dsimp only
    omega

/-- The last reference of a request is dropped. -/
theorem IngestInv.leave (h : IngestInv perTenant globalCap w) {key : TenantKey} {sem : ℕ}
    {phase : IngestPhase} {l' : IngestProc} (hp : w.procs p = .active key sem phase)
    (hreferences : phase.references = 1) (htenant : phase.tenantPermits = 0)
    (hglobal : phase.globalPermits = 0) (hglobal' : l'.globalPermits = 0)
    (htenant' : ∀ sem, l'.tenantPermits sem = 0) (hreferences' : ∀ sem, l'.references sem = 0)
    (hactive : ∀ key sem phase, l' = .active key sem phase → w.shared.registry key = some sem) :
    IngestInv perTenant globalCap ⟨w.shared.dropArc sem, Function.update w.procs p l'⟩ := by
  have hpos := h.references_le_strong hp
  refine h.setCell hp sem ?_ ?_ ?_ ?_ hactive
  · exact hglobal'.trans hglobal.symm
  · intro sem' hsem
    simp [htenant', hreferences', references_of_ne hsem]
  · rw [htenant', tenantPermits_self, htenant]
  · rw [hreferences', references_self]
    dsimp only
    omega

/-- The lookup registers a new semaphore only where no request refers to one of that tenant. -/
theorem IngestInv.create (h : IngestInv perTenant globalCap w) {key : TenantKey}
    (hp : w.procs p = .called key) (hupgrade : w.shared.upgrade key = none) :
    IngestInv perTenant globalCap ⟨{ w.shared with
        registry := Function.update (fun key => (w.shared.registry key).filter w.shared.isAlive) key
          (some w.shared.next)
        semaphores := Function.update w.shared.semaphores w.shared.next ⟨perTenant, 1⟩
        next := w.shared.next + 1 },
      Function.update w.procs p (.active key w.shared.next .acquiring)⟩ := by
  have halive : ∀ q key' sem phase, w.procs q = .active key' sem phase →
      (w.shared.registry key').filter w.shared.isAlive = some sem := by
    intro q key' sem phase hq
    have hpos := Nat.le_trans (references_pos phase) (h.references_le_strong hq)
    rw [h.registered q key' sem phase hq, Option.filter_some_pos]
    exact decide_eq_true hpos
  have hunused : ∀ q key' phase, w.procs q ≠ .active key' w.shared.next phase := by
    intro q key' phase hq
    have hpos := Nat.le_trans (references_pos phase) (h.references_le_strong hq)
    rw [h.fresh _ (Nat.le_refl _)] at hpos
    exact absurd hpos (by decide)
  constructor
  · obtain ⟨held, hshares, hheld⟩ := h.globalCount
    exact ⟨held, hshares.update_comp p (by rw [hp]; rfl), hheld⟩
  · intro sem hsem
    by_cases heq : sem = w.shared.next
    · subst heq
      have hzero : (fun q => (w.procs q).tenantPermits w.shared.next) = fun _ => 0 := by
        funext q
        cases hq : w.procs q with
        | active key' sem phase =>
          have hne : sem ≠ w.shared.next := by
            rintro rfl
            exact hunused q key' phase hq
          simp [IngestProc.tenantPermits, hne]
        | idle | called key' | failed e => rfl
      have hnone : Shares (fun q => (w.procs q).tenantPermits w.shared.next) 0 :=
        hzero ▸ Shares.zero
      refine ⟨0, hnone.update_comp p ?_, by simp⟩
      simp [hp, IngestProc.tenantPermits, IngestPhase.tenantPermits]
    · have hlt : sem < w.shared.next := by
        dsimp only at hsem
        omega
      obtain ⟨held, hshares, hheld⟩ := h.tenantCount sem hlt
      refine ⟨held, hshares.update_comp p ?_, by simpa [heq] using hheld⟩
      simp [hp, IngestProc.tenantPermits, Ne.symm heq]
  · intro sem
    apply (h.references sem).update_comp p
    by_cases heq : sem = w.shared.next
    · subst heq
      simp [hp, IngestProc.references, IngestPhase.references, h.fresh]
    · simp [hp, IngestProc.references, heq, Ne.symm heq]
  · intro key' sem hsem
    by_cases hkey : key' = key
    · subst hkey
      simp only [Function.update_self, Option.some.injEq] at hsem
      subst hsem
      exact Nat.lt_succ_self _
    · simp only [Function.update_of_ne hkey] at hsem
      have hlt := h.issued key' sem (Option.filter_eq_some_iff.mp hsem).1
      exact Nat.lt_succ_of_lt hlt
  · intro sem hsem
    dsimp only at hsem ⊢
    have hne : sem ≠ w.shared.next := by omega
    rw [Function.update_of_ne hne]
    exact h.fresh sem (by omega)
  · intro q key' sem phase hq
    by_cases hqp : q = p
    · subst hqp
      simp only [Function.update_self] at hq
      cases hq
      dsimp only
      rw [Function.update_self]
    · simp only [Function.update_of_ne hqp] at hq
      have hkey : key' ≠ key := by
        rintro rfl
        rw [IngestState.upgrade, halive q key' sem phase hq] at hupgrade
        cases hupgrade
      dsimp only
      rw [Function.update_of_ne hkey]
      exact halive q key' sem phase hq

theorem IngestInv.step {w' : World IngestState IngestProc} (h : IngestInv perTenant globalCap w)
    {a : ℕ × IngestAction} (hs : (ingestProtocol perTenant).machine.step w a = some w') :
    IngestInv perTenant globalCap w' := by
  obtain ⟨p, a⟩ := a
  obtain ⟨s', l', hstep, rfl⟩ := Protocol.machine_step hs
  generalize hp : w.procs p = l at hstep
  have hkept := fun key sem phase (hl : l = .active key sem phase) =>
    h.registered p key sem phase (hp.trans hl)
  unfold ingestProtocol at hstep
  dsimp only at hstep
  split at hstep
  · next key => -- a new call
    cases hstep
    exact h.move hp rfl rfl rfl (fun _ => rfl) (fun _ => rfl) fun _ _ _ hl => (by cases hl)
  · next e key =>
    cases hstep
    exact h.move hp rfl rfl rfl (fun _ => rfl) (fun _ => rfl) fun _ _ _ hl => (by cases hl)
  · next key =>
    cases hstep
    unfold IngestState.tenantSemaphoreFor
    cases hupgrade : w.shared.upgrade key with
    | none => exact h.create hp hupgrade
    | some existing =>
      obtain ⟨hregistry, -⟩ := Option.filter_eq_some_iff.mp hupgrade
      show IngestInv perTenant globalCap ⟨w.shared.clone existing,
        Function.update w.procs p (.active key existing .acquiring)⟩
      refine h.setCell hp existing rfl ?_ ?_ ?_ ?_
      · intro sem' hsem
        simp [IngestProc.tenantPermits, IngestProc.references, Ne.symm hsem]
      · simp [IngestProc.tenantPermits, IngestPhase.tenantPermits]
      · simp [IngestProc.references, IngestPhase.references]
      · intro key' sem phase hl
        cases hl
        exact hregistry
  · next key sem => -- the tenant permit
    unfold IngestState.tryAcquireTenant at hstep
    dsimp only at hstep
    split_ifs at hstep with havailable <;> cases hstep
    · exact h.phase hp rfl (by simp [IngestPhase.tenantPermits]; omega)
        (by simp [IngestPhase.references])
    · exact h.move hp rfl rfl rfl (fun _ => rfl) (fun _ => rfl) fun _ _ _ hl => by
        cases hl
        exact hkept key sem _ rfl
  · next key sem => -- the global permit
    unfold IngestState.tryAcquireGlobal at hstep
    split_ifs at hstep with hglobal <;> cases hstep
    · refine h.move hp rfl rfl ?_ (fun _ => rfl) (fun _ => rfl) fun _ _ _ hl => ?_
      · show w.shared.global - 1 + 1 = w.shared.global + 0
        omega
      · cases hl
        exact hkept key sem _ rfl
    · exact h.move hp rfl rfl rfl (fun _ => rfl) (fun _ => rfl) fun _ _ _ hl => by
        cases hl
        exact hkept key sem _ rfl
  · next key sem => -- the reference from the lookup, beside the guard
    cases hstep
    exact h.dropArc hp rfl rfl rfl
  · next key sem => -- the drop of the guard, field by field
    cases hstep
    refine h.move hp rfl rfl rfl (fun _ => rfl) (fun _ => rfl) fun _ _ _ hl => ?_
    cases hl
    exact hkept key sem _ rfl
  · next key sem =>
    cases hstep
    exact h.phase hp rfl rfl rfl
  · next key sem =>
    cases hstep
    exact h.leave hp rfl rfl rfl rfl (fun _ => rfl) (fun _ => rfl) fun _ _ _ hl => (by cases hl)
  · next key sem => -- the global ceiling was reached
    cases hstep
    exact h.phase hp rfl rfl rfl
  · next key sem =>
    cases hstep
    exact h.dropArc hp rfl rfl rfl
  · next key sem e =>
    cases hstep
    exact h.leave hp rfl rfl rfl rfl (fun _ => rfl) (fun _ => rfl) fun _ _ _ hl => (by cases hl)
  · cases hstep

theorem next_le_of_step {w' : World IngestState IngestProc} {a : ℕ × IngestAction}
    (hs : (ingestProtocol perTenant).machine.step w a = some w') :
    w.shared.next ≤ w'.shared.next := by
  obtain ⟨p, a⟩ := a
  obtain ⟨s', l', hstep, rfl⟩ := Protocol.machine_step hs
  generalize w.procs p = l at hstep
  unfold ingestProtocol at hstep
  dsimp only at hstep
  split at hstep
  case h_3 key =>
    cases hstep
    show w.shared.next ≤ (w.shared.tenantSemaphoreFor key perTenant).1.next
    unfold IngestState.tenantSemaphoreFor
    split
    · exact Nat.le_refl _
    · exact Nat.le_succ _
  case h_4 key sem =>
    unfold IngestState.tryAcquireTenant at hstep
    dsimp only at hstep
    split_ifs at hstep <;> cases hstep <;> exact Nat.le_refl _
  case h_5 key sem =>
    unfold IngestState.tryAcquireGlobal at hstep
    split_ifs at hstep <;> cases hstep <;> exact Nat.le_refl _
  all_goals cases hstep <;> exact Nat.le_refl _

theorem ingestInv_of_reach (h : (ingestProtocol perTenant).machine.Reach Machine.anyStep
    (noExtractions globalCap) w) : IngestInv perTenant globalCap w := by
  apply h.invariant (I := IngestInv perTenant globalCap)
  · constructor
    · exact ⟨0, Shares.zero, rfl⟩
    · intro sem hsem
      exact absurd hsem (Nat.not_lt_zero sem)
    · exact fun _ => Shares.zero
    · exact fun _ _ hsem => (by cases hsem)
    · exact fun _ _ => rfl
    · exact fun _ _ _ _ hp => (by cases hp)
  · exact fun _ _ _ hinv _ hs => hinv.step hs

theorem guard_eq_some {l : IngestProc} {key : TenantKey} {sem : ℕ} (h : l.guard = some (key, sem)) :
    ∃ phase, l = .active key sem phase ∧ phase.tenantPermits = 1 ∧ phase.globalPermits = 1 := by
  unfold IngestProc.guard at h
  split at h <;> cases h
  · exact ⟨_, rfl, rfl, rfl⟩
  · exact ⟨_, rfl, rfl, rfl⟩

theorem permit_eq_some {l : IngestProc} {key : TenantKey} {sem : ℕ}
    (h : l.permit = some (key, sem)) : ∃ phase, l = .active key sem phase := by
  unfold IngestProc.permit at h
  split at h
  · split_ifs at h
    cases h
    exact ⟨_, rfl⟩
  · cases h

theorem IngestInv.guard_registered (h : IngestInv perTenant globalCap w) {key : TenantKey}
    {sem : ℕ} (hp : (w.procs p).guard = some (key, sem)) : w.shared.registry key = some sem := by
  obtain ⟨phase, hactive, -⟩ := guard_eq_some hp
  exact h.registered p key sem phase hactive

theorem IngestInv.tenantGuards_le (h : IngestInv perTenant globalCap w) (key : TenantKey) :
    {p | ∃ sem, (w.procs p).guard = some (key, sem)}.encard ≤ perTenant := by
  rcases Set.eq_empty_or_nonempty {p | ∃ sem, (w.procs p).guard = some (key, sem)} with
    hempty | ⟨q, sem, hq⟩
  · rw [hempty, Set.encard_empty]
    exact zero_le
  · -- all of them hold permits of the semaphore in the registry
    have hregistry := h.guard_registered hq
    obtain ⟨held, hshares, hheld⟩ := h.tenantCount sem (h.issued key sem hregistry)
    have hle : held ≤ perTenant := by omega
    refine (hshares.encard_le ?_).trans (Nat.cast_le.mpr hle)
    rintro p ⟨sem', hp⟩
    obtain ⟨phase, hactive, htenant, -⟩ := guard_eq_some hp
    have hsame := h.guard_registered hp
    rw [hregistry] at hsame
    cases hsame
    rw [hactive, tenantPermits_self, htenant]

theorem IngestInv.guards_le (h : IngestInv perTenant globalCap w) :
    {p | (w.procs p).guard.isSome}.encard ≤ globalCap := by
  obtain ⟨held, hshares, hheld⟩ := h.globalCount
  have hle : held ≤ globalCap := by omega
  refine (hshares.encard_le ?_).trans (Nat.cast_le.mpr hle)
  intro p hp
  obtain ⟨⟨key, sem⟩, hguard⟩ := Option.isSome_iff_exists.mp hp
  obtain ⟨phase, hactive, -, hglobal⟩ := guard_eq_some hguard
  rw [hactive]
  exact hglobal.ge

theorem IngestInv.upgrade_of_permit (h : IngestInv perTenant globalCap w) {key : TenantKey}
    {sem : ℕ} (hp : (w.procs p).permit = some (key, sem)) : w.shared.upgrade key = some sem := by
  obtain ⟨phase, hactive⟩ := permit_eq_some hp
  have hpos := Nat.le_trans (references_pos phase) (h.references_le_strong hactive)
  rw [IngestState.upgrade, h.registered p key sem phase hactive, Option.filter_some_pos]
  exact decide_eq_true hpos

end Invariant

/-- However lookups, acquires, drops and prunes of any tenants interleave, the permits stay fair. -/
theorem fair_of_reach (perTenant globalCap : ℕ) (w : World IngestState IngestProc)
    (h : (ingestProtocol perTenant).machine.Reach Machine.anyStep (noExtractions globalCap) w) :
    Fair perTenant globalCap w := by
  have hinv := ingestInv_of_reach h
  constructor
  · exact hinv.tenantGuards_le
  · exact hinv.guards_le
  · intro p q key sem sem' hp hq
    have hsame := hinv.guard_registered hq
    rw [hinv.guard_registered hp] at hsame
    exact Option.some.inj hsame
  · intro p q key sem w' hq hp hs
    obtain ⟨s', l', hstep, rfl⟩ := Protocol.machine_step hs
    have hupgrade := hinv.upgrade_of_permit hq
    simp only [ingestProtocol, hp, IngestState.tenantSemaphoreFor, hupgrade, Option.some.injEq,
      Prod.mk.injEq] at hstep
    obtain ⟨rfl, rfl⟩ := hstep
    exact ⟨Function.update_self .., rfl⟩
  · exact hinv.globalCount
  · exact hinv.tenantCount
  · intro p key e w' hp hreach hfailed hothers
    have hinv' := ingestInv_of_reach (h.trans hreach)
    constructor
    · obtain ⟨held, hshares, hheld⟩ := hinv.globalCount
      obtain ⟨held', hshares', hheld'⟩ := hinv'.globalCount
      have hsame : (fun q => (w'.procs q).globalPermits) = fun q => (w.procs q).globalPermits := by
        funext q
        by_cases hq : q = p
        · rw [hq, hp, hfailed]
          rfl
        · exact (hothers q hq).1
      rw [hsame] at hshares'
      have := hshares.unique hshares'
      omega
    · intro sem hsem
      have hnext : w.shared.next ≤ w'.shared.next :=
        hreach.invariant (I := fun u => w.shared.next ≤ u.shared.next) (Nat.le_refl _)
          fun _ _ _ hle _ hs => Nat.le_trans hle (next_le_of_step hs)
      obtain ⟨held, hshares, hheld⟩ := hinv.tenantCount sem hsem
      obtain ⟨held', hshares', hheld'⟩ := hinv'.tenantCount sem (Nat.lt_of_lt_of_le hsem hnext)
      have hsame : (fun q => (w'.procs q).tenantPermits sem) =
          fun q => (w.procs q).tenantPermits sem := by
        funext q
        by_cases hq : q = p
        · rw [hq, hp, hfailed]
          rfl
        · exact (hothers q hq).2 sem
      rw [hsame] at hshares'
      have := hshares.unique hshares'
      omega

/-- With one permit a tenant and two in all: a guard, a request of the same tenant that fails, and a
guard of another tenant. -/
def twoTenants : List (ℕ × IngestAction) :=
  [(0, .acquireKeyed (.repo 1)), (1, .acquireKeyed (.repo 1)), (0, .tenantSemaphoreFor),
    (0, .tryAcquireTenant), (1, .tenantSemaphoreFor), (1, .tryAcquireTenant),
    (0, .tryAcquireGlobal), (0, .dropSemaphore), (1, .dropSemaphore),
    (2, .acquireKeyed .unattributed), (2, .tenantSemaphoreFor), (2, .tryAcquireTenant),
    (2, .tryAcquireGlobal)]

theorem fair_twoTenants :
    ∃ w, (ingestProtocol 1).machine.Reach Machine.anyStep (noExtractions 2) w ∧
      (w.procs 0).guard = some (.repo 1, 0) ∧ w.procs 1 = .failed tenantIngestBusyErr ∧
      (w.procs 2).guard = some (.unattributed, 1) ∧ w.shared.global = 0 ∧ Fair 1 2 w := by
  have hrun : ((ingestProtocol 1).machine.run (noExtractions 2) twoTenants).map
      (fun w => ((w.procs 0).guard, w.procs 1, (w.procs 2).guard, w.shared.global)) =
      some (some (.repo 1, 0), .failed tenantIngestBusyErr, some (.unattributed, 1), 0) := by
    decide +kernel
  obtain ⟨w, hw, hview⟩ := Option.map_eq_some_iff.mp hrun
  simp only [Prod.mk.injEq] at hview
  obtain ⟨h₀, h₁, h₂, hglobal⟩ := hview
  have hreach := Machine.reach_of_run twoTenants hw (Machine.meets_anyStep _ _)
  exact ⟨w, hreach, h₀, h₁, h₂, hglobal, fair_of_reach 1 2 w hreach⟩

end ArtifactKeeper.Ingest
