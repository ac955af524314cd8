import ArtifactKeeper.Machine
import ArtifactKeeper.TtlCache
import ArtifactKeeper.Permissions.Rules
import Mathlib.Algebra.Group.Nat.Defs

/-! The in-process caches of the permission service: checks that run beside commits to the
authorization tables and the invalidations that follow them. -/

namespace ArtifactKeeper.Permissions

/-- `CACHE_TTL`, in nanoseconds. -/
def cacheTtl : ℕ := 30 * 10 ^ 9

structure CacheKey where
  userId : Uuid
  targetType : String
  targetId : Uuid
  deriving DecidableEq, Repr

structure RulesCacheKey where
  targetType : String
  targetId : Uuid
  deriving DecidableEq, Repr

/-- The committed states of the database, the clock and the two caches. `floor` is the newest state
that an `invalidate_cache` call that has returned followed; `cleared` and `rulesCleared` are the
same for the calls that have cleared the cache. -/
structure PermissionState where
  states : ℕ → AuthzDb
  version : ℕ
  now : ℕ
  cache : TtlCache CacheKey (List String)
  rulesCache : TtlCache RulesCacheKey Bool
  floor : ℕ
  cleared : ℕ
  rulesCleared : ℕ

inductive PermissionCall where
  | checkPermission (key : CacheKey) (action : String) (isAdmin : Bool)
  | hasAnyRulesForTarget (key : RulesCacheKey)
  deriving DecidableEq, Repr

/-- The decision of a call on one state of the database. -/
def PermissionCall.decision (db : AuthzDb) : PermissionCall → Except AppError Bool
  | .checkPermission key action isAdmin =>
    db.checkPermission key.userId key.targetType key.targetId action isAdmin
  | .hasAnyRulesForTarget key => .ok (db.hasAnyRulesForTarget key.targetType key.targetId)

/-- Where a request stands. `floor` is the one at the start of its call; `readAt` is the state its
query read, and `version` the one that the invalidation follows. -/
inductive PermissionProc where
  | idle
  | started (call : PermissionCall) (floor : ℕ)
  | querying (call : PermissionCall) (floor : ℕ)
  | fetchedActions (key : CacheKey) (action : String) (floor readAt : ℕ) (actions : List String)
  | fetchedRules (key : RulesCacheKey) (floor readAt : ℕ) (any : Bool)
  | answered (call : PermissionCall) (floor : ℕ) (result : Except AppError Bool)
  | clearing (version : ℕ)
  | clearingRules (version : ℕ)
  | returning (version : ℕ)
  | finished
  deriving DecidableEq

inductive PermissionAction where
  | tick (ns : ℕ)
  | commit (db : AuthzDb)
  | call (call : PermissionCall)
  /-- The read of a cache, which a poisoned lock skips. -/
  | lookup (poisoned : Bool)
  | query (failure : Option AppError)
  | insert
  | cancel
  | invalidateCache
  | clear
  | return

def permissionProtocol : Protocol PermissionState PermissionProc PermissionAction where
  step _ s l a :=
    match l, a with
    | l, .tick ns => some ({ s with now := s.now + ns }, l)
    | l, .commit db =>
      some ({ s with
        states := Function.update s.states (s.version + 1) db
        version := s.version + 1 }, l)
    -- an admin is answered without a read
    | .idle, .call (.checkPermission key action true) =>
      some (s, .answered (.checkPermission key action true) s.floor (.ok true))
    | .idle, .call call => some (s, .started call s.floor)
    | .started (.checkPermission key action false) floor, .lookup poisoned =>
      match if poisoned then none else s.cache.get cacheTtl s.now key with
      | some entry => some (s, .answered (.checkPermission key action false) floor
          (.ok (entry.value.any (· == action))))
      | none => some (s, .querying (.checkPermission key action false) floor)
    | .started (.hasAnyRulesForTarget key) floor, .lookup poisoned =>
      match if poisoned then none else s.rulesCache.get cacheTtl s.now key with
      | some entry => some (s, .answered (.hasAnyRulesForTarget key) floor (.ok entry.value))
      | none => some (s, .querying (.hasAnyRulesForTarget key) floor)
    | .querying call floor, .query (some e) => some (s, .answered call floor (.error e))
    | .querying (.checkPermission key action false) floor, .query none =>
      match (s.states s.version).queryActions key.userId key.targetType key.targetId with
      | .ok actions => some (s, .fetchedActions key action floor s.version actions)
      | .error e => some (s, .answered (.checkPermission key action false) floor (.error e))
    | .querying (.hasAnyRulesForTarget key) floor, .query none =>
      some (s, .fetchedRules key floor s.version
        ((s.states s.version).hasAnyRulesForTarget key.targetType key.targetId))
    | .querying _ _, .cancel => some (s, .finished)
    | .fetchedActions key action floor readAt actions, .insert =>
      some ({ s with cache := s.cache.put cacheTtl s.now key actions readAt },
        .answered (.checkPermission key action false) floor (.ok (actions.any (· == action))))
    | .fetchedRules key floor readAt any, .insert =>
      some ({ s with rulesCache := s.rulesCache.put cacheTtl s.now key any readAt },
        .answered (.hasAnyRulesForTarget key) floor (.ok any))
    | .idle, .invalidateCache => some (s, .clearing s.version)
    | .clearing version, .clear =>
      some ({ s with cache := .empty, cleared := max s.cleared version }, .clearingRules version)
    | .clearingRules version, .clear =>
      some ({ s with rulesCache := .empty, rulesCleared := max s.rulesCleared version },
        .returning version)
    | .returning version, .return => some ({ s with floor := max s.floor version }, .finished)
    | _, _ => none

/-- A new service on the given tables. -/
def newService (db : AuthzDb) : World PermissionState PermissionProc :=
  ⟨⟨fun _ => db, 0, 0, .empty, .empty, 0, 0, 0⟩, fun _ => .idle⟩

/-- Every decision that was returned is the one on a state of the database at least as new as those
that the invalidations that had returned when its call started followed. -/
def AnswersCurrent (w : World PermissionState PermissionProc) : Prop :=
  ∀ p call floor allowed, w.procs p = .answered call floor (.ok allowed) →
    ∃ v, floor ≤ v ∧ v ≤ w.shared.version ∧ call.decision (w.shared.states v) = .ok allowed

/-- What a request is about to insert was read no earlier than the newest state whose invalidation
has cleared the cache already. -/
def PermissionProc.readsCurrent (s : PermissionState) : PermissionProc → Bool
  | .fetchedActions _ _ _ readAt _ => decide (s.cleared ≤ readAt)
  | .fetchedRules _ _ readAt _ => decide (s.rulesCleared ≤ readAt)
  | _ => true

def PermissionAction.isInsert : PermissionAction → Bool
  | .insert => true
  | _ => false

def InsertsCurrent (w : World PermissionState PermissionProc) (a : ℕ × PermissionAction) : Prop :=
  a.2.isInsert = true → (w.procs a.1).readsCurrent w.shared = true

instance (w : World PermissionState PermissionProc) (a : ℕ × PermissionAction) :
    Decidable (InsertsCurrent w a) :=
  inferInstanceAs (Decidable (_ → _))

section Invariant

namespace PermissionState
variable (s : PermissionState)

/-- `actions` are those that the query for the key returns on a state. -/
def ReadsActions (v : ℕ) (key : CacheKey) (actions : List String) : Prop :=
  (s.states v).queryActions key.userId key.targetType key.targetId = .ok actions

def ReadsRules (v : ℕ) (key : RulesCacheKey) (any : Bool) : Prop :=
  (s.states v).hasAnyRulesForTarget key.targetType key.targetId = any

end PermissionState

structure CachesOk (s : PermissionState) : Prop where
  floor : s.floor ≤ s.cleared ∧ s.floor ≤ s.rulesCleared
  cleared : s.cleared ≤ s.version ∧ s.rulesCleared ≤ s.version
  cache : s.cache.ReadWithin s.ReadsActions s.cleared s.version
  rulesCache : s.rulesCache.ReadWithin s.ReadsRules s.rulesCleared s.version

def Decided (s : PermissionState) (call : PermissionCall) (floor : ℕ) (allowed : Bool) : Prop :=
  ∃ v, floor ≤ v ∧ v ≤ s.version ∧ call.decision (s.states v) = .ok allowed

def ProcOk (s : PermissionState) : PermissionProc → Prop
  | .started _ floor | .querying _ floor => floor ≤ s.floor
  | .fetchedActions key _ floor readAt actions =>
    floor ≤ readAt ∧ readAt ≤ s.version ∧ s.ReadsActions readAt key actions
  | .fetchedRules key floor readAt any =>
    floor ≤ readAt ∧ readAt ≤ s.version ∧ s.ReadsRules readAt key any
  | .answered call floor result => ∀ allowed, result = .ok allowed → Decided s call floor allowed
  | .clearing version => version ≤ s.version
  | .clearingRules version => version ≤ s.version ∧ version ≤ s.cleared
  | .returning version => version ≤ s.cleared ∧ version ≤ s.rulesCleared
  | .idle | .finished => True

/-- A later moment: no bound falls, and the states of the database so far are kept. -/
structure Later (s s' : PermissionState) : Prop where
  version : s.version ≤ s'.version
  states : ∀ v ≤ s.version, s'.states v = s.states v
  floor : s.floor ≤ s'.floor
  cleared : s.cleared ≤ s'.cleared
  rulesCleared : s.rulesCleared ≤ s'.rulesCleared

theorem Later.refl (s : PermissionState) : Later s s :=
  ⟨Nat.le_refl _, fun _ _ => rfl, Nat.le_refl _, Nat.le_refl _, Nat.le_refl _⟩

theorem ProcOk.later {s s' : PermissionState} {l : PermissionProc} (h : ProcOk s l)
    (hs : Later s s') : ProcOk s' l := by
  cases l with
  | started call floor | querying call floor => exact Nat.le_trans h hs.floor
  | fetchedActions key action floor readAt actions =>
    obtain ⟨hfloor, hread, hactions⟩ := h
    refine ⟨hfloor, Nat.le_trans hread hs.version, ?_⟩
    rw [PermissionState.ReadsActions, hs.states readAt hread]
    exact hactions
  | fetchedRules key floor readAt any =>
    obtain ⟨hfloor, hread, hrules⟩ := h
    refine ⟨hfloor, Nat.le_trans hread hs.version, ?_⟩
    rw [PermissionState.ReadsRules, hs.states readAt hread]
    exact hrules
  | answered call floor result =>
    intro allowed hresult
    obtain ⟨v, hfloor, hv, hdecision⟩ := h allowed hresult
    refine ⟨v, hfloor, Nat.le_trans hv hs.version, ?_⟩
    rw [hs.states v hv]
    exact hdecision
  | clearing version => exact Nat.le_trans h hs.version
  | clearingRules version =>
    exact ⟨Nat.le_trans h.1 hs.version, Nat.le_trans h.2 hs.cleared⟩
  | returning version =>
    exact ⟨Nat.le_trans h.1 hs.cleared, Nat.le_trans h.2 hs.rulesCleared⟩
  | idle | finished => trivial

variable {s : PermissionState}

theorem later_commit (db : AuthzDb) : Later s { s with
    states := Function.update s.states (s.version + 1) db
    version := s.version + 1 } := by
  refine ⟨Nat.le_succ _, fun v hv => ?_, Nat.le_refl _, Nat.le_refl _, Nat.le_refl _⟩
  have hne : v ≠ s.version + 1 := by omega
  exact Function.update_of_ne hne db s.states

theorem CachesOk.commit (h : CachesOk s) (db : AuthzDb) : CachesOk { s with
    states := Function.update s.states (s.version + 1) db
    version := s.version + 1 } := by
  have hstates := (later_commit (s := s) db).states
  obtain ⟨hfloor, ⟨hcleared, hrulesCleared⟩, hcache, hrules⟩ := h
  constructor
  · exact hfloor
  · exact ⟨Nat.le_succ_of_le hcleared, Nat.le_succ_of_le hrulesCleared⟩
  · apply hcache.mono (Nat.le_succ _)
    intro v hv key actions hread
    rw [PermissionState.ReadsActions, hstates v hv]
    exact hread
  · apply hrules.mono (Nat.le_succ _)
    intro v hv key any hread
    rw [PermissionState.ReadsRules, hstates v hv]
    exact hread

theorem decision_of_readsActions {v : ℕ} {key : CacheKey} {actions : List String} {action : String}
    (h : s.ReadsActions v key actions) :
    (PermissionCall.checkPermission key action false).decision (s.states v) =
      .ok (actions.any (· == action)) := by
  simp only [PermissionCall.decision, AuthzDb.checkPermission, Bool.false_eq_true, if_false]
  rw [show (s.states v).queryActions key.userId key.targetType key.targetId = .ok actions from h]
  rfl

/-- A step moves to a later moment, keeps the caches within their bounds and leaves the request that
takes it with what it knows. -/
theorem step_ok {w : World PermissionState PermissionProc} {p : ℕ} {a : PermissionAction}
    {s' : PermissionState} {l' : PermissionProc} (hc : CachesOk w.shared)
    (hp : ProcOk w.shared (w.procs p)) (hok : InsertsCurrent w (p, a))
    (hstep : permissionProtocol.step p w.shared (w.procs p) a = some (s', l')) :
    Later w.shared s' ∧ CachesOk s' ∧ ProcOk s' l' := by
  have hrefl := Later.refl w.shared
  have hfloor : w.shared.floor ≤ w.shared.version := Nat.le_trans hc.floor.1 hc.cleared.1
  unfold InsertsCurrent at hok
  dsimp only at hok
  generalize w.procs p = l at hstep hp hok
  unfold permissionProtocol at hstep
  dsimp only at hstep
  split at hstep
  · next l ns =>
    cases hstep
    have hlater : Later w.shared { w.shared with now := w.shared.now + ns } :=
      ⟨hrefl.version, hrefl.states, hrefl.floor, hrefl.cleared, hrefl.rulesCleared⟩
    exact ⟨hlater, ⟨hc.floor, hc.cleared, hc.cache, hc.rulesCache⟩, hp.later hlater⟩
  · next l db =>
    cases hstep
    exact ⟨later_commit db, hc.commit db, hp.later (later_commit db)⟩
  · next key action =>
    cases hstep
    refine ⟨hrefl, hc, fun allowed hresult => ?_⟩
    cases hresult
    exact ⟨w.shared.version, hfloor, Nat.le_refl _, rfl⟩
  · cases hstep
    exact ⟨hrefl, hc, Nat.le_refl _⟩
  · next key action floor poisoned =>
    split at hstep <;> cases hstep
    · next entry hentry =>
      -- what is in the cache was read after the last state it was cleared for
      have hget : w.shared.cache.get cacheTtl w.shared.now key = some entry := by
        cases poisoned <;> simp_all
      obtain ⟨⟨hlow, hhigh⟩, hread⟩ := hc.cache.get hget
      have hle : floor ≤ entry.readAt := Nat.le_trans (Nat.le_trans hp hc.floor.1) hlow
      refine ⟨hrefl, hc, fun allowed hresult => ?_⟩
      cases hresult
      exact ⟨entry.readAt, hle, hhigh, decision_of_readsActions hread⟩
    · exact ⟨hrefl, hc, hp⟩
  · next key floor poisoned =>
    split at hstep <;> cases hstep
    · next entry hentry =>
      have hget : w.shared.rulesCache.get cacheTtl w.shared.now key = some entry := by
        cases poisoned <;> simp_all
      obtain ⟨⟨hlow, hhigh⟩, hread⟩ := hc.rulesCache.get hget
      have hle : floor ≤ entry.readAt := Nat.le_trans (Nat.le_trans hp hc.floor.2) hlow
      refine ⟨hrefl, hc, fun allowed hresult => ?_⟩
      cases hresult
      exact ⟨entry.readAt, hle, hhigh, congrArg Except.ok hread⟩
    · exact ⟨hrefl, hc, hp⟩
  · cases hstep
    exact ⟨hrefl, hc, fun _ hresult => (by cases hresult)⟩
  · next key action floor =>
    split at hstep <;> cases hstep
    · next actions hquery =>
      exact ⟨hrefl, hc, Nat.le_trans hp hfloor, Nat.le_refl _, hquery⟩
    · exact ⟨hrefl, hc, fun _ hresult => (by cases hresult)⟩
  · cases hstep
    exact ⟨hrefl, hc, Nat.le_trans hp hfloor, Nat.le_refl _, rfl⟩
  · cases hstep
    exact ⟨hrefl, hc, trivial⟩
  · next key action floor readAt actions =>
    cases hstep
    obtain ⟨hle, hhigh, hread⟩ := hp
    have hcurrent : w.shared.cleared ≤ readAt := of_decide_eq_true (hok rfl)
    refine ⟨⟨hrefl.version, hrefl.states, hrefl.floor, hrefl.cleared, hrefl.rulesCleared⟩,
      ⟨hc.floor, hc.cleared, hc.cache.put hcurrent hhigh hread, hc.rulesCache⟩,
      fun allowed hresult => ?_⟩
    cases hresult
    exact ⟨readAt, hle, hhigh, decision_of_readsActions hread⟩
  · next key floor readAt any =>
    cases hstep
    obtain ⟨hle, hhigh, hread⟩ := hp
    have hcurrent : w.shared.rulesCleared ≤ readAt := of_decide_eq_true (hok rfl)
    refine ⟨⟨hrefl.version, hrefl.states, hrefl.floor, hrefl.cleared, hrefl.rulesCleared⟩,
      ⟨hc.floor, hc.cleared, hc.cache, hc.rulesCache.put hcurrent hhigh hread⟩,
      fun allowed hresult => ?_⟩
    cases hresult
    exact ⟨readAt, hle, hhigh, congrArg Except.ok hread⟩
  · cases hstep
    exact ⟨hrefl, hc, Nat.le_refl _⟩
  · next version =>
    cases hstep
    have hmax : max w.shared.cleared version ≤ w.shared.version := Nat.max_le.mpr ⟨hc.cleared.1, hp⟩
    exact ⟨⟨hrefl.version, hrefl.states, hrefl.floor, Nat.le_max_left _ _, hrefl.rulesCleared⟩,
      ⟨⟨Nat.le_trans hc.floor.1 (Nat.le_max_left _ _), hc.floor.2⟩, ⟨hmax, hc.cleared.2⟩,
        TtlCache.readWithin_empty, hc.rulesCache⟩, hp, Nat.le_max_right _ _⟩
  · next version =>
    cases hstep
    have hmax : max w.shared.rulesCleared version ≤ w.shared.version :=
      Nat.max_le.mpr ⟨hc.cleared.2, hp.1⟩
    exact ⟨⟨hrefl.version, hrefl.states, hrefl.floor, hrefl.cleared, Nat.le_max_left _ _⟩,
      ⟨⟨hc.floor.1, Nat.le_trans hc.floor.2 (Nat.le_max_left _ _)⟩, ⟨hc.cleared.1, hmax⟩,
        hc.cache, TtlCache.readWithin_empty⟩, hp.2, Nat.le_max_right _ _⟩
  · next version =>
    cases hstep
    exact ⟨⟨hrefl.version, hrefl.states, Nat.le_max_left _ _, hrefl.cleared, hrefl.rulesCleared⟩,
      ⟨⟨Nat.max_le.mpr ⟨hc.floor.1, hp.1⟩, Nat.max_le.mpr ⟨hc.floor.2, hp.2⟩⟩, hc.cleared, hc.cache,
        hc.rulesCache⟩, trivial⟩
  · cases hstep

theorem cachesOk_newService (db : AuthzDb) : CachesOk (newService db).shared :=
  ⟨⟨Nat.le_refl _, Nat.le_refl _⟩, ⟨Nat.le_refl _, Nat.le_refl _⟩, TtlCache.readWithin_empty,
    TtlCache.readWithin_empty⟩

end Invariant

/-- Where no read is inserted into a cache that was cleared for a newer state, no decision is served
from a state older than an invalidation that had returned. -/
theorem answersCurrent_of_reach (db : AuthzDb) (w : World PermissionState PermissionProc)
    (h : permissionProtocol.machine.Reach InsertsCurrent (newService db) w) : AnswersCurrent w := by
  have hinv := Protocol.reach_rely_guarantee (I := CachesOk) (A := fun _ l s => ProcOk s l) h
    (cachesOk_newService db) (fun _ => trivial) ?_
  · intro p call floor allowed hp
    have hproc := hinv.2 p
    rw [hp] at hproc
    exact hproc allowed rfl
  · intro w p a s' l' hc hprocs hok hstep
    obtain ⟨hlater, hc', hp'⟩ := step_ok hc (hprocs p) hok hstep
    exact ⟨hc', hp', fun q _ => (hprocs q).later hlater⟩

/-- One user may read one repository. -/
def readerDb : AuthzDb :=
  ⟨[⟨"user", 1, "repository", 7, [some "read"]⟩], [], [⟨7, none⟩], [], [], by simp⟩

def revokedDb : AuthzDb := { readerDb with permissions := [] }

/-- `check_permission` for the reader, in a request of its own. -/
def checkRead : PermissionCall := .checkPermission ⟨1, "repository", 7⟩ "read" false

/-- The grant is revoked, and `invalidate_cache` returns. -/
def revocation (p : ℕ) : List (ℕ × PermissionAction) :=
  [(p, .commit revokedDb), (p, .invalidateCache), (p, .clear), (p, .clear), (p, .return)]

/-- A check that misses the cache, up to its insert. -/
def missedRead (p : ℕ) : List (ℕ × PermissionAction) :=
  [(p, .call checkRead), (p, .lookup false), (p, .query none)]

def insertRead (p : ℕ) : List (ℕ × PermissionAction) := [(p, .insert)]

/-- A check before the revocation and one after it. -/
def checkRevokeCheck : List (ℕ × PermissionAction) :=
  missedRead 0 ++ insertRead 0 ++ revocation 1 ++ missedRead 2 ++ insertRead 2

theorem answersCurrent_checkRevokeCheck :
    ∃ w, permissionProtocol.machine.Reach InsertsCurrent (newService readerDb) w ∧
      w.procs 2 = .answered checkRead 1 (.ok false) ∧ AnswersCurrent w := by
  have hrun : (permissionProtocol.machine.run (newService readerDb) checkRevokeCheck).map
      (fun w => w.procs 2) = some (.answered checkRead 1 (.ok false)) := by
    decide +kernel
  have hmeets : permissionProtocol.machine.Meets InsertsCurrent (newService readerDb)
      checkRevokeCheck := by
    decide +kernel
  obtain ⟨w, hw, hview⟩ := Option.map_eq_some_iff.mp hrun
  have hreach := Machine.reach_of_run checkRevokeCheck hw hmeets
  exact ⟨w, hreach, hview, answersCurrent_of_reach readerDb w hreach⟩

/-- The query of the first check straddles the revocation: its insert comes after the clear. -/
def straddlingCheck : List (ℕ × PermissionAction) :=
  missedRead 0 ++ revocation 1 ++ insertRead 0 ++ (missedRead 2).take 2

/-- The revoked grant is served to a check that started after the invalidation. -/
theorem straddlingCheck_serves_revoked :
    ¬ ∀ (db : AuthzDb) (w : World PermissionState PermissionProc),
      permissionProtocol.machine.Reach Machine.anyStep (newService db) w → AnswersCurrent w := by
  intro h
  have hrun : (permissionProtocol.machine.run (newService readerDb) straddlingCheck).map
      (fun w => (w.procs 2, w.shared.version, checkRead.decision (w.shared.states 1))) =
      some (.answered checkRead 1 (.ok true), 1, .ok false) := by
    decide +kernel
  obtain ⟨w, hw, hview⟩ := Option.map_eq_some_iff.mp hrun
  simp only [Prod.mk.injEq] at hview
  obtain ⟨hproc, hversion, hdecision⟩ := hview
  have hreach := Machine.reach_of_run straddlingCheck hw (Machine.meets_anyStep _ _)
  obtain ⟨v, hfloor, hv, hallowed⟩ := h readerDb w hreach 2 checkRead 1 true hproc
  obtain rfl : v = 1 := by omega
  rw [hdecision] at hallowed
  cases hallowed

end ArtifactKeeper.Permissions
