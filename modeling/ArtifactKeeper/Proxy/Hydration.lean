import ArtifactKeeper.Machine
import ArtifactKeeper.SlotRegistry

/-! Buffered single-flight of proxy cache hydration within one process: callers of
`coordinate_proxy_hydration` elect a leader per lease key through a map of slots, and the leader's
lease gives its slot back when it is dropped. -/

namespace ArtifactKeeper.Proxy

def defaultProxyHydrationWaitTimeoutMs : ℕ := 65000

def followerWaitSliceMs : ℕ := 250

/-- The process-wide map and the clock. A slot number stands for the `Arc<Notify>` of a slot. -/
structure Hydrations where
  map : SlotRegistry String
  nowMs : ℕ

inductive LocalHydrationRole where
  | leader (slot : ℕ)
  | follower (slot : ℕ)
  deriving DecidableEq, Repr

def acquireLocalHydration (map : SlotRegistry String) (key : String) :
    SlotRegistry String × LocalHydrationRole :=
  match map.slots key with
  | some existing => (map, .follower existing)
  | none => (map.insertNew key, .leader map.next)

/-- What a call keeps along its loop; `producer` tells that `produce` was not taken yet. -/
structure HydrationCall where
  key : String
  deadlineMs : ℕ
  producer : Bool
  deriving DecidableEq, Repr

/-- Where a caller stands. `checking` and `leading` await a check, the latter with the lease held;
`releasing` is about to drop the lease, to return the result or because it was cancelled. -/
inductive Caller (τ ε : Type) where
  | idle
  | checking (c : HydrationCall)
  | following (c : HydrationCall) (slot : ℕ)
  | waiting (c : HydrationCall) (slot untilMs : ℕ)
  | leading (c : HydrationCall) (slot : ℕ)
  | producing (c : HydrationCall) (slot : ℕ)
  | releasing (key : String) (slot : ℕ) (result : Option (Except ε τ))
  | returned (result : Except ε τ)
  | cancelled
  | panicked

/-- `checked` and `produced` deliver what an awaited `check` or `produce` gives. -/
inductive HydrationAction (τ ε : Type) where
  | tick (ms : ℕ)
  | call (key : String)
  | checked (result : Except ε (Option τ))
  | wait
  | wake
  | produced (result : Except ε τ)
  | cancel
  | release

section Protocol
variable {τ ε : Type} (timeoutError : ε)

/-- The round of the loop after a check without a value. -/
def elect (s : Hydrations) (c : HydrationCall) : Hydrations × Caller τ ε :=
  if c.deadlineMs ≤ s.nowMs then (s, .returned (.error timeoutError))
  else
    match acquireLocalHydration s.map c.key with
    | (map, .follower slot) => ({ s with map }, .following c slot)
    | (map, .leader slot) => ({ s with map }, .leading c slot)

/-- Any number of callers. A follower's wait ends with a notification or with its slice; here it may
end at any time. A caller can be cancelled at each await, and then drops the lease if it has one. -/
def hydrationProtocol : Protocol Hydrations (Caller τ ε) (HydrationAction τ ε) where
  step _ s l a :=
    match l, a with
    | l, .tick ms => some ({ s with nowMs := s.nowMs + ms }, l)
    | .idle, .call key =>
      some (s, .checking ⟨key, s.nowMs + defaultProxyHydrationWaitTimeoutMs, true⟩)
    | .checking _, .checked (.error e) => some (s, .returned (.error e))
    | .checking _, .checked (.ok (some value)) => some (s, .returned (.ok value))
    | .checking c, .checked (.ok none) => some (elect timeoutError s c)
    | .following c slot, .wait =>
      let remaining := c.deadlineMs - s.nowMs
      if remaining = 0 then some (s, .returned (.error timeoutError))
      else some (s, .waiting c slot (s.nowMs + min remaining followerWaitSliceMs))
    | .waiting c _ _, .wake => some (s, .checking c)
    | .leading c slot, .checked (.error e) => some (s, .releasing c.key slot (some (.error e)))
    | .leading c slot, .checked (.ok (some value)) =>
      some (s, .releasing c.key slot (some (.ok value)))
    | .leading c slot, .checked (.ok none) =>
      if c.deadlineMs ≤ s.nowMs then
        some (s, .releasing c.key slot (some (.error timeoutError)))
      else if c.producer then some (s, .producing { c with producer := false } slot)
      else some (s, .panicked)
    | .producing c slot, .produced result => some (s, .releasing c.key slot (some result))
    | .releasing key slot result, .release =>
      some ({ s with map := s.map.removeOwned key slot },
        match result with
        | some result => .returned result
        | none => .cancelled)
    | .checking _, .cancel => some (s, .cancelled)
    | .waiting _ _ _, .cancel => some (s, .cancelled)
    | .leading c slot, .cancel => some (s, .releasing c.key slot none)
    | .producing c slot, .cancel => some (s, .releasing c.key slot none)
    | _, _ => none

end Protocol

namespace Caller
variable {τ ε : Type}

/-- The `LeaderLease` that a caller holds. -/
def lease : Caller τ ε → Option (String × ℕ)
  | .leading c slot | .producing c slot => some (c.key, slot)
  | .releasing key slot _ => some (key, slot)
  | _ => none

/-- The caller's `produce` for the key is running. -/
def produces (key : String) : Caller τ ε → Prop
  | .producing c _ => c.key = key
  | _ => False

/-- `produce` is there as long as it was not started. -/
def Prepared : Caller τ ε → Prop
  | .checking c | .following c _ | .waiting c _ _ | .leading c _ => c.producer = true
  | .panicked => False
  | _ => True

end Caller

def noHydrations (τ ε : Type) : World Hydrations (Caller τ ε) := ⟨⟨.empty, 0⟩, fun _ => .idle⟩

section Step
variable {τ ε : Type} {timeoutError : ε} {p : ℕ} {s s' : Hydrations} {l l' : Caller τ ε}
  {a : HydrationAction τ ε}

theorem elect_cases (c : HydrationCall) :
    elect (τ := τ) timeoutError s c = (s, .returned (.error timeoutError)) ∨
      (∃ slot, elect (τ := τ) timeoutError s c = (s, .following c slot)) ∨
      s.map.slots c.key = none ∧ elect (τ := τ) timeoutError s c =
        ({ s with map := s.map.insertNew c.key }, .leading c s.map.next) := by
  unfold elect acquireLocalHydration
  split
  · exact .inl rfl
  · cases hslot : s.map.slots c.key with
    | some existing => exact .inr (.inl ⟨existing, rfl⟩)
    | none => exact .inr (.inr ⟨rfl, rfl⟩)

/-- All that a step does to the map and to the lease of the caller that takes it: nothing, the
election of a leader, or the drop of a lease. -/
theorem map_of_step (hl : l.Prepared)
    (h : (hydrationProtocol timeoutError).step p s l a = some (s', l')) :
    (s'.map = s.map ∧ l'.lease = l.lease) ∨
      (∃ key, s.map.slots key = none ∧ l.lease = none ∧ s'.map = s.map.insertNew key ∧
        l'.lease = some (key, s.map.next)) ∨
      ∃ key slot result, l = .releasing key slot result ∧ a = .release ∧
        s'.map = s.map.removeOwned key slot ∧ l'.lease = none := by
  unfold hydrationProtocol at h
  dsimp only at h
  split at h
  case h_5 c => -- a round of the loop
    rcases @elect_cases τ _ timeoutError s c with
      he | ⟨slot, he⟩ | ⟨hfree, he⟩ <;> rw [he] at h <;> cases h
    · exact .inl ⟨rfl, rfl⟩
    · exact .inl ⟨rfl, rfl⟩
    · exact .inr (.inl ⟨c.key, hfree, rfl, rfl, rfl⟩)
  case h_6 c slot => -- a follower waits
    split at h <;> cases h <;> exact .inl ⟨rfl, rfl⟩
  case h_10 c slot => -- the leader starts to produce
    simp only [show c.producer = true from hl, if_true] at h
    split at h <;> cases h <;> exact .inl ⟨rfl, rfl⟩
  case h_12 key slot result => -- the lease is dropped
    cases h
    refine .inr (.inr ⟨key, slot, result, rfl, rfl, rfl, ?_⟩)
    cases result <;> rfl
  all_goals cases h <;> exact .inl ⟨rfl, rfl⟩

theorem leaseStep_of_step (hl : l.Prepared)
    (h : (hydrationProtocol timeoutError).step p s l a = some (s', l')) :
    SlotRegistry.LeaseStep s.map l.lease s'.map l'.lease := by
  rcases map_of_step hl h with ⟨hmap, hlease⟩ | ⟨key, hfree, hnone, hmap, hlease⟩ |
    ⟨key, slot, result, rfl, -, hmap, hlease⟩
  · rw [hmap, hlease]
    exact .quiet l.lease
  · rw [hnone, hmap, hlease]
    exact .acquire hfree
  · rw [hmap, hlease]
    exact .release

/-- A step that takes a slot out of the map is the drop of the lease on it. -/
theorem releasing_of_removed (hl : l.Prepared)
    (h : (hydrationProtocol timeoutError).step p s l a = some (s', l')) {key : String} {slot : ℕ}
    (hslot : s.map.slots key = some slot) (hgone : s'.map.slots key ≠ some slot) :
    s'.map.slots key = none ∧ a = .release ∧ ∃ result, l = .releasing key slot result := by
  rcases map_of_step hl h with ⟨hmap, -⟩ | ⟨key', hfree, -, hmap, -⟩ |
    ⟨key', slot', result, rfl, rfl, hmap, -⟩
  · rw [hmap] at hgone
    exact absurd hslot hgone
  · rw [hmap] at hgone
    exact absurd ((SlotRegistry.slots_insertNew_eq_some hfree).mpr (.inr hslot)) hgone
  · rw [hmap, Ne, SlotRegistry.slots_removeOwned_eq_some, not_and_not_right] at hgone
    obtain ⟨rfl, rfl⟩ := hgone hslot
    refine ⟨?_, rfl, result, rfl⟩
    simp [hmap, SlotRegistry.removeOwned, hslot]

theorem prepared_of_step (hl : l.Prepared)
    (h : (hydrationProtocol timeoutError).step p s l a = some (s', l')) : l'.Prepared := by
  unfold hydrationProtocol at h
  dsimp only at h
  split at h
  case h_5 c =>
    rcases @elect_cases τ _ timeoutError s c with
      he | ⟨slot, he⟩ | ⟨hfree, he⟩ <;> rw [he] at h <;> cases h
    · trivial
    · exact hl
    · exact hl
  case h_6 c slot =>
    split at h <;> cases h
    · trivial
    · exact hl
  case h_10 c slot =>
    simp only [show c.producer = true from hl, if_true] at h
    split at h <;> cases h <;> trivial
  case h_12 key slot result =>
    cases h
    cases result <;> trivial
  all_goals cases h <;> first | exact hl | trivial

/-- `produce` starts with the answer of a check that was made under the lease. -/
theorem leading_of_step_produces {key : String}
    (h : (hydrationProtocol timeoutError).step p s l a = some (s', l')) (hl' : l'.produces key)
    (hl : ¬ l.produces key) :
    ∃ c slot, l = .leading c slot ∧ c.key = key ∧ a = .checked (.ok none) := by
  unfold hydrationProtocol at h
  dsimp only at h
  split at h
  case h_5 c =>
    rcases @elect_cases τ _ timeoutError s c with
      he | ⟨slot, he⟩ | ⟨hfree, he⟩ <;> rw [he] at h <;> cases h <;> exact hl'.elim
  case h_6 c slot =>
    split at h <;> cases h <;> exact hl'.elim
  case h_10 c slot =>
    split at h
    · cases h
      exact hl'.elim
    · split at h <;> cases h
      · exact ⟨c, slot, rfl, hl', rfl⟩
      · exact hl'.elim
  case h_12 key' slot result =>
    cases h
    cases result <;> exact hl'.elim
  all_goals cases h <;> first | exact hl'.elim | exact absurd hl' hl

end Step

section Run
variable {τ ε : Type} {timeoutError : ε}

/-- What the election promises in a state: one `produce` per key, a slot in the map for every lease
and for nothing else, the expectation on `produce` kept, and steps that remove a slot only for its
holder and start `produce` only after a check under the lease. -/
structure SingleFlight (timeoutError : ε) (w : World Hydrations (Caller τ ε)) : Prop where
  one : ∀ key p q, (w.procs p).produces key → (w.procs q).produces key → p = q
  slots : ∀ key slot, w.shared.map.slots key = some slot ↔
    ∃ p, (w.procs p).lease = some (key, slot)
  holder : ∀ key p q slot slot', (w.procs p).lease = some (key, slot) →
    (w.procs q).lease = some (key, slot') → p = q
  producer : ∀ p, w.procs p ≠ .panicked
  removed : ∀ p a w', (hydrationProtocol timeoutError).machine.step w (p, a) = some w' →
    ∀ key slot, w.shared.map.slots key = some slot → w'.shared.map.slots key ≠ some slot →
      w'.shared.map.slots key = none ∧ a = .release ∧
        ∃ result, w.procs p = .releasing key slot result
  started : ∀ p a w', (hydrationProtocol timeoutError).machine.step w (p, a) = some w' →
    ∀ key, (w'.procs p).produces key → ¬ (w.procs p).produces key →
      ∃ c slot, w.procs p = .leading c slot ∧ c.key = key ∧ a = .checked (.ok none) ∧
        w.shared.map.slots key = some slot

structure HydrationInv (w : World Hydrations (Caller τ ε)) : Prop where
  leased : w.shared.map.Leased fun p => (w.procs p).lease
  prepared : ∀ p, (w.procs p).Prepared

theorem hydrationInv_of_reach {ok : World Hydrations (Caller τ ε) → ℕ × HydrationAction τ ε → Prop}
    {w : World Hydrations (Caller τ ε)}
    (h : (hydrationProtocol timeoutError).machine.Reach ok (noHydrations τ ε) w) :
    HydrationInv w := by
  apply h.invariant (I := HydrationInv)
  · exact ⟨SlotRegistry.leased_empty, fun _ => trivial⟩
  · rintro w ⟨p, a⟩ w' hw - hs
    obtain ⟨s', l', hstep, rfl⟩ := Protocol.machine_step hs
    constructor
    · have hleased := hw.leased.step (leaseStep_of_step (hw.prepared p) hstep)
      have hupdate : (fun q => (Function.update w.procs p l' q).lease) =
          Function.update (fun q => (w.procs q).lease) p l'.lease :=
        Function.comp_update Caller.lease w.procs p l'
      exact hupdate ▸ hleased
    · intro q
      by_cases hq : q = p
      · subst hq
        simpa using prepared_of_step (hw.prepared q) hstep
      · simpa [hq] using hw.prepared q

theorem lease_of_produces {l : Caller τ ε} {key : String} (h : l.produces key) :
    ∃ slot, l.lease = some (key, slot) := by
  cases l with
  | producing c slot => exact ⟨slot, by rw [Caller.lease, show c.key = key from h]⟩
  | _ => exact h.elim

/-- Every state of every run of any callers on any keys. -/
theorem singleFlight_of_reach (timeoutError : ε) (w : World Hydrations (Caller τ ε))
    (h : (hydrationProtocol timeoutError).machine.Reach Machine.anyStep (noHydrations τ ε) w) :
    SingleFlight timeoutError w := by
  have hinv := hydrationInv_of_reach h
  refine ⟨?_, hinv.leased.slots, ?_, ?_, ?_, ?_⟩
  · intro key p q hp hq
    obtain ⟨slot, hp⟩ := lease_of_produces hp
    obtain ⟨slot', hq⟩ := lease_of_produces hq
    exact hinv.leased.holder_of_key hp hq
  · exact fun key p q slot slot' hp hq => hinv.leased.holder_of_key hp hq
  · intro p hp
    have hprepared := hinv.prepared p
    rw [hp] at hprepared
    exact hprepared
  · intro p a w' hs key slot hslot hgone
    obtain ⟨s', l', hstep, rfl⟩ := Protocol.machine_step hs
    exact releasing_of_removed (hinv.prepared p) hstep hslot hgone
  · intro p a w' hs key hproduces hbefore
    obtain ⟨s', l', hstep, rfl⟩ := Protocol.machine_step hs
    simp only [Function.update_self] at hproduces
    obtain ⟨c, slot, hl, rfl, ha⟩ := leading_of_step_produces hstep hproduces hbefore
    exact ⟨c, slot, hl, rfl, ha, (hinv.leased.slots c.key slot).mpr ⟨p, by rw [hl, Caller.lease]⟩⟩

/-- Two callers on one key: the first leads and produces, the second follows. -/
def leaderAndFollower : List (ℕ × HydrationAction ℕ Unit) :=
  [(0, .call "pypi/simple"), (1, .call "pypi/simple"), (0, .checked (.ok none)),
    (1, .checked (.ok none)), (1, .wait), (0, .checked (.ok none))]

theorem singleFlight_leaderAndFollower :
    ∃ w, (hydrationProtocol ()).machine.Reach Machine.anyStep (noHydrations ℕ Unit) w ∧
      w.shared.map.slots "pypi/simple" = some 0 ∧ SingleFlight () w := by
  have hrun : ((hydrationProtocol ()).machine.run (noHydrations ℕ Unit) leaderAndFollower).map
      (fun w => w.shared.map.slots "pypi/simple") = some (some 0) := by decide +kernel
  obtain ⟨w, hw, hslot⟩ := Option.map_eq_some_iff.mp hrun
  have hreach := Machine.reach_of_run leaderAndFollower hw (Machine.meets_anyStep _ _)
  exact ⟨w, hreach, hslot, singleFlight_of_reach () w hreach⟩

end Run

end ArtifactKeeper.Proxy
