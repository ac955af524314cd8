import Mathlib.Data.List.Basic
import Mathlib.Order.Nat
import ArtifactKeeper.Machine

/-! The computed-packument cache over its in-process backend: guarded stores and invalidations that
run beside each other, with the per-package generations that order them. -/

namespace ArtifactKeeper.Npm

def invalidationGenerationsMax : ℕ := 1024

structure CachedPackument where
  bytes : List UInt8
  contentType : String
  contentEncoding : Option String
  deriving DecidableEq, Repr

def acceptVariant (wantAbbreviated : Bool) : String := if wantAbbreviated then "corgi" else "full"

def encodingLabel (gzip : Bool) : String := if gzip then "gzip" else "identity"

/-- `cache_key`, for any digest of the base URL. -/
def cacheKey (baseUrlHash : String → String) (repoKey package : String)
    (wantAbbreviated gzip : Bool) (baseUrl : String) : String :=
  repoKey ++ ":" ++ package ++ ":" ++ acceptVariant wantAbbreviated ++ ":" ++ encodingLabel gzip ++
    ":" ++ baseUrlHash baseUrl

def invalidationPrefix (repoKey package : String) : String := repoKey ++ ":" ++ package ++ ":"

/-- `str::starts_with`. -/
def startsWith (key pfx : String) : Bool := pfx.toList.isPrefixOf key.toList

/-- `InvalidationGenerations`. -/
structure Generations where
  epoch : ℕ
  generations : List (String × ℕ)
  deriving DecidableEq, Repr

namespace Generations

def generationOf (g : Generations) (pfx : String) : ℕ × ℕ :=
  (g.epoch, (g.generations.lookup pfx).getD 0)

/-- `*generations.entry(prefix).or_insert(0) += 1`. -/
def increment (pfx : String) : List (String × ℕ) → List (String × ℕ)
  | [] => [(pfx, 1)]
  | (key, n) :: rest => if pfx = key then (key, n + 1) :: rest else (key, n) :: increment pfx rest

/-- The locked part of `invalidate_package`: a full map is cleared with a new epoch. -/
def bump (g : Generations) (pfx : String) : Generations :=
  let g := if invalidationGenerationsMax ≤ g.generations.length ∧
      (g.generations.lookup pfx).isNone then ⟨g.epoch + 1, []⟩ else g
  { g with generations := increment pfx g.generations }

end Generations

/-- `takenAt` counts the invalidations, of any package, that had begun when the guard was taken. -/
structure StoreGuard where
  pfx : String
  epoch : ℕ
  generation : ℕ
  takenAt : ℕ
  deriving DecidableEq, Repr

/-- An entry of the in-process map, with the package it was computed for and the guard it was stored
under. -/
structure StoredPackument where
  key : String
  entry : CachedPackument
  storedAtMs : ℕ
  repoKey : String
  package : String
  guard : StoreGuard
  deriving DecidableEq, Repr

/-- `InProcessPackumentCache` without its map. -/
structure InProcess where
  staleMaxMs : ℕ
  maxEntries : ℕ
  maxEntries_pos : 0 < maxEntries

namespace InProcess
variable (c : InProcess)

def isExpired (nowMs storedAtMs : ℕ) : Bool := decide (c.staleMaxMs ≤ nowMs - storedAtMs)

/-- `evicted` is one of the oldest entries. -/
def isOldest (entries : List StoredPackument) (evicted : String) : Bool :=
  entries.any fun e =>
    e.key == evicted && entries.all fun e' => decide (e.storedAtMs ≤ e'.storedAtMs)

/-- `set`: sweep, make room at the cap, insert. Which of several oldest entries goes is left to the
iteration order of the map, here to the argument `evicted`. -/
def set (entries : List StoredPackument) (nowMs : ℕ) (new : StoredPackument)
    (evicted : Option String) : Option (List StoredPackument) :=
  let live := entries.filter fun e => !c.isExpired nowMs e.storedAtMs
  let insert := fun kept : List StoredPackument => new :: kept.filter fun e => e.key != new.key
  if c.maxEntries ≤ live.length ∧ live.all fun e => e.key != new.key then
    match evicted with
    | some key =>
      if isOldest live key then some (insert (live.filter fun e => e.key != key)) else none
    | none => none
  else if evicted = none then some (insert live) else none

end InProcess

def invalidatePrefix (entries : List StoredPackument) (pfx : String) : List StoredPackument :=
  entries.filter fun e => !startsWith e.key pfx

/-- The cache, the clock, and a record of the invalidations: how many have begun, the number of the
latest one of each prefix, and the prefixes and numbers of those that have completed. -/
structure PackumentState where
  gens : Generations
  entries : List StoredPackument
  nowMs : ℕ
  begun : ℕ
  latest : String → ℕ
  completed : List (String × ℕ)

/-- A compute between `begin_store` and its end. -/
structure Compute where
  repoKey : String
  package : String
  guard : StoreGuard
  deriving DecidableEq, Repr

/-- Where a request stands: in a compute, at one of the steps of `store_guarded`, or between the two
steps of `invalidate_package`. -/
inductive PackumentProc where
  | idle
  | computing (c : Compute)
  | checking (c : Compute) (key : String) (entry : CachedPackument)
  | setting (c : Compute) (key : String) (entry : CachedPackument)
  | rechecking (c : Compute)
  | dropping (c : Compute)
  | invalidating (pfx : String) (number : ℕ)
  | finished
  deriving DecidableEq

inductive PackumentAction where
  | tick (ms : ℕ)
  | beginStore (repoKey package : String)
  | storeGuarded (wantAbbreviated gzip : Bool) (baseUrl : String) (entry : CachedPackument)
  | check
  | set (evicted : Option String)
  | recheck
  | drop
  | finish
  | invalidatePackage (repoKey package : String)
  | invalidateBackend
  deriving DecidableEq

def beginStore (s : PackumentState) (repoKey package : String) : StoreGuard :=
  let pfx := invalidationPrefix repoKey package
  let (epoch, generation) := s.gens.generationOf pfx
  ⟨pfx, epoch, generation, s.begun⟩

/-- The guard matches what `generation_of` answers now. -/
def StoreGuard.matches (g : StoreGuard) (s : PackumentState) : Bool :=
  s.gens.generationOf g.pfx == (g.epoch, g.generation)

def packumentProtocol (cfg : InProcess) (baseUrlHash : String → String) :
    Protocol PackumentState PackumentProc PackumentAction where
  step _ s l a :=
    match l, a with
    | l, .tick ms => some ({ s with nowMs := s.nowMs + ms }, l)
    | .idle, .beginStore repoKey package =>
      some (s, .computing ⟨repoKey, package, beginStore s repoKey package⟩)
    | .computing c, .storeGuarded wantAbbreviated gzip baseUrl entry =>
      some (s, .checking c
        (cacheKey baseUrlHash c.repoKey c.package wantAbbreviated gzip baseUrl) entry)
    | .checking c key entry, .check =>
      if c.guard.matches s then some (s, .setting c key entry) else some (s, .computing c)
    | .setting c key entry, .set evicted =>
      (cfg.set s.entries s.nowMs ⟨key, entry, s.nowMs, c.repoKey, c.package, c.guard⟩ evicted).map
        fun entries => ({ s with entries }, .rechecking c)
    | .rechecking c, .recheck =>
      if c.guard.matches s then some (s, .computing c) else some (s, .dropping c)
    | .dropping c, .drop =>
      some ({ s with entries := invalidatePrefix s.entries c.guard.pfx }, .computing c)
    | .computing _, .finish => some (s, .finished)
    | .idle, .invalidatePackage repoKey package =>
      let pfx := invalidationPrefix repoKey package
      some ({ s with
        gens := s.gens.bump pfx
        begun := s.begun + 1
        latest := Function.update s.latest pfx (s.begun + 1) }, .invalidating pfx (s.begun + 1))
    | .invalidating pfx number, .invalidateBackend =>
      some ({ s with
        entries := invalidatePrefix s.entries pfx
        completed := (pfx, number) :: s.completed }, .finished)
    | _, _ => none

def emptyPackuments : World PackumentState PackumentProc :=
  ⟨⟨⟨0, []⟩, [], 0, 0, fun _ => 0, []⟩, fun _ => .idle⟩

section Generations

theorem lookup_increment (pfx pfx' : String) (l : List (String × ℕ)) :
    ((Generations.increment pfx l).lookup pfx').getD 0 =
      (l.lookup pfx').getD 0 + if pfx' = pfx then 1 else 0 := by
  induction l with
  | nil =>
    by_cases h : pfx' = pfx
    · simp [Generations.increment, h]
    · simp [Generations.increment, List.lookup_cons, h, beq_eq_false_iff_ne.mpr h]
  | cons entry rest ih =>
    obtain ⟨key, n⟩ := entry
    by_cases hkey : pfx = key
    · subst hkey
      by_cases h : pfx' = pfx
      · simp [Generations.increment, h]
      · simp [Generations.increment, List.lookup_cons, h, beq_eq_false_iff_ne.mpr h]
    · by_cases h : pfx' = key
      · subst h
        have hne : ¬ pfx' = pfx := fun h => hkey h.symm
        simp [Generations.increment, hkey, hne]
      · simpa [Generations.increment, List.lookup_cons, hkey, beq_eq_false_iff_ne.mpr h] using ih

/-- A bump raises the generation of its prefix alone, or starts a new epoch. -/
theorem bump_cases (g : Generations) (pfx : String) :
    ((g.bump pfx).epoch = g.epoch ∧ ∀ pfx', ((g.bump pfx).generations.lookup pfx').getD 0 =
      (g.generations.lookup pfx').getD 0 + if pfx' = pfx then 1 else 0) ∨
    (g.bump pfx).epoch = g.epoch + 1 := by
  unfold Generations.bump
  dsimp only
  split
  · exact .inr rfl
  · exact .inl ⟨rfl, fun pfx' => lookup_increment pfx pfx' g.generations⟩

end Generations

section Invariant

/-- What a guard knows: its generation is one that was current when it was taken, and is not any
more once its package was invalidated. -/
structure GuardOk (s : PackumentState) (g : StoreGuard) : Prop where
  takenAt : g.takenAt ≤ s.begun
  epoch : g.epoch ≤ s.gens.epoch
  generation : g.epoch = s.gens.epoch →
    g.generation ≤ (s.gens.generations.lookup g.pfx).getD 0 ∧
      (g.takenAt < s.latest g.pfx → g.generation < (s.gens.generations.lookup g.pfx).getD 0)

theorem GuardOk.latest_le {s : PackumentState} {g : StoreGuard} (h : GuardOk s g)
    (hm : g.matches s = true) : s.latest g.pfx ≤ g.takenAt := by
  simp only [StoreGuard.matches, Generations.generationOf, beq_iff_eq, Prod.mk.injEq] at hm
  obtain ⟨hepoch, hgen⟩ := hm
  by_contra hlt
  have := (h.generation hepoch.symm).2 (by omega)
  omega

theorem GuardOk.bump {s : PackumentState} {g : StoreGuard} (h : GuardOk s g) (pfx : String)
    {s' : PackumentState} (hgens : s'.gens = s.gens.bump pfx) (hbegun : s'.begun = s.begun + 1)
    (hlatest : s'.latest = Function.update s.latest pfx (s.begun + 1)) : GuardOk s' g := by
  obtain ⟨htaken, hepoch, hgen⟩ := h
  rcases bump_cases s.gens pfx with ⟨hsame, hlookup⟩ | hnew
  · refine ⟨by omega, by rw [hgens, hsame]; exact hepoch, fun heq => ?_⟩
    rw [hgens, hsame] at heq
    obtain ⟨hle, hlt⟩ := hgen heq
    rw [hgens, hlookup, hlatest]
    by_cases hpfx : g.pfx = pfx
    · simp only [hpfx, if_true] at hle ⊢
      exact ⟨by omega, fun _ => by omega⟩
    · simp only [hpfx, if_false, Nat.add_zero, Function.update_of_ne hpfx]
      exact ⟨hle, hlt⟩
  · refine ⟨by omega, by rw [hgens, hnew]; omega, fun heq => ?_⟩
    rw [hgens, hnew] at heq
    omega

theorem guardOk_beginStore {s : PackumentState} (hlatest : ∀ pfx, s.latest pfx ≤ s.begun)
    (repoKey package : String) : GuardOk s (beginStore s repoKey package) where
  takenAt := Nat.le_refl _
  epoch := Nat.le_refl _
  generation _ := by
    refine ⟨Nat.le_refl _, fun hlt => ?_⟩
    have hle := hlatest (beginStore s repoKey package).pfx
    exact absurd hlt (Nat.not_lt.mpr hle)

theorem startsWith_cacheKey (baseUrlHash : String → String) (repoKey package : String)
    (wantAbbreviated gzip : Bool) (baseUrl : String) :
    startsWith (cacheKey baseUrlHash repoKey package wantAbbreviated gzip baseUrl)
      (invalidationPrefix repoKey package) = true := by
  simp [startsWith, cacheKey, invalidationPrefix, List.isPrefixOf_iff_prefix]

/-- The next steps of the request drop what is stored under the prefix. -/
def WillDrop (s : PackumentState) (pfx : String) : PackumentProc → Prop
  | .invalidating pfx' _ => pfx' = pfx
  | .dropping c => c.guard.pfx = pfx
  | .rechecking c => c.guard.pfx = pfx ∧ c.guard.takenAt < s.latest pfx
  | _ => False

structure ComputeOk (s : PackumentState) (c : Compute) : Prop where
  pfx : c.guard.pfx = invalidationPrefix c.repoKey c.package
  guard : GuardOk s c.guard

def ProcOk (s : PackumentState) : PackumentProc → Prop
  | .computing c | .rechecking c | .dropping c => ComputeOk s c
  | .checking c key _ | .setting c key _ => ComputeOk s c ∧ startsWith key c.guard.pfx = true
  | .invalidating pfx number => number ≤ s.latest pfx
  | .idle | .finished => True

structure EntryOk (e : StoredPackument) : Prop where
  pfx : e.guard.pfx = invalidationPrefix e.repoKey e.package
  key : startsWith e.key e.guard.pfx = true

structure PackumentInv (w : World PackumentState PackumentProc) : Prop where
  procs : ∀ p, ProcOk w.shared (w.procs p)
  entries : ∀ e ∈ w.shared.entries, EntryOk e
  latest : ∀ pfx, w.shared.latest pfx ≤ w.shared.begun
  completed : ∀ pfx n, (pfx, n) ∈ w.shared.completed → n ≤ w.shared.latest pfx
  /-- An entry that was overtaken by an invalidation is about to be dropped. -/
  stale : ∀ e ∈ w.shared.entries, e.guard.takenAt < w.shared.latest e.guard.pfx →
    ∃ p, WillDrop w.shared e.guard.pfx (w.procs p)

variable {w : World PackumentState PackumentProc} {p : ℕ}

theorem ComputeOk.congr {s s' : PackumentState} (hgens : s'.gens = s.gens)
    (hbegun : s'.begun = s.begun) (hlatest : s'.latest = s.latest) {c : Compute}
    (h : ComputeOk s c) : ComputeOk s' c := by
  obtain ⟨hpfx, ⟨htaken, hepoch, hgen⟩⟩ := h
  exact ⟨hpfx, hbegun ▸ htaken, hgens ▸ hepoch, by rw [hgens, hlatest]; exact hgen⟩

theorem ProcOk.congr {s s' : PackumentState} (hgens : s'.gens = s.gens)
    (hbegun : s'.begun = s.begun) (hlatest : s'.latest = s.latest) {l : PackumentProc}
    (h : ProcOk s l) : ProcOk s' l := by
  cases l with
  | computing c | rechecking c | dropping c => exact ComputeOk.congr hgens hbegun hlatest h
  | checking c key entry | setting c key entry =>
    exact ⟨ComputeOk.congr hgens hbegun hlatest h.1, h.2⟩
  | invalidating pfx number =>
    show number ≤ s'.latest pfx
    rw [hlatest]
    exact h
  | idle | finished => trivial

/-- A step of `p` that leaves generations and invalidations as they are. -/
theorem PackumentInv.update (h : PackumentInv w) {s' : PackumentState} {l' : PackumentProc}
    (hgens : s'.gens = w.shared.gens) (hbegun : s'.begun = w.shared.begun)
    (hlatest : s'.latest = w.shared.latest)
    (hcompleted : ∀ pfx n, (pfx, n) ∈ s'.completed → n ≤ s'.latest pfx)
    (hentries : ∀ e ∈ s'.entries, EntryOk e) (hproc : ProcOk w.shared l')
    (hstale : ∀ e ∈ s'.entries, e.guard.takenAt < s'.latest e.guard.pfx →
      (e ∈ w.shared.entries ∧ ¬ WillDrop w.shared e.guard.pfx (w.procs p)) ∨
        WillDrop w.shared e.guard.pfx l') :
    PackumentInv ⟨s', Function.update w.procs p l'⟩ := by
  have hdrop : ∀ pfx l, WillDrop w.shared pfx l → WillDrop s' pfx l := by
    intro pfx l hl
    cases l <;> simp only [WillDrop, hlatest] at hl ⊢ <;> exact hl
  constructor
  · intro q
    by_cases hq : q = p
    · subst hq
      simpa using hproc.congr hgens hbegun hlatest
    · simpa [hq] using (h.procs q).congr hgens hbegun hlatest
  · exact hentries
  · intro pfx
    rw [hlatest, hbegun]
    exact h.latest pfx
  · exact hcompleted
  · intro e he hlt
    rcases hstale e he hlt with ⟨hold, hnot⟩ | hl'
    · -- another request is to drop it
      obtain ⟨q, hq⟩ := h.stale e hold (hlatest ▸ hlt)
      have hne : q ≠ p := by
        rintro rfl
        exact hnot hq
      exact ⟨q, by simpa [hne] using hdrop _ _ hq⟩
    · exact ⟨p, by simpa using hdrop _ _ hl'⟩

/-- A step that changes at most the clock beside its own request. -/
theorem PackumentInv.quiet (h : PackumentInv w) {l' : PackumentProc} (ms : ℕ)
    (hproc : ProcOk w.shared l')
    (hdrop : ∀ pfx, WillDrop w.shared pfx (w.procs p) → WillDrop w.shared pfx l') :
    PackumentInv ⟨{ w.shared with nowMs := ms }, Function.update w.procs p l'⟩ := by
  refine h.update rfl rfl rfl h.completed h.entries hproc fun e he _ => ?_
  by_cases hl : WillDrop w.shared e.guard.pfx (w.procs p)
  · exact .inr (hdrop _ hl)
  · exact .inl ⟨he, hl⟩

theorem mem_of_mem_set {cfg : InProcess} {entries entries' : List StoredPackument} {nowMs : ℕ}
    {new : StoredPackument} {evicted : Option String}
    (h : cfg.set entries nowMs new evicted = some entries') :
    ∀ e ∈ entries', e = new ∨ e ∈ entries := by
  intro e he
  unfold InProcess.set at h
  dsimp only at h
  split at h
  · split at h
    · split at h
      · cases h
        rcases List.mem_cons.mp he with rfl | he
        · exact .inl rfl
        · exact .inr (List.mem_of_mem_filter (List.mem_of_mem_filter (List.mem_of_mem_filter he)))
      · cases h
    · cases h
  · split at h
    · cases h
      rcases List.mem_cons.mp he with rfl | he
      · exact .inl rfl
      · exact .inr (List.mem_of_mem_filter (List.mem_of_mem_filter he))
    · cases h

/-- What is dropped under a prefix has no entry left. -/
theorem not_mem_invalidatePrefix {entries : List StoredPackument} {e : StoredPackument}
    (hok : EntryOk e) : e ∉ invalidatePrefix entries e.guard.pfx := by
  simp [invalidatePrefix, hok.key]

/-- A step that drops what is stored under a prefix. -/
theorem PackumentInv.drop (h : PackumentInv w) {l' : PackumentProc} {pfx : String}
    {completed : List (String × ℕ)}
    (hcompleted : ∀ pfx n, (pfx, n) ∈ completed → n ≤ w.shared.latest pfx)
    (hproc : ProcOk w.shared l')
    (hdrop : ∀ pfx', WillDrop w.shared pfx' (w.procs p) → pfx' = pfx) :
    PackumentInv ⟨{ w.shared with
      entries := invalidatePrefix w.shared.entries pfx, completed := completed },
      Function.update w.procs p l'⟩ := by
  have hsub : ∀ e ∈ invalidatePrefix w.shared.entries pfx, e ∈ w.shared.entries := fun e he =>
    List.mem_of_mem_filter he
  refine h.update rfl rfl rfl hcompleted (fun e he => h.entries e (hsub e he)) hproc
    fun e he _ => .inl ⟨hsub e he, fun hl => ?_⟩
  have hpfx := hdrop _ hl
  rw [← hpfx] at he
  exact not_mem_invalidatePrefix (h.entries e (hsub e (hpfx ▸ he))) he

/-- The locked step of an invalidation: whatever is stored under its prefix is now to be dropped by
it. -/
theorem PackumentInv.bump (h : PackumentInv w) (hp : w.procs p = .idle) (pfx : String) :
    PackumentInv ⟨{ w.shared with
        gens := w.shared.gens.bump pfx
        begun := w.shared.begun + 1
        latest := Function.update w.shared.latest pfx (w.shared.begun + 1) },
      Function.update w.procs p (.invalidating pfx (w.shared.begun + 1))⟩ := by
  have hguard : ∀ g, GuardOk w.shared g → GuardOk { w.shared with
      gens := w.shared.gens.bump pfx
      begun := w.shared.begun + 1
      latest := Function.update w.shared.latest pfx (w.shared.begun + 1) } g :=
    fun g hg => hg.bump pfx rfl rfl rfl
  have hle : ∀ pfx', w.shared.latest pfx' ≤
      Function.update w.shared.latest pfx (w.shared.begun + 1) pfx' := by
    intro pfx'
    have hold := h.latest pfx'
    by_cases heq : pfx' = pfx
    · subst heq
      rw [Function.update_self]
      omega
    · rw [Function.update_of_ne heq]
  constructor
  · intro q
    by_cases hq : q = p
    · subst hq
      simp [ProcOk]
    · have hok := h.procs q
      simp only [ne_eq, hq, not_false_eq_true, Function.update_of_ne]
      cases hl : w.procs q <;> simp only [hl, ProcOk] at hok ⊢
      · exact ⟨hok.pfx, hguard _ hok.guard⟩
      · exact ⟨⟨hok.1.pfx, hguard _ hok.1.guard⟩, hok.2⟩
      · exact ⟨⟨hok.1.pfx, hguard _ hok.1.guard⟩, hok.2⟩
      · exact ⟨hok.pfx, hguard _ hok.guard⟩
      · exact ⟨hok.pfx, hguard _ hok.guard⟩
      · exact hok.trans (hle _)
  · exact h.entries
  · intro pfx'
    show Function.update w.shared.latest pfx (w.shared.begun + 1) pfx' ≤ w.shared.begun + 1
    have hold := h.latest pfx'
    by_cases heq : pfx' = pfx
    · subst heq
      rw [Function.update_self]
    · rw [Function.update_of_ne heq]
      omega
  · exact fun pfx' n hn => (h.completed pfx' n hn).trans (hle pfx')
  · intro e he hlt
    by_cases heq : e.guard.pfx = pfx
    · exact ⟨p, by simp [WillDrop, heq]⟩
    · simp only [Function.update_of_ne heq] at hlt
      obtain ⟨q, hq⟩ := h.stale e he hlt
      have hne : q ≠ p := by
        rintro rfl
        simp [hp, WillDrop] at hq
      refine ⟨q, ?_⟩
      simp only [ne_eq, hne, not_false_eq_true, Function.update_of_ne]
      cases hl : w.procs q <;> simp only [hl, WillDrop, Function.update_of_ne heq] at hq ⊢ <;>
        exact hq

theorem PackumentInv.step {cfg : InProcess} {baseUrlHash : String → String}
    {w' : World PackumentState PackumentProc} (h : PackumentInv w) {a : ℕ × PackumentAction}
    (hs : (packumentProtocol cfg baseUrlHash).machine.step w a = some w') : PackumentInv w' := by
  obtain ⟨p, a⟩ := a
  obtain ⟨s', l', hstep, rfl⟩ := Protocol.machine_step hs
  have hproc := h.procs p
  generalize hp : w.procs p = l at hstep hproc
  have hquiet := fun l' : PackumentProc => @PackumentInv.quiet w p h l' w.shared.nowMs
  rw [hp] at hquiet
  unfold packumentProtocol at hstep
  dsimp only at hstep
  split at hstep
  · next ms =>
    obtain ⟨rfl, rfl⟩ := Prod.mk.inj (Option.some.inj hstep)
    exact h.quiet _ hproc fun pfx hl => hp ▸ hl
  · next repoKey package =>
    cases hstep
    exact hquiet _ ⟨rfl, guardOk_beginStore h.latest repoKey package⟩ fun _ hl => hl.elim
  · next c wantAbbreviated gzip baseUrl entry =>
    cases hstep
    refine hquiet _ ⟨hproc, ?_⟩ fun _ hl => hl.elim
    rw [hproc.pfx]
    exact startsWith_cacheKey _ _ _ _ _ _
  · next c key entry =>
    split at hstep <;> cases hstep
    · exact hquiet _ hproc fun _ hl => hl.elim
    · exact hquiet _ hproc.1 fun _ hl => hl.elim
  · next c key entry evicted =>
    obtain ⟨entries, hset, heq⟩ := Option.map_eq_some_iff.mp hstep
    obtain ⟨rfl, rfl⟩ := Prod.mk.inj heq
    have hmem := mem_of_mem_set hset
    obtain ⟨hc, hkey⟩ := hproc
    refine h.update rfl rfl rfl h.completed (fun e he => ?_) hc fun e he hlt => ?_
    · rcases hmem e he with rfl | he
      · exact ⟨hc.pfx, hkey⟩
      · exact h.entries e he
    · rcases hmem e he with rfl | he
      · exact .inr ⟨rfl, hlt⟩
      · exact .inl ⟨he, by simp [hp, WillDrop]⟩
  · next c =>
    split at hstep <;> cases hstep
    · next hmatch =>
      refine hquiet _ hproc fun pfx hl => ?_
      obtain ⟨rfl, hlt⟩ := hl
      exact absurd hlt (Nat.not_lt.mpr (hproc.guard.latest_le hmatch))
    · exact hquiet _ hproc fun pfx hl => hl.1
  · next c =>
    cases hstep
    exact h.drop h.completed hproc fun pfx' hl => by simpa [hp, WillDrop, eq_comm] using hl
  · next c =>
    cases hstep
    exact hquiet _ trivial fun _ hl => hl.elim
  · next repoKey package =>
    cases hstep
    exact h.bump hp (invalidationPrefix repoKey package)
  · next pfx number =>
    cases hstep
    refine h.drop (fun pfx' n hn => ?_) trivial fun pfx' hl => by
      simpa [hp, WillDrop, eq_comm] using hl
    rcases List.mem_cons.mp hn with heq | hn
    · cases heq
      exact hproc
    · exact h.completed pfx' n hn
  · cases hstep

theorem packumentInv_of_reach {cfg : InProcess} {baseUrlHash : String → String}
    (h : (packumentProtocol cfg baseUrlHash).machine.Reach Machine.anyStep emptyPackuments w) :
    PackumentInv w := by
  apply h.invariant (I := PackumentInv)
  · constructor <;> simp [emptyPackuments, ProcOk]
  · exact fun _ _ _ hw _ hs => hw.step hs

end Invariant

/-- A `store_guarded` or `invalidate_package` call is in progress. -/
def PackumentProc.inCall : PackumentProc → Bool
  | .checking _ _ _ | .setting _ _ _ | .rechecking _ | .dropping _ | .invalidating _ _ => true
  | .idle | .computing _ | .finished => false

/-- Whenever no call is in progress, no entry of the cache was stored under a guard that was taken
before a completed invalidation of its package. -/
theorem entries_newer_than_invalidations (cfg : InProcess) (baseUrlHash : String → String)
    (w : World PackumentState PackumentProc)
    (h : (packumentProtocol cfg baseUrlHash).machine.Reach Machine.anyStep emptyPackuments w)
    (hquiet : ∀ p, (w.procs p).inCall = false) :
    ∀ e ∈ w.shared.entries, ∀ n,
      (invalidationPrefix e.repoKey e.package, n) ∈ w.shared.completed → ¬ e.guard.takenAt < n := by
  intro e he n hn hlt
  have hinv := packumentInv_of_reach h
  rw [← (hinv.entries e he).pfx] at hn
  have hle := hinv.completed _ _ hn
  obtain ⟨p, hp⟩ := hinv.stale e he (Nat.lt_of_lt_of_le hlt hle)
  have hcall := hquiet p
  cases hl : w.procs p <;> simp [hl, PackumentProc.inCall, WillDrop] at hcall hp

/-- A store that is overtaken by an invalidation between its check and its write, and one after
it. -/
def overtakenStore : List (ℕ × PackumentAction) :=
  [(0, .beginStore "npm" "left-pad"),
    (0, .storeGuarded true false "https://a.example" ⟨[1], "application/json", none⟩), (0, .check),
    (1, .invalidatePackage "npm" "left-pad"), (1, .invalidateBackend), (0, .set none),
    (0, .recheck), (0, .drop), (2, .beginStore "npm" "left-pad"),
    (2, .storeGuarded true false "https://a.example" ⟨[2], "application/json", none⟩), (2, .check),
    (2, .set none), (2, .recheck)]

theorem entries_newer_overtakenStore :
    ∃ w, (packumentProtocol ⟨86400000, 8192, by decide⟩ id).machine.Reach Machine.anyStep
        emptyPackuments w ∧
      w.shared.entries.map (fun e => e.entry.bytes) = [[2]] ∧
      ("npm:left-pad:", 1) ∈ w.shared.completed ∧
      ∀ e ∈ w.shared.entries, ∀ n, (invalidationPrefix e.repoKey e.package, n) ∈
        w.shared.completed → ¬ e.guard.takenAt < n := by
  have hrun : ((packumentProtocol ⟨86400000, 8192, by decide⟩ id).machine.run emptyPackuments
      overtakenStore).map (fun w => (w.shared.entries.map (fun e => e.entry.bytes),
        w.shared.completed, (w.procs 0).inCall, (w.procs 1).inCall, (w.procs 2).inCall)) =
      some ([[2]], [("npm:left-pad:", 1)], false, false, false) := by
    decide +kernel
  obtain ⟨w, hw, hview⟩ := Option.map_eq_some_iff.mp hrun
  simp only [Prod.mk.injEq] at hview
  obtain ⟨hentries, hcompleted, h₀, h₁, h₂⟩ := hview
  have hreach := Machine.reach_of_run overtakenStore hw (Machine.meets_anyStep _ _)
  have hquiet : ∀ p, (w.procs p).inCall = false := by
    intro p
    match p with
    | 0 => exact h₀
    | 1 => exact h₁
    | 2 => exact h₂
    | p + 3 =>
      rw [Protocol.procs_of_run hw (p := p + 3) (by simp [overtakenStore])]
      rfl
  exact ⟨w, hreach, hentries, by simp [hcompleted],
    entries_newer_than_invalidations _ id w hreach hquiet⟩

end ArtifactKeeper.Npm
