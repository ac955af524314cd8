import ArtifactKeeper.Rpm.RepodataCache

/-! Renders of one repository exclude each other, although the locks that nobody holds are swept. -/

namespace ArtifactKeeper.Rpm

variable {c : Limits} {renderRepodata : List RpmArtifact → RenderedRepodata} {base : Tables}
  {s s' : Server} {p q lock : ℕ} {a : Ask} {repoId : ℕ} {scan : Scan} {entries : Entries}
  {entry : CacheEntry} {fingerprint : RepodataFingerprint} {set : RenderedRepodata}

theorem mem_of_lookup (h : lookup entries repoId fingerprint = some set) :
    ∃ entry, (repoId, entry) ∈ entries ∧ entry.fingerprint = fingerprint ∧
      entry.rendered = set := by
  unfold lookup at h
  split at h
  · next key entry hfind =>
    obtain rfl : key = repoId := by simpa using List.find?_some hfind
    split at h
    · next heq => exact ⟨entry, List.mem_of_find?_eq_some hfind, heq, Option.some.inj h⟩
    · cases h
  · cases h

theorem lookup_of_mem (hkeys : Keyed entries) (h : (repoId, entry) ∈ entries) :
    lookup entries repoId entry.fingerprint = some entry.rendered := by
  have hfind : entries.find? (·.1 = repoId) = some (repoId, entry) := by
    cases hf : entries.find? (·.1 = repoId) with
    | none => simpa using List.find?_eq_none.mp hf _ h
    | some e =>
      have hkey : e.1 = repoId := by simpa using List.find?_some hf
      rw [hkeys.eq_of_key (List.mem_of_find?_eq_some hf) h hkey]
  simp [lookup, hfind]

theorem mem_of_mem_insert {e : ℕ × CacheEntry}
    (h : e ∈ insert c scan entries repoId entry) :
    e = (repoId, entry) ∨ e ∈ entries ∧ e.1 ≠ repoId := by
  rcases List.mem_append.mp (evict_sublist.subset h) with hold | hnew
  · exact .inr ⟨List.mem_of_mem_filter hold, by simpa using (List.mem_filter.mp hold).2⟩
  · exact .inl (List.mem_singleton.mp hnew)

/-- An insert brings nothing under the ids of others. -/
theorem lookup_insert_of_ne (hkeys : Keyed entries) {repoId' : ℕ} (hne : repoId' ≠ repoId)
    (h : lookup entries repoId' fingerprint = none) :
    lookup (insert c scan entries repoId entry) repoId' fingerprint = none := by
  cases hsome : lookup (insert c scan entries repoId entry) repoId' fingerprint with
  | none => rfl
  | some set =>
    obtain ⟨entry', hmem, rfl, -⟩ := mem_of_lookup hsome
    rcases mem_of_mem_insert hmem with heq | ⟨hold, -⟩
    · exact absurd (congrArg Prod.fst heq) hne
    · rw [lookup_of_mem hkeys hold] at h
      cases h

/-- What holds of the shared state: the cache is bounded, and repositories have locks of their
own. -/
structure Ordered (c : Limits) (s : Server) : Prop where
  keyed : Keyed s.entries
  fits : c.over s.entries = false
  same : ∀ repoId lock lock', (repoId, lock) ∈ s.locks → (repoId, lock') ∈ s.locks → lock = lock'
  lt_next : ∀ e ∈ s.locks, e.2 < s.nextLock

/-- A clone of the lock that the map has for the repository. -/
structure Cloned (s : Server) (p : ℕ) (a : Ask) (lock : ℕ) : Prop where
  mem : (a.repoId, lock) ∈ s.locks
  clone : p ∈ (s.heap lock).clones

structure Guarded (s : Server) (p : ℕ) (a : Ask) (lock : ℕ) : Prop extends Cloned s p a lock where
  owner : (s.heap lock).owner = some p

structure Builds (s : Server) (p : ℕ) (a : Ask) (lock : ℕ) : Prop extends Guarded s p a lock where
  missed : lookup s.entries a.repoId a.fingerprint = none

def Request.Sound (s : Server) (p : ℕ) : Request → Prop
  | .waiting a lock => Cloned s p a lock
  | .checking a lock => Guarded s p a lock
  | .rendering a lock => Builds s p a lock
  | .rendered a lock _ => Builds s p a lock
  | _ => True

/-- What a step of one request leaves to another. -/
structure Spares (s s' : Server) (q : ℕ) : Prop where
  cloned : ∀ a lock, Cloned s q a lock → Cloned s' q a lock
  guarded : ∀ a lock, Guarded s q a lock → (s'.heap lock).owner = some q
  builds : ∀ a lock, Builds s q a lock → lookup s'.entries a.repoId a.fingerprint = none

theorem Spares.refl (s : Server) (q : ℕ) : Spares s s q :=
  ⟨fun _ _ h => h, fun _ _ h => h.owner, fun _ _ h => h.missed⟩

theorem Spares.guarded' (h : Spares s s' q) (hq : Guarded s q a lock) : Guarded s' q a lock :=
  ⟨h.cloned a lock hq.toCloned, h.guarded a lock hq⟩

theorem Spares.builds' (h : Spares s s' q) (hq : Builds s q a lock) : Builds s' q a lock :=
  ⟨h.guarded' hq.toGuarded, h.builds a lock hq⟩

theorem Spares.trans {s'' : Server} (h : Spares s s' q) (h' : Spares s' s'' q) :
    Spares s s'' q where
  cloned a lock hq := h'.cloned a lock (h.cloned a lock hq)
  guarded a lock hq := h'.guarded a lock (h.guarded' hq)
  builds a lock hq := h'.builds a lock (h.builds' hq)

theorem Spares.sound (h : Spares s s' q) {l : Request} (hl : l.Sound s q) : l.Sound s' q := by
  cases l with
  | waiting a lock => exact h.cloned a lock hl
  | checking a lock => exact h.guarded' hl
  | rendering a lock => exact h.builds' hl
  | rendered a lock set => exact h.builds' hl
  | _ => trivial

theorem release_ordered (h : Ordered c s) : Ordered c (s.release p lock) :=
  ⟨h.keyed, h.fits, h.same, h.lt_next⟩

theorem release_spares (hne : q ≠ p) : Spares s (s.release p lock) q where
  cloned a lock' hq := by
    refine ⟨hq.mem, ?_⟩
    by_cases heq : lock' = lock
    · subst heq
      simpa [Server.release] using (List.mem_erase_of_ne hne).mpr hq.clone
    · simpa [Server.release, heq] using hq.clone
  guarded a lock' hq := by
    by_cases heq : lock' = lock
    · subst heq
      simp [Server.release, hq.owner, hne]
    · simpa [Server.release, heq] using hq.owner
  builds _ _ hq := hq.missed

theorem acquire_ordered (h : Ordered c s) : Ordered c (s.acquire p lock) :=
  ⟨h.keyed, h.fits, h.same, h.lt_next⟩

theorem acquire_cloned {lock' : ℕ} (hq : Cloned s q a lock') :
    Cloned (s.acquire p lock) q a lock' := by
  refine ⟨hq.mem, ?_⟩
  by_cases heq : lock' = lock
  · subst heq
    simpa [Server.acquire] using hq.clone
  · simpa [Server.acquire, heq] using hq.clone

theorem acquire_spares (hfree : (s.heap lock).owner = none) : Spares s (s.acquire p lock) q where
  cloned _ _ hq := acquire_cloned hq
  guarded a lock' hq := by
    by_cases heq : lock' = lock
    · subst heq
      cases hfree.symm.trans hq.owner
    · simpa [Server.acquire, heq] using hq.owner
  builds _ _ hq := hq.missed

theorem store_ordered (h : Ordered c s) : Ordered c (s.store c scan a set) where
  keyed := by
    have hput : Keyed (s.entries.filter (·.1 ≠ a.repoId) ++
        [(a.repoId, ⟨a.fingerprint, set, s.now⟩)]) := h.keyed.put
    exact hput.sublist (evict_sublist.map _)
  fits := (evict_kept le_rfl).fits
  same := h.same
  lt_next := h.lt_next

theorem store_spares (h : Ordered c s) (hp : Guarded s p a lock) (hne : q ≠ p) :
    Spares s (s.store c scan a set) q where
  cloned _ _ hq := ⟨hq.mem, hq.clone⟩
  guarded _ _ hq := hq.owner
  builds a' lock' hq := by
    refine lookup_insert_of_ne h.keyed (fun hrepo => ?_) hq.missed
    have hlock : lock' = lock := h.same _ _ _ hq.mem (hrepo ▸ hp.mem)
    subst hlock
    exact hne (Option.some.inj (hq.owner.symm.trans hp.owner))

/-- The locks that `render_lock` leaves in the map. -/
theorem mem_swept {e : ℕ × ℕ} (hclones : (s.heap e.2).clones ≠ []) (h : e ∈ s.locks) :
    e ∈ s.locks.filter fun e => e.1 = repoId ∨ (s.heap e.2).clones ≠ [] :=
  List.mem_filter.mpr ⟨h, decide_eq_true (.inr hclones)⟩

theorem renderLock_spec (h : Ordered c s) :
    Ordered c (s.renderLock p a.repoId).2 ∧
      Cloned (s.renderLock p a.repoId).2 p a (s.renderLock p a.repoId).1 ∧
      ∀ q, Spares s (s.renderLock p a.repoId).2 q := by
  have hsub : ∀ e ∈ s.locks.filter fun e => e.1 = a.repoId ∨ (s.heap e.2).clones ≠ [],
      e ∈ s.locks := fun e he => List.mem_of_mem_filter he
  unfold Server.renderLock
  dsimp only
  split
  · next key lock hfind =>
    obtain rfl : key = a.repoId := by simpa using List.find?_some hfind
    refine ⟨⟨h.keyed, h.fits, fun _ _ _ hl hl' => h.same _ _ _ (hsub _ hl) (hsub _ hl'),
      fun e he => h.lt_next e (hsub e he)⟩,
      ⟨List.mem_of_find?_eq_some hfind, by simp⟩, fun q => ⟨fun a' lock' hq => ?_, ?_,
      fun _ _ hq => hq.missed⟩⟩
    · refine ⟨mem_swept (List.ne_nil_of_mem hq.clone) hq.mem, ?_⟩
      by_cases heq : lock' = lock
      · subst heq
        simpa using .inr hq.clone
      · simpa [heq] using hq.clone
    · intro a' lock' hq
      by_cases heq : lock' = lock
      · subst heq
        simpa using hq.owner
      · simpa [heq] using hq.owner
  · next hnone =>
    have hnew : ∀ e ∈ s.locks.filter fun e => e.1 = a.repoId ∨ (s.heap e.2).clones ≠ [],
        e.1 ≠ a.repoId := fun e he => by simpa using List.find?_eq_none.mp hnone e he
    refine ⟨⟨h.keyed, h.fits, ?_, ?_⟩, ⟨List.mem_cons_self, by simp⟩,
      fun q => ⟨fun a' lock' hq => ?_, fun a' lock' hq => ?_, fun _ _ hq => hq.missed⟩⟩
    · intro repoId lock lock' hl hl'
      rcases List.mem_cons.mp hl with heq | hl <;> rcases List.mem_cons.mp hl' with heq' | hl'
      · rw [(Prod.mk.inj heq).2, (Prod.mk.inj heq').2]
      · exact absurd (Prod.mk.inj heq).1 (hnew _ hl')
      · exact absurd (Prod.mk.inj heq').1 (hnew _ hl)
      · exact h.same _ _ _ (hsub _ hl) (hsub _ hl')
    · intro e he
      rcases List.mem_cons.mp he with rfl | he
      · exact Nat.lt_succ_self _
      · exact (h.lt_next e (hsub e he)).trans (Nat.lt_succ_self _)
    · have hne : lock' ≠ s.nextLock := (h.lt_next _ hq.mem).ne
      refine ⟨List.mem_cons_of_mem _ (mem_swept (List.ne_nil_of_mem hq.clone) hq.mem), ?_⟩
      simpa [hne] using hq.clone
    · have hne : lock' ≠ s.nextLock := (h.lt_next _ hq.mem).ne
      simpa [hne] using hq.owner

theorem serveStep_sound {l l' : Request} {label : Label} (h : Ordered c s) (hl : l.Sound s p)
    (hstep : serveStep c renderRepodata base p s l label = some (s', l')) :
    Ordered c s' ∧ l'.Sound s' p ∧ ∀ q, q ≠ p → Spares s s' q := by
  have hquiet : ∀ q, q ≠ p → Spares s s q := fun q _ => Spares.refl s q
  have hrelease : ∀ lock, Ordered c (s.release p lock) ∧ True ∧
      ∀ q, q ≠ p → Spares s (s.release p lock) q :=
    fun lock => ⟨release_ordered h, trivial, fun q hq => release_spares hq⟩
  unfold serveStep at hstep
  split at hstep
  · cases hstep
    exact ⟨h, trivial, hquiet⟩
  · split at hstep
    · cases hstep
      exact ⟨h, trivial, hquiet⟩
    · cases hstep
      exact ⟨h, trivial, hquiet⟩
  · next a =>
    obtain ⟨hordered, hcloned, hspares⟩ := renderLock_spec (p := p) (a := a) h
    cases hstep
    exact ⟨hordered, hcloned, fun q _ => hspares q⟩
  · next a lock =>
    split at hstep
    · next hfree =>
      cases hstep
      have hcloned : Cloned s p a lock := hl
      exact ⟨acquire_ordered h, ⟨acquire_cloned hcloned, by simp [Server.acquire]⟩,
        fun q _ => acquire_spares hfree⟩
    · cases hstep
  · next a lock =>
    split at hstep
    · cases hstep
      exact hrelease lock
    · next hmissed =>
      cases hstep
      have hguarded : Guarded s p a lock := hl
      exact ⟨h, ⟨hguarded, hmissed⟩, hquiet⟩
  · next a lock ok =>
    split at hstep
    · cases hstep
      exact ⟨h, hl, hquiet⟩
    · cases hstep
      exact hrelease lock
  · next a lock set scan =>
    cases hstep
    have hbuilds : Builds s p a lock := hl
    exact ⟨release_ordered (store_ordered h), trivial,
      fun q hq => (store_spares h hbuilds.toGuarded hq).trans (release_spares hq)⟩
  · cases hstep
    exact ⟨h, trivial, hquiet⟩
  · cases hstep
    exact ⟨h, trivial, hquiet⟩
  · cases hstep
    exact hrelease _
  · cases hstep
    exact hrelease _
  · cases hstep
    exact hrelease _
  · cases hstep
    exact hrelease _
  · cases hstep
    exact ⟨h, trivial, hquiet⟩
  · next w =>
    cases hstep
    have hspares : ∀ q, Spares s { s with writes := s.writes ++ [w] } q := fun q =>
      ⟨fun _ _ h => ⟨h.mem, h.clone⟩, fun _ _ h => h.owner, fun _ _ h => h.missed⟩
    exact ⟨⟨h.keyed, h.fits, h.same, h.lt_next⟩, (hspares p).sound hl, fun q _ => hspares q⟩
  · next d =>
    cases hstep
    have hspares : ∀ q, Spares s { s with now := s.now + d } q := fun q =>
      ⟨fun _ _ h => ⟨h.mem, h.clone⟩, fun _ _ h => h.owner, fun _ _ h => h.missed⟩
    exact ⟨⟨h.keyed, h.fits, h.same, h.lt_next⟩, (hspares p).sound hl, fun q _ => hspares q⟩
  · cases hstep

/-- What a request renders or is about to store. -/
def Request.builds : Request → Option Ask
  | .rendering a _ => some a
  | .rendered a _ _ => some a
  | _ => none

/-- Two requests for an empty repository, of which one waits for the other. -/
def raceLabels : List (ℕ × Label) :=
  [(0, .ask 7 [7]), (1, .ask 7 [7]), (0, .look), (1, .look), (0, .clone), (1, .clone), (1, .lock),
    (1, .look)]

def defaultLimits : Limits := ⟨32, 256 * 1024 * 1024, by decide⟩

/-- An index that lists the ids. -/
def renderIds (artifacts : List RpmArtifact) : RenderedRepodata :=
  ⟨artifacts.map fun a => UInt8.ofNat a.row.id, [], [], []⟩

end ArtifactKeeper.Rpm
