import ArtifactKeeper.Machine
import ArtifactKeeper.Rpm.Repodata
import Mathlib.Data.List.Nodup
import Mathlib.Data.List.Perm.Subperm

/-! The cache of rendered RPM indexes of one process, with requests that are served through it while
the tables are written. -/

namespace ArtifactKeeper.Rpm

structure RenderedRepodata where
  repomdXml : List UInt8
  primaryGz : List UInt8
  filelistsGz : List UInt8
  otherGz : List UInt8
  deriving DecidableEq

def RenderedRepodata.totalBytes (r : RenderedRepodata) : ℕ :=
  r.repomdXml.length + r.primaryGz.length + r.filelistsGz.length + r.otherGz.length

structure CacheEntry where
  fingerprint : RepodataFingerprint
  rendered : RenderedRepodata
  renderedAt : ℕ
  deriving DecidableEq

/-- `with_limits` raises `max_entries` to one. -/
structure Limits where
  maxEntries : ℕ
  maxBytes : ℕ
  one_le : 1 ≤ maxEntries

/-- The entries by the id of the repository that they serve. -/
abbrev Entries := List (ℕ × CacheEntry)

def lookup (entries : Entries) (repoId : ℕ) (fingerprint : RepodataFingerprint) :
    Option RenderedRepodata :=
  match entries.find? (·.1 = repoId) with
  | some (_, entry) => if entry.fingerprint = fingerprint then some entry.rendered else none
  | none => none

/-- What the scans of one insert meet: the order in which the map gives its entries out, and the
clock at the `k`-th call of `elapsed`, which is made once for each entry. -/
structure Scan where
  order : Entries → Entries
  perm : ∀ entries, (order entries).Perm entries
  clock : ℕ → ℕ

/-- The entries with their ages, after `k` readings of the clock. -/
def aged (scan : Scan) (k : ℕ) (entries : Entries) : List (ℕ × (ℕ × CacheEntry)) :=
  ((scan.order entries).zipIdx k).map fun e => (scan.clock e.2 - e.1.2.renderedAt, e.1)

/-- The last of the entries with the largest age, as `max_by_key` has it. -/
def oldest (scan : Scan) (k : ℕ) (entries : Entries) : Option (ℕ × CacheEntry) :=
  match aged scan k entries with
  | [] => none
  | e :: rest => some (rest.foldl (fun best e => if best.1 ≤ e.1 then e else best) e).2

def total (entries : Entries) : ℕ := (entries.map (·.2.rendered.totalBytes)).sum

def Limits.over (c : Limits) (entries : Entries) : Bool :=
  c.maxEntries < entries.length || (c.maxBytes < total entries && 1 < entries.length)

/-- The loop of `insert`; each round removes an entry, so as many rounds as entries are enough. -/
def evict (c : Limits) (scan : Scan) : ℕ → ℕ → Entries → Entries
  | 0, _, entries => entries
  | rounds + 1, k, entries =>
    if c.over entries then
      match oldest scan k entries with
      | some victim =>
        evict c scan rounds (k + entries.length) (entries.filter (·.1 ≠ victim.1))
      | none => entries
    else entries

def insert (c : Limits) (scan : Scan) (entries : Entries) (repoId : ℕ) (entry : CacheEntry) :
    Entries :=
  let entries := entries.filter (·.1 ≠ repoId) ++ [(repoId, entry)]
  evict c scan entries.length 0 entries

/-- An `Arc<Mutex<()>>`: the requests that hold a clone, and the one that holds the guard. -/
structure RenderLock where
  clones : List ℕ
  owner : Option ℕ
  deriving DecidableEq

/-- The process with the log of the writes to the tables. Locks are numbered as they are made. -/
structure Server where
  writes : List Write
  entries : Entries
  locks : List (ℕ × ℕ)
  heap : ℕ → RenderLock
  nextLock : ℕ
  now : ℕ

/-- What a request asks for, and how many writes there were when it took the fingerprint. -/
structure Ask where
  repoId : ℕ
  fingerprint : RepodataFingerprint
  position : ℕ

/-- Where a request stands in `cached_repodata` and `get_or_render`. -/
inductive Request where
  | idle
  | asking (a : Ask)
  | missed (a : Ask)
  | waiting (a : Ask) (lock : ℕ)
  | checking (a : Ask) (lock : ℕ)
  | rendering (a : Ask) (lock : ℕ)
  | rendered (a : Ask) (lock : ℕ) (set : RenderedRepodata)
  | served (a : Ask) (set : RenderedRepodata)

inductive Label where
  /-- With the ids that `repodata_repo_ids` has found. -/
  | ask (repoId : ℕ) (repoIds : List ℕ)
  | look
  | clone
  | lock
  | render (ok : Bool)
  | insert (scan : Scan)
  /-- The response is sent, or the request is cancelled. -/
  | drop
  | write (w : Write)
  | tick (d : ℕ)

/-- `render_lock`: locks without a clone are swept, except that of the repository. -/
def Server.renderLock (s : Server) (p repoId : ℕ) : ℕ × Server :=
  let locks := s.locks.filter fun e => e.1 = repoId ∨ (s.heap e.2).clones ≠ []
  match locks.find? (·.1 = repoId) with
  | some (_, lock) =>
    (lock, { s with
      locks
      heap := Function.update s.heap lock
        { s.heap lock with clones := p :: (s.heap lock).clones } })
  | none =>
    (s.nextLock, { s with
      locks := (repoId, s.nextLock) :: locks
      heap := Function.update s.heap s.nextLock { clones := [p], owner := none }
      nextLock := s.nextLock + 1 })

def Server.acquire (s : Server) (p lock : ℕ) : Server :=
  { s with heap := Function.update s.heap lock { s.heap lock with owner := some p } }

/-- The clone is dropped, and the guard if the request has it. -/
def Server.release (s : Server) (p lock : ℕ) : Server :=
  let released : RenderLock :=
    ⟨(s.heap lock).clones.erase p,
      if (s.heap lock).owner = some p then none else (s.heap lock).owner⟩
  { s with heap := Function.update s.heap lock released }

def Server.store (c : Limits) (scan : Scan) (s : Server) (a : Ask) (set : RenderedRepodata) :
    Server :=
  { s with entries := insert c scan s.entries a.repoId ⟨a.fingerprint, set, s.now⟩ }

def Server.tables (base : Tables) (s : Server) : Tables := s.writes.foldl Write.apply base

section Serve
variable (c : Limits) (renderRepodata : List RpmArtifact → RenderedRepodata) (base : Tables)

def serveStep (p : ℕ) (s : Server) : Request → Label → Option (Server × Request)
  | .idle, .ask repoId repoIds =>
    some (s, .asking ⟨repoId, repodataFingerprint (s.tables base) repoIds, s.writes.length⟩)
  | .asking a, .look =>
    match lookup s.entries a.repoId a.fingerprint with
    | some set => some (s, .served a set)
    | none => some (s, .missed a)
  | .missed a, .clone =>
    let (lock, s') := s.renderLock p a.repoId
    some (s', .waiting a lock)
  | .waiting a lock, .lock =>
    if (s.heap lock).owner = none then some (s.acquire p lock, .checking a lock) else none
  | .checking a lock, .look =>
    match lookup s.entries a.repoId a.fingerprint with
    | some set => some (s.release p lock, .served a set)
    | none => some (s, .rendering a lock)
  | .rendering a lock, .render ok =>
    if ok then
      let artifacts := collectRepodataArtifacts (s.tables base) a.fingerprint.repoIds
      some (s, .rendered a lock (renderRepodata artifacts))
    else some (s.release p lock, .idle)
  | .rendered a lock set, .insert scan =>
    some ((s.store c scan a set).release p lock, .served a set)
  | .asking _, .drop => some (s, .idle)
  | .missed _, .drop => some (s, .idle)
  | .waiting _ lock, .drop => some (s.release p lock, .idle)
  | .checking _ lock, .drop => some (s.release p lock, .idle)
  | .rendering _ lock, .drop => some (s.release p lock, .idle)
  | .rendered _ lock _, .drop => some (s.release p lock, .idle)
  | .served _ _, .drop => some (s, .idle)
  | l, .write w => some ({ s with writes := s.writes ++ [w] }, l)
  | l, .tick d => some ({ s with now := s.now + d }, l)
  | _, _ => none

def serveProtocol : Protocol Server Request Label where
  step p s l a := serveStep c renderRepodata base p s l a

end Serve

/-- A process that was just started. -/
def coldServer : World Server Request :=
  ⟨⟨[], [], [], fun _ => ⟨[], none⟩, 0, 0⟩, fun _ => .idle⟩

variable {c : Limits} {scan : Scan} {k now d : ℕ} {entries : Entries} {repoId : ℕ}
  {entry : CacheEntry}

theorem foldl_max {best : ℕ × (ℕ × CacheEntry)} {rest : List (ℕ × (ℕ × CacheEntry))} :
    rest.foldl (fun best e => if best.1 ≤ e.1 then e else best) best ∈ best :: rest ∧
      ∀ e ∈ best :: rest,
        e.1 ≤ (rest.foldl (fun best e => if best.1 ≤ e.1 then e else best) best).1 := by
  induction rest generalizing best with
  | nil => exact ⟨List.mem_cons_self, fun e he => by rw [List.mem_singleton.mp he]; exact le_rfl⟩
  | cons e rest ih =>
    rw [List.foldl_cons]
    by_cases hle : best.1 ≤ e.1
    · obtain ⟨hmem, hmax⟩ := @ih e
      rw [if_pos hle]
      refine ⟨List.mem_cons_of_mem _ hmem, fun f hf => ?_⟩
      rcases List.mem_cons.mp hf with rfl | hf
      · exact hle.trans (hmax e List.mem_cons_self)
      · exact hmax f hf
    · obtain ⟨hmem, hmax⟩ := @ih best
      rw [if_neg hle]
      refine ⟨(List.Sublist.cons_cons best (List.sublist_cons_self e rest)).subset hmem,
        fun f hf => ?_⟩
      rcases List.mem_cons.mp hf with rfl | hf
      · exact hmax f List.mem_cons_self
      · rcases List.mem_cons.mp hf with rfl | hf
        · exact (not_le.mp hle).le.trans (hmax best List.mem_cons_self)
        · exact hmax f (List.mem_cons_of_mem _ hf)

/-- Each entry has one age in a scan. -/
theorem mem_aged {e : ℕ × CacheEntry} (h : e ∈ entries) :
    ∃ i, (scan.clock i - e.2.renderedAt, e) ∈ aged scan k entries := by
  obtain ⟨i, hi⟩ := List.mem_iff_getElem?.mp ((scan.perm entries).mem_iff.mpr h)
  exact ⟨k + i, List.mem_map.mpr ⟨(e, k + i), List.mk_add_mem_zipIdx_iff_getElem?.mpr hi, rfl⟩⟩

theorem of_mem_aged {e : ℕ × (ℕ × CacheEntry)} (h : e ∈ aged scan k entries) :
    e.2 ∈ entries ∧ ∃ i, e.1 = scan.clock i - e.2.2.renderedAt := by
  obtain ⟨f, hf, rfl⟩ := List.mem_map.mp h
  exact ⟨(scan.perm entries).mem_iff.mp (List.fst_mem_of_mem_zipIdx hf), _, rfl⟩

/-- The victim is the oldest by the readings of its scan. -/
theorem oldest_mem {victim : ℕ × CacheEntry} (h : oldest scan k entries = some victim) :
    victim ∈ entries ∧ ∃ i, ∀ e ∈ entries, ∃ j,
      scan.clock j - e.2.renderedAt ≤ scan.clock i - victim.2.renderedAt := by
  unfold oldest at h
  split at h
  · cases h
  · next first rest haged =>
    obtain rfl := Option.some.inj h
    obtain ⟨hmem, hmax⟩ := @foldl_max first rest
    rw [← haged] at hmem hmax
    obtain ⟨hvictim, i, hi⟩ := of_mem_aged hmem
    refine ⟨hvictim, i, fun e he => ?_⟩
    obtain ⟨j, hj⟩ := @mem_aged scan k entries e he
    exact ⟨j, hi ▸ hmax _ hj⟩

theorem oldest_isSome (h : entries ≠ []) : ∃ victim, oldest scan k entries = some victim := by
  unfold oldest
  split
  · next haged =>
    obtain ⟨e, he⟩ := List.exists_mem_of_ne_nil entries h
    obtain ⟨i, hi⟩ := @mem_aged scan k entries e he
    rw [haged] at hi
    cases hi
  · exact ⟨_, rfl⟩

theorem one_lt_length_of_over (h : c.over entries = true) : 1 < entries.length := by
  have hone := c.one_le
  simp only [Limits.over, Bool.or_eq_true, Bool.and_eq_true, decide_eq_true_eq] at h
  omega

/-- Each repository has one entry at most. -/
def Keyed (entries : Entries) : Prop := (entries.map (·.1)).Nodup

theorem Keyed.eq_of_key (h : Keyed entries) {e f : ℕ × CacheEntry} (he : e ∈ entries)
    (hf : f ∈ entries) (hkey : e.1 = f.1) : e = f := List.inj_on_of_nodup_map h he hf hkey

/-- What eviction leaves: entries that fit, and no fewer than it must. -/
structure Kept (c : Limits) (entries kept : Entries) : Prop where
  sublist : kept.Sublist entries
  fits : c.over kept = false
  needed : kept = entries ∨ ∃ more victim, more.Sublist entries ∧ c.over more = true ∧
    victim ∈ more ∧ kept = more.filter (·.1 ≠ victim.1)

theorem length_filter_lt {victim : ℕ × CacheEntry} (h : victim ∈ entries) :
    (entries.filter (·.1 ≠ victim.1)).length < entries.length :=
  List.length_filter_lt_length_iff_exists.mpr ⟨victim, h, by simp⟩

theorem evict_sublist {rounds : ℕ} : (evict c scan rounds k entries).Sublist entries := by
  induction rounds generalizing k entries with
  | zero => exact List.Sublist.refl _
  | succ rounds ih =>
    rw [evict]
    split
    · split
      · exact ih.trans List.filter_sublist
      · exact List.Sublist.refl _
    · exact List.Sublist.refl _

theorem evict_kept {rounds : ℕ} (hrounds : entries.length ≤ rounds) :
    Kept c entries (evict c scan rounds k entries) := by
  induction rounds generalizing k entries with
  | zero =>
    obtain rfl := List.length_eq_zero_iff.mp (Nat.le_zero.mp hrounds)
    refine ⟨List.Sublist.refl _, ?_, .inl rfl⟩
    exact Bool.eq_false_iff.mpr fun hover => by cases one_lt_length_of_over hover
  | succ rounds ih =>
    rw [evict]
    split
    · next hover =>
      have hlt := one_lt_length_of_over hover
      obtain ⟨victim, hvictim⟩ :=
        @oldest_isSome scan k _ (List.ne_nil_of_length_pos (by omega : 0 < entries.length))
      obtain ⟨hmem, -⟩ := oldest_mem hvictim
      rw [hvictim]
      have hsub : (entries.filter (·.1 ≠ victim.1)).Sublist entries := List.filter_sublist
      have hshort := length_filter_lt hmem
      have hrest := @ih (k + entries.length) (entries.filter (·.1 ≠ victim.1)) (by omega)
      refine ⟨hrest.sublist.trans hsub, hrest.fits, .inr ?_⟩
      rcases hrest.needed with heq | ⟨more, victim', hmore, hrest⟩
      · exact ⟨entries, victim, List.Sublist.refl _, hover, hmem, heq⟩
      · exact ⟨more, victim', hmore.trans hsub, hrest⟩
    · next hfits =>
      exact ⟨List.Sublist.refl _, Bool.eq_false_iff.mpr hfits, .inl rfl⟩

/-- All readings lie within `d` of each other and behind the renders. -/
structure Scan.Within (scan : Scan) (d : ℕ) (entries : Entries) : Prop where
  span : ∀ i j, scan.clock i ≤ scan.clock j + d
  past : ∀ e ∈ entries, ∀ i, e.2.renderedAt ≤ scan.clock i

/-- What is evicted was rendered before what is kept, as far as the readings tell. -/
theorem evict_younger {rounds : ℕ} (hwithin : scan.Within d entries) (hkeys : Keyed entries)
    {e f : ℕ × CacheEntry} (he : e ∈ entries) (hgone : e ∉ evict c scan rounds k entries)
    (hf : f ∈ evict c scan rounds k entries) : e.2.renderedAt ≤ f.2.renderedAt + d := by
  induction rounds generalizing k entries with
  | zero => exact absurd he hgone
  | succ rounds ih =>
    rw [evict] at hgone hf
    split at hgone
    · next hover =>
      rw [if_pos hover] at hf
      split at hgone
      · next victim hvictim =>
        rw [hvictim] at hf
        have hsub : (entries.filter (·.1 ≠ victim.1)).Sublist entries := List.filter_sublist
        by_cases hkey : e.1 = victim.1
        · obtain ⟨hmem, i, hmax⟩ := oldest_mem hvictim
          obtain rfl := hkeys.eq_of_key he hmem hkey
          obtain ⟨j, hj⟩ := hmax f (hsub.subset (evict_sublist.subset hf))
          have hspan := hwithin.span i j
          have hpast := hwithin.past e he i
          omega
        · exact ih ⟨hwithin.span, fun g hg => hwithin.past g (hsub.subset hg)⟩
            (hkeys.sublist (hsub.map _)) (List.mem_filter.mpr ⟨he, by simpa using hkey⟩) hgone hf
      · exact absurd he hgone
    · exact absurd he hgone

theorem Kept.ne_nil {kept : Entries} (h : Kept c entries kept) (hkeys : Keyed entries)
    (hne : entries ≠ []) : kept ≠ [] := by
  rcases h.needed with rfl | ⟨more, victim, hmore, hover, hmem, rfl⟩
  · exact hne
  · have hlt := one_lt_length_of_over hover
    have hnodup : more.Nodup := (List.Nodup.of_map _ hkeys).sublist hmore
    intro hnil
    have hsub : more ⊆ [victim] := by
      intro e he
      have hkey : e.1 = victim.1 := by simpa using List.filter_eq_nil_iff.mp hnil e he
      rw [hkeys.eq_of_key (hmore.subset he) (hmore.subset hmem) hkey]
      exact List.mem_cons_self
    have hle := (List.subperm_of_subset hnodup hsub).length_le
    exact absurd hle (not_le.mpr hlt)

theorem Keyed.put (h : Keyed entries) :
    Keyed (entries.filter (·.1 ≠ repoId) ++ [(repoId, entry)]) := by
  rw [Keyed, List.map_append, List.nodup_append]
  refine ⟨h.sublist (List.filter_sublist.map _), List.nodup_singleton _, ?_⟩
  intro key hkey key' hkey'
  obtain ⟨e, he, rfl⟩ := List.mem_map.mp hkey
  rw [List.mem_singleton.mp hkey']
  simpa using (List.mem_filter.mp he).2

def entryAt (renderedAt : ℕ) : CacheEntry := ⟨⟨[], 0, none⟩, ⟨[60], [31], [31], [31]⟩, renderedAt⟩

/-- The clock stands still, and the map gives its entries out as they came. -/
def Scan.still (now : ℕ) : Scan := ⟨fun entries => entries, fun _ => .rfl, fun _ => now⟩

/-- A scan that is interrupted behind its second reading evicts the entry that was just inserted,
although the others were rendered before it. -/
example : insert ⟨2, 8, by decide⟩ ⟨fun entries => entries, fun _ => .rfl,
      fun k => if k ≤ 1 then 12 else 20⟩ [(4, entryAt 9), (5, entryAt 7)] 6 (entryAt 12) =
    [(4, entryAt 9), (5, entryAt 7)] := by
  decide

end ArtifactKeeper.Rpm
