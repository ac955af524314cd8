import ArtifactKeeper.Machine
import Mathlib.Order.Nat

/-! Replicas with a cache of repository rows each, kept up to date by the notifications that the
triggers of migration 142 send. -/

namespace ArtifactKeeper.CacheInvalidation

structure CachedRepo where
  id : ℕ
  format : String
  repoType : String
  upstreamUrl : Option String
  storagePath : String
  storageBackend : String
  isPublic : Bool
  indexUpstreamUrl : Option String
  deriving DecidableEq, Repr

/-- The repositories by their keys. -/
abbrev Repos := String → Option CachedRepo

/-- `index_upstream_url` comes from `repository_config`; the other columns are in
`repositories`. -/
def CachedRepo.columns (r : CachedRepo) : CachedRepo := { r with indexUpstreamUrl := none }

inductive Write where
  | create (key : String) (row : CachedRepo)
  | update (key newKey : String) (row : CachedRepo)
  | delete (key : String)
  | config (key : String) (indexUpstreamUrl : Option String)
  deriving DecidableEq, Repr

/-- Keys are unique: a write that breaks this changes nothing. -/
def Write.apply (db : Repos) : Write → Repos
  | .create key row => if db key = none then Function.update db key (some row) else db
  | .update key newKey row =>
    match db key with
    | none => db
    | some old =>
      if newKey = key ∨ db newKey = none then
        Function.update (Function.update db key none) newKey
          (some { row with indexUpstreamUrl := old.indexUpstreamUrl })
      else db
  | .delete key => Function.update db key none
  | .config key indexUpstreamUrl =>
    Function.update db key ((db key).map fun r => { r with indexUpstreamUrl })

inductive InvalidationEvent where
  | apiTokenRevoked (tokenId : ℕ)
  | userApiTokensInvalidated (userId : ℕ)
  | repositoryChanged (oldKey newKey : String)
  | repositoryDeleted (key : String)
  | permissionsChanged
  | npmPackumentInvalidated (repoKeys : List String) (package : String)
  deriving DecidableEq, Repr

/-- What the triggers on `repositories` send. -/
def notification (db : Repos) : Write → Option InvalidationEvent
  | .update key newKey row =>
    match db key with
    | none => none
    | some old =>
      if newKey = key ∨ db newKey = none then
        if newKey ≠ key ∨ row.columns ≠ old.columns then some (.repositoryChanged key newKey)
        else none
      else none
  | .delete key => if (db key).isSome then some (.repositoryDeleted key) else none
  | _ => none

structure CacheEntry where
  row : CachedRepo
  storedAt : ℕ

/-- The part of `apply_invalidation_event` that works on the repository cache. -/
def applyInvalidationEvent (cache : String → Option CacheEntry) :
    InvalidationEvent → String → Option CacheEntry
  | .repositoryChanged oldKey newKey =>
    Function.update (Function.update cache oldKey none) newKey none
  | .repositoryDeleted key => Function.update cache key none
  | _ => cache

def repoCacheTtlSecs : ℕ := 60

/-- A row that was read to be put into the cache, and how many writes there were then. -/
structure Fill where
  key : String
  row : CachedRepo
  readAt : ℕ

/-- A listener receives what is written after it has begun to listen; it flushes before it takes
the first notification. -/
inductive Listener where
  | down
  | listening (handled : ℕ)
  | flushed (handled : ℕ)

structure Replica where
  cache : String → Option CacheEntry
  fills : List Fill
  listener : Listener

/-- The log of the writes, and the time in milliseconds. -/
structure Shared where
  log : List Write
  now : ℕ

inductive Label where
  | write (w : Write)
  | tick (d : ℕ)
  /-- The row is read for a look-up that has missed, maybe long before. -/
  | read (key : String)
  | put (i : ℕ)
  | abandon (i : ℕ)
  | listen
  /-- Behind a connect or a reconnect, or for a payload that cannot be parsed. -/
  | flush
  | handle
  | disconnect
  /-- The handler of a write drops the key in its own process. -/
  | evict (key : String)

def dbAt (base : Repos) (log : List Write) (n : ℕ) : Repos := (log.take n).foldl Write.apply base

/-- The notification of the write behind the first `n`. -/
def eventAt (base : Repos) (log : List Write) (n : ℕ) : Option InvalidationEvent :=
  log[n]?.bind (notification (dbAt base log n))

/-- Whether an entry is served. -/
def live (now : ℕ) (e : CacheEntry) : Bool := (now - e.storedAt) / 1000 < repoCacheTtlSecs

def Replica.step (base : Repos) (s : Shared) (r : Replica) : Label → Option (Shared × Replica)
  | .write w => some ({ s with log := s.log ++ [w] }, r)
  | .tick d => some ({ s with now := s.now + d }, r)
  | .read key =>
    match dbAt base s.log s.log.length key with
    | some row => some (s, { r with fills := r.fills ++ [⟨key, row, s.log.length⟩] })
    | none => some (s, r)
  | .put i =>
    r.fills[i]?.map fun fill =>
      let kept := fun key => (r.cache key).filter (live s.now)
      (s, { r with
        cache := Function.update kept fill.key (some ⟨fill.row, s.now⟩)
        fills := r.fills.eraseIdx i })
  | .abandon i => some (s, { r with fills := r.fills.eraseIdx i })
  | .listen => some (s, { r with listener := .listening s.log.length })
  | .flush =>
    match r.listener with
    | .down => none
    | .listening handled =>
      some (s, { r with cache := fun _ => none, listener := .flushed handled })
    | .flushed _ => some (s, { r with cache := fun _ => none })
  | .handle =>
    match r.listener with
    | .flushed handled =>
      if handled < s.log.length then
        some (s, { r with
          cache := ((eventAt base s.log handled).map (applyInvalidationEvent r.cache)).getD r.cache
          listener := .flushed (handled + 1) })
      else none
    | _ => none
  | .disconnect => some (s, { r with listener := .down })
  | .evict key => some (s, { r with cache := Function.update r.cache key none })

def replicas (base : Repos) : Protocol Shared Replica Label where
  step _ s r a := r.step base s a

/-- Replicas that were just started, in front of the given rows. -/
def started : World Shared Replica := ⟨⟨[], 0⟩, fun _ => ⟨fun _ => none, [], .down⟩⟩

/-- The keys of the cache that an event names. -/
def InvalidationEvent.keys : InvalidationEvent → List String
  | .repositoryChanged oldKey newKey => [oldKey, newKey]
  | .repositoryDeleted key => [key]
  | _ => []

variable {base db : Repos} {s s' : Shared} {r r' : Replica} {w : Write} {log : List Write}
  {key : String} {row : CachedRepo} {n m upTo : ℕ}

/-- No notification of a stretch of the log names the key. -/
def Untouched (base : Repos) (log : List Write) (key : String) (n m : ℕ) : Prop :=
  ∀ i, n ≤ i → i < m → ∀ e ∈ eventAt base log i, key ∉ e.keys

theorem apply_columns (hrow : db key = some row)
    (hquiet : ∀ e ∈ notification db w, key ∉ e.keys) :
    ∃ row', w.apply db key = some row' ∧ row'.columns = row.columns := by
  cases w with
  | create key' row' =>
    refine ⟨row, ?_, rfl⟩
    dsimp only [Write.apply]
    split
    · next hfree =>
      have hne : key ≠ key' := fun heq => by
        rw [heq, hfree] at hrow
        cases hrow
      rw [Function.update_of_ne hne, hrow]
    · exact hrow
  | update key' newKey row' =>
    dsimp only [Write.apply]
    dsimp only [notification] at hquiet
    cases hold : db key' with
    | none => exact ⟨row, hrow, rfl⟩
    | some old =>
      rw [hold] at hquiet
      dsimp only at hquiet ⊢
      split
      · next hroom =>
        rw [if_pos hroom] at hquiet
        by_cases hsame : newKey = key'
        · subst hsame
          by_cases hkey : key = newKey
          · subst hkey
            obtain rfl : old = row := Option.some.inj (hold.symm.trans hrow)
            refine ⟨_, Function.update_self .., ?_⟩
            by_contra hcolumns
            have hchanged : row'.columns ≠ old.columns := fun heq => hcolumns (heq ▸ rfl)
            rw [if_pos (.inr hchanged)] at hquiet
            exact hquiet _ rfl List.mem_cons_self
          · refine ⟨row, ?_, rfl⟩
            rw [Function.update_of_ne hkey, Function.update_of_ne hkey, hrow]
        · rw [if_pos (.inl hsame)] at hquiet
          have hnot := hquiet _ rfl
          simp only [InvalidationEvent.keys, List.mem_cons, List.not_mem_nil, or_false,
            not_or] at hnot
          refine ⟨row, ?_, rfl⟩
          rw [Function.update_of_ne hnot.2, Function.update_of_ne hnot.1, hrow]
      · exact ⟨row, hrow, rfl⟩
  | delete key' =>
    refine ⟨row, ?_, rfl⟩
    have hne : key ≠ key' := by
      rintro rfl
      have hsome : (db key).isSome := by rw [hrow]; rfl
      exact hquiet (.repositoryDeleted key) (if_pos hsome) List.mem_cons_self
    rw [Write.apply, Function.update_of_ne hne, hrow]
  | config key' indexUpstreamUrl =>
    by_cases hkey : key = key'
    · subst hkey
      exact ⟨{ row with indexUpstreamUrl }, by rw [Write.apply, Function.update_self, hrow]; rfl,
        rfl⟩
    · exact ⟨row, by rw [Write.apply, Function.update_of_ne hkey, hrow], rfl⟩

theorem dbAt_append (w : Write) (hn : n ≤ log.length) :
    dbAt base (log ++ [w]) n = dbAt base log n := by
  rw [dbAt, List.take_append_of_le_length hn, dbAt]

theorem dbAt_succ (hn : n < log.length) :
    dbAt base log (n + 1) = log[n].apply (dbAt base log n) := by
  rw [dbAt, List.take_succ_eq_append_getElem hn, List.foldl_append]
  rfl

theorem eventAt_append (w : Write) (hn : n < log.length) :
    eventAt base (log ++ [w]) n = eventAt base log n := by
  rw [eventAt, dbAt_append w hn.le, List.getElem?_append_left hn, eventAt]

theorem Untouched.append (h : Untouched base log key n m) (w : Write) (hm : m ≤ log.length) :
    Untouched base (log ++ [w]) key n m := by
  intro i hni him e he
  rw [eventAt_append w (by omega)] at he
  exact h i hni him e he

/-- Where no notification names a key, its row keeps the columns of `repositories`. -/
theorem columns_kept (hrow : dbAt base log n key = some row) (hnm : n ≤ m) (hm : m ≤ log.length)
    (hquiet : Untouched base log key n m) :
    ∃ row', dbAt base log m key = some row' ∧ row'.columns = row.columns := by
  induction m, hnm using Nat.le_induction with
  | base => exact ⟨row, hrow, rfl⟩
  | succ m hnm ih =>
    have hlt : m < log.length := by omega
    obtain ⟨row', hrow', hcolumns⟩ := ih hlt.le fun i hni him => hquiet i hni (by omega)
    have hevent := hquiet m hnm (Nat.lt_succ_self m)
    rw [eventAt, List.getElem?_eq_getElem hlt] at hevent
    obtain ⟨row'', hrow'', hcolumns'⟩ := apply_columns hrow' hevent
    exact ⟨row'', by rw [dbAt_succ hlt, hrow''], hcolumns'.trans hcolumns⟩

/-- A row that was the key's at some moment. -/
structure ReadAt (base : Repos) (log : List Write) (key : String) (row : CachedRepo) (n : ℕ) :
    Prop where
  le : n ≤ log.length
  row : dbAt base log n key = some row

theorem ReadAt.append (h : ReadAt base log key row n) (w : Write) :
    ReadAt base (log ++ [w]) key row n :=
  ⟨h.le.trans (by simp), by rw [dbAt_append w h.le]; exact h.row⟩

/-- How far the listener has come. -/
def Listener.handled : Listener → Option ℕ
  | .down => none
  | .listening n => some n
  | .flushed n => some n

def Listener.isFlushed : Listener → Bool
  | .flushed _ => true
  | _ => false

/-- What holds of a replica: behind a flush nothing that it has read or cached has been changed by a
write whose notification it has handled. -/
structure Coherent (base : Repos) (log : List Write) (r : Replica) : Prop where
  fills : ∀ f ∈ r.fills, ReadAt base log f.key f.row f.readAt
  handled : ∀ n ∈ r.listener.handled, n ≤ log.length
  unraced : ∀ n ∈ r.listener.handled, r.listener.isFlushed → ∀ f ∈ r.fills,
    Untouched base log f.key f.readAt n
  cached : ∀ n ∈ r.listener.handled, r.listener.isFlushed → ∀ key e, r.cache key = some e →
    ∃ m, ReadAt base log key e.row m ∧ Untouched base log key m n

theorem Coherent.append (h : Coherent base log r) (w : Write) :
    Coherent base (log ++ [w]) r where
  fills f hf := (h.fills f hf).append w
  handled n hn := (h.handled n hn).trans (by simp)
  unraced n hn hflushed f hf := (h.unraced n hn hflushed f hf).append w (h.handled n hn)
  cached n hn hflushed key e he := by
    obtain ⟨m, hm, hquiet⟩ := h.cached n hn hflushed key e he
    exact ⟨m, hm.append w, hquiet.append w (h.handled n hn)⟩

/-- A smaller cache and fewer fills. -/
theorem Coherent.mono (h : Coherent base log r) (hlistener : r'.listener = r.listener)
    (hcache : ∀ key e, r'.cache key = some e → r.cache key = some e)
    (hfills : r'.fills ⊆ r.fills) : Coherent base log r' where
  fills f hf := h.fills f (hfills hf)
  handled n hn := h.handled n (hlistener ▸ hn)
  unraced n hn hflushed f hf :=
    h.unraced n (hlistener ▸ hn) (hlistener ▸ hflushed) f (hfills hf)
  cached n hn hflushed key e he :=
    h.cached n (hlistener ▸ hn) (hlistener ▸ hflushed) key e (hcache key e he)

/-- No fill is under way whose row was read before a write that names its key, when the notification
of that write is handled, or at the first flush if the replica was not listening then. -/
def Unraced (base : Repos) (w : World Shared Replica) (a : ℕ × Label) : Prop :=
  ∀ n ∈ (w.procs a.1).listener.handled,
    (a.2 = .handle → ∀ e ∈ eventAt base w.shared.log n, ∀ f ∈ (w.procs a.1).fills,
      f.key ∈ e.keys → n < f.readAt) ∧
    (a.2 = .flush → (w.procs a.1).listener.isFlushed = false →
      ∀ f ∈ (w.procs a.1).fills, Untouched base w.shared.log f.key f.readAt n)

theorem mem_of_applyInvalidationEvent {cache : String → Option CacheEntry}
    {event : InvalidationEvent} {e : CacheEntry}
    (h : applyInvalidationEvent cache event key = some e) :
    cache key = some e ∧ key ∉ event.keys := by
  have hupdate : ∀ (cache : String → Option CacheEntry) gone,
      Function.update cache gone none key = some e → cache key = some e ∧ key ≠ gone := by
    intro cache gone h
    by_cases hkey : key = gone
    · rw [hkey, Function.update_self] at h
      cases h
    · rw [Function.update_of_ne hkey] at h
      exact ⟨h, hkey⟩
  cases event with
  | repositoryChanged oldKey newKey =>
    obtain ⟨h, hnew⟩ := hupdate _ _ h
    obtain ⟨h, hold⟩ := hupdate _ _ h
    exact ⟨h, by simp [InvalidationEvent.keys, hnew, hold]⟩
  | repositoryDeleted gone =>
    obtain ⟨h, hne⟩ := hupdate _ _ h
    exact ⟨h, by simp [InvalidationEvent.keys, hne]⟩
  | _ => exact ⟨h, List.not_mem_nil⟩

theorem Coherent.handle (h : Coherent base s.log r) (hlistener : r.listener = .flushed upTo)
    (hlt : upTo < s.log.length)
    (hunraced : ∀ e ∈ eventAt base s.log upTo, ∀ f ∈ r.fills, f.key ∈ e.keys →
      upTo < f.readAt) :
    Coherent base s.log { r with
      cache := ((eventAt base s.log upTo).map (applyInvalidationEvent r.cache)).getD r.cache
      listener := .flushed (upTo + 1) } := by
  have hn : upTo ∈ r.listener.handled := by rw [hlistener]; rfl
  have hflushed : r.listener.isFlushed := by rw [hlistener]; rfl
  refine ⟨h.fills, ?_, ?_, ?_⟩
  · rintro n ⟨⟩
    exact hlt
  · rintro n ⟨⟩ - f hf i hni hin e he hkey
    rcases Nat.lt_succ_iff_lt_or_eq.mp hin with hlt' | rfl
    · exact h.unraced upTo hn hflushed f hf i hni hlt' e he hkey
    · exact absurd (hunraced e he f hf hkey) (not_lt.mpr hni)
  · rintro n ⟨⟩ - key e he
    have hkept : r.cache key = some e ∧ ∀ event ∈ eventAt base s.log upTo, key ∉ event.keys := by
      cases hevent : eventAt base s.log upTo with
      | none =>
        rw [hevent] at he
        exact ⟨he, fun _ h => by cases h⟩
      | some event =>
        rw [hevent] at he
        obtain ⟨he, hkey⟩ := mem_of_applyInvalidationEvent he
        exact ⟨he, fun event' h => Option.some.inj h ▸ hkey⟩
    obtain ⟨m, hm, hquiet⟩ := h.cached upTo hn hflushed key e hkept.1
    refine ⟨m, hm, fun i hmi hin event hevent => ?_⟩
    rcases Nat.lt_succ_iff_lt_or_eq.mp hin with hlt' | rfl
    · exact hquiet i hmi hlt' event hevent
    · exact hkept.2 event hevent

theorem step_coherent {a : Label} (h : Coherent base s.log r)
    (hok : ∀ n ∈ r.listener.handled,
      (a = .handle → ∀ e ∈ eventAt base s.log n, ∀ f ∈ r.fills, f.key ∈ e.keys → n < f.readAt) ∧
      (a = .flush → r.listener.isFlushed = false →
        ∀ f ∈ r.fills, Untouched base s.log f.key f.readAt n))
    (hstep : r.step base s a = some (s', r')) :
    Coherent base s'.log r' ∧ (s'.log = s.log ∨ ∃ w, s'.log = s.log ++ [w]) := by
  cases a with
  | write w =>
    cases hstep
    exact ⟨h.append w, .inr ⟨w, rfl⟩⟩
  | tick d =>
    cases hstep
    exact ⟨h, .inl rfl⟩
  | read key =>
    dsimp only [Replica.step] at hstep
    split at hstep
    · next row hrow =>
      cases hstep
      refine ⟨⟨fun f hf => ?_, h.handled, fun n hn hflushed f hf => ?_, h.cached⟩, .inl rfl⟩
      · rcases List.mem_append.mp hf with hold | hnew
        · exact h.fills f hold
        · rw [List.mem_singleton.mp hnew]
          exact ⟨le_rfl, hrow⟩
      · rcases List.mem_append.mp hf with hold | hnew
        · exact h.unraced n hn hflushed f hold
        · rw [List.mem_singleton.mp hnew]
          intro i hni hin
          have hle := h.handled n hn
          dsimp only at hni
          omega
    · cases hstep
      exact ⟨h, .inl rfl⟩
  | put i =>
    obtain ⟨fill, hfill, heq⟩ := Option.map_eq_some_iff.mp hstep
    cases heq
    have hmem : fill ∈ r.fills := List.mem_of_getElem? hfill
    have hsub : r.fills.eraseIdx i ⊆ r.fills := List.eraseIdx_subset ..
    refine ⟨⟨fun f hf => h.fills f (hsub hf), h.handled,
      fun n hn hflushed f hf => h.unraced n hn hflushed f (hsub hf), ?_⟩, .inl rfl⟩
    intro n hn hflushed key e he
    by_cases hkey : key = fill.key
    · subst hkey
      have he' : some (⟨fill.row, s.now⟩ : CacheEntry) = some e := by
        simpa only [Function.update_self] using he
      obtain rfl := Option.some.inj he'
      exact ⟨fill.readAt, h.fills fill hmem, h.unraced n hn hflushed fill hmem⟩
    · have he' : (r.cache key).filter (live s.now) = some e := by
        simpa only [Function.update_of_ne hkey] using he
      exact h.cached n hn hflushed key e (Option.filter_eq_some_iff.mp he').1
  | abandon i =>
    cases hstep
    exact ⟨h.mono rfl (fun _ _ he => he) (List.eraseIdx_subset ..), .inl rfl⟩
  | listen =>
    cases hstep
    refine ⟨⟨h.fills, ?_, nofun, nofun⟩, .inl rfl⟩
    rintro n ⟨⟩
    exact le_rfl
  | flush =>
    dsimp only [Replica.step] at hstep
    split at hstep
    · cases hstep
    · next handled hlistener =>
      cases hstep
      have hn : handled ∈ r.listener.handled := by rw [hlistener]; rfl
      refine ⟨⟨h.fills, ?_, ?_, nofun⟩, .inl rfl⟩
      · rintro n ⟨⟩
        exact h.handled handled hn
      · rintro n ⟨⟩ - f hf
        exact (hok handled hn).2 rfl (by rw [hlistener]; rfl) f hf
    · cases hstep
      exact ⟨h.mono rfl nofun (List.Subset.refl _), .inl rfl⟩
  | handle =>
    dsimp only [Replica.step] at hstep
    split at hstep
    · next handled hlistener =>
      split at hstep
      · next hlt =>
        cases hstep
        have hn : handled ∈ r.listener.handled := by rw [hlistener]; rfl
        exact ⟨h.handle hlistener hlt ((hok handled hn).1 rfl), .inl rfl⟩
      · cases hstep
    · cases hstep
  | disconnect =>
    cases hstep
    exact ⟨⟨h.fills, nofun, nofun, nofun⟩, .inl rfl⟩
  | evict key =>
    cases hstep
    refine ⟨h.mono rfl (fun key' e he => ?_) (List.Subset.refl _), .inl rfl⟩
    by_cases hkey : key' = key
    · rw [hkey] at he
      simp at he
    · simpa only [Function.update_of_ne hkey] using he

/-- Where no fill straddles a notification, a replica that listens caches only rows that are as new
as the notifications that it has handled, in the columns that are notified. -/
theorem cached_columns_current {w : World Shared Replica} {p : ℕ} {e : CacheEntry}
    (h : (replicas base).machine.Reach (Unraced base) started w)
    (hlistener : (w.procs p).listener = .flushed upTo)
    (hcached : (w.procs p).cache key = some e) :
    ∃ n row, upTo ≤ n ∧ n ≤ w.shared.log.length ∧ dbAt base w.shared.log n key = some row ∧
      row.columns = e.row.columns := by
  have hcoherent := (Protocol.reach_rely_guarantee h (I := fun _ => True)
    (A := fun _ r s => Coherent base s.log r) trivial
    (fun p => ⟨nofun, nofun, nofun, nofun⟩) (by
      intro w p a s' r' _ hA hok hstep
      obtain ⟨hr', hlog⟩ := step_coherent (hA p) hok hstep
      refine ⟨trivial, hr', fun q _ => ?_⟩
      rcases hlog with heq | ⟨write, heq⟩
      · rw [heq]
        exact hA q
      · rw [heq]
        exact (hA q).append write)).2 p
  have hn : upTo ∈ (w.procs p).listener.handled := by rw [hlistener]; rfl
  have hflushed : (w.procs p).listener.isFlushed := by rw [hlistener]; rfl
  obtain ⟨m, hm, hquiet⟩ := hcoherent.cached upTo hn hflushed key e hcached
  rcases Nat.le_total upTo m with hle | hle
  · exact ⟨m, e.row, hle, hm.le, hm.row, rfl⟩
  · have hle' := hcoherent.handled upTo hn
    obtain ⟨row, hrow, hcolumns⟩ := columns_kept hm.row hle hle' hquiet
    exact ⟨upTo, row, le_rfl, hle', hrow, hcolumns⟩

theorem unraced_of_nil {w : World Shared Replica} {a : ℕ × Label}
    (h : (w.procs a.1).fills = []) : Unraced base w a := by
  intro n _
  rw [h]
  exact ⟨fun _ _ _ f hf => absurd hf List.not_mem_nil,
    fun _ _ f hf => absurd hf List.not_mem_nil⟩

theorem unraced_put (w : World Shared Replica) (p i : ℕ) : Unraced base w (p, .put i) :=
  fun _ _ => ⟨nofun, nofun⟩

def npmRow (isPublic : Bool) : CachedRepo :=
  ⟨7, "npm", "local", none, "/data/npm", "filesystem", isPublic, none⟩

def npmBase : Repos := fun key => if key = "npm" then some (npmRow true) else none

/-- The repository is made private while it is cached. -/
def privateLabels : List (ℕ × Label) :=
  [(0, .listen), (0, .flush), (0, .read "npm"), (0, .put 0),
    (1, .write (.update "npm" "npm" (npmRow false))), (0, .handle), (0, .read "npm"), (0, .put 0)]

theorem cached_columns_private :
    ∃ w n row, (replicas npmBase).machine.run started privateLabels = some w ∧
      (w.procs 0).cache "npm" = some ⟨npmRow false, 0⟩ ∧ 1 ≤ n ∧ n ≤ w.shared.log.length ∧
      dbAt npmBase w.shared.log n "npm" = some row ∧ row.columns = (npmRow false).columns := by
  have hrun : ∃ w, (replicas npmBase).machine.run started privateLabels = some w ∧
      (w.procs 0).listener = .flushed 1 ∧
      (w.procs 0).cache "npm" = some ⟨npmRow false, 0⟩ := ⟨_, rfl, rfl, rfl⟩
  obtain ⟨w, hrun, hlistener, hcached⟩ := hrun
  have hmeets : (replicas npmBase).machine.Meets (Unraced npmBase) started privateLabels :=
    ⟨unraced_of_nil rfl, unraced_of_nil rfl, unraced_of_nil rfl, unraced_put _ 0 0,
      unraced_of_nil rfl, unraced_of_nil rfl, unraced_of_nil rfl, unraced_put _ 0 0, trivial⟩
  obtain ⟨n, row, h⟩ := cached_columns_current
    (Machine.reach_of_run privateLabels hrun hmeets) hlistener hcached
  exact ⟨w, n, row, hrun, hcached, h⟩

/-- A fill that straddles a notification brings the old row back. -/
theorem raced_fill_stale :
    ∃ w, (replicas npmBase).machine.run started
        [(0, .listen), (0, .flush), (0, .read "npm"),
          (1, .write (.update "npm" "npm" (npmRow false))), (0, .handle), (0, .put 0)] = some w ∧
      (w.procs 0).listener = .flushed w.shared.log.length ∧
      (w.procs 0).cache "npm" = some ⟨npmRow true, 0⟩ ∧
      dbAt npmBase w.shared.log w.shared.log.length "npm" = some (npmRow false) :=
  ⟨_, rfl, rfl, rfl, rfl⟩

end ArtifactKeeper.CacheInvalidation
