import ArtifactKeeper.JsonValue
import ArtifactKeeper.Machine
import ArtifactKeeper.Text
import Mathlib.Order.Nat

/-! Consumers of an upstream change feed, one a replica, with the stored cursor that they share.
They are kept apart by a lock, but nothing here relies on it. -/

namespace ArtifactKeeper.UpstreamFeed

structure ChangeRow where
  id : Option String
  seq : Option Json

structure ChangesResponse where
  results : List ChangeRow
  lastSeq : Option Json

structure FeedBatch where
  events : List String
  lastSeq : Option String
  batchWasFull : Bool

/-- A number stands as it is printed. -/
def seqToString : Json → Option String
  | .number n => some n
  | .string s => if s.isEmpty then none else some s
  | _ => none

def npmFeedBatchLimit : ℕ := 200

/-- Design documents are no packages. -/
def isPackage (id : String) : Bool := !id.isEmpty && !"_design/".toList.isPrefixOf id.toList

/-- The batch that `poll` makes of a response. -/
def toBatch (changes : ChangesResponse) : FeedBatch where
  events := (changes.results.filterMap (·.id)).filter isPackage
  lastSeq := (changes.lastSeq.bind seqToString).or
    (changes.results.reverse.findSome? fun row => row.seq.bind seqToString)
  batchWasFull := npmFeedBatchLimit ≤ changes.results.length

/-- A row of `repositories`. -/
structure RemoteRepo where
  id : ℕ
  key : String
  upstreamUrl : Option String
  deriving DecidableEq

/-- The action with the host of a URL, as the URL parser has it. -/
structure PackumentInvalidationAction where
  hostStr : String → Option String

def npmPublicRegistryHosts : List String := ["registry.npmjs.org", "registry.npmjs.com"]

variable (action : PackumentInvalidationAction)

def PackumentInvalidationAction.upstreamCoveredByNpmFeed (upstreamUrl : String) : Bool :=
  (action.hostStr upstreamUrl).any fun host =>
    npmPublicRegistryHosts.contains (Text.toAsciiLowercase host)

def PackumentInvalidationAction.covers (repo : RemoteRepo) : Bool :=
  repo.upstreamUrl.any action.upstreamCoveredByNpmFeed

/-- What the queries of one call return: the remote npm repositories, each with the keys of the
virtual repositories that it is a member of. A query that fails returns nothing. -/
abbrev RepoRows := Option (List (RemoteRepo × Option (List String)))

/-- `apply`, with the packages that it has the cache of its process drop, by repository key. Only
the first query decides: where a repository's virtual ones cannot be read, the repository alone is
seen to, and nobody hears of an invalidation that the shared store has refused. -/
def PackumentInvalidationAction.apply (rows : RepoRows) (events : List String) :
    Bool × List (String × String) :=
  match rows with
  | none => (false, [])
  | some rows => (true, rows.flatMap fun row =>
      if action.covers row.1 then
        events.flatMap fun package =>
          (row.1.key :: row.2.getD []).map fun repoKey => (repoKey, package)
      else [])

/-- A consumer with its periods in milliseconds. -/
structure FeedConsumer where
  action : PackumentInvalidationAction
  backoffInitial : ℕ
  backoffMax : ℕ
  idlePollInterval : ℕ

def nextBackoff (current max : ℕ) : ℕ := min (current * 2) max

/-- Where a consumer stands: in `run`, between the calls of one term, or asleep. -/
inductive Phase where
  | contending
  | loading
  | bootstrapping
  | savingHead (head : String)
  | polling (since : Option String) (backoff : ℕ)
  | applying (since : Option String) (backoff : ℕ) (batch : FeedBatch)
  | saving (since : Option String) (backoff : ℕ) (batch : FeedBatch) (lastSeq : String)
  | pausing (since : Option String) (backoff period : ℕ)
  | sittingOut

def FeedBatch.advanced (batch : FeedBatch) (since : Option String) : Bool :=
  batch.lastSeq.isSome && batch.lastSeq ≠ since

/-- How a round ends: the backoff bounds the replay of events that do not move the cursor, and a
backlog is polled without a pause. -/
def settle (c : FeedConsumer) (since : Option String) (backoff : ℕ) (batch : FeedBatch) : Phase :=
  let advanced := batch.advanced since
  let since := batch.lastSeq.or since
  let backoff := if advanced then c.backoffInitial else backoff
  if !batch.events.isEmpty && !advanced then
    .pausing since (nextBackoff backoff c.backoffMax) backoff
  else if batch.batchWasFull && advanced then .polling since backoff
  else .pausing since backoff c.idlePollInterval

/-- Behind the actions the cursor is stored if it has moved. -/
def conclude (c : FeedConsumer) (since : Option String) (backoff : ℕ) (batch : FeedBatch) :
    Phase :=
  match batch.lastSeq with
  | some lastSeq =>
    if batch.advanced since then .saving since backoff batch lastSeq
    else settle c since backoff batch
  | none => settle c since backoff batch

/-- A call of the action that has returned true: the rows it read, what it dropped, and how many
changes the upstream had seen. -/
structure Applied where
  consumer : ℕ
  rows : List (RemoteRepo × Option (List String))
  dropped : List (String × String)
  position : ℕ

/-- The changes that the upstream has seen, by the packages they name, the stored cursor, and what
the action has done. -/
structure Shared where
  log : List String
  stored : Option String
  applied : List Applied

/-- What the consumer meets next; `none` and `false` are failures. -/
inductive Label where
  | lock (acquired : Bool)
  | load (ok : Bool)
  | root (updateSeq : Option (Option Json))
  | poll (answer : Option ChangesResponse)
  | apply (rows : RepoRows)
  | save (ok : Bool)
  | wake
  /-- The term ends, the consumer is cancelled or dies. -/
  | stop
  /-- A change upstream. -/
  | publish (id : String)

/-- A failed save loses the position to resume from, and nothing else. -/
def store (s : Shared) (ok : Bool) (cursor : String) : Shared :=
  if ok then { s with stored := some cursor } else s

def step (c : FeedConsumer) (p : ℕ) (s : Shared) : Phase → Label → Option (Shared × Phase)
  | .contending, .lock acquired => some (s, if acquired then .loading else .contending)
  | .loading, .load false => some (s, .sittingOut)
  | .loading, .load true =>
    match s.stored with
    | some seq => some (s, .polling (some seq) c.backoffInitial)
    | none => some (s, .bootstrapping)
  | .bootstrapping, .root updateSeq =>
    match (updateSeq.bind id).bind seqToString with
    | some head => some (s, .savingHead head)
    | none => some (s, .sittingOut)
  | .savingHead head, .save ok => some (store s ok head, .polling (some head) c.backoffInitial)
  | .polling since backoff, .poll none =>
    some (s, .pausing since (nextBackoff backoff c.backoffMax) backoff)
  | .polling since backoff, .poll (some changes) =>
    let batch := toBatch changes
    if batch.events.isEmpty then some (s, conclude c since backoff batch)
    else some (s, .applying since backoff batch)
  | .applying since backoff batch, .apply rows =>
    let outcome := c.action.apply rows batch.events
    if outcome.1 then
      some ({ s with applied := s.applied ++ [⟨p, rows.getD [], outcome.2, s.log.length⟩] },
        conclude c since backoff batch)
    -- Going on would lose the batch for good.
    else some (s, .pausing since (nextBackoff backoff c.backoffMax) backoff)
  | .saving since backoff batch lastSeq, .save ok =>
    some (store s ok lastSeq, settle c since backoff batch)
  | .pausing since backoff _, .wake => some (s, .polling since backoff)
  | .sittingOut, .wake => some (s, .contending)
  | _, .stop => some (s, .contending)
  | l, .publish id => some ({ s with log := s.log ++ [id] }, l)
  | _, _ => none

def protocol (c : FeedConsumer) : Protocol Shared Phase Label where
  step p s l a := step c p s l a

/-- The sequence numbers of a feed: the one that names the position behind so many changes. -/
structure ChangeFeed where
  seqText : ℕ → String
  injective : Function.Injective seqText

variable {feed : ChangeFeed} {c : FeedConsumer} {n₀ n m : ℕ} {s s' : Shared}

/-- The changes between two positions. -/
def Shared.between (s : Shared) (n m : ℕ) : List String := (s.log.take m).drop n

/-- A response to a poll from position `n`: the changes from there up to some position, with their
numbers, and that position if the response names one. -/
structure Honest (feed : ChangeFeed) (s : Shared) (n m : ℕ) (changes : ChangesResponse) :
    Prop where
  le : n ≤ m
  le_length : m ≤ s.log.length
  ids : changes.results.map (·.id) = (s.between n m).map some
  seqs : changes.results.map (fun row => row.seq.bind seqToString) =
    (List.range' (n + 1) (m - n)).map fun k => some (feed.seqText k)
  last : ∀ t ∈ changes.lastSeq.bind seqToString, t = feed.seqText m

/-- The upstream answers every poll from a position of the feed by what it has from there. -/
def HonestPolls (feed : ChangeFeed) (w : World Shared Phase) (a : ℕ × Label) : Prop :=
  ∀ since backoff changes n, w.procs a.1 = .polling since backoff → a.2 = .poll (some changes) →
    since = some (feed.seqText n) → ∃ m, Honest feed w.shared n m changes

/-- The call has dropped the package from every repository on the feed that it has read. -/
def Applied.Drops (action : PackumentInvalidationAction) (a : Applied) (package : String) : Prop :=
  ∀ row ∈ a.rows, action.covers row.1 = true → (row.1.key, package) ∈ a.dropped

/-- A call that came when the change had been seen has returned true for it. -/
def Shared.Invalidated (action : PackumentInvalidationAction) (s : Shared) (i : ℕ)
    (package : String) : Prop :=
  ∃ a ∈ s.applied, i < a.position ∧ a.Drops action package

/-- No package that changed between two positions was left out. -/
def Shared.Covered (action : PackumentInvalidationAction) (s : Shared) (n m : ℕ) : Prop :=
  ∀ i package, n ≤ i → i < m → s.log[i]? = some package → isPackage package →
    s.Invalidated action i package

variable {action} in
theorem PackumentInvalidationAction.apply_drops {rows : RepoRows} {events : List String}
    {package : String} (hpackage : package ∈ events) (hok : (action.apply rows events).1 = true)
    (p t : ℕ) :
    Applied.Drops action ⟨p, rows.getD [], (action.apply rows events).2, t⟩ package := by
  cases rows with
  | none => cases hok
  | some rows =>
    intro row hrow hcovers
    refine List.mem_flatMap.mpr ⟨row, hrow, ?_⟩
    rw [if_pos hcovers]
    exact List.mem_flatMap.mpr ⟨package, hpackage, List.mem_cons_self⟩

theorem filterMap_id_of_map {rows : List ChangeRow} {ids : List String}
    (h : rows.map (·.id) = ids.map some) : rows.filterMap (·.id) = ids := by
  have hid : rows.filterMap (·.id) = (rows.map (·.id)).filterMap id := by
    rw [List.filterMap_map]
    rfl
  rw [hid, h, List.filterMap_map]
  exact List.filterMap_some

theorem findSome_last {rows : List ChangeRow} {f : ChangeRow → Option String} {g : ℕ → String}
    (h : rows.map f = (List.range' (n + 1) (m - n)).map fun k => some (g k)) {t : String}
    (ht : rows.reverse.findSome? f = some t) : t = g m := by
  have hmap : rows.reverse.findSome? f = (rows.map f).reverse.findSome? id := by
    rw [← List.map_reverse, List.findSome?_map]
    rfl
  rw [hmap, h] at ht
  cases hk : m - n with
  | zero => rw [hk] at ht; cases ht
  | succ k =>
    have hm : n + 1 + k = m := by omega
    rw [hk, List.range'_concat, List.map_append, List.reverse_append] at ht
    simpa [hm] using ht.symm

/-- A batch with the packages that changed between two positions. -/
structure Carries (feed : ChangeFeed) (s : Shared) (n m : ℕ) (batch : FeedBatch) : Prop where
  le : n ≤ m
  le_length : m ≤ s.log.length
  events : batch.events = (s.between n m).filter isPackage
  last : ∀ t, batch.lastSeq = some t → t = feed.seqText m

theorem Honest.carries {changes : ChangesResponse} (h : Honest feed s n m changes) :
    Carries feed s n m (toBatch changes) where
  le := h.le
  le_length := h.le_length
  events := by rw [toBatch, filterMap_id_of_map h.ids]
  last t ht := by
    rw [toBatch, Option.or_eq_some_iff] at ht
    rcases ht with ht | ⟨-, ht⟩
    · exact h.last t ht
    · exact findSome_last h.seqs ht

/-- A cursor that stands at a position of the feed, with nothing left out on the way there. -/
structure At (feed : ChangeFeed) (action : PackumentInvalidationAction) (n₀ : ℕ) (s : Shared)
    (n : ℕ) (since : Option String) : Prop where
  cursor : since = some (feed.seqText n)
  le : n₀ ≤ n
  le_length : n ≤ s.log.length
  covered : s.Covered action n₀ n

/-- What the steps of all consumers keep. -/
structure Grows (s s' : Shared) : Prop where
  log : s.log <+: s'.log
  applied : s.applied ⊆ s'.applied

theorem Grows.refl (s : Shared) : Grows s s := ⟨List.prefix_rfl, List.Subset.refl _⟩

theorem Grows.between (h : Grows s s') (hm : m ≤ s.log.length) :
    s'.between n m = s.between n m := by
  obtain ⟨rest, hrest⟩ := h.log
  rw [Shared.between, ← hrest, List.take_append_of_le_length hm, Shared.between]

theorem Carries.mono {batch : FeedBatch} (h : Carries feed s n m batch) (hg : Grows s s') :
    Carries feed s' n m batch :=
  ⟨h.le, h.le_length.trans hg.log.length_le, (hg.between h.le_length).symm ▸ h.events, h.last⟩

variable {action}

theorem Covered.mono (h : s.Covered action n₀ n) (hn : n ≤ s.log.length) (hg : Grows s s') :
    s'.Covered action n₀ n := by
  intro i package hi hin hat hpackage
  obtain ⟨rest, hrest⟩ := hg.log
  rw [← hrest, List.getElem?_append_left (by omega)] at hat
  obtain ⟨a, hmem, ha⟩ := h i package hi hin hat hpackage
  exact ⟨a, hg.applied hmem, ha⟩

theorem At.mono {since : Option String} (h : At feed action n₀ s n since) (hg : Grows s s') :
    At feed action n₀ s' n since :=
  ⟨h.cursor, h.le, h.le_length.trans hg.log.length_le, Covered.mono h.covered h.le_length hg⟩

/-- What holds of a consumer when a cursor is stored from the start. -/
def Phase.Sound (feed : ChangeFeed) (action : PackumentInvalidationAction) (n₀ : ℕ) (s : Shared) :
    Phase → Prop
  | .polling since _ => ∃ n, At feed action n₀ s n since
  | .pausing since _ _ => ∃ n, At feed action n₀ s n since
  | .applying since _ batch => ∃ n m, At feed action n₀ s n since ∧ Carries feed s n m batch
  | .saving since _ batch lastSeq => ∃ n m, At feed action n₀ s n since ∧
      At feed action n₀ s m (some lastSeq) ∧ batch.lastSeq = some lastSeq
  | .bootstrapping => False
  | .savingHead _ => False
  | _ => True

theorem Phase.Sound.mono {l : Phase} (h : l.Sound feed action n₀ s) (hg : Grows s s') :
    l.Sound feed action n₀ s' := by
  cases l with
  | polling since backoff => exact h.imp fun n hn => hn.mono hg
  | pausing since backoff period => exact h.imp fun n hn => hn.mono hg
  | applying since backoff batch =>
    obtain ⟨n, m, hn, hm⟩ := h
    exact ⟨n, m, hn.mono hg, hm.mono hg⟩
  | saving since backoff batch lastSeq =>
    obtain ⟨n, m, hn, hm, hlast⟩ := h
    exact ⟨n, m, hn.mono hg, hm.mono hg, hlast⟩
  | bootstrapping => exact h
  | savingHead head => exact h
  | _ => trivial

theorem settle_sound {since : Option String} {backoff : ℕ} {batch : FeedBatch}
    (h : ∃ n, At feed action n₀ s n (batch.lastSeq.or since)) :
    (settle c since backoff batch).Sound feed action n₀ s := by
  unfold settle
  dsimp only
  split
  · exact h
  · split
    · exact h
    · exact h

theorem conclude_sound {since : Option String} {backoff : ℕ} {batch : FeedBatch}
    (h : At feed action n₀ s n since)
    (hlast : ∀ t, batch.lastSeq = some t → ∃ m, At feed action n₀ s m (some t)) :
    (conclude c since backoff batch).Sound feed action n₀ s := by
  have hsettle : (settle c since backoff batch).Sound feed action n₀ s := by
    refine settle_sound ?_
    cases hseq : batch.lastSeq with
    | none => exact ⟨n, h⟩
    | some t => exact hlast t hseq
  unfold conclude
  split
  · next lastSeq hseq =>
    split
    · obtain ⟨m, hm⟩ := hlast lastSeq hseq
      exact ⟨n, m, h, hm, hseq⟩
    · exact hsettle
  · exact hsettle

/-- Past a batch whose packages have been invalidated. -/
theorem Carries.at {batch : FeedBatch} {since : Option String} (h : Carries feed s n m batch)
    (hat : At feed action n₀ s n since)
    (hdone : ∀ package ∈ batch.events, ∃ a ∈ s.applied, s.log.length ≤ a.position ∧
      a.Drops action package)
    {t : String} (ht : batch.lastSeq = some t) : At feed action n₀ s m (some t) where
  cursor := by rw [h.last t ht]
  le := hat.le.trans h.le
  le_length := h.le_length
  covered i package hi him hlog hpackage := by
    rcases Nat.lt_or_ge i n with hin | hni
    · exact hat.covered i package hi hin hlog hpackage
    · have hmem : package ∈ batch.events := by
        rw [h.events, List.mem_filter]
        refine ⟨List.mem_iff_getElem?.mpr ⟨i - n, ?_⟩, hpackage⟩
        rw [Shared.between, List.getElem?_drop, List.getElem?_take, if_pos (by omega)]
        rwa [Nat.add_sub_cancel' hni]
      obtain ⟨a, ha, hposition, hdrops⟩ := hdone package hmem
      have hlt := (List.getElem?_eq_some_iff.mp hlog).1
      exact ⟨a, ha, by omega, hdrops⟩

/-- What a step does, when a cursor is stored and the consumer is sound. -/
theorem step_sound {l l' : Phase} {a : Label} {p : ℕ}
    (hstored : ∃ n, At feed c.action n₀ s n s.stored) (hl : l.Sound feed c.action n₀ s)
    (hhonest : ∀ since backoff changes n, l = .polling since backoff → a = .poll (some changes) →
      since = some (feed.seqText n) → ∃ m, Honest feed s n m changes)
    (h : step c p s l a = some (s', l')) :
    Grows s s' ∧ (∃ n, At feed c.action n₀ s' n s'.stored) ∧ l'.Sound feed c.action n₀ s' := by
  unfold step at h
  split at h
  · cases h
    exact ⟨Grows.refl s, hstored, by split <;> trivial⟩
  · cases h
    exact ⟨Grows.refl s, hstored, trivial⟩
  · split at h
    · next seq hseq =>
      cases h
      exact ⟨Grows.refl s, hstored, hseq ▸ hstored⟩
    · next hnone =>
      obtain ⟨n, hn⟩ := hstored
      rw [hnone] at hn
      cases hn.cursor
  · exact hl.elim
  · exact hl.elim
  · cases h
    exact ⟨Grows.refl s, hstored, hl⟩
  · next since backoff changes =>
    obtain ⟨n, hn⟩ := hl
    obtain ⟨m, hm⟩ := hhonest since backoff changes n rfl rfl hn.cursor
    have hcarries := hm.carries
    dsimp only at h
    split at h
    · next hempty =>
      cases h
      refine ⟨Grows.refl s, hstored, conclude_sound hn fun t ht => ⟨m, hcarries.at hn ?_ ht⟩⟩
      rw [List.isEmpty_iff.mp hempty]
      simp
    · cases h
      exact ⟨Grows.refl s, hstored, n, m, hn, hcarries⟩
  · next since backoff batch rows =>
    obtain ⟨n, m, hn, hcarries⟩ := hl
    dsimp only at h
    split at h
    · next hok =>
      cases h
      have hg : Grows s { s with applied := s.applied ++
          [⟨p, rows.getD [], (c.action.apply rows batch.events).2, s.log.length⟩] } :=
        ⟨List.prefix_rfl, List.subset_append_left _ _⟩
      refine ⟨hg, hstored.imp fun k hk => hk.mono hg, ?_⟩
      refine conclude_sound (hn.mono hg) fun t ht => ⟨m, (hcarries.mono hg).at (hn.mono hg) ?_ ht⟩
      intro package hpackage
      exact ⟨_, List.mem_append_right _ (List.mem_singleton_self _), le_rfl,
        PackumentInvalidationAction.apply_drops hpackage hok p s.log.length⟩
    · cases h
      exact ⟨Grows.refl s, hstored, n, hn⟩
  · next since backoff batch lastSeq ok =>
    obtain ⟨n, m, hn, hm, hseq⟩ := hl
    cases h
    have hg : Grows s (store s ok lastSeq) := by
      cases ok
      · exact Grows.refl s
      · exact ⟨List.prefix_rfl, List.Subset.refl _⟩
    refine ⟨hg, ?_, settle_sound ⟨m, ?_⟩⟩
    · cases ok
      · exact hstored
      · exact ⟨m, hm.mono hg⟩
    · rw [hseq]
      exact hm.mono hg
  · cases h
    exact ⟨Grows.refl s, hstored, hl⟩
  · cases h
    exact ⟨Grows.refl s, hstored, trivial⟩
  · cases h
    exact ⟨Grows.refl s, hstored, trivial⟩
  · cases h
    have hg : Grows s { s with log := s.log ++ [‹String›] } :=
      ⟨List.prefix_append _ _, List.Subset.refl _⟩
    exact ⟨hg, hstored.imp fun k hk => hk.mono hg, hl.mono hg⟩
  · cases h

/-- The one URL of the example is parsed. -/
def npmConsumer : FeedConsumer where
  action := ⟨fun url =>
    if url = "https://registry.npmjs.org" then some "registry.npmjs.org" else none⟩
  backoffInitial := 1000
  backoffMax := 60000
  idlePollInterval := 30000

def numberedFeed : ChangeFeed :=
  ⟨fun n => String.ofList (Text.decimal n),
    fun _ _ h => Text.decimal_injective (String.ofList_injective h)⟩

/-- One package has changed since the cursor was stored. -/
def leftPadStart : World Shared Phase :=
  ⟨⟨["left-pad", "_design/app"], some "0", []⟩, fun _ => .contending⟩

def leftPadChanges : ChangesResponse :=
  ⟨[⟨some "left-pad", some (.number "1")⟩, ⟨some "_design/app", some (.string "2")⟩], none⟩

def leftPadLabels : List (ℕ × Label) :=
  [(0, .lock true), (0, .load true), (0, .poll (some leftPadChanges)),
    (0, .apply (some [(⟨1, "npm-remote", some "https://registry.npmjs.org"⟩, some ["npm-all"])])),
    (0, .save true)]

end ArtifactKeeper.UpstreamFeed
