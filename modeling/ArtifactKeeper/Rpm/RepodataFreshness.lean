import ArtifactKeeper.Rpm.RepodataSingleFlight

/-! Which state of the tables the bytes show that a request is served. -/

namespace ArtifactKeeper.Rpm

variable {c : Limits} {renderRepodata : List RpmArtifact → RenderedRepodata} {base : Tables}
  {s s' : Server} {p n i k : ℕ} {scan : Scan} {a : Ask} {set : RenderedRepodata}
  {writes : List Write} {fingerprint : RepodataFingerprint} {repoIds : List ℕ}

/-- The tables after the first `n` writes. -/
def tablesAt (base : Tables) (writes : List Write) (n : ℕ) : Tables :=
  (writes.take n).foldl Write.apply base

theorem tablesAt_append (w : Write) (hn : n ≤ writes.length) :
    tablesAt base (writes ++ [w]) n = tablesAt base writes n := by
  rw [tablesAt, List.take_append_of_le_length hn, tablesAt]

theorem tablesAt_length (s : Server) : tablesAt base s.writes s.writes.length = s.tables base := by
  rw [tablesAt, List.take_length, Server.tables]

theorem tablesAt_eq_foldl (hik : i ≤ k) : tablesAt base writes k =
    ((writes.take k).drop i).foldl Write.apply (tablesAt base writes i) := by
  rw [tablesAt, tablesAt, ← List.foldl_append]
  congr 1
  conv_lhs => rw [← List.take_append_drop i (writes.take k), List.take_take, Nat.min_eq_left hik]

/-- Between two moments with one fingerprint the rows of either are there all the time. -/
theorem liveRpms_of_fingerprint_eq (hbase : base.Clocked) (hws : AllStamped base writes)
    (hik : i ≤ k) (hkn : k ≤ n)
    (heq : repodataFingerprint (tablesAt base writes n) repoIds =
      repodataFingerprint (tablesAt base writes i) repoIds) :
    (liveRpms (tablesAt base writes n) repoIds).Sublist
      (liveRpms (tablesAt base writes k) repoIds) := by
  have hsplit : (writes.take n).drop i = (writes.take k).drop i ++ (writes.take n).drop k := by
    conv_lhs => rw [← List.take_append_drop (k - i) ((writes.take n).drop i)]
    rw [List.drop_drop, Nat.add_sub_cancel' hik, List.take_drop, Nat.add_sub_cancel' hik,
      List.take_take, Nat.min_eq_left hkn]
  have htake : writes = writes.take i ++ (writes.drop i) := (List.take_append_drop i writes).symm
  have hdrop : (writes.take n).drop i ++ writes.drop n = writes.drop i := by
    conv_rhs => rw [← List.take_append_drop n writes]
    rw [List.drop_append, List.length_take]
    by_cases hn : n ≤ writes.length
    · rw [Nat.min_eq_left hn, Nat.sub_eq_zero_of_le (hik.trans hkn), List.drop_zero]
    · rw [List.drop_eq_nil_of_le (not_le.mp hn).le, List.drop_nil]
  rw [htake] at hws
  obtain ⟨hfirst, hrest⟩ := allStamped_append.mp hws
  rw [← hdrop, hsplit] at hrest
  have hstamped := (allStamped_append.mp hrest).1
  rw [tablesAt_eq_foldl (hik.trans hkn), hsplit] at heq ⊢
  obtain ⟨hsame, hsub⟩ := fingerprint_returns (hbase.foldl hfirst) hstamped heq
  have hn : liveRpms (((writes.take k).drop i ++ (writes.take n).drop k).foldl Write.apply
      (tablesAt base writes i)) repoIds = liveRpms (tablesAt base writes i) repoIds := hsame
  rw [hn, tablesAt_eq_foldl hik]
  exact hsub

/-- A set that was rendered behind a moment with this fingerprint. -/
structure RenderedSince (renderRepodata : List RpmArtifact → RenderedRepodata) (base : Tables)
    (writes : List Write) (fingerprint : RepodataFingerprint) (set : RenderedRepodata) (i k : ℕ) :
    Prop where
  le : i ≤ k
  le_length : k ≤ writes.length
  taken : fingerprint = repodataFingerprint (tablesAt base writes i) fingerprint.repoIds
  rendered : set =
    renderRepodata (collectRepodataArtifacts (tablesAt base writes k) fingerprint.repoIds)

theorem RenderedSince.append (w : Write)
    (h : RenderedSince renderRepodata base writes fingerprint set i k) :
    RenderedSince renderRepodata base (writes ++ [w]) fingerprint set i k where
  le := h.le
  le_length := h.le_length.trans (by simp)
  taken := by rw [tablesAt_append w (h.le.trans h.le_length)]; exact h.taken
  rendered := by rw [tablesAt_append w h.le_length]; exact h.rendered

/-- The fingerprint that a request goes by was that of the tables when it took it. -/
structure Ask.Taken (base : Tables) (writes : List Write) (a : Ask) : Prop where
  le_length : a.position ≤ writes.length
  taken : a.fingerprint =
    repodataFingerprint (tablesAt base writes a.position) a.fingerprint.repoIds

theorem Ask.Taken.append (w : Write) (h : a.Taken base writes) : a.Taken base (writes ++ [w]) where
  le_length := h.le_length.trans (by simp)
  taken := by rw [tablesAt_append w h.le_length]; exact h.taken

/-- What a set shows: one state of the tables, from the request on, or an earlier one that has every
package which was there when the request came. -/
def Shows (renderRepodata : List RpmArtifact → RenderedRepodata) (base : Tables)
    (writes : List Write) (a : Ask) (set : RenderedRepodata) : Prop :=
  ∃ n, n ≤ writes.length ∧
    set = renderRepodata
      (collectRepodataArtifacts (tablesAt base writes n) a.fingerprint.repoIds) ∧
    (a.position ≤ n ∨
      (liveRpms (tablesAt base writes a.position) a.fingerprint.repoIds).Sublist
        (liveRpms (tablesAt base writes n) a.fingerprint.repoIds))

theorem Shows.append (w : Write) (ha : a.Taken base writes)
    (h : Shows renderRepodata base writes a set) :
    Shows renderRepodata base (writes ++ [w]) a set := by
  obtain ⟨n, hn, hset, hrows⟩ := h
  refine ⟨n, hn.trans (by simp), ?_, ?_⟩
  · rw [tablesAt_append w hn]
    exact hset
  · rw [tablesAt_append w hn, tablesAt_append w ha.le_length]
    exact hrows

/-- What a hit shows. -/
theorem RenderedSince.shows (hbase : base.Clocked) (hws : AllStamped base writes)
    (h : RenderedSince renderRepodata base writes a.fingerprint set i k)
    (ha : a.Taken base writes) : Shows renderRepodata base writes a set := by
  refine ⟨k, h.le_length, h.rendered, ?_⟩
  rcases Nat.le_total a.position k with hle | hle
  · exact .inl hle
  · exact .inr (liveRpms_of_fingerprint_eq hbase hws h.le hle (ha.taken.symm.trans h.taken))

/-- What holds of the log and of the entries. -/
structure Stored (renderRepodata : List RpmArtifact → RenderedRepodata) (base : Tables)
    (s : Server) : Prop where
  stamped : AllStamped base s.writes
  keyed : Keyed s.entries
  entries : ∀ e ∈ s.entries, ∃ i k,
    RenderedSince renderRepodata base s.writes e.2.fingerprint e.2.rendered i k

def Request.Faithful (renderRepodata : List RpmArtifact → RenderedRepodata) (base : Tables)
    (writes : List Write) : Request → Prop
  | .idle => True
  | .asking a => a.Taken base writes
  | .missed a => a.Taken base writes
  | .waiting a _ => a.Taken base writes
  | .checking a _ => a.Taken base writes
  | .rendering a _ => a.Taken base writes
  | .rendered a _ set =>
    ∃ k, RenderedSince renderRepodata base writes a.fingerprint set a.position k
  | .served a set => a.Taken base writes ∧ Shows renderRepodata base writes a set

theorem Request.Faithful.append (w : Write) {l : Request}
    (h : l.Faithful renderRepodata base writes) :
    l.Faithful renderRepodata base (writes ++ [w]) := by
  cases l with
  | idle => trivial
  | rendered a lock set => exact h.imp fun k hk => hk.append w
  | served a set => exact ⟨h.1.append w, h.2.append w h.1⟩
  | _ => exact Ask.Taken.append w h

/-- Writes are stamped one after the other. -/
def StampedWrites (base : Tables) (w : World Server Request) (a : ℕ × Label) : Prop :=
  ∀ write, a.2 = .write write → write.Stamped (w.shared.tables base)

theorem Stored.lookup (hbase : base.Clocked) (h : Stored renderRepodata base s)
    (ha : a.Taken base s.writes) (hhit : lookup s.entries a.repoId a.fingerprint = some set) :
    Shows renderRepodata base s.writes a set := by
  obtain ⟨entry, hmem, hfingerprint, rfl⟩ := mem_of_lookup hhit
  obtain ⟨i, k, hsince⟩ := h.entries _ hmem
  exact RenderedSince.shows hbase h.stamped (hfingerprint ▸ hsince) ha

theorem Stored.store (h : Stored renderRepodata base s)
    (hset : RenderedSince renderRepodata base s.writes a.fingerprint set i k) :
    Stored renderRepodata base (s.store c scan a set) where
  stamped := h.stamped
  keyed := h.keyed.put.sublist (evict_sublist.map _)
  entries e he := by
    rcases mem_of_mem_insert he with rfl | ⟨hold, -⟩
    · exact ⟨i, k, hset⟩
    · exact h.entries e hold

theorem renderLock_frame (repoId : ℕ) : (s.renderLock p repoId).2.writes = s.writes ∧
    (s.renderLock p repoId).2.entries = s.entries := by
  unfold Server.renderLock
  dsimp only
  split <;> exact ⟨rfl, rfl⟩

theorem Stored.congr (h : Stored renderRepodata base s) (hwrites : s'.writes = s.writes)
    (hentries : s'.entries = s.entries) : Stored renderRepodata base s' := by
  refine ⟨hwrites ▸ h.stamped, hentries ▸ h.keyed, ?_⟩
  rw [hwrites, hentries]
  exact h.entries

/-- A step of a request leaves the log as it is, or adds one write. -/
theorem serveStep_faithful {l l' : Request} {label : Label} (hbase : base.Clocked)
    (h : Stored renderRepodata base s) (hl : l.Faithful renderRepodata base s.writes)
    (hok : ∀ write, label = .write write → write.Stamped (s.tables base))
    (hstep : serveStep c renderRepodata base p s l label = some (s', l')) :
    Stored renderRepodata base s' ∧ l'.Faithful renderRepodata base s'.writes ∧
      (s'.writes = s.writes ∨ ∃ write, s'.writes = s.writes ++ [write]) := by
  have hrelease : ∀ lock, Stored renderRepodata base (s.release p lock) :=
    fun lock => h.congr rfl rfl
  unfold serveStep at hstep
  split at hstep
  · cases hstep
    refine ⟨h, ⟨le_rfl, ?_⟩, .inl rfl⟩
    rw [tablesAt_length]
    rfl
  · split at hstep
    · next hhit =>
      cases hstep
      exact ⟨h, ⟨hl, h.lookup hbase hl hhit⟩, .inl rfl⟩
    · cases hstep
      exact ⟨h, hl, .inl rfl⟩
  · next a =>
    obtain ⟨hwrites, hentries⟩ := renderLock_frame (s := s) (p := p) a.repoId
    generalize s.renderLock p a.repoId = r at hstep hwrites hentries
    obtain ⟨lock, s₁⟩ := r
    cases hstep
    refine ⟨h.congr hwrites hentries, ?_, .inl hwrites⟩
    rw [show s'.writes = s.writes from hwrites]
    exact hl
  · split at hstep
    · cases hstep
      exact ⟨h.congr rfl rfl, hl, .inl rfl⟩
    · cases hstep
  · next a lock =>
    split at hstep
    · next set hhit =>
      cases hstep
      have hshows : Shows renderRepodata base s.writes a set := h.lookup hbase hl hhit
      exact ⟨hrelease lock, ⟨hl, hshows⟩, .inl rfl⟩
    · cases hstep
      exact ⟨h, hl, .inl rfl⟩
  · next a lock ok =>
    have ha : a.Taken base s.writes := hl
    split at hstep
    · cases hstep
      refine ⟨h, ⟨s.writes.length, ha.le_length, le_rfl, ha.taken, ?_⟩, .inl rfl⟩
      rw [tablesAt_length]
    · cases hstep
      exact ⟨hrelease lock, trivial, .inl rfl⟩
  · next a lock set scan =>
    cases hstep
    obtain ⟨k, hk⟩ := hl
    have ha : a.Taken base s.writes := ⟨hk.le.trans hk.le_length, hk.taken⟩
    exact ⟨(h.store hk).congr rfl rfl, ⟨ha, k, hk.le_length, hk.rendered, .inl hk.le⟩, .inl rfl⟩
  · cases hstep
    exact ⟨h, trivial, .inl rfl⟩
  · cases hstep
    exact ⟨h, trivial, .inl rfl⟩
  · cases hstep
    exact ⟨hrelease _, trivial, .inl rfl⟩
  · cases hstep
    exact ⟨hrelease _, trivial, .inl rfl⟩
  · cases hstep
    exact ⟨hrelease _, trivial, .inl rfl⟩
  · cases hstep
    exact ⟨hrelease _, trivial, .inl rfl⟩
  · cases hstep
    exact ⟨h, trivial, .inl rfl⟩
  · next w =>
    cases hstep
    refine ⟨⟨?_, h.keyed, fun e he => ?_⟩, hl.append w, .inr ⟨w, rfl⟩⟩
    · exact allStamped_append.mpr ⟨h.stamped, hok w rfl, trivial⟩
    · obtain ⟨i, k, hsince⟩ := h.entries e he
      exact ⟨i, k, hsince.append w⟩
  · cases hstep
    exact ⟨h.congr rfl rfl, hl, .inl rfl⟩
  · cases hstep

/-- Whatever is written, rendered, evicted and cancelled beside it, a request is served one state of
the tables: one from when it came on, or an earlier one in which no package is missing that was
there when it came. -/
theorem served_shows (hbase : base.Clocked) {w : World Server Request}
    (h : (serveProtocol c renderRepodata base).machine.Reach (StampedWrites base) coldServer w)
    (hp : w.procs p = .served a set) :
    a.Taken base w.shared.writes ∧ Shows renderRepodata base w.shared.writes a set := by
  have hcold : Stored renderRepodata base coldServer.shared := ⟨trivial, List.nodup_nil, nofun⟩
  have hsound := (Protocol.reach_rely_guarantee h (I := Stored renderRepodata base)
    (A := fun _ l s => l.Faithful renderRepodata base s.writes) hcold (fun _ => trivial) (by
      intro w p label s' l' hI hA hok hstep
      obtain ⟨hI', hl', hwrites⟩ := serveStep_faithful hbase hI (hA p) hok hstep
      refine ⟨hI', hl', fun q _ => ?_⟩
      rcases hwrites with heq | ⟨write, heq⟩
      · rw [heq]
        exact hA q
      · rw [heq]
        exact (hA q).append write)).2 p
  rw [hp] at hsound
  exact hsound

/-- A package that comes and goes while an index is rendered. -/
def recalledLabels : List (ℕ × Label) :=
  [(0, .ask 7 [7]), (0, .look), (0, .clone), (0, .lock), (0, .look), (0, .write (.put bashRow)),
    (0, .render true), (0, .insert (.still 0)), (0, .write (.delete [1])), (1, .ask 7 [7]),
    (1, .look)]

/-- The state shown need not be one from when the request came on. -/
theorem served_shows_recalled :
    ∃ w, (serveProtocol defaultLimits renderIds ⟨[], [], 0⟩).machine.run coldServer
        recalledLabels = some w ∧
      w.procs 1 = .served ⟨7, ⟨[7], 0, none⟩, 2⟩ ⟨[1], [], [], []⟩ ∧
      liveRpms (w.shared.tables ⟨[], [], 0⟩) [7] = [] ∧
      Shows renderIds ⟨[], [], 0⟩ w.shared.writes ⟨7, ⟨[7], 0, none⟩, 2⟩ ⟨[1], [], [], []⟩ := by
  have hrun : ∃ w, (serveProtocol defaultLimits renderIds ⟨[], [], 0⟩).machine.run coldServer
      recalledLabels = some w ∧ w.procs 1 = .served ⟨7, ⟨[7], 0, none⟩, 2⟩ ⟨[1], [], [], []⟩ ∧
      liveRpms (w.shared.tables ⟨[], [], 0⟩) [7] = [] := ⟨_, rfl, rfl, rfl⟩
  obtain ⟨w, hrun, hserved, hlive⟩ := hrun
  refine ⟨w, hrun, hserved, hlive, (served_shows (fun _ hrow => (List.not_mem_nil hrow).elim)
    (Machine.reach_of_run recalledLabels hrun ?_) hserved).2⟩
  refine ⟨?_, ?_, ?_, ?_, ?_, ?_, ?_, ?_, ?_, ?_, ?_, trivial⟩
  all_goals rintro write ⟨⟩
  · exact (by decide : (0 : ℤ) < 10)
  · trivial

end ArtifactKeeper.Rpm
