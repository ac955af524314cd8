import Mathlib.Data.List.Basic
import ArtifactKeeper.Machine
import ArtifactKeeper.SlotRegistry

/-! Streaming single-flight: the leader on a lease key reads one upstream body and broadcasts its
chunks, and followers that joined before the first chunk replay them. -/

namespace ArtifactKeeper.Proxy

def streamBroadcastDepth : ℕ := 256

abbrev Bytes := List UInt8

/-- `AppError::BadGateway`, the one error that a follower's body can carry. -/
structure BadGateway where
  message : String
  deriving DecidableEq, Repr

structure StreamHeaders where
  contentType : Option String
  contentLength : Option ℕ
  etag : Option String
  contentEncoding : Option String
  commitSha : Option String
  deriving DecidableEq, Repr

inductive StreamItem where
  | chunk (bytes : Bytes)
  | done
  | failed (reason : String)
  deriving DecidableEq, Repr

inductive UpstreamPhase where
  | opening | reading | failed | ended
  deriving DecidableEq, Repr

/-- What the leader on a slot got from upstream so far: `ended` is a clean end of the body. -/
structure Upstream where
  headers : Option StreamHeaders := none
  chunks : List Bytes := []
  phase : UpstreamPhase := .opening
  deriving DecidableEq, Repr

/-- `StreamSlot`: all items given to the broadcast sender, the value of the header watch, the flag
of the first poll, and whether the two senders are there still. `upstream` is a record on the
side. -/
structure StreamSlot where
  sent : List StreamItem := []
  headers : Option StreamHeaders := none
  started : Bool := false
  sender : Bool := true
  upstream : Upstream := {}
  deriving DecidableEq, Repr

/-- The stream registry and the slots by number. -/
structure Fanout where
  registry : SlotRegistry String
  slots : ℕ → StreamSlot

def Fanout.setSlot (s : Fanout) (i : ℕ) (slot : StreamSlot) : Fanout :=
  { s with slots := Function.update s.slots i slot }

inductive StreamRole where
  | leader (slot : ℕ)
  | follower (slot position : ℕ)
  | fallBack
  deriving DecidableEq, Repr

/-- A subscriber receives what is sent from its position on. -/
def acquireStreamSlot (s : Fanout) (key : String) : Fanout × StreamRole :=
  match s.registry.slots key with
  | some existing =>
    if (s.slots existing).started then (s, .fallBack)
    else (s, .follower existing (s.slots existing).sent.length)
  | none =>
    ({ s.setSlot s.registry.next {} with registry := s.registry.insertNew key },
      .leader s.registry.next)

/-- The outcome of `recv` on a broadcast receiver. -/
inductive Received where
  | item (item : StreamItem)
  | lagged (n : ℕ)
  | closed
  deriving DecidableEq, Repr

/-- `recv` at a position: items in order, `Lagged` once the position has left the buffer, `Closed`
when the sender is gone and nothing is left; `none` while there is nothing to receive. -/
def StreamSlot.recv (slot : StreamSlot) (position : ℕ) : Option Received :=
  if position + streamBroadcastDepth < slot.sent.length then
    some (.lagged (slot.sent.length - streamBroadcastDepth - position))
  else
    match slot.sent[position]? with
    | some item => some (.item item)
    | none => if slot.sender then none else some .closed

/-- Where a caller of `coordinate_stream_fanout` or the body it was given stands. A leader holds the
lease from `opening` to `unregistering`, where its drop begins. -/
inductive StreamCaller where
  | idle
  | opening (key : String) (slot : ℕ)
  | opened (key : String) (slot : ℕ)
  | streaming (key : String) (slot : ℕ)
  | failing (key : String) (slot : ℕ)
  | unregistering (key : String) (slot : ℕ)
  | dropping (slot : ℕ)
  | joining (key : String) (slot position : ℕ)
  | receiving (key : String) (slot position : ℕ) (headers : StreamHeaders)
      (body : List (Except BadGateway Bytes))
  | received (headers : StreamHeaders) (body : List (Except BadGateway Bytes))
  | fellBack
  | finished
  deriving DecidableEq

/-- `opened`, `openFailed` and `next` deliver what upstream gives to the leader. -/
inductive StreamAction where
  | call (key : String)
  | opened (headers : StreamHeaders)
  | openFailed (reason : String)
  | poll
  | next (item : Option (Except String Bytes))
  | resume
  | headers
  | recv
  | cancel
  | unregister
  | dropSlot
  deriving DecidableEq

/-- The leader's side: `open_leader`, then `leader_handle`. -/
def leaderStep (slot : StreamSlot) :
    StreamCaller → StreamAction → Option (StreamSlot × StreamCaller)
  | .opening key i, .opened headers =>
    some ({ slot with
      headers := some headers
      upstream := { slot.upstream with headers := some headers, phase := .reading } },
      .opened key i)
  | .opening key i, .openFailed reason =>
    some ({ slot with
      sent := slot.sent ++ [.failed s!"upstream open failed: {reason}"]
      upstream := { slot.upstream with phase := .failed } }, .unregistering key i)
  | .opened key i, .poll => some ({ slot with started := true }, .streaming key i)
  | .streaming key i, .next (some (.ok bytes)) =>
    some ({ slot with
      sent := slot.sent ++ [.chunk bytes]
      upstream := { slot.upstream with chunks := slot.upstream.chunks ++ [bytes] } },
      .streaming key i)
  | .streaming key i, .next (some (.error e)) =>
    some ({ slot with
      sent := slot.sent ++ [.failed e]
      upstream := { slot.upstream with phase := .failed } }, .failing key i)
  | .streaming key i, .next none =>
    some ({ slot with
      sent := slot.sent ++ [.done]
      upstream := { slot.upstream with phase := .ended } }, .unregistering key i)
  | .failing key i, .resume => some (slot, .unregistering key i)
  | .opening key i, .cancel => some (slot, .unregistering key i)
  | .opened key i, .cancel => some (slot, .unregistering key i)
  | .streaming key i, .cancel => some (slot, .unregistering key i)
  | .failing key i, .cancel => some (slot, .unregistering key i)
  | _, _ => none

/-- The follower's side: wait for headers, then `follower_handle`. -/
def followerStep (slot : StreamSlot) : StreamCaller → StreamAction → Option StreamCaller
  | .joining key i position, .headers =>
    match slot.headers with
    | some headers => some (.receiving key i position headers [])
    | none => if slot.sender then none else some .fellBack
  | .receiving key i position headers body, .recv =>
    match slot.recv position with
    | none => none
    | some (.item (.chunk bytes)) =>
      some (.receiving key i (position + 1) headers (body ++ [.ok bytes]))
    | some (.item .done) => some (.received headers body)
    | some (.item (.failed reason)) => some (.received headers (body ++ [.error
        ⟨s!"proxy stream leader failed mid-stream for {key}: {reason}"⟩]))
    | some (.lagged n) => some (.received headers (body ++ [.error
        ⟨s!"proxy stream follower lagged {n} chunks behind leader for {key}; " ++
          "falling back to re-fetch"⟩]))
    | some .closed => some (.received headers (body ++ [.error
        ⟨s!"proxy stream leader closed without completing for {key}; " ++
          "falling back to re-fetch"⟩]))
  | .joining _ _ _, .cancel => some .finished
  | .receiving _ _ _ _ _, .cancel => some .finished
  | _, _ => none

namespace StreamCaller

/-- The `StreamLeaderLease` that a caller or its body holds. -/
def lease : StreamCaller → Option (String × ℕ)
  | .opening key i | .opened key i | .streaming key i | .failing key i | .unregistering key i =>
    some (key, i)
  | _ => none

/-- The slot that a follower receives from. -/
def source : StreamCaller → Option ℕ
  | .joining _ i _ | .receiving _ i _ _ _ => some i
  | _ => none

end StreamCaller

/-- Any number of callers on any keys. The drop of a lease takes the slot out of the registry, and
then the senders go with the slot. -/
def streamProtocol : Protocol Fanout StreamCaller StreamAction where
  step _ s l a :=
    match l, a with
    | .idle, .call key =>
      match acquireStreamSlot s key with
      | (s', .fallBack) => some (s', .fellBack)
      | (s', .follower i position) => some (s', .joining key i position)
      | (s', .leader i) => some (s', .opening key i)
    | .unregistering key i, .unregister =>
      some ({ s with registry := s.registry.removeOwned key i }, .dropping i)
    | .dropping i, .dropSlot => some (s.setSlot i { s.slots i with sender := false }, .finished)
    | l, a =>
      match l.lease, l.source with
      | some (_, i), _ => (leaderStep (s.slots i) l a).map fun r => (s.setSlot i r.1, r.2)
      | none, some i => (followerStep (s.slots i) l a).map fun l' => (s, l')
      | none, none => none

def noStreams : World Fanout StreamCaller := ⟨⟨.empty, fun _ => {}⟩, fun _ => .idle⟩

section Invariant

def chunksIn (items : List StreamItem) : List Bytes :=
  items.filterMap fun
    | .chunk bytes => some bytes
    | _ => none

/-- What is sent on a slot mirrors what its leader read, and nothing of the body is sent before the
first poll. -/
structure SlotOk (slot : StreamSlot) : Prop where
  headers : slot.headers = slot.upstream.headers
  sent : match slot.upstream.phase with
    | .opening => slot.sent = [] ∧ slot.upstream = {}
    | .reading => slot.sent = slot.upstream.chunks.map .chunk
    | .failed => ∃ reason, slot.sent = slot.upstream.chunks.map .chunk ++ [.failed reason]
    | .ended => slot.sent = slot.upstream.chunks.map .chunk ++ [.done]
  unstarted : slot.started = false → slot.upstream.chunks = [] ∧ slot.upstream.phase ≠ .ended

/-- What no step on a slot takes back. -/
structure Grows (slot slot' : StreamSlot) : Prop where
  sent : slot.sent <+: slot'.sent
  headers : ∀ h, slot.upstream.headers = some h → slot'.upstream.headers = some h
  ended : slot.upstream.phase = .ended → slot'.upstream = slot.upstream

/-- The body is the one that a leader read up to a clean end, with that leader's headers. -/
def CompleteBody (s : Fanout) (headers : StreamHeaders) (body : List (Except BadGateway Bytes)) :
    Prop :=
  ∃ i < s.registry.next, (s.slots i).upstream.phase = .ended ∧
    (s.slots i).upstream.headers = some headers ∧ body = (s.slots i).upstream.chunks.map .ok

/-- What a leader knows of its slot. -/
def LeaderOk (slot : StreamSlot) : StreamCaller → Prop
  | .opening _ _ => slot.upstream.phase = .opening
  | .opened _ _ => slot.upstream.phase = .reading
  | .streaming _ _ => slot.upstream.phase = .reading ∧ slot.started = true
  | _ => True

/-- What a follower knows of the slot it receives from. -/
def FollowerOk (slot : StreamSlot) : StreamCaller → Prop
  | .joining _ _ position => position ≤ slot.sent.length ∧ chunksIn (slot.sent.take position) = []
  | .receiving _ _ position headers body => position ≤ slot.sent.length ∧
      slot.upstream.headers = some headers ∧
      body = (chunksIn (slot.sent.take position)).map .ok
  | _ => True

/-- A body that has ended is complete or carries an error. -/
def EndedOk (s : Fanout) : StreamCaller → Prop
  | .received headers body => (∃ e, .error e ∈ body) ∨ CompleteBody s headers body
  | _ => True

structure ProcOk (s : Fanout) (l : StreamCaller) : Prop where
  leader : ∀ key i, l.lease = some (key, i) → LeaderOk (s.slots i) l
  follower : ∀ i, l.source = some i → i < s.registry.next ∧ FollowerOk (s.slots i) l
  ended : EndedOk s l

structure StreamInv (w : World Fanout StreamCaller) : Prop where
  leased : w.shared.registry.Leased fun p => (w.procs p).lease
  slots : ∀ i, SlotOk (w.shared.slots i)
  procs : ∀ p, ProcOk w.shared (w.procs p)

theorem Grows.refl (slot : StreamSlot) : Grows slot slot :=
  ⟨List.prefix_rfl, fun _ h => h, fun _ => rfl⟩

theorem FollowerOk.mono {slot slot' : StreamSlot} (hgrows : Grows slot slot') {l : StreamCaller}
    (h : FollowerOk slot l) : FollowerOk slot' l := by
  have htake : ∀ position ≤ slot.sent.length,
      slot'.sent.take position = slot.sent.take position := by
    intro position hle
    obtain ⟨t, ht⟩ := hgrows.sent
    rw [← ht, List.take_append_of_le_length hle]
  have hlength := hgrows.sent.length_le
  cases l with
  | joining key i position =>
    obtain ⟨hle, hnone⟩ := h
    exact ⟨Nat.le_trans hle hlength, by rw [htake position hle, hnone]⟩
  | receiving key i position headers body =>
    obtain ⟨hle, hheaders, hbody⟩ := h
    refine ⟨Nat.le_trans hle hlength, hgrows.headers headers hheaders, ?_⟩
    rw [htake position hle, hbody]
  | _ => trivial

theorem EndedOk.mono {s s' : Fanout} (hnext : s.registry.next ≤ s'.registry.next)
    (hgrows : ∀ i < s.registry.next, Grows (s.slots i) (s'.slots i)) {l : StreamCaller}
    (h : EndedOk s l) : EndedOk s' l := by
  cases l with
  | received headers body =>
    rcases h with herr | ⟨i, hi, hended, hheaders, hbody⟩
    · exact .inl herr
    · refine .inr ⟨i, Nat.lt_of_lt_of_le hi hnext, ?_⟩
      rw [(hgrows i hi).ended hended]
      exact ⟨hended, hheaders, hbody⟩
  | _ => trivial

/-- What a process knows survives the step of another that leaves the slot it leads alone. -/
theorem ProcOk.frame {s s' : Fanout} {l : StreamCaller} (h : ProcOk s l)
    (hnext : s.registry.next ≤ s'.registry.next)
    (hgrows : ∀ i < s.registry.next, Grows (s.slots i) (s'.slots i))
    (hlead : ∀ key i, l.lease = some (key, i) → (s'.slots i).upstream = (s.slots i).upstream ∧
      (s'.slots i).started = (s.slots i).started) : ProcOk s' l where
  leader key i hl := by
    have hok := h.leader key i hl
    obtain ⟨hup, hstarted⟩ := hlead key i hl
    cases l <;> simp only [LeaderOk, hup, hstarted] at hok ⊢ <;> exact hok
  follower i hl := by
    obtain ⟨hi, hok⟩ := h.follower i hl
    exact ⟨Nat.lt_of_lt_of_le hi hnext, hok.mono (hgrows i hi)⟩
  ended := h.ended.mono hnext hgrows

/-- The leader's steps keep its slot in order. -/
theorem leaderStep_ok {slot slot' : StreamSlot} {l l' : StreamCaller} {a : StreamAction}
    (hslot : SlotOk slot) (hl : LeaderOk slot l) (h : leaderStep slot l a = some (slot', l')) :
    SlotOk slot' ∧ Grows slot slot' ∧ l'.lease = l.lease ∧ l'.source = none ∧
      LeaderOk slot' l' ∧ ∀ headers body, l' ≠ .received headers body := by
  obtain ⟨hheaders, hsent, hstart⟩ := hslot
  unfold leaderStep at h
  split at h <;> cases h
  · -- upstream answered
    simp only [show slot.upstream.phase = .opening from hl] at hsent
    obtain ⟨hsent, hup⟩ := hsent
    refine ⟨⟨rfl, by simp [hsent, hup], fun _ => by simp [hup]⟩, ⟨List.prefix_rfl, ?_, ?_⟩, rfl,
      rfl, rfl, fun _ _ => nofun⟩
    · simp [hup]
    · simp [hup]
  · -- upstream did not open
    simp only [show slot.upstream.phase = .opening from hl] at hsent
    obtain ⟨hsent, hup⟩ := hsent
    refine ⟨⟨hheaders, ⟨_, by rw [hsent, hup]; rfl⟩, fun _ => by simp [hup]⟩,
      ⟨List.prefix_append _ _, fun _ h => h, ?_⟩, rfl, rfl, trivial, fun _ _ => nofun⟩
    simp [hup]
  · -- the first poll
    exact ⟨⟨hheaders, hsent, fun h => by cases h⟩, ⟨List.prefix_rfl, fun _ h => h, fun _ => rfl⟩,
      rfl, rfl, ⟨hl, rfl⟩, fun _ _ => nofun⟩
  all_goals try
    exact ⟨⟨hheaders, hsent, hstart⟩, .refl _, rfl, rfl, trivial, fun _ _ => nofun⟩
  all_goals
    -- an item of the body
    obtain ⟨hphase, hstarted⟩ := hl
    simp only [hphase] at hsent
    have hnotEnded : slot.upstream.phase ≠ .ended := by simp [hphase]
    have hgrows := List.prefix_append slot.sent
  · refine ⟨⟨hheaders, ?_, fun h => ?_⟩, ⟨hgrows _, fun _ h => h, fun h => absurd h hnotEnded⟩, rfl,
      rfl, ⟨hphase, hstarted⟩, fun _ _ => nofun⟩
    · simp [hphase, hsent]
    · simp [hstarted] at h
  · refine ⟨⟨hheaders, ⟨_, by rw [hsent]⟩, fun h => ?_⟩,
      ⟨hgrows _, fun _ h => h, fun h => absurd h hnotEnded⟩, rfl, rfl, trivial, fun _ _ => nofun⟩
    simp [hstarted] at h
  · refine ⟨⟨hheaders, by rw [hsent], fun h => ?_⟩,
      ⟨hgrows _, fun _ h => h, fun h => absurd h hnotEnded⟩, rfl, rfl, trivial, fun _ _ => nofun⟩
    simp [hstarted] at h

theorem chunksIn_map_chunk (chunks : List Bytes) : chunksIn (chunks.map .chunk) = chunks := by
  induction chunks with
  | nil => rfl
  | cons bytes chunks ih =>
    rw [List.map_cons, chunksIn, List.filterMap_cons]
    exact congrArg _ ih

theorem StreamSlot.recv_item {slot : StreamSlot} {position : ℕ} {item : StreamItem}
    (h : slot.recv position = some (.item item)) : slot.sent[position]? = some item := by
  unfold recv at h
  split at h
  · cases h
  · split at h
    · next hitem =>
      simp only [Option.some.injEq, Received.item.injEq] at h
      rw [hitem, h]
    · split at h <;> cases h

/-- Receiving the end marker, a follower has received the whole body. -/
theorem SlotOk.of_done {slot : StreamSlot} (h : SlotOk slot) {position : ℕ}
    (hdone : slot.sent[position]? = some .done) :
    slot.upstream.phase = .ended ∧
      chunksIn (slot.sent.take position) = slot.upstream.chunks := by
  have hsent := h.sent
  have hmem : StreamItem.done ∈ slot.sent := List.mem_of_getElem? hdone
  cases hphase : slot.upstream.phase with
  | opening => simp [hphase] at hsent; simp [hsent] at hmem
  | reading => simp [hphase] at hsent; simp [hsent] at hmem
  | failed =>
    simp only [hphase] at hsent
    obtain ⟨reason, hsent⟩ := hsent
    simp [hsent] at hmem
  | ended =>
    simp only [hphase] at hsent
    refine ⟨rfl, ?_⟩
    have hposition : position = slot.upstream.chunks.length := by
      rw [hsent] at hdone
      rcases Nat.lt_trichotomy position slot.upstream.chunks.length with hlt | heq | hgt
      · rw [List.getElem?_append_left (by simpa using hlt)] at hdone
        simp at hdone
      · exact heq
      · rw [List.getElem?_eq_none (by simp; omega)] at hdone
        cases hdone
    rw [hsent, hposition]
    simp [chunksIn_map_chunk]

theorem followerStep_ok {slot : StreamSlot} {l l' : StreamCaller} {a : StreamAction} {i : ℕ}
    (hslot : SlotOk slot) (hsource : l.source = some i) (hl : FollowerOk slot l)
    (h : followerStep slot l a = some l') :
    l'.lease = none ∧ (l'.source = some i ∨ l'.source = none) ∧ FollowerOk slot l' ∧
      ∀ headers body, l' = .received headers body → (∃ e, .error e ∈ body) ∨
        slot.upstream.phase = .ended ∧ slot.upstream.headers = some headers ∧
          body = slot.upstream.chunks.map .ok := by
  unfold followerStep at h
  split at h
  · -- the headers are there, or the leader is gone without them
    next key j position =>
    split at h
    · next headers hheaders =>
      cases h
      obtain ⟨hle, hnone⟩ := hl
      refine ⟨rfl, .inl hsource, ⟨hle, ?_, by rw [hnone, List.map_nil]⟩, fun _ _ => nofun⟩
      rw [← hslot.headers, hheaders]
    · split at h
      · cases h
      · cases h
        exact ⟨rfl, .inr rfl, trivial, fun _ _ => nofun⟩
  · next key j position headers body =>
    obtain ⟨hle, hheaders, hbody⟩ := hl
    have herror : ∀ e : BadGateway, ∃ e', .error e' ∈ body ++ [Except.error e] := fun e =>
      ⟨e, List.mem_append_right body List.mem_cons_self⟩
    split at h <;> cases h
    · next bytes hrecv =>
      have hitem := StreamSlot.recv_item hrecv
      have hlt := (List.getElem?_eq_some_iff.mp hitem).1
      refine ⟨rfl, .inl hsource, ⟨hlt, hheaders, ?_⟩, fun _ _ => nofun⟩
      rw [List.take_add_one, hitem, chunksIn, List.filterMap_append, List.map_append, hbody]
      rfl
    · next hrecv =>
      refine ⟨rfl, .inr rfl, trivial, ?_⟩
      rintro headers' body' ⟨⟩
      obtain ⟨hended, hchunks⟩ := hslot.of_done (StreamSlot.recv_item hrecv)
      exact .inr ⟨hended, hheaders, by rw [hbody, hchunks]⟩
    all_goals
      refine ⟨rfl, .inr rfl, trivial, ?_⟩
      rintro headers' body' ⟨⟩
      exact .inl (herror _)
  · cases h
    exact ⟨rfl, .inr rfl, trivial, fun _ _ => nofun⟩
  · cases h
    exact ⟨rfl, .inr rfl, trivial, fun _ _ => nofun⟩
  · cases h

/-- The invariant after a step of `p`, from what the step does to the registry and the slots. -/
theorem StreamInv.update {w : World Fanout StreamCaller} (h : StreamInv w) {p : ℕ} {s' : Fanout}
    {l' : StreamCaller}
    (hlease : SlotRegistry.LeaseStep w.shared.registry (w.procs p).lease s'.registry l'.lease)
    (hslots : ∀ i, SlotOk (s'.slots i)) (hproc : ProcOk s' l')
    (hnext : w.shared.registry.next ≤ s'.registry.next)
    (hgrows : ∀ i < w.shared.registry.next, Grows (w.shared.slots i) (s'.slots i))
    (hlead : ∀ q, q ≠ p → ∀ key i, (w.procs q).lease = some (key, i) →
      (s'.slots i).upstream = (w.shared.slots i).upstream ∧
        (s'.slots i).started = (w.shared.slots i).started) :
    StreamInv ⟨s', Function.update w.procs p l'⟩ where
  leased := by
    have hupdate : (fun q => (Function.update w.procs p l' q).lease) =
        Function.update (fun q => (w.procs q).lease) p l'.lease :=
      Function.comp_update StreamCaller.lease w.procs p l'
    exact hupdate ▸ h.leased.step hlease
  slots := hslots
  procs q := by
    by_cases hq : q = p
    · subst hq
      simpa using hproc
    · simpa [hq] using (h.procs q).frame hnext hgrows (hlead q hq)

theorem SlotOk.new : SlotOk {} := ⟨rfl, ⟨rfl, rfl⟩, fun _ => ⟨rfl, nofun⟩⟩

theorem slotOk_setSlot {s : Fanout} (h : ∀ i, SlotOk (s.slots i)) {i : ℕ} {slot : StreamSlot}
    (hslot : SlotOk slot) (j : ℕ) : SlotOk ((s.setSlot i slot).slots j) := by
  by_cases hj : j = i
  · subst hj
    simpa [Fanout.setSlot] using hslot
  · simpa [Fanout.setSlot, hj] using h j

theorem grows_setSlot {s : Fanout} {i : ℕ} {slot : StreamSlot} (h : Grows (s.slots i) slot)
    (j : ℕ) : Grows (s.slots j) ((s.setSlot i slot).slots j) := by
  by_cases hj : j = i
  · subst hj
    simpa [Fanout.setSlot] using h
  · simpa [Fanout.setSlot, hj] using Grows.refl (s.slots j)

/-- Before the first poll no chunk was sent, so a follower that joins now misses none. -/
theorem SlotOk.chunksIn_sent {slot : StreamSlot} (h : SlotOk slot)
    (hstarted : slot.started = false) : chunksIn slot.sent = [] := by
  obtain ⟨hchunks, hphase⟩ := h.unstarted hstarted
  have hsent := h.sent
  cases hp : slot.upstream.phase with
  | opening => simp only [hp] at hsent; rw [hsent.1]; rfl
  | reading => simp only [hp, hchunks] at hsent; rw [hsent]; rfl
  | failed =>
    simp only [hp, hchunks] at hsent
    obtain ⟨reason, hsent⟩ := hsent
    rw [hsent]
    rfl
  | ended => exact absurd hp hphase

theorem procOk_of_quiet {s : Fanout} {l : StreamCaller} (hlease : l.lease = none)
    (hsource : l.source = none) (hended : EndedOk s l) : ProcOk s l where
  leader key i h := by
    rw [hlease] at h
    cases h
  follower i h := by
    rw [hsource] at h
    cases h
  ended := hended

theorem StreamInv.call {w : World Fanout StreamCaller} (h : StreamInv w) {p : ℕ} {key : String}
    (hp : w.procs p = .idle) {s' : Fanout} {l' : StreamCaller}
    (hstep : streamProtocol.step p w.shared .idle (.call key) = some (s', l')) :
    StreamInv ⟨s', Function.update w.procs p l'⟩ := by
  simp only [streamProtocol, acquireStreamSlot] at hstep
  cases hslot : w.shared.registry.slots key with
  | some i =>
    obtain ⟨q, hq⟩ := (h.leased.slots key i).mp hslot
    have hi := h.leased.lt_next q key i hq
    simp only [hslot] at hstep
    cases hstarted : (w.shared.slots i).started with
    | true =>
      simp only [hstarted, if_true, Option.some.injEq, Prod.mk.injEq] at hstep
      obtain ⟨rfl, rfl⟩ := hstep
      refine h.update ?_ h.slots (procOk_of_quiet rfl rfl trivial) (Nat.le_refl _)
        (fun j _ => .refl _) fun _ _ _ _ _ => ⟨rfl, rfl⟩
      rw [hp]
      exact .quiet none
    | false =>
      simp only [hstarted, Bool.false_eq_true, if_false, Option.some.injEq, Prod.mk.injEq] at hstep
      obtain ⟨rfl, rfl⟩ := hstep
      refine h.update ?_ h.slots ⟨fun _ _ h => (by cases h), ?_, trivial⟩ (Nat.le_refl _)
        (fun j _ => .refl _) fun _ _ _ _ _ => ⟨rfl, rfl⟩
      · rw [hp]
        exact .quiet none
      · rintro j ⟨⟩
        refine ⟨hi, Nat.le_refl _, ?_⟩
        rw [List.take_length]
        exact (h.slots i).chunksIn_sent hstarted
  | none =>
    simp only [hslot, Option.some.injEq, Prod.mk.injEq] at hstep
    obtain ⟨rfl, rfl⟩ := hstep
    -- the new slot is not one that anyone knows
    have hold : ∀ j < w.shared.registry.next,
        (w.shared.setSlot w.shared.registry.next {}).slots j = w.shared.slots j := by
      intro j hj
      exact Function.update_of_ne (Nat.ne_of_lt hj) _ _
    refine h.update ?_ (slotOk_setSlot h.slots .new) ⟨?_, fun _ h => (by cases h), trivial⟩
      (Nat.le_succ _) (fun j hj => ?_) fun q _ key' j hq => ?_
    · rw [hp]
      exact .acquire hslot
    · rintro key' j ⟨⟩
      simp [Fanout.setSlot, LeaderOk]
    · show Grows _ ((w.shared.setSlot _ _).slots j)
      rw [hold j hj]
      exact .refl _
    · have hj := h.leased.lt_next q key' j hq
      exact ⟨congrArg _ (hold j hj), congrArg _ (hold j hj)⟩

theorem StreamInv.step {w w' : World Fanout StreamCaller} (h : StreamInv w)
    {a : ℕ × StreamAction} (hs : streamProtocol.machine.step w a = some w') : StreamInv w' := by
  obtain ⟨p, a⟩ := a
  obtain ⟨s', l', hstep, rfl⟩ := Protocol.machine_step hs
  have hproc := h.procs p
  generalize hp : w.procs p = l at hstep hproc
  unfold streamProtocol at hstep
  dsimp only at hstep
  split at hstep
  · exact h.call hp hstep
  · next key i =>
    cases hstep
    refine h.update ?_ h.slots (procOk_of_quiet rfl rfl trivial) ?_ (fun j _ => .refl _)
      fun _ _ _ _ _ => ⟨rfl, rfl⟩
    · rw [hp]
      exact .release
    · exact Nat.le_of_eq SlotRegistry.next_removeOwned.symm
  · next i =>
    cases hstep
    have hslot : SlotOk { w.shared.slots i with sender := false } :=
      ⟨(h.slots i).headers, (h.slots i).sent, (h.slots i).unstarted⟩
    have hgrows : Grows (w.shared.slots i) { w.shared.slots i with sender := false } :=
      ⟨List.prefix_rfl, fun _ h => h, fun _ => rfl⟩
    refine h.update ?_ (slotOk_setSlot h.slots hslot) (procOk_of_quiet rfl rfl trivial)
      (Nat.le_refl _) (fun j _ => grows_setSlot hgrows j) fun q _ key j _ => ?_
    · rw [hp]
      exact .quiet none
    · by_cases hj : j = i
      · subst hj
        simp [Fanout.setSlot]
      · simp [Fanout.setSlot, hj]
  · split at hstep
    · next key i hlease =>
      obtain ⟨⟨slot', l''⟩, hleader, heq⟩ := Option.map_eq_some_iff.mp hstep
      obtain ⟨rfl, rfl⟩ := Prod.mk.inj heq
      obtain ⟨hslot, hgrows, hlease', hsource, hok, hnot⟩ :=
        leaderStep_ok (h.slots i) (hproc.leader key i hlease) hleader
      refine h.update ?_ (slotOk_setSlot h.slots hslot) ⟨fun key' j hj => ?_, fun j hj => ?_, ?_⟩
        (Nat.le_refl _) (fun j _ => grows_setSlot hgrows j) fun q hq key' j hj => ?_
      · rw [hp, hlease']
        exact .quiet l.lease
      · rw [hlease', hlease] at hj
        cases hj
        simpa [Fanout.setSlot] using hok
      · rw [hsource] at hj
        cases hj
      · cases l'' with
        | received headers body => exact absurd rfl (hnot headers body)
        | _ => trivial
      · -- the slot has no other leader
        have hne : j ≠ i := by
          rintro rfl
          exact hq (h.leased.holder q p key' key j hj (by rw [hp, hlease]))
        simp [Fanout.setSlot, hne]
    · next i hlease hsource =>
      obtain ⟨l'', hfollower, heq⟩ := Option.map_eq_some_iff.mp hstep
      obtain ⟨rfl, rfl⟩ := Prod.mk.inj heq
      obtain ⟨hi, hok⟩ := hproc.follower i hsource
      obtain ⟨hlease', hsource', hok', hended⟩ :=
        followerStep_ok (h.slots i) hsource hok hfollower
      refine h.update ?_ h.slots ⟨fun key' j hj => ?_, fun j hj => ?_, ?_⟩ (Nat.le_refl _)
        (fun j _ => .refl _) fun _ _ _ _ _ => ⟨rfl, rfl⟩
      · rw [hp, hlease, hlease']
        exact .quiet none
      · rw [hlease'] at hj
        cases hj
      · rcases hsource' with hsource' | hsource' <;> rw [hsource'] at hj <;> cases hj
        exact ⟨hi, hok'⟩
      · cases l'' with
        | received headers body =>
          rcases hended headers body rfl with herror | hcomplete
          · exact .inl herror
          · exact .inr ⟨i, hi, hcomplete⟩
        | _ => trivial
    · cases hstep

theorem streamInv_of_reach {w : World Fanout StreamCaller}
    (h : streamProtocol.machine.Reach Machine.anyStep noStreams w) : StreamInv w := by
  apply h.invariant (I := StreamInv)
  · refine ⟨SlotRegistry.leased_empty, fun _ => .new, fun _ => procOk_of_quiet rfl rfl trivial⟩
  · exact fun _ _ _ hw _ hs => hw.step hs

end Invariant

/-- A follower's body that ended without an error is the whole body that one leader read from
upstream up to its clean end, with that leader's headers. -/
theorem received_complete (w : World Fanout StreamCaller)
    (h : streamProtocol.machine.Reach Machine.anyStep noStreams w) (p : ℕ) (headers : StreamHeaders)
    (body : List (Except BadGateway Bytes)) (hp : w.procs p = .received headers body)
    (hok : ∀ e, .error e ∉ body) : CompleteBody w.shared headers body := by
  have hended := ((streamInv_of_reach h).procs p).ended
  rw [hp] at hended
  rcases hended with ⟨e, he⟩ | hcomplete
  · exact absurd he (hok e)
  · exact hcomplete

/-- A follower joins while upstream is being opened and receives two chunks. -/
def twoChunks : List (ℕ × StreamAction) :=
  [(0, .call "npm/left-pad"), (1, .call "npm/left-pad"),
    (0, .opened ⟨some "application/gzip", some 3, none, none, none⟩), (1, .headers), (0, .poll),
    (0, .next (some (.ok [1, 2]))), (1, .recv), (0, .next (some (.ok [3]))), (0, .next none),
    (1, .recv), (1, .recv)]

theorem received_complete_twoChunks :
    ∃ w, streamProtocol.machine.Reach Machine.anyStep noStreams w ∧
      CompleteBody w.shared ⟨some "application/gzip", some 3, none, none, none⟩
        [.ok [1, 2], .ok [3]] := by
  have hrun : (streamProtocol.machine.run noStreams twoChunks).map (fun w => w.procs 1) =
      some (.received ⟨some "application/gzip", some 3, none, none, none⟩
        [.ok [1, 2], .ok [3]]) := by
    decide +kernel
  obtain ⟨w, hw, hreceived⟩ := Option.map_eq_some_iff.mp hrun
  have hreach := Machine.reach_of_run twoChunks hw (Machine.meets_anyStep _ _)
  exact ⟨w, hreach, received_complete w hreach 1 _ _ hreceived (by simp)⟩

end ArtifactKeeper.Proxy
