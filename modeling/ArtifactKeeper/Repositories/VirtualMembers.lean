import ArtifactKeeper.Machine
import ArtifactKeeper.Search
import ArtifactKeeper.Auth.Claims

/-! The membership graph of virtual repositories: adding a member under the graph lock, replacing
the member set after checks made without it, and removing a member. Every look-up of the cycle
search is a step of its own; a transaction takes effect when it commits. -/

namespace ArtifactKeeper.Repositories
open Search Relation

inductive RepositoryType where
  | local | remote | virtual | staging
  deriving DecidableEq, Repr

structure Repository where
  key : String
  format : String
  repoType : RepositoryType
  deriving DecidableEq, Repr

/-- A row of `virtual_repo_members`. -/
structure Member where
  virtualRepoId : Uuid
  memberRepoId : Uuid
  priority : ℤ
  deriving DecidableEq, Repr

/-- The tables, the holder of the graph lock, and the number of rows inserted so far. -/
structure MembershipState where
  repositories : Uuid → Option Repository
  members : List Member
  lock : Option ℕ
  inserts : ℕ

def maxVirtualDepth : ℕ := 32

def wouldCreateCycleInGraph {α ε : Type} [DecidableEq α] (fuel : ℕ)
    (virtualId candidateMemberId : α) (virtualMembers : α → Except ε (List α)) :
    Option (Except ε Bool) :=
  if virtualId = candidateMemberId then some (.ok true)
  else (Frontier.start candidateMemberId).run virtualId maxVirtualDepth virtualMembers fuel

namespace MembershipState

def isVirtual (s : MembershipState) (id : Uuid) : Bool :=
  (s.repositories id).any fun r => r.repoType == .virtual

def virtualMemberChildren (s : MembershipState) (repoId : Uuid) : List Uuid :=
  ((s.members.filter fun r => r.virtualRepoId == repoId).map (·.memberRepoId)).filter s.isVirtual

/-- An edge of the membership graph. -/
def Edge (s : MembershipState) (x y : Uuid) : Prop :=
  ∃ r ∈ s.members, r.virtualRepoId = x ∧ r.memberRepoId = y

def hasMember (s : MembershipState) (virtualRepoId memberRepoId : Uuid) : Bool :=
  s.members.any fun r => r.virtualRepoId == virtualRepoId && r.memberRepoId == memberRepoId

/-- `MAX(priority)` of the members, or 0, plus 1. -/
def nextPriority (s : MembershipState) (virtualRepoId : Uuid) : ℤ :=
  (((s.members.filter fun r => r.virtualRepoId == virtualRepoId).map (·.priority)).max?).getD 0 + 1

def insertMember (s : MembershipState) (r : Member) : MembershipState :=
  { s with members := s.members ++ [r], inserts := s.inserts + 1 }

/-- The two statements of `set_virtual_members`. -/
def setVirtualMembers (s : MembershipState) (virtualRepoId : Uuid) (desired : List (Uuid × ℤ)) :
    MembershipState :=
  let kept := s.members.filter fun r =>
    r.virtualRepoId != virtualRepoId || (desired.map (·.1)).contains r.memberRepoId
  let refreshed := kept.map fun r =>
    if r.virtualRepoId = virtualRepoId then
      { r with
        priority := ((desired.find? fun d => d.1 == r.memberRepoId).map (·.2)).getD r.priority }
    else r
  let new := desired.filter fun d => !s.hasMember virtualRepoId d.1
  { s with
    members := refreshed ++ new.map fun d => ⟨virtualRepoId, d.1, d.2⟩
    inserts := s.inserts + new.length }

def removeVirtualMember (s : MembershipState) (virtualRepoId memberRepoId : Uuid) :
    MembershipState :=
  { s with members := s.members.filter fun r =>
      !(r.virtualRepoId == virtualRepoId && r.memberRepoId == memberRepoId) }

def unlock (s : MembershipState) (p : ℕ) : MembershipState :=
  if s.lock = some p then { s with lock := none } else s

end MembershipState

/-- A call of one of the three operations. `since` records how many rows had been inserted when the
checks of the call began. -/
inductive MemberProc where
  | idle
  | adding (virtualRepoId memberRepoId : Uuid) (priority : Option ℤ)
  | addLocked (virtualRepoId memberRepoId : Uuid) (priority : Option ℤ)
  | addSearch (virtualRepoId memberRepoId : Uuid) (priority : Option ℤ) (f : Frontier Uuid)
  | addInsert (virtualRepoId memberRepoId : Uuid) (priority : Option ℤ)
  | setCheck (virtualRepoId : Uuid) (todo desired : List (Uuid × ℤ)) (since : ℕ)
  | setSearch (virtualRepoId : Uuid) (member : Uuid × ℤ) (todo desired : List (Uuid × ℤ))
      (since : ℕ) (f : Frontier Uuid)
  | finished (result : Except AppError Unit)

inductive MemberAction where
  | add (virtualRepoId memberRepoId : Uuid) (priority : Option ℤ)
  | lock
  | check
  | search
  | insert
  | set (virtualRepoId : Uuid) (members : List (Uuid × ℤ))
  | checkNext
  | write
  | remove (virtualRepoId memberRepoId : Uuid)
  | fail

def notFound : MemberProc := .finished (.error (.notFound "Repository not found"))
def invalid (message : String) : MemberProc := .finished (.error (.validation message))

def keyOf (s : MembershipState) (id : Uuid) : String := ((s.repositories id).map (·.key)).getD ""

/-- The first checks of `add_virtual_member` inside its transaction. -/
def addCheck (s : MembershipState) (v m : Uuid) (priority : Option ℤ) : MemberProc :=
  match s.repositories v, s.repositories m with
  | some virtualRepo, some memberRepo =>
    if virtualRepo.repoType ≠ .virtual then invalid "Target repository must be a virtual repository"
    else if virtualRepo.format ≠ memberRepo.format then
      invalid "Member repository format must match virtual repository format"
    else if memberRepo.repoType = .virtual then .addSearch v m priority (Frontier.start m)
    else .addInsert v m priority
  | _, _ => notFound

/-- The checks of `update_virtual_members` on one member. -/
def setCheckNext (s : MembershipState) (v : Uuid) (member : Uuid × ℤ)
    (todo desired : List (Uuid × ℤ)) (since : ℕ) : MemberProc :=
  match s.repositories v, s.repositories member.1 with
  | some virtualRepo, some memberRepo =>
    if member.1 = v then invalid "A virtual repository cannot be a member of itself"
    else if memberRepo.format ≠ virtualRepo.format then
      invalid "Member repository format must match virtual repository format"
    else if memberRepo.repoType = .virtual then
      .setSearch v member todo desired since (Frontier.start member.1)
    else .setCheck v todo (desired ++ [member]) since
  | _, _ => notFound

/-- One look-up of `would_create_cycle` on the committed rows. -/
def searchStep (s : MembershipState) (v : Uuid) (f : Frontier Uuid) : Bool ⊕ Frontier Uuid :=
  match f.next v maxVirtualDepth fun x => (.ok (s.virtualMemberChildren x) : Except Unit _) with
  | .ok r => r
  | .error _ => .inl true

/-- The calls of any number of clients. `fail` is a database error or a lost connection: the
transaction rolls back and its lock is released. -/
def memberProtocol : Protocol MembershipState MemberProc MemberAction where
  step p s l a :=
    match l, a with
    | .idle, .add v m priority =>
      some (s, if v = m then invalid "A virtual repository cannot be a member of itself"
        else .adding v m priority)
    | .adding v m priority, .lock =>
      if s.lock = none then some ({ s with lock := some p }, .addLocked v m priority) else none
    | .addLocked v m priority, .check =>
      match addCheck s v m priority with
      | .finished r => some (s.unlock p, .finished r)
      | l' => some (s, l')
    | .addSearch v m priority f, .search =>
      match searchStep s v f with
      | .inl true => some (s.unlock p, invalid ("Adding repository " ++ keyOf s m ++
          " as a member of virtual repository " ++ keyOf s v ++ " would create a cycle"))
      | .inl false => some (s, .addInsert v m priority)
      | .inr f' => some (s, .addSearch v m priority f')
    | .addInsert v m priority, .insert =>
      if s.hasMember v m then
        some (s.unlock p, .finished (.error (.conflict ("repository '" ++ keyOf s m ++
          "' is already a member of '" ++ keyOf s v ++ "'"))))
      else some ((s.insertMember ⟨v, m, priority.getD (s.nextPriority v)⟩).unlock p,
        .finished (.ok ()))
    | .idle, .set v members =>
      some (s, match s.repositories v with
        | none => notFound
        | some r => if r.repoType ≠ .virtual then invalid "Only virtual repositories have members"
          else .setCheck v members [] s.inserts)
    | .setCheck v (member :: todo) desired since, .checkNext =>
      some (s, setCheckNext s v member todo desired since)
    | .setSearch v member todo desired since f, .search =>
      some (s, match searchStep s v f with
        | .inl true => invalid ("Updating member " ++ keyOf s member.1 ++
            " would leave virtual repository " ++ keyOf s v ++ " in a cycle")
        | .inl false => .setCheck v todo (desired ++ [member]) since
        | .inr f' => .setSearch v member todo desired since f')
    | .setCheck v [] desired _, .write =>
      if s.lock = none then
        -- a member listed twice makes the upsert fail
        if (desired.map (·.1)).Nodup then some (s.setVirtualMembers v desired, .finished (.ok ()))
        else some (s, .finished (.error (.database
          "ON CONFLICT DO UPDATE command cannot affect row a second time")))
      else none
    | .idle, .remove v m =>
      some (s.removeVirtualMember v m, .finished (if s.hasMember v m then .ok ()
        else .error (.notFound "Member not found in virtual repository")))
    | .idle, _ => none
    | .finished _, _ => none
    | _, .fail => some (s.unlock p, .finished (.error (.database "database error")))
    | _, _ => none

/-- A member set is written only while no row was inserted since its checks began. -/
def checksHold (w : World MembershipState MemberProc) (a : ℕ × MemberAction) : Prop :=
  match w.procs a.1, a.2 with
  | .setCheck _ [] _ since, .write => w.shared.inserts = since
  | _, _ => True

instance (w : World MembershipState MemberProc) (a : ℕ × MemberAction) :
    Decidable (checksHold w a) := by
  unfold checksHold
  split <;> infer_instance

section Graph
variable {s : MembershipState} {v m x y : Uuid}

/-- Only virtual repositories have members. -/
def MembershipState.SourcesVirtual (s : MembershipState) : Prop :=
  ∀ r ∈ s.members, s.isVirtual r.virtualRepoId = true

/-- An edge to a virtual member: one that the search follows. -/
def MembershipState.VirtualEdge (s : MembershipState) (x y : Uuid) : Prop :=
  s.Edge x y ∧ s.isVirtual y = true

theorem mem_virtualMemberChildren : y ∈ s.virtualMemberChildren x ↔ s.VirtualEdge x y := by
  simp only [MembershipState.virtualMemberChildren, MembershipState.VirtualEdge,
    MembershipState.Edge, List.mem_filter, List.mem_map, beq_iff_eq]
  constructor
  · rintro ⟨⟨r, ⟨hr, hx⟩, hy⟩, hvirtual⟩
    exact ⟨⟨r, hr, hx, hy⟩, hvirtual⟩
  · rintro ⟨⟨r, hr, hx, hy⟩, hvirtual⟩
    exact ⟨⟨r, ⟨hr, hx⟩, hy⟩, hvirtual⟩

theorem MembershipState.SourcesVirtual.edge (h : s.SourcesVirtual) (he : s.Edge x y) :
    s.isVirtual x = true := by
  obtain ⟨r, hr, rfl, -⟩ := he
  exact h r hr

/-- A path to a virtual repository runs through virtual repositories only. -/
theorem MembershipState.SourcesVirtual.reaches (h : s.SourcesVirtual) (hv : s.isVirtual v = true)
    (hpath : ReflTransGen s.Edge m v) : ReflTransGen s.VirtualEdge m v ∧ s.isVirtual m = true := by
  induction hpath using ReflTransGen.head_induction_on with
  | refl => exact ⟨.refl, hv⟩
  | head hstep _ ih => exact ⟨.head ⟨hstep, ih.2⟩ ih.1, h.edge hstep⟩

/-- What is not virtual reaches only itself. -/
theorem MembershipState.SourcesVirtual.not_reaches (h : s.SourcesVirtual)
    (hv : s.isVirtual v = true) (hm : s.isVirtual m = false) : ¬ ReflTransGen s.Edge m v := by
  intro hpath
  simp [(h.reaches hv hpath).2] at hm

theorem searchStep_false {f : Frontier Uuid} (h : searchStep s v f = .inl false) :
    f.queue = [] := by
  unfold searchStep at h
  split at h
  · next r hnext =>
    subst h
    exact Frontier.next_false hnext
  · cases h

theorem searchStep_more {f f' : Frontier Uuid} (h : searchStep s v f = .inr f')
    (hclosed : f.Closed v s.VirtualEdge) (hm : m ∈ f.visited) :
    f'.Closed v s.VirtualEdge ∧ m ∈ f'.visited := by
  unfold searchStep at h
  split at h
  · next r hnext =>
    subst h
    obtain ⟨node, d, rest, cs, hq, -, -, henq⟩ := Frontier.next_more hnext
    refine ⟨hclosed.next ?_ hnext, (Frontier.enqueue_some henq).1 m hm⟩
    rintro x _ ⟨⟩ y hy
    exact mem_virtualMemberChildren.mpr hy
  · cases h

/-- A finished search has shown that the candidate does not lead back. -/
theorem not_reaches_of_search (h : s.SourcesVirtual) (hv : s.isVirtual v = true)
    {f : Frontier Uuid} (hclosed : f.Closed v s.VirtualEdge) (hm : m ∈ f.visited)
    (hdone : searchStep s v f = .inl false) : ¬ ReflTransGen s.Edge m v := by
  intro hpath
  exact hclosed.not_reaches (searchStep_false hdone) hm (h.reaches hv hpath).1

end Graph

section Updates
variable {s : MembershipState} {p : ℕ} {v m x y : Uuid} {desired : List (Uuid × ℤ)}

@[simp] theorem unlock_members : (s.unlock p).members = s.members := by
  unfold MembershipState.unlock
  split <;> rfl

@[simp] theorem unlock_repositories : (s.unlock p).repositories = s.repositories := by
  unfold MembershipState.unlock
  split <;> rfl

@[simp] theorem unlock_inserts : (s.unlock p).inserts = s.inserts := by
  unfold MembershipState.unlock
  split <;> rfl

theorem edge_of_members {s' : MembershipState} (h : s'.members = s.members) :
    s'.Edge x y ↔ s.Edge x y := by
  simp only [MembershipState.Edge, h]

theorem edge_insertMember {priority : ℤ} :
    (s.insertMember ⟨v, m, priority⟩).Edge x y ↔ s.Edge x y ∨ x = v ∧ y = m := by
  simp only [MembershipState.Edge, MembershipState.insertMember, List.mem_append,
    List.mem_singleton, or_and_right, exists_or, exists_eq_left]
  exact or_congr_right ⟨fun h => ⟨h.1.symm, h.2.symm⟩, fun h => ⟨h.1.symm, h.2.symm⟩⟩

theorem edge_removeVirtualMember (h : (s.removeVirtualMember v m).Edge x y) : s.Edge x y := by
  obtain ⟨r, hr, hx, hy⟩ := h
  exact ⟨r, (List.mem_filter.mp hr).1, hx, hy⟩

/-- Replacing the members only adds edges from the repository to desired members. -/
theorem edge_setVirtualMembers (h : (s.setVirtualMembers v desired).Edge x y) :
    s.Edge x y ∨ (x = v ∧ ∃ d ∈ desired, d.1 = y) ∧
      s.inserts < (s.setVirtualMembers v desired).inserts := by
  obtain ⟨r, hr, rfl, rfl⟩ := h
  simp only [MembershipState.setVirtualMembers, List.mem_append, List.mem_map, List.mem_filter,
    Bool.not_eq_true'] at hr
  rcases hr with ⟨r₀, ⟨hr₀, -⟩, rfl⟩ | ⟨d, hd, rfl⟩
  · left
    split
    · exact ⟨r₀, hr₀, rfl, rfl⟩
    · exact ⟨r₀, hr₀, rfl, rfl⟩
  · right
    refine ⟨⟨rfl, d, hd.1, rfl⟩, ?_⟩
    have hlength : 0 < (desired.filter fun d => !s.hasMember v d.1).length :=
      List.length_pos_of_mem (List.mem_filter.mpr ⟨hd.1, by simpa using hd.2⟩)
    simp only [MembershipState.setVirtualMembers]
    omega

end Updates

/-- What the other calls leave to process `p`: they may remove edges, and they insert none while
`p` holds the lock. -/
structure MemberRely (p : ℕ) (s s' : MembershipState) : Prop where
  repositories : s'.repositories = s.repositories
  inserts : s.inserts ≤ s'.inserts
  edges : s'.inserts = s.inserts → ∀ x y, s'.Edge x y → s.Edge x y
  lock : s.lock = some p → s'.lock = some p ∧ s'.inserts = s.inserts

/-- The graph has no cycle and only virtual repositories have members. -/
def MembershipState.Sound (s : MembershipState) : Prop := Acyclic s.Edge ∧ s.SourcesVirtual

/-- What a call knows: an adder that holds the lock about the present graph, a setter about the
graph as long as no row was inserted since its checks began. -/
def MemberOk (p : ℕ) (l : MemberProc) (s : MembershipState) : Prop :=
  match l with
  | .idle | .finished _ => True
  | .adding v m _ => m ≠ v
  | .addLocked v m _ => m ≠ v ∧ s.lock = some p
  | .addSearch v m _ f => s.lock = some p ∧ s.isVirtual v = true ∧ f.Closed v s.VirtualEdge ∧
      m ∈ f.visited
  | .addInsert v m _ => s.lock = some p ∧ s.isVirtual v = true ∧ ¬ ReflTransGen s.Edge m v
  | .setCheck v _ desired since => s.isVirtual v = true ∧ since ≤ s.inserts ∧
      (s.inserts = since → ∀ d ∈ desired, ¬ ReflTransGen s.Edge d.1 v)
  | .setSearch v member _ desired since f => s.isVirtual v = true ∧ since ≤ s.inserts ∧
      (s.inserts = since → (∀ d ∈ desired, ¬ ReflTransGen s.Edge d.1 v) ∧
        f.Closed v s.VirtualEdge ∧ member.1 ∈ f.visited)

section Steps
variable {s s' : MembershipState} {p q : ℕ} {l l' : MemberProc} {v m : Uuid}

theorem isVirtual_of_repositories {x : Uuid} (h : s'.repositories = s.repositories) :
    s'.isVirtual x = s.isVirtual x := by
  simp only [MembershipState.isVirtual, h]

theorem MemberRely.virtualEdge (h : MemberRely p s s') (hins : s'.inserts = s.inserts) (x y : Uuid)
    (he : s'.VirtualEdge x y) : s.VirtualEdge x y :=
  ⟨h.edges hins x y he.1, isVirtual_of_repositories h.repositories ▸ he.2⟩

theorem MemberRely.not_reaches (h : MemberRely p s s') (hins : s'.inserts = s.inserts)
    (hnot : ¬ ReflTransGen s.Edge m v) : ¬ ReflTransGen s'.Edge m v :=
  fun hpath => hnot (ReflTransGen.mono (h.edges hins) _ _ hpath)

/-- What a call knows survives the steps of the others. -/
theorem MemberOk.rely (h : MemberOk p l s) (hrely : MemberRely p s s') : MemberOk p l s' := by
  have hvirtual : ∀ x, s'.isVirtual x = s.isVirtual x :=
    fun x => isVirtual_of_repositories hrely.repositories
  cases l with
  | idle | finished _ => trivial
  | adding v m priority => exact h
  | addLocked v m priority => exact ⟨h.1, (hrely.lock h.2).1⟩
  | addSearch v m priority f =>
    obtain ⟨hlock, hv, hclosed, hm⟩ := h
    obtain ⟨hlock', hins⟩ := hrely.lock hlock
    exact ⟨hlock', (hvirtual v).trans hv, hclosed.mono (hrely.virtualEdge hins), hm⟩
  | addInsert v m priority =>
    obtain ⟨hlock, hv, hnot⟩ := h
    obtain ⟨hlock', hins⟩ := hrely.lock hlock
    exact ⟨hlock', (hvirtual v).trans hv, hrely.not_reaches hins hnot⟩
  | setCheck v todo desired since =>
    obtain ⟨hv, hsince, hknown⟩ := h
    refine ⟨(hvirtual v).trans hv, hsince.trans hrely.inserts, fun heq d hd => ?_⟩
    have hins : s'.inserts = s.inserts := le_antisymm (heq ▸ hsince) hrely.inserts
    exact hrely.not_reaches hins (hknown (hins ▸ heq) d hd)
  | setSearch v member todo desired since f =>
    obtain ⟨hv, hsince, hknown⟩ := h
    refine ⟨(hvirtual v).trans hv, hsince.trans hrely.inserts, fun heq => ?_⟩
    have hins : s'.inserts = s.inserts := le_antisymm (heq ▸ hsince) hrely.inserts
    obtain ⟨hdesired, hclosed, hm⟩ := hknown (hins ▸ heq)
    exact ⟨fun d hd => hrely.not_reaches hins (hdesired d hd),
      hclosed.mono (hrely.virtualEdge hins), hm⟩

theorem MemberRely.refl (s : MembershipState) : MemberRely q s s :=
  ⟨rfl, le_rfl, fun _ _ _ h => h, fun h => ⟨h, rfl⟩⟩

theorem MemberRely.unlock (hq : q ≠ p) (s : MembershipState) : MemberRely q s (s.unlock p) := by
  refine ⟨unlock_repositories, unlock_inserts.ge,
    fun _ x y h => (edge_of_members unlock_members).mp h, fun hlock => ⟨?_, unlock_inserts⟩⟩
  have hne : s.lock ≠ some p := by
    rw [hlock]
    exact fun h => hq (Option.some.inj h)
  rw [MembershipState.unlock, if_neg hne, hlock]

theorem MemberRely.locked (hfree : s.lock = none) : MemberRely q s { s with lock := some p } :=
  ⟨rfl, le_rfl, fun _ _ _ h => h, fun hlock => by simp [hfree] at hlock⟩

theorem MemberRely.insert (hq : q ≠ p) (hlock : s.lock = some p) (r : Member) :
    MemberRely q s ((s.insertMember r).unlock p) := by
  have hmore : ((s.insertMember r).unlock p).inserts = s.inserts + 1 := by
    rw [unlock_inserts]
    rfl
  refine ⟨by rw [unlock_repositories]; rfl, by omega, by omega, fun hlock' => ?_⟩
  exact (hq (Option.some.inj (hlock'.symm.trans hlock))).elim

theorem MemberRely.write (hfree : s.lock = none) (v : Uuid) (desired : List (Uuid × ℤ)) :
    MemberRely q s (s.setVirtualMembers v desired) := by
  refine ⟨rfl, Nat.le_add_right _ _, fun hins x y h => ?_, fun hlock => by simp [hfree] at hlock⟩
  rcases edge_setVirtualMembers h with hold | ⟨-, hlt⟩
  · exact hold
  · omega

theorem MemberRely.remove (v m : Uuid) : MemberRely q s (s.removeVirtualMember v m) :=
  ⟨rfl, le_rfl, fun _ _ _ h => edge_removeVirtualMember h, fun hlock => ⟨hlock, rfl⟩⟩

/-- Losing edges keeps the graph sound. -/
theorem MembershipState.Sound.mono (h : s.Sound) (hrepos : s'.repositories = s.repositories)
    (hmem : ∀ r ∈ s'.members, ∃ r₀ ∈ s.members, r₀.virtualRepoId = r.virtualRepoId ∧
      r₀.memberRepoId = r.memberRepoId) : s'.Sound := by
  refine ⟨h.1.mono fun x y he => ?_, fun r hr => ?_⟩
  · obtain ⟨r, hr, rfl, rfl⟩ := he
    obtain ⟨r₀, hr₀, hx, hy⟩ := hmem r hr
    exact ⟨r₀, hr₀, hx, hy⟩
  · obtain ⟨r₀, hr₀, hx, -⟩ := hmem r hr
    rw [isVirtual_of_repositories hrepos, ← hx]
    exact h.2 r₀ hr₀

theorem MembershipState.Sound.unlock (h : s.Sound) : (s.unlock p).Sound :=
  h.mono unlock_repositories fun r hr => ⟨r, unlock_members (p := p) ▸ hr, rfl, rfl⟩

theorem MembershipState.Sound.insert (h : s.Sound) (hv : s.isVirtual v = true)
    (hnot : ¬ ReflTransGen s.Edge m v) (priority : ℤ) :
    (s.insertMember ⟨v, m, priority⟩).Sound := by
  refine ⟨?_, fun r hr => ?_⟩
  · have hadd := h.1.add_out (M := fun y => y = m) (v := v) (by rintro _ rfl; exact hnot)
    exact hadd.mono fun x y he => edge_insertMember.mp he
  · rcases List.mem_append.mp hr with hr | hr
    · exact h.2 r hr
    · obtain rfl := List.mem_singleton.mp hr
      exact hv

theorem MembershipState.Sound.set (h : s.Sound) (hv : s.isVirtual v = true)
    {desired : List (Uuid × ℤ)} (hnot : ∀ d ∈ desired, ¬ ReflTransGen s.Edge d.1 v) :
    (s.setVirtualMembers v desired).Sound := by
  have hedge : ∀ x y, (s.setVirtualMembers v desired).Edge x y →
      s.Edge x y ∨ x = v ∧ ∃ d ∈ desired, d.1 = y :=
    fun x y he => (edge_setVirtualMembers he).imp id And.left
  refine ⟨?_, fun r hr => ?_⟩
  · refine (h.1.add_out (M := fun y => ∃ d ∈ desired, d.1 = y) (v := v) ?_).mono hedge
    rintro _ ⟨d, hd, rfl⟩
    exact hnot d hd
  · rcases hedge r.virtualRepoId r.memberRepoId ⟨r, hr, rfl, rfl⟩ with hold | ⟨hsource, -⟩
    · exact h.2.edge hold
    · rw [hsource]
      exact hv

theorem MembershipState.Sound.remove (h : s.Sound) (v m : Uuid) :
    (s.removeVirtualMember v m).Sound :=
  h.mono rfl fun r hr => ⟨r, (List.mem_filter.mp hr).1, rfl, rfl⟩

/-- What the checks of `add_virtual_member` establish. -/
theorem addCheck_ok (h : s.Sound) (hne : m ≠ v) (hlock : s.lock = some p) (priority : Option ℤ) :
    MemberOk p (addCheck s v m priority) s := by
  unfold addCheck
  split
  · next virtualRepo memberRepo hv hm =>
    split
    · trivial
    next htype =>
    have hvirtual : s.isVirtual v = true := by
      simpa [MembershipState.isVirtual, hv] using htype
    split
    · trivial
    split
    · exact ⟨hlock, hvirtual, Frontier.closed_start hne, List.mem_singleton.mpr rfl⟩
    · next hplain =>
      refine ⟨hlock, hvirtual, h.2.not_reaches hvirtual ?_⟩
      simpa [MembershipState.isVirtual, hm] using hplain
  · trivial

/-- What the checks of `update_virtual_members` on one member establish. -/
theorem setCheckNext_ok (h : s.Sound) {member : Uuid × ℤ} {todo desired : List (Uuid × ℤ)}
    {since : ℕ} (hl : MemberOk p (.setCheck v (member :: todo) desired since) s) :
    MemberOk p (setCheckNext s v member todo desired since) s := by
  obtain ⟨hv, hsince, hknown⟩ := hl
  unfold setCheckNext
  split
  · next virtualRepo memberRepo hvirtual hm =>
    split
    · trivial
    next hne =>
    split
    · trivial
    split
    · exact ⟨hv, hsince, fun heq => ⟨hknown heq, Frontier.closed_start hne,
        List.mem_singleton.mpr rfl⟩⟩
    · next hplain =>
      have hnot : ¬ ReflTransGen s.Edge member.1 v := by
        refine h.2.not_reaches hv ?_
        simpa [MembershipState.isVirtual, hm] using hplain
      refine ⟨hv, hsince, fun heq d hd => ?_⟩
      rcases List.mem_append.mp hd with hd | hd
      · exact hknown heq d hd
      · obtain rfl := List.mem_singleton.mp hd
        exact hnot
  · trivial

/-- What a step of `p` has to show. -/
def MemberStepOk (p : ℕ) (s s' : MembershipState) (l' : MemberProc) : Prop :=
  s'.Sound ∧ MemberOk p l' s' ∧ ∀ q, q ≠ p → MemberRely q s s'

theorem stay_ok (h : s.Sound) (hl : MemberOk p l' s) : MemberStepOk p s s l' :=
  ⟨h, hl, fun _ _ => .refl s⟩

theorem finish_ok (h : s.Sound) (r : Except AppError Unit) :
    MemberStepOk p s (s.unlock p) (.finished r) :=
  ⟨h.unlock, trivial, fun _ hq => .unlock hq s⟩

/-- A call that holds the lock checks, searches or inserts. -/
theorem addStep_ok (h : s.Sound) {priority : Option ℤ} {a : MemberAction}
    (hl : MemberOk p (.addLocked v m priority) s)
    (hstep : memberProtocol.step p s (.addLocked v m priority) a = some (s', l')) :
    MemberStepOk p s s' l' := by
  have hchecked := addCheck_ok h hl.1 hl.2 priority
  cases a <;> simp only [memberProtocol, reduceCtorEq] at hstep
  case check =>
    split at hstep <;> cases hstep
    · exact finish_ok h _
    · exact stay_ok h hchecked
  case fail =>
    cases hstep
    exact finish_ok h _

theorem addSearch_ok (h : s.Sound) {priority : Option ℤ} {f : Frontier Uuid} {a : MemberAction}
    (hl : MemberOk p (.addSearch v m priority f) s)
    (hstep : memberProtocol.step p s (.addSearch v m priority f) a = some (s', l')) :
    MemberStepOk p s s' l' := by
  obtain ⟨hlock, hv, hclosed, hm⟩ := hl
  cases a <;> simp only [memberProtocol, reduceCtorEq] at hstep
  case search =>
    split at hstep <;> cases hstep
    · exact finish_ok h _
    · next hdone => exact stay_ok h ⟨hlock, hv, not_reaches_of_search h.2 hv hclosed hm hdone⟩
    · next f' hmore => exact stay_ok h ⟨hlock, hv, searchStep_more hmore hclosed hm⟩
  case fail =>
    cases hstep
    exact finish_ok h _

theorem addInsert_ok (h : s.Sound) {priority : Option ℤ} {a : MemberAction}
    (hl : MemberOk p (.addInsert v m priority) s)
    (hstep : memberProtocol.step p s (.addInsert v m priority) a = some (s', l')) :
    MemberStepOk p s s' l' := by
  obtain ⟨hlock, hv, hnot⟩ := hl
  cases a <;> simp only [memberProtocol, reduceCtorEq] at hstep
  case insert =>
    split at hstep <;> cases hstep
    · exact finish_ok h _
    · exact ⟨(h.insert hv hnot _).unlock, trivial, fun q hq => .insert hq hlock _⟩
  case fail =>
    cases hstep
    exact finish_ok h _

theorem setSearch_ok (h : s.Sound) {member : Uuid × ℤ} {todo desired : List (Uuid × ℤ)}
    {since : ℕ} {f : Frontier Uuid} {a : MemberAction}
    (hl : MemberOk p (.setSearch v member todo desired since f) s)
    (hstep : memberProtocol.step p s (.setSearch v member todo desired since f) a =
      some (s', l')) : MemberStepOk p s s' l' := by
  obtain ⟨hv, hsince, hknown⟩ := hl
  cases a <;> simp only [memberProtocol, reduceCtorEq] at hstep
  case search =>
    cases hstep
    split
    · exact stay_ok h trivial
    · next hdone =>
      refine stay_ok h ⟨hv, hsince, fun heq d hd => ?_⟩
      obtain ⟨hdesired, hclosed, hm⟩ := hknown heq
      rcases List.mem_append.mp hd with hd | hd
      · exact hdesired d hd
      · obtain rfl := List.mem_singleton.mp hd
        exact not_reaches_of_search h.2 hv hclosed hm hdone
    · next f' hmore =>
      refine stay_ok h ⟨hv, hsince, fun heq => ?_⟩
      obtain ⟨hdesired, hclosed, hm⟩ := hknown heq
      exact ⟨hdesired, searchStep_more hmore hclosed hm⟩
  case fail =>
    cases hstep
    exact finish_ok h _

/-- The write of a member set is covered by its checks when no row was inserted since. -/
theorem setCheck_ok (h : s.Sound) {todo desired : List (Uuid × ℤ)} {since : ℕ}
    {a : MemberAction} (hl : MemberOk p (.setCheck v todo desired since) s)
    (hok : todo = [] → a = .write → s.inserts = since)
    (hstep : memberProtocol.step p s (.setCheck v todo desired since) a = some (s', l')) :
    MemberStepOk p s s' l' := by
  cases todo with
  | nil =>
    cases a <;> simp only [memberProtocol, reduceCtorEq] at hstep
    case write =>
      split at hstep
      · next hfree =>
        split at hstep <;> cases hstep
        · exact ⟨h.set hl.1 (hl.2.2 (hok rfl rfl)), trivial, fun q _ => .write hfree v desired⟩
        · exact stay_ok h trivial
      · cases hstep
    case fail =>
      cases hstep
      exact finish_ok h _
  | cons member todo =>
    cases a <;> simp only [memberProtocol, reduceCtorEq] at hstep
    case checkNext =>
      cases hstep
      exact stay_ok h (setCheckNext_ok h hl)
    case fail =>
      cases hstep
      exact finish_ok h _

theorem idle_ok (h : s.Sound) {a : MemberAction}
    (hstep : memberProtocol.step p s .idle a = some (s', l')) : MemberStepOk p s s' l' := by
  cases a <;> simp only [memberProtocol, reduceCtorEq] at hstep
  case add v m priority =>
    cases hstep
    split
    · exact stay_ok h trivial
    · next hne => exact stay_ok h fun heq => hne heq.symm
  case set v members =>
    cases hstep
    split
    · exact stay_ok h trivial
    · next r hr =>
      split
      · exact stay_ok h trivial
      · next htype =>
        refine stay_ok h ⟨?_, le_rfl, fun _ d hd => (List.not_mem_nil hd).elim⟩
        simpa [MembershipState.isVirtual, hr] using htype
  case remove v m =>
    cases hstep
    exact ⟨h.remove v m, trivial, fun q _ => .remove v m⟩

/-- Every step that meets the guard keeps the graph sound and what every call knows. -/
theorem memberStep_ok {w : World MembershipState MemberProc} (h : w.shared.Sound)
    (hl : MemberOk p (w.procs p) w.shared) {a : MemberAction} (hok : checksHold w (p, a))
    (hstep : memberProtocol.step p w.shared (w.procs p) a = some (s', l')) :
    MemberStepOk p w.shared s' l' := by
  cases hp : w.procs p with
  | idle => exact idle_ok h (hp ▸ hstep)
  | adding v m priority =>
    rw [hp] at hstep hl
    cases a <;> simp only [memberProtocol, reduceCtorEq] at hstep
    case lock =>
      split at hstep <;> cases hstep
      next hfree => exact ⟨h, ⟨hl, rfl⟩, fun q _ => .locked hfree⟩
    case fail =>
      cases hstep
      exact finish_ok h _
  | addLocked v m priority => exact addStep_ok h (hp ▸ hl) (hp ▸ hstep)
  | addSearch v m priority f => exact addSearch_ok h (hp ▸ hl) (hp ▸ hstep)
  | addInsert v m priority => exact addInsert_ok h (hp ▸ hl) (hp ▸ hstep)
  | setCheck v todo desired since =>
    refine setCheck_ok h (hp ▸ hl) ?_ (hp ▸ hstep)
    rintro rfl rfl
    simpa only [checksHold, hp] using hok
  | setSearch v member todo desired since f => exact setSearch_ok h (hp ▸ hl) (hp ▸ hstep)
  | finished r =>
    rw [hp] at hstep
    cases a <;> simp only [memberProtocol, reduceCtorEq] at hstep

end Steps

section Claim

/-- The graph that the look-ups of a search report. -/
def Looked {α ε : Type} (virtualMembers : α → Except ε (List α)) (x y : α) : Prop :=
  ∃ cs, virtualMembers x = .ok cs ∧ y ∈ cs

variable {α ε : Type} [DecidableEq α] {virtualId candidateMemberId : α} {fuel : ℕ}
  {virtualMembers : α → Except ε (List α)}

theorem not_reaches_of_wouldCreateCycle_false
    (h : wouldCreateCycleInGraph fuel virtualId candidateMemberId virtualMembers =
      some (.ok false)) :
    ¬ ReflTransGen (Looked virtualMembers) candidateMemberId virtualId := by
  unfold wouldCreateCycleInGraph at h
  split at h
  · cases h
  next hne =>
  refine Frontier.run_false (Frontier.closed_start (Ne.symm hne)) ?_ h (List.mem_singleton.mpr rfl)
  rintro x cs hcs y ⟨cs', hcs', hy⟩
  obtain rfl : cs = cs' := Except.ok.inj (hcs.symm.trans hcs')
  exact hy

theorem wouldCreateCycle_terminates {nodes : Finset α}
    (hnodes : ∀ x y, Looked virtualMembers x y → y ∈ nodes) (hfuel : nodes.card + 1 < fuel) :
    ∃ answer,
      wouldCreateCycleInGraph fuel virtualId candidateMemberId virtualMembers = some answer := by
  unfold wouldCreateCycleInGraph
  split
  · exact ⟨_, rfl⟩
  refine Frontier.run_terminates
    (fun x cs hcs y hy => hnodes x y ⟨cs, hcs, hy⟩) ?_
  have hunseen : (nodes \ (Frontier.start candidateMemberId).visited.toFinset).card ≤ nodes.card :=
    Finset.card_le_card Finset.sdiff_subset
  have hqueue : (Frontier.start candidateMemberId).queue.length = 1 := rfl
  unfold Frontier.work
  omega

/-- A candidate within the depth bound whose insertion closes no cycle is accepted. -/
theorem wouldCreateCycle_eq_false {children : α → List α} {nodes : Finset α}
    (hnodes : ∀ x, ∀ y ∈ children x, y ∈ nodes) (hfuel : nodes.card + 1 < fuel)
    (hreach : ¬ ReflTransGen (fun x y => y ∈ children x) candidateMemberId virtualId)
    (hdepth : ∀ y, ReflTransGen (fun x y => y ∈ children x) candidateMemberId y →
      ∃ n < maxVirtualDepth, Walk (fun x y => y ∈ children x) candidateMemberId n y) :
    wouldCreateCycleInGraph fuel virtualId candidateMemberId
      (fun x => (.ok (children x) : Except ε (List α))) = some (.ok false) := by
  have hne : virtualId ≠ candidateMemberId := by
    rintro rfl
    exact hreach .refl
  have hlooked : ∀ x y, Looked (fun x => (.ok (children x) : Except ε (List α))) x y →
      y ∈ nodes := by
    rintro x y ⟨_, ⟨⟩, hy⟩
    exact hnodes x y hy
  obtain ⟨answer, hanswer⟩ :
      ∃ answer, wouldCreateCycleInGraph fuel virtualId candidateMemberId
        (fun x => (.ok (children x) : Except ε (List α))) = some answer :=
    wouldCreateCycle_terminates hlooked hfuel
  have htrue : (Frontier.start candidateMemberId).run virtualId maxVirtualDepth
      (fun x => (.ok (children x) : Except ε (List α))) fuel ≠ some (.ok true) :=
    Frontier.run_ne_true (fun x y => Iff.rfl) hreach hdepth Frontier.ordered_start
      (Frontier.closed_start hne.symm)
  have hok : ∀ e, (Frontier.start candidateMemberId).run virtualId maxVirtualDepth
      (fun x => (.ok (children x) : Except ε (List α))) fuel ≠ some (.error e) :=
    Frontier.run_ok
  rw [hanswer]
  rw [wouldCreateCycleInGraph, if_neg hne] at hanswer
  rw [hanswer] at htrue hok
  cases answer with
  | error e => exact (hok e rfl).elim
  | ok found =>
    cases found with
    | true => exact (htrue rfl).elim
    | false => rfl

/-- As long as every member set is written before a row is inserted behind its checks, no
repository reaches itself; and the search behind every check answers, answers `false` only when the
candidate does not lead back, and accepts every candidate within the depth bound that does not. -/
theorem membership_stays_acyclic (s₀ : MembershipState) (hacyclic : Acyclic s₀.Edge)
    (hsources : s₀.SourcesVirtual) :
    (∀ w, memberProtocol.machine.Reach checksHold ⟨s₀, fun _ => .idle⟩ w →
      ∀ x, ¬ TransGen w.shared.Edge x x) ∧
    ∀ virtualId candidateMemberId : Uuid,
      (∀ fuel (virtualMembers : Uuid → Except AppError (List Uuid)),
        wouldCreateCycleInGraph fuel virtualId candidateMemberId virtualMembers =
          some (.ok false) →
        ¬ ReflTransGen (Looked virtualMembers) candidateMemberId virtualId) ∧
      (∀ (virtualMembers : Uuid → Except AppError (List Uuid)) (nodes : Finset Uuid),
        (∀ x y, Looked virtualMembers x y → y ∈ nodes) → ∀ fuel > nodes.card + 1,
        ∃ answer, wouldCreateCycleInGraph fuel virtualId candidateMemberId virtualMembers =
          some answer) ∧
      ∀ (children : Uuid → List Uuid) (nodes : Finset Uuid),
        (∀ x, ∀ y ∈ children x, y ∈ nodes) →
        ¬ ReflTransGen (fun x y => y ∈ children x) candidateMemberId virtualId →
        (∀ y, ReflTransGen (fun x y => y ∈ children x) candidateMemberId y →
          ∃ n < maxVirtualDepth, Walk (fun x y => y ∈ children x) candidateMemberId n y) →
        ∀ fuel > nodes.card + 1,
        wouldCreateCycleInGraph fuel virtualId candidateMemberId
          (fun x => (.ok (children x) : Except AppError (List Uuid))) = some (.ok false) := by
  refine ⟨fun w h => ?_, fun virtualId candidateMemberId => ⟨?_, ?_, ?_⟩⟩
  · have hall := Protocol.reach_rely_guarantee (I := MembershipState.Sound) (A := MemberOk) h
      ⟨hacyclic, hsources⟩ (fun _ => trivial) ?_
    · exact hall.1.1
    intro w p a s' l' hsound hprocs hok hstep
    obtain ⟨hsound', hl', hrely⟩ := memberStep_ok hsound (hprocs p) hok hstep
    exact ⟨hsound', hl', fun q hq => (hprocs q).rely (hrely q hq)⟩
  · intro fuel virtualMembers h
    exact not_reaches_of_wouldCreateCycle_false h
  · intro virtualMembers nodes hnodes fuel hfuel
    exact wouldCreateCycle_terminates hnodes hfuel
  · intro children nodes hnodes hreach hdepth fuel hfuel
    exact wouldCreateCycle_eq_false hnodes hfuel hreach hdepth

end Claim

/-- Two virtual repositories without members. -/
def twoVirtual : MembershipState where
  repositories id := if id = 1 then some ⟨"v1", "npm", .virtual⟩
    else if id = 2 then some ⟨"v2", "npm", .virtual⟩ else none
  members := []
  lock := none
  inserts := 0

def twoVirtualIdle : World MembershipState MemberProc := ⟨twoVirtual, fun _ => .idle⟩

/-- The checks of a call that puts `m` into `v` as its only member. -/
def setOneChecks (p : ℕ) (v m : Uuid) : List (ℕ × MemberAction) :=
  [(p, .set v [(m, 1)]), (p, .checkNext), (p, .search), (p, .search)]

theorem twoVirtual_acyclic : Acyclic twoVirtual.Edge := by
  intro x hx
  obtain ⟨y, ⟨r, hr, -⟩, -⟩ := TransGen.head'_iff.mp hx
  cases hr

/-- One call puts the second repository into the first, the other the first into the second. Both
check before either writes. -/
theorem concurrent_sets_close_cycle :
    Acyclic twoVirtual.Edge ∧ twoVirtual.SourcesVirtual ∧
      ∃ w, memberProtocol.machine.Reach Machine.anyStep twoVirtualIdle w ∧
        TransGen w.shared.Edge 1 1 := by
  refine ⟨twoVirtual_acyclic, fun r hr => (List.not_mem_nil hr).elim, _,
    Machine.reach_of_run (setOneChecks 0 1 2 ++ setOneChecks 1 2 1 ++
      [(0, .write), (1, .write)]) rfl ?_, ?_⟩
  · repeat' constructor
  · exact .tail (.single ⟨⟨1, 2, 1⟩, by decide, rfl, rfl⟩) ⟨⟨2, 1, 1⟩, by decide, rfl, rfl⟩

/-- The same calls one after the other: the second is refused, and the graph stays acyclic. -/
theorem membership_stays_acyclic_of_sequential_sets :
    ∃ w, memberProtocol.machine.run twoVirtualIdle
        (setOneChecks 0 1 2 ++ [(0, .write)] ++ (setOneChecks 1 2 1).take 3) = some w ∧
      w.shared.members = [⟨1, 2, 1⟩] ∧
      w.procs 1 = invalid "Updating member v1 would leave virtual repository v2 in a cycle" ∧
      ∀ x, ¬ TransGen w.shared.Edge x x := by
  have hmeets : memberProtocol.machine.Meets checksHold twoVirtualIdle
      (setOneChecks 0 1 2 ++ [(0, .write)] ++ (setOneChecks 1 2 1).take 3) := by decide
  exact ⟨_, rfl, rfl, rfl, (membership_stays_acyclic twoVirtual twoVirtual_acyclic
    (fun r hr => (List.not_mem_nil hr).elim)).1 _ (Machine.reach_of_run _ rfl hmeets)⟩

end ArtifactKeeper.Repositories
