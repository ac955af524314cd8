import Mathlib.Data.List.Basic
import Mathlib.Data.Finset.Card
import Mathlib.Data.Finset.Dedup
import Mathlib.Logic.Relation
import Mathlib.Tactic.Common

/-! Breadth-first search for a target in a directed graph, bounded in depth, whose adjacency is
looked up one node at a time. The graph may lose edges while the search runs. -/

namespace Search
open Relation
variable {α ε : Type*}

/-- No node reaches itself. -/
def Acyclic (E : α → α → Prop) : Prop := ∀ x, ¬ TransGen E x x

theorem Acyclic.mono {E E' : α → α → Prop} (h : Acyclic E) (hsub : ∀ x y, E' x y → E x y) :
    Acyclic E' :=
  fun x hx => h x (TransGen.mono hsub _ _ hx)

/-- New edges out of one node, to nodes that do not lead back to it, close no cycle. -/
theorem Acyclic.add_out {E : α → α → Prop} (h : Acyclic E) {v : α} {M : α → Prop}
    (hM : ∀ m, M m → ¬ ReflTransGen E m v) : Acyclic fun x y => E x y ∨ x = v ∧ M y := by
  have hfrom : ∀ {m y}, M m → ReflTransGen (fun x y => E x y ∨ x = v ∧ M y) m y →
      ReflTransGen E m y := by
    intro m y hm hpath
    induction hpath with
    | refl => exact .refl
    | tail _ hstep ih =>
      rcases hstep with hold | ⟨rfl, -⟩
      · exact ih.tail hold
      · exact (hM m hm ih).elim
  have hcases : ∀ {x y}, TransGen (fun x y => E x y ∨ x = v ∧ M y) x y →
      TransGen E x y ∨ ∃ m, M m ∧ ReflTransGen (fun x y => E x y ∨ x = v ∧ M y) m y ∧
        ReflTransGen (fun x y => E x y ∨ x = v ∧ M y) x v := by
    intro x y hpath
    induction hpath with
    | single hstep =>
      rcases hstep with hold | ⟨rfl, hm⟩
      · exact .inl (.single hold)
      · exact .inr ⟨_, hm, .refl, .refl⟩
    | tail hinit hstep ih =>
      rcases hstep with hold | ⟨rfl, hm⟩
      · rcases ih with hE | ⟨m, hm, hmy, hxv⟩
        · exact .inl (hE.tail hold)
        · exact .inr ⟨m, hm, hmy.tail (.inl hold), hxv⟩
      · exact .inr ⟨_, hm, .refl, hinit.to_reflTransGen⟩
  intro x hcycle
  rcases hcases hcycle with hold | ⟨m, hm, hmx, hxv⟩
  · exact h x hold
  · exact hM m hm (hfrom hm (hmx.trans hxv))

/-- A walk of the given number of edges. -/
inductive Walk (E : α → α → Prop) (x : α) : ℕ → α → Prop
  | nil : Walk E x 0 x
  | snoc {n : ℕ} {y z : α} : Walk E x n y → E y z → Walk E x (n + 1) z

theorem Walk.reaches {E : α → α → Prop} {x y : α} {n : ℕ} (h : Walk E x n y) :
    ReflTransGen E x y := by
  induction h with
  | nil => exact .refl
  | snoc _ hstep ih => exact ih.tail hstep

/-- The nodes seen so far and those still to be examined, with their depth. -/
structure Frontier (α : Type*) where
  visited : List α
  queue : List (α × ℕ)

def Frontier.start (x : α) : Frontier α := ⟨[x], [(x, 0)]⟩

/-- What was seen and is no longer queued has all its successors seen, none of them the target. -/
def Frontier.Closed (target : α) (E : α → α → Prop) (f : Frontier α) : Prop :=
  (∀ x ∈ f.visited, x ≠ target) ∧
    ∀ x ∈ f.visited, (∃ d, (x, d) ∈ f.queue) ∨ ∀ y, E x y → y ∈ f.visited

section
variable {target : α} {E E' : α → α → Prop} {f : Frontier α}

theorem Frontier.Closed.mono (h : f.Closed target E) (hsub : ∀ x y, E' x y → E x y) :
    f.Closed target E' :=
  ⟨h.1, fun x hx => (h.2 x hx).imp id fun hall y hy => hall y (hsub x y hy)⟩

theorem Frontier.closed_start {x : α} (hx : x ≠ target) : (Frontier.start x).Closed target E := by
  constructor
  · intro y hy
    obtain rfl := List.mem_singleton.mp hy
    exact hx
  · intro y hy
    obtain rfl := List.mem_singleton.mp hy
    exact .inl ⟨0, List.mem_singleton.mpr rfl⟩

/-- A closed frontier with an empty queue answers `false` truthfully. -/
theorem Frontier.Closed.not_reaches (hclosed : f.Closed target E) (hq : f.queue = []) {x : α}
    (hx : x ∈ f.visited) : ¬ ReflTransGen E x target := by
  intro hpath
  have hall : ∀ y, ReflTransGen E x y → y ∈ f.visited := by
    intro y hy
    induction hy with
    | refl => exact hx
    | tail _ hstep ih =>
      rcases hclosed.2 _ ih with ⟨d, hd⟩ | hsucc
      · rw [hq] at hd
        exact (List.not_mem_nil hd).elim
      · exact hsucc _ hstep
  exact hclosed.1 target (hall target hpath) rfl

end

variable [DecidableEq α]

/-- Queue the unseen children of a node at the given depth; `none` at the target. -/
def Frontier.enqueue (target : α) (depth : ℕ) : List α → Frontier α → Option (Frontier α)
  | [], f => some f
  | c :: cs, f =>
    if c = target then none
    else if c ∈ f.visited then enqueue target depth cs f
    else enqueue target depth cs ⟨c :: f.visited, f.queue ++ [(c, depth + 1)]⟩

/-- Examine the next node: the answer, or the frontier to go on with. -/
def Frontier.next (target : α) (bound : ℕ) (children : α → Except ε (List α)) (f : Frontier α) :
    Except ε (Bool ⊕ Frontier α) :=
  match f.queue with
  | [] => .ok (.inl false)
  | (node, depth) :: rest =>
    if bound ≤ depth then .ok (.inl true)
    else (children node).map fun cs =>
      match enqueue target depth cs { f with queue := rest } with
      | none => .inl true
      | some f' => .inr f'

/-- The whole search; `none` when the fuel runs out. -/
def Frontier.run (target : α) (bound : ℕ) (children : α → Except ε (List α)) :
    ℕ → Frontier α → Option (Except ε Bool)
  | 0, _ => none
  | fuel + 1, f =>
    match f.next target bound children with
    | .error e => some (.error e)
    | .ok (.inl found) => some (.ok found)
    | .ok (.inr f') => run target bound children fuel f'

section Closed
variable {target : α} {bound depth : ℕ} {E : α → α → Prop} {f f' : Frontier α} {cs : List α}

/-- Queueing only adds, and it adds every child. -/
theorem Frontier.enqueue_some (h : enqueue target depth cs f = some f') :
    (∀ x ∈ f.visited, x ∈ f'.visited) ∧ (∀ c ∈ cs, c ∈ f'.visited ∧ c ≠ target) ∧
      (∀ x ∈ f'.visited, x ∈ f.visited ∨ x ∈ cs ∧ x ≠ target ∧ (x, depth + 1) ∈ f'.queue) ∧
      (∀ q ∈ f.queue, q ∈ f'.queue) ∧
      ∀ q ∈ f'.queue, q ∈ f.queue ∨ q.1 ∈ cs ∧ q.2 = depth + 1 := by
  induction cs generalizing f with
  | nil =>
    simp only [enqueue, Option.some.injEq] at h
    subst h
    exact ⟨fun _ hx => hx, fun _ hc => (List.not_mem_nil hc).elim, fun _ hx => .inl hx,
      fun _ hq => hq, fun _ hq => .inl hq⟩
  | cons c cs ih =>
    simp only [enqueue] at h
    split at h
    · cases h
    next hc =>
    split at h
    · next hseen =>
      obtain ⟨hkeep, hall, hnew, hqueue, hqueued⟩ := ih h
      refine ⟨hkeep, ?_, fun x hx => ?_, hqueue, fun q hq => ?_⟩
      · intro x hx
        rcases List.mem_cons.mp hx with rfl | hx
        · exact ⟨hkeep x hseen, hc⟩
        · exact hall x hx
      · exact (hnew x hx).imp id fun hx => ⟨List.mem_cons_of_mem _ hx.1, hx.2⟩
      · exact (hqueued q hq).imp id fun hq => ⟨List.mem_cons_of_mem _ hq.1, hq.2⟩
    · obtain ⟨hkeep, hall, hnew, hqueue, hqueued⟩ := ih h
      have hlast : (c, depth + 1) ∈ f'.queue :=
        hqueue _ (List.mem_append_right _ (List.mem_singleton.mpr rfl))
      refine ⟨fun x hx => hkeep x (List.mem_cons_of_mem _ hx), ?_, fun x hx => ?_,
        fun q hq => hqueue q (List.mem_append_left _ hq), fun q hq => ?_⟩
      · intro x hx
        rcases List.mem_cons.mp hx with rfl | hx
        · exact ⟨hkeep x List.mem_cons_self, hc⟩
        · exact hall x hx
      · rcases hnew x hx with hx | hx
        · rcases List.mem_cons.mp hx with rfl | hx
          · exact .inr ⟨List.mem_cons_self, hc, hlast⟩
          · exact .inl hx
        · exact .inr ⟨List.mem_cons_of_mem _ hx.1, hx.2⟩
      · rcases hqueued q hq with hq | hq
        · rcases List.mem_append.mp hq with hq | hq
          · exact .inl hq
          · obtain rfl := List.mem_singleton.mp hq
            exact .inr ⟨List.mem_cons_self, rfl⟩
        · exact .inr ⟨List.mem_cons_of_mem _ hq.1, hq.2⟩

theorem Frontier.enqueue_none (h : enqueue target depth cs f = none) : target ∈ cs := by
  induction cs generalizing f with
  | nil => cases h
  | cons c cs ih =>
    simp only [enqueue] at h
    split at h
    · next hc => exact hc ▸ List.mem_cons_self
    split at h <;> exact List.mem_cons_of_mem _ (ih h)

/-- What one look-up leads to. -/
theorem Frontier.next_more {children : α → Except ε (List α)}
    (h : f.next target bound children = .ok (.inr f')) :
    ∃ node d rest cs, f.queue = (node, d) :: rest ∧ d < bound ∧ children node = .ok cs ∧
      enqueue target d cs { f with queue := rest } = some f' := by
  unfold Frontier.next at h
  split at h
  · cases h
  next node d rest hq =>
  split at h
  · cases h
  next hbound =>
  cases hcs : children node with
  | error e => rw [hcs] at h; cases h
  | ok cs =>
    rw [hcs] at h
    simp only [Except.map, Except.ok.injEq] at h
    split at h
    · cases h
    next g henq =>
    cases h
    exact ⟨node, d, rest, cs, hq, not_le.mp hbound, hcs, henq⟩

/-- Examining a node whose looked-up children include its successors keeps the frontier closed. -/
theorem Frontier.Closed.next {children : α → Except ε (List α)} (hclosed : f.Closed target E)
    (hchildren : ∀ x cs, children x = .ok cs → ∀ y, E x y → y ∈ cs)
    (h : f.next target bound children = .ok (.inr f')) : f'.Closed target E := by
  obtain ⟨node, d, rest, cs, hq, -, hcs, henq⟩ := next_more h
  obtain ⟨hkeep, hall, hnew, hqueue, -⟩ := enqueue_some henq
  constructor
  · intro x hx
    rcases hnew x hx with hx | hx
    · exact hclosed.1 x hx
    · exact hx.2.1
  · intro x hx
    rcases hnew x hx with hx | hx
    · rcases hclosed.2 x hx with ⟨d', hd'⟩ | hsucc
      · rw [hq] at hd'
        rcases List.mem_cons.mp hd' with heq | hd'
        · cases heq
          exact .inr fun y hy => (hall y (hchildren _ _ hcs y hy)).1
        · exact .inl ⟨d', hqueue _ hd'⟩
      · exact .inr fun y hy => hkeep y (hsucc y hy)
    · exact .inl ⟨_, hx.2.2⟩

/-- `false` is answered only with an empty queue. -/
theorem Frontier.next_false {children : α → Except ε (List α)}
    (h : f.next target bound children = .ok (.inl false)) : f.queue = [] := by
  unfold Frontier.next at h
  split at h
  · next hq => exact hq
  · next node d rest hq =>
    split at h
    · cases h
    cases hcs : children node with
    | error e => rw [hcs] at h; cases h
    | ok cs =>
      rw [hcs] at h
      simp only [Except.map, Except.ok.injEq] at h
      split at h <;> cases h

/-- `false` means that the target is out of reach of everything seen. -/
theorem Frontier.run_false {children : α → Except ε (List α)} {fuel : ℕ}
    (hclosed : f.Closed target E) (hchildren : ∀ x cs, children x = .ok cs → ∀ y, E x y → y ∈ cs)
    (h : f.run target bound children fuel = some (.ok false)) {x : α} (hx : x ∈ f.visited) :
    ¬ ReflTransGen E x target := by
  induction fuel generalizing f with
  | zero => cases h
  | succ fuel ih =>
    simp only [run] at h
    split at h
    · cases h
    · next found hnext =>
      cases h
      exact hclosed.not_reaches (next_false hnext) hx
    · next f' hnext =>
      obtain ⟨node, d, rest, cs, hq, -, -, henq⟩ := next_more hnext
      exact ih (hclosed.next hchildren hnext) h ((enqueue_some henq).1 x hx)

end Closed

section Termination
variable {target : α} {bound depth : ℕ} {f f' : Frontier α} {cs : List α}

/-- The nodes not yet seen and those still queued. -/
def Frontier.work (nodes : Finset α) (f : Frontier α) : ℕ :=
  (nodes \ f.visited.toFinset).card + f.queue.length

theorem Frontier.work_enqueue {nodes : Finset α} (hcs : ∀ c ∈ cs, c ∈ nodes)
    (h : enqueue target depth cs f = some f') : f'.work nodes ≤ f.work nodes := by
  induction cs generalizing f with
  | nil =>
    cases h
    exact le_rfl
  | cons c cs ih =>
    simp only [enqueue] at h
    have hrest := fun x hx => hcs x (List.mem_cons_of_mem c hx)
    split at h
    · cases h
    split at h
    · exact ih hrest h
    next hnew =>
    refine (ih hrest h).trans ?_
    have hmem : c ∈ nodes \ f.visited.toFinset := by
      simp [hcs c List.mem_cons_self, hnew]
    have herase : nodes \ (c :: f.visited).toFinset = (nodes \ f.visited.toFinset).erase c := by
      ext x
      simp only [List.toFinset_cons, Finset.mem_sdiff, Finset.mem_insert, Finset.mem_erase]
      tauto
    have hpos := Finset.card_pos.mpr ⟨c, hmem⟩
    simp only [work, herase, Finset.card_erase_of_mem hmem, List.length_append,
      List.length_singleton]
    omega

theorem Frontier.work_next {nodes : Finset α} {children : α → Except ε (List α)}
    (hnodes : ∀ x cs, children x = .ok cs → ∀ c ∈ cs, c ∈ nodes)
    (h : f.next target bound children = .ok (.inr f')) : f'.work nodes < f.work nodes := by
  obtain ⟨node, d, rest, cs, hq, -, hcs, henq⟩ := next_more h
  refine (work_enqueue (hnodes _ _ hcs) henq).trans_lt ?_
  simp [work, hq]

/-- On a finite graph the search answers, cycles or not. -/
theorem Frontier.run_terminates {nodes : Finset α} {children : α → Except ε (List α)} {fuel : ℕ}
    (hnodes : ∀ x cs, children x = .ok cs → ∀ c ∈ cs, c ∈ nodes) (hfuel : f.work nodes < fuel) :
    ∃ answer, f.run target bound children fuel = some answer := by
  induction fuel generalizing f with
  | zero => omega
  | succ fuel ih =>
    simp only [run]
    split
    · exact ⟨_, rfl⟩
    · exact ⟨_, rfl⟩
    · next f' hnext =>
      have hless := work_next hnodes hnext
      exact ih (by omega)

end Termination

/-- A search whose look-ups succeed does not fail. -/
theorem Frontier.run_ok {target : α} {bound fuel : ℕ} {children : α → List α} {f : Frontier α}
    (e : ε) : f.run target bound (fun x => (.ok (children x) : Except ε (List α))) fuel ≠
      some (.error e) := by
  induction fuel generalizing f with
  | zero => simp [run]
  | succ fuel ih =>
    simp only [run]
    split
    · next hnext =>
      unfold Frontier.next at hnext
      split at hnext
      · cases hnext
      · split at hnext <;> cases hnext
    · simp
    · exact ih

section Depth
variable {target start : α} {bound depth : ℕ} {E : α → α → Prop} {f f' : Frontier α}
  {cs : List α}

/-- Every queued node carries its distance from the start, and the queue is in order of distance. -/
structure Frontier.Ordered (E : α → α → Prop) (start : α) (f : Frontier α) : Prop where
  seen : start ∈ f.visited
  walk : ∀ q ∈ f.queue, Walk E start q.2 q.1
  shortest : ∀ q ∈ f.queue, ∀ n, Walk E start n q.1 → q.2 ≤ n
  sorted : f.queue.Pairwise fun q r => q.2 ≤ r.2 ∧ r.2 ≤ q.2 + 1

omit [DecidableEq α] in
theorem Frontier.ordered_start : (Frontier.start start).Ordered E start := by
  refine ⟨List.mem_singleton.mpr rfl, ?_, ?_, List.pairwise_singleton _ _⟩
  · intro q hq
    obtain rfl := List.mem_singleton.mp hq
    exact .nil
  · intro q hq n _
    obtain rfl := List.mem_singleton.mp hq
    exact Nat.zero_le n

theorem Frontier.enqueue_queue (h : enqueue target depth cs f = some f') :
    ∃ new, f'.queue = f.queue ++ new ∧ ∀ q ∈ new, q.1 ∈ cs ∧ q.1 ∉ f.visited ∧ q.2 = depth + 1 := by
  induction cs generalizing f with
  | nil =>
    cases h
    exact ⟨[], (List.append_nil _).symm, fun q hq => (List.not_mem_nil hq).elim⟩
  | cons c cs ih =>
    simp only [enqueue] at h
    split at h
    · cases h
    split at h
    · obtain ⟨new, hqueue, hnew⟩ := ih h
      exact ⟨new, hqueue, fun q hq => ⟨List.mem_cons_of_mem _ (hnew q hq).1, (hnew q hq).2⟩⟩
    next hc =>
    obtain ⟨new, hqueue, hnew⟩ := ih h
    refine ⟨(c, depth + 1) :: new, by simp [hqueue], fun q hq => ?_⟩
    rcases List.mem_cons.mp hq with rfl | hq
    · exact ⟨List.mem_cons_self, hc, rfl⟩
    · obtain ⟨hcs, hfresh, hdepth⟩ := hnew q hq
      exact ⟨List.mem_cons_of_mem _ hcs, fun hold => hfresh (List.mem_cons_of_mem _ hold), hdepth⟩

omit [DecidableEq α] in
/-- While a node at distance `d` heads the queue, everything within distance `d` was seen. -/
theorem Frontier.Ordered.seen_within (h : f.Ordered E start) (hclosed : f.Closed target E)
    {node : α} {d : ℕ} {rest : List (α × ℕ)} (hq : f.queue = (node, d) :: rest) {n : ℕ} {y : α}
    (hwalk : Walk E start n y) (hn : n ≤ d) : y ∈ f.visited := by
  induction hwalk with
  | nil => exact h.seen
  | @snoc n x y hwalk hstep ih =>
    rcases hclosed.2 x (ih (by omega)) with ⟨d', hd'⟩ | hsucc
    · -- a queued predecessor would be nearer than the head
      have hnear := h.shortest _ hd' n hwalk
      have hsorted := h.sorted
      rw [hq] at hd' hsorted
      rcases List.mem_cons.mp hd' with heq | hrest
      · cases heq
        omega
      · have := (List.rel_of_pairwise_cons hsorted hrest).1
        simp only at this hnear
        omega
    · exact hsucc y hstep

/-- Examining the head keeps the order. -/
theorem Frontier.Ordered.next {children : α → Except ε (List α)} (h : f.Ordered E start)
    (hclosed : f.Closed target E) (hchildren : ∀ x cs, children x = .ok cs → ∀ y ∈ cs, E x y)
    (hnext : f.next target bound children = .ok (.inr f')) : f'.Ordered E start := by
  obtain ⟨node, d, rest, cs, hq, -, hcs, henq⟩ := next_more hnext
  obtain ⟨new, hqueue, hnew⟩ := enqueue_queue henq
  have hhead : (node, d) ∈ f.queue := hq ▸ List.mem_cons_self
  have hrest : ∀ q ∈ rest, q ∈ f.queue := fun q hmem => hq ▸ List.mem_cons_of_mem _ hmem
  have hsorted := h.sorted
  rw [hq] at hsorted
  refine ⟨(enqueue_some henq).1 _ h.seen, fun q hmem => ?_, fun q hmem n hwalk => ?_, ?_⟩
  · rcases List.mem_append.mp (hqueue ▸ hmem) with hold | hadded
    · exact h.walk q (hrest q hold)
    · obtain ⟨hchild, -, hdepth⟩ := hnew q hadded
      rw [hdepth]
      exact .snoc (h.walk _ hhead) (hchildren _ _ hcs _ hchild)
  · rcases List.mem_append.mp (hqueue ▸ hmem) with hold | hadded
    · exact h.shortest q (hrest q hold) n hwalk
    · obtain ⟨-, hfresh, hdepth⟩ := hnew q hadded
      by_contra hlt
      exact hfresh (h.seen_within hclosed hq hwalk (by omega))
  · rw [hqueue]
    refine List.pairwise_append.mpr ⟨hsorted.of_cons, ?_, fun q hold r hadded => ?_⟩
    · refine List.pairwise_iff_forall_sublist.mpr fun hsub => ?_
      have hmem := hsub.subset
      have hfirst := (hnew _ (hmem List.mem_cons_self)).2.2
      have hsecond := (hnew _ (hmem (List.mem_cons_of_mem _ List.mem_cons_self))).2.2
      omega
    · have hbetween := List.rel_of_pairwise_cons hsorted hold
      have hdepth := (hnew r hadded).2.2
      simp only at hbetween hdepth
      omega

/-- A search whose start has everything within the bound, for a target out of reach, never answers
`true`. -/
theorem Frontier.run_ne_true {children : α → List α} {fuel : ℕ}
    (hchildren : ∀ x y, y ∈ children x ↔ E x y) (hreach : ¬ ReflTransGen E start target)
    (hdepth : ∀ y, ReflTransGen E start y → ∃ n < bound, Walk E start n y)
    (hordered : f.Ordered E start) (hclosed : f.Closed target E) :
    f.run target bound (fun x => (.ok (children x) : Except ε (List α))) fuel ≠
      some (.ok true) := by
  induction fuel generalizing f with
  | zero => simp [run]
  | succ fuel ih =>
    simp only [run]
    split
    · simp
    · next found hnext =>
      -- `true` would need a node at distance `bound` or an edge to the target
      rintro ⟨⟩
      unfold Frontier.next at hnext
      split at hnext
      · cases hnext
      next node d rest hq =>
      have hhead : (node, d) ∈ f.queue := hq ▸ List.mem_cons_self
      have hwalk := hordered.walk _ hhead
      split at hnext
      · next hbound =>
        obtain ⟨n, hn, hshort⟩ := hdepth node hwalk.reaches
        have hle := hordered.shortest _ hhead n hshort
        simp only at hle
        omega
      simp only [Except.map, Except.ok.injEq] at hnext
      split at hnext
      · next henq =>
        exact hreach (hwalk.reaches.tail ((hchildren _ _).mp (enqueue_none henq)))
      · cases hnext
    · next f' hnext =>
      refine ih (hordered.next hclosed ?_ hnext) (hclosed.next ?_ hnext)
      · rintro x _ ⟨⟩ y hy
        exact (hchildren x y).mp hy
      · rintro x _ ⟨⟩ y hy
        exact (hchildren x y).mpr hy

end Depth

end Search
