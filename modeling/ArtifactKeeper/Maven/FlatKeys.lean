import ArtifactKeeper.Machine
import ArtifactKeeper.Auth.Claims
import Mathlib.Data.List.Dedup

/-! Attribution of Maven flat keys on a storage backend that several repositories share: the
resolution of a key's owner from the catalog, and the write sequence of guard, claim, put and
release. -/

namespace ArtifactKeeper.Maven

inductive ClaimSource where
  | writeClaim | backfill
  deriving DecidableEq, Repr

/-- The catalog as far as one backend is concerned, and who last wrote each object. `rows` are the
live rows of `artifacts`, `files` the `files[]` entries of live parents, `owners` the table
`maven_flat_object_owner`. -/
structure FlatState where
  rows : List (Uuid × String)
  files : List (Uuid × String)
  owners : String → Option (Uuid × ClaimSource)
  objects : String → Option Uuid

def checksumSuffixes : List String := [".sha1", ".md5", ".sha256", ".asc"]

def stripSuffix (s suffix : String) : Option String :=
  if suffix.toList <:+ s.toList then
    some (String.ofList (s.toList.take (s.toList.length - suffix.toList.length)))
  else none

def stripChecksumSuffix (storageKey : String) : Option String :=
  checksumSuffixes.findSome? (stripSuffix storageKey)

inductive LayerResult where
  | absent
  | owner (repositoryId : Uuid)
  | ambiguous
  deriving DecidableEq, Repr

/-- Classify the distinct owners that one look-up found. -/
def queryLayer : List Uuid → LayerResult
  | [] => .absent
  | [only] => .owner only
  | _ => .ambiguous

/-- Try the layers in turn. -/
def resolveLayers : List (List Uuid) → Option Uuid
  | [] => none
  | owners :: rest =>
    match queryLayer owners with
    | .absent => resolveLayers rest
    | .owner owner => some owner
    | .ambiguous => none

namespace FlatState

/-- `SELECT DISTINCT repository_id … LIMIT 2`. -/
def distinctOwners (entries : List (Uuid × String)) (storageKey : String) : List Uuid :=
  ((entries.filter fun e => e.2 == storageKey).map (·.1)).dedup.take 2

def resolveDirect (s : FlatState) (storageKey : String) : Option Uuid :=
  resolveLayers [distinctOwners s.rows storageKey, ((s.owners storageKey).map (·.1)).toList,
    distinctOwners s.files storageKey]

def attributedOwner (s : FlatState) (storageKey : String) : Option Uuid :=
  (s.resolveDirect storageKey).or ((stripChecksumSuffix storageKey).bind s.resolveDirect)

def flatKeyReadable (s : FlatState) (repositoryId : Uuid) (storageBackend storageKey : String) :
    Bool :=
  storageBackend == "filesystem" || s.attributedOwner storageKey == some repositoryId

def guardFlatKeyWritable (s : FlatState) (repositoryId : Uuid)
    (storageBackend storageKey : String) : Except AppError Unit :=
  if storageBackend = "filesystem" then .ok ()
  else match s.attributedOwner storageKey with
    | none => .ok ()
    | some owner =>
      if owner ≠ repositoryId then
        .error (.authorization ("storage key '" ++ storageKey ++
          "' is owned by another repository; refusing cross-repository overwrite"))
      else .ok ()

def insertClaim (s : FlatState) (repositoryId : Uuid) (storageKey : String) : FlatState :=
  { s with owners := Function.update s.owners storageKey (some (repositoryId, .writeClaim)) }

/-- The `DELETE` of `release_flat_key_claim`. -/
def deleteClaim (s : FlatState) (repositoryId : Uuid) (storageKey : String) : FlatState :=
  if s.owners storageKey = some (repositoryId, .writeClaim) then
    { s with owners := Function.update s.owners storageKey none }
  else s

def store (s : FlatState) (repositoryId : Uuid) (storageKey : String) : FlatState :=
  { s with objects := Function.update s.objects storageKey (some repositoryId) }

def insertRow (s : FlatState) (repositoryId : Uuid) (storageKey : String) : FlatState :=
  { s with rows := s.rows ++ [(repositoryId, storageKey)] }

/-- Every repository that a live row, a `files[]` entry or a claim ties to the key. -/
def references (s : FlatState) (storageKey : String) : List Uuid :=
  ((s.rows ++ s.files).filter fun e => e.2 == storageKey).map (·.1) ++
    ((s.owners storageKey).map (·.1)).toList

end FlatState

inductive FlatKeyWriteClaim where
  | notApplicable | claimed | alreadyOwned
  deriving DecidableEq, Repr

def FlatKeyWriteClaim.needsReleaseOnFailure (c : FlatKeyWriteClaim) : Bool := c == .claimed

/-- An upload between its steps; `withRow` tells an artifact from a row-less checksum or
`maven-metadata.xml`. -/
inductive FlatProc where
  | idle
  | guarded (repositoryId : Uuid) (storageKey : String) (withRow : Bool)
  | conflicted (repositoryId : Uuid) (storageKey : String) (withRow : Bool)
  | claimed (repositoryId : Uuid) (storageKey : String) (withRow : Bool) (claim : FlatKeyWriteClaim)
  | stored (repositoryId : Uuid) (storageKey : String)
  | releasing (repositoryId : Uuid) (storageKey : String) (claim : FlatKeyWriteClaim)
  | finished (result : Except AppError Unit)

inductive FlatAction where
  | guardKey (repositoryId : Uuid) (storageKey : String) (withRow : Bool)
  | claim
  | readOwner
  | put (succeeds : Bool)
  | release
  | insertRow
  | crash
  deriving DecidableEq, Repr

/-- The uploads of any number of clients to repositories on one backend. A failed `put` stores
nothing; `crash` is a lost process or a failed statement. -/
def flatProtocol (storageBackend : String) : Protocol FlatState FlatProc FlatAction where
  step _ s l a :=
    match l, a with
    | .idle, .guardKey repositoryId storageKey withRow =>
      some (s, match s.guardFlatKeyWritable repositoryId storageBackend storageKey with
        | .ok () => .guarded repositoryId storageKey withRow
        | .error e => .finished (.error e))
    | .guarded repositoryId storageKey withRow, .claim =>
      if storageBackend = "filesystem" then
        some (s, .claimed repositoryId storageKey withRow .notApplicable)
      else match s.owners storageKey with
        | none => some (s.insertClaim repositoryId storageKey,
            .claimed repositoryId storageKey withRow .claimed)
        | some _ => some (s, .conflicted repositoryId storageKey withRow)
    | .conflicted repositoryId storageKey withRow, .readOwner =>
      some (s, if (s.owners storageKey).map (·.1) = some repositoryId
        then .claimed repositoryId storageKey withRow .alreadyOwned
        else .finished (.error (.authorization ("storage key '" ++ storageKey ++
          "' was concurrently claimed by another repository; " ++
          "refusing cross-repository first-publish race"))))
    | .claimed repositoryId storageKey withRow claim, .put succeeds =>
      if succeeds then
        some (s.store repositoryId storageKey,
          if withRow then .stored repositoryId storageKey else .finished (.ok ()))
      else some (s, .releasing repositoryId storageKey claim)
    | .releasing repositoryId storageKey claim, .release =>
      some (if claim.needsReleaseOnFailure then s.deleteClaim repositoryId storageKey else s,
        .finished (.error (.internal "storage error")))
    | .stored repositoryId storageKey, .insertRow =>
      some (s.insertRow repositoryId storageKey, .finished (.ok ()))
    | .idle, _ => none
    | .finished _, _ => none
    | _, .crash => some (s, .finished (.error (.database "connection lost")))
    | _, _ => none

/-- The upload relies on the claim of its repository on the key. -/
def FlatProc.reliesOn (l : FlatProc) (storageKey : String) : Bool :=
  match l with
  | .claimed _ key _ _ => key == storageKey
  | .stored _ key => key == storageKey
  | .releasing _ key claim => key == storageKey && claim.needsReleaseOnFailure
  | _ => false

/-- Nothing that another repository wrote is stored at the key. -/
def FlatState.OwnBytes (s : FlatState) (repositoryId : Uuid) (storageKey : String) : Prop :=
  ∀ writer ∈ s.objects storageKey, writer = repositoryId

instance (s : FlatState) (repositoryId : Uuid) (storageKey : String) :
    Decidable (s.OwnBytes repositoryId storageKey) :=
  inferInstanceAs (Decidable (∀ writer ∈ s.objects storageKey, _))

/-- The guard is reached with the references to the key agreeing on one repository, unless it
refuses; a fresh claim finds no foreign bytes at the key, nor at a sidecar of it without an owner
of its own; and a claim is released only when no other upload relies on it and no bytes are stored
that it alone attributes. -/
def writesSeparate (w : World FlatState FlatProc) (a : ℕ × FlatAction) : Prop :=
  match w.procs a.1, a.2 with
  | .idle, .guardKey repositoryId storageKey _ =>
    (∃ owner, w.shared.attributedOwner storageKey = some owner ∧ owner ≠ repositoryId) ∨
      ∀ x ∈ w.shared.references storageKey, ∀ y ∈ w.shared.references storageKey, x = y
  | .guarded repositoryId storageKey _, .claim =>
    w.shared.owners storageKey = none → w.shared.OwnBytes repositoryId storageKey ∧
      ∀ sidecar, stripChecksumSuffix sidecar = some storageKey →
        w.shared.resolveDirect sidecar = none → w.shared.OwnBytes repositoryId sidecar
  | .releasing repositoryId storageKey .claimed, .release =>
    (∀ q, q ≠ a.1 → (w.procs q).reliesOn storageKey = false) ∧
      (w.shared.objects storageKey = none ∨
        (repositoryId, storageKey) ∈ w.shared.rows ++ w.shared.files)
  | _, _ => True

section Resolution
variable {s : FlatState} {x y : Uuid} {k : String}

theorem mem_references : x ∈ s.references k ↔
    (x, k) ∈ s.rows ++ s.files ∨ ∃ source, s.owners k = some (x, source) := by
  simp only [FlatState.references, List.mem_append, List.mem_map, List.mem_filter, beq_iff_eq,
    Option.mem_toList, Option.map_eq_some_iff, Prod.exists]
  refine or_congr ⟨?_, ?_⟩ ⟨?_, ?_⟩
  · rintro ⟨owner, key, ⟨hmem, rfl⟩, rfl⟩
    exact hmem
  · intro hmem
    exact ⟨x, k, ⟨hmem, rfl⟩, rfl⟩
  · rintro ⟨owner, source, h, rfl⟩
    exact ⟨source, h⟩
  · rintro ⟨source, h⟩
    exact ⟨x, source, h, rfl⟩

theorem mem_distinctOwners {entries : List (Uuid × String)}
    (h : x ∈ FlatState.distinctOwners entries k) : (x, k) ∈ entries := by
  have hmem := List.mem_dedup.mp (List.mem_of_mem_take h)
  obtain ⟨⟨y, key⟩, hentry, rfl⟩ := List.mem_map.mp hmem
  simp only [List.mem_filter, beq_iff_eq] at hentry
  exact hentry.2 ▸ hentry.1

/-- Entries that agree on one repository leave one owner or none. -/
theorem distinctOwners_of_agree (entries : List (Uuid × String))
    (h : ∀ y, (y, k) ∈ entries → y = x) :
    FlatState.distinctOwners entries k = [] ∧ (x, k) ∉ entries ∨
      FlatState.distinctOwners entries k = [x] ∧ (x, k) ∈ entries := by
  set found := ((entries.filter fun e => e.2 == k).map (·.1)).dedup with hfound
  have hmem : ∀ y, y ∈ found ↔ (y, k) ∈ entries := by
    intro y
    simp [hfound]
  have hnodup : found.Nodup := List.nodup_dedup _
  unfold FlatState.distinctOwners
  rw [← hfound]
  cases hlist : found with
  | nil =>
    left
    refine ⟨rfl, fun hx => ?_⟩
    have hx' := (hmem x).mpr hx
    rw [hlist] at hx'
    exact List.not_mem_nil hx'
  | cons first rest =>
    have hall : ∀ y ∈ first :: rest, y = x := fun y hy => h y ((hmem y).mp (hlist ▸ hy))
    obtain rfl := hall first List.mem_cons_self
    have hrest : rest = [] := by
      rw [hlist] at hnodup
      refine List.eq_nil_iff_forall_not_mem.mpr fun y hy => ?_
      obtain rfl := hall y (List.mem_cons_of_mem _ hy)
      exact (List.nodup_cons.mp hnodup).1 hy
    subst hrest
    exact .inr ⟨rfl, (hmem first).mp (hlist ▸ List.mem_cons_self)⟩

theorem resolveLayers_mem {layers : List (List Uuid)} (h : resolveLayers layers = some x) :
    ∃ owners ∈ layers, x ∈ owners := by
  induction layers with
  | nil => cases h
  | cons owners rest ih =>
    simp only [resolveLayers] at h
    cases owners with
    | nil =>
      obtain ⟨found, hfound, hx⟩ := ih h
      exact ⟨found, List.mem_cons_of_mem _ hfound, hx⟩
    | cons first more =>
      cases more with
      | nil =>
        simp only [queryLayer, Option.some.injEq] at h
        exact ⟨_, List.mem_cons_self, h ▸ List.mem_cons_self⟩
      | cons second more => simp [queryLayer] at h

/-- The resolved owner refers to the key. -/
theorem resolveDirect_mem (h : s.resolveDirect k = some x) : x ∈ s.references k := by
  obtain ⟨owners, howners, hx⟩ := resolveLayers_mem h
  simp only [List.mem_cons, List.not_mem_nil, or_false] at howners
  refine mem_references.mpr ?_
  rcases howners with rfl | rfl | rfl
  · exact .inl (List.mem_append_left _ (mem_distinctOwners hx))
  · simp only [Option.mem_toList, Option.map_eq_some_iff] at hx
    obtain ⟨⟨owner, source⟩, ho, rfl⟩ := hx
    exact .inr ⟨source, ho⟩
  · exact .inl (List.mem_append_right _ (mem_distinctOwners hx))

/-- A key that one repository and no other refers to resolves to it. -/
theorem resolveDirect_of_agree (hall : ∀ y ∈ s.references k, y = x) (hx : x ∈ s.references k) :
    s.resolveDirect k = some x := by
  have hrows := distinctOwners_of_agree s.rows (k := k) (x := x)
    fun y hy => hall y (mem_references.mpr (.inl (List.mem_append_left _ hy)))
  have hfiles := distinctOwners_of_agree s.files (k := k) (x := x)
    fun y hy => hall y (mem_references.mpr (.inl (List.mem_append_right _ hy)))
  unfold FlatState.resolveDirect
  rcases hrows with ⟨hrows, hnorow⟩ | ⟨hrows, -⟩
  · rw [hrows]
    cases howner : s.owners k with
    | some owner =>
      have heq := hall owner.1 (mem_references.mpr (.inr ⟨owner.2, howner⟩))
      simp [resolveLayers, queryLayer, heq]
    | none =>
      rcases hfiles with ⟨-, hnofile⟩ | ⟨hfiles, -⟩
      · rcases mem_references.mp hx with hmem | ⟨source, hsource⟩
        · rcases List.mem_append.mp hmem with hmem | hmem
          · exact (hnorow hmem).elim
          · exact (hnofile hmem).elim
        · simp [howner] at hsource
      · simp [resolveLayers, queryLayer, hfiles]
  · simp [resolveLayers, queryLayer, hrows]

theorem attributedOwner_eq_some : s.attributedOwner k = some x ↔
    s.resolveDirect k = some x ∨ s.resolveDirect k = none ∧
      ∃ base, stripChecksumSuffix k = some base ∧ s.resolveDirect base = some x := by
  unfold FlatState.attributedOwner
  cases s.resolveDirect k <;> simp [Option.bind_eq_some_iff]

end Resolution

/-- What a repository may read, it wrote last. -/
def FlatState.BytesOwned (s : FlatState) : Prop :=
  ∀ repositoryId storageKey, s.attributedOwner storageKey = some repositoryId →
    s.OwnBytes repositoryId storageKey

/-- The repository holds the claim on the key, and no other repository has anything there. -/
structure FlatState.Held (s : FlatState) (repositoryId : Uuid) (storageKey : String) : Prop where
  claim : ∃ source, s.owners storageKey = some (repositoryId, source)
  alone : ∀ x ∈ s.references storageKey, x = repositoryId
  bytes : s.OwnBytes repositoryId storageKey

/-- What another repository has at the key is borne out by the bytes. -/
structure FlatState.Right (s : FlatState) (repositoryId : Uuid) (storageKey : String) :
    Prop where
  entries : ∀ x, (x, storageKey) ∈ s.rows ++ s.files → x ≠ repositoryId →
    s.objects storageKey = some x
  claim : ∀ x source, s.owners storageKey = some (x, source) → s.OwnBytes x storageKey

/-- What an upload knows between its steps. -/
def FlatOk (_ : ℕ) (l : FlatProc) (s : FlatState) : Prop :=
  match l with
  | .idle | .finished _ => True
  | .guarded repositoryId storageKey _ => s.Right repositoryId storageKey
  | .conflicted repositoryId storageKey _ => s.Right repositoryId storageKey
  | .claimed repositoryId storageKey _ _ => s.Held repositoryId storageKey
  | .stored repositoryId storageKey =>
    s.Held repositoryId storageKey ∧ s.objects storageKey = some repositoryId
  | .releasing repositoryId storageKey claim =>
    claim.needsReleaseOnFailure = true → s.Held repositoryId storageKey

section Steps
variable {s : FlatState} {r r' : Uuid} {k k' : String} {p : ℕ} {l : FlatProc}

theorem FlatState.Held.resolves (h : s.Held r k) : s.resolveDirect k = some r := by
  obtain ⟨source, hsource⟩ := h.claim
  exact resolveDirect_of_agree h.alone (mem_references.mpr (.inr ⟨source, hsource⟩))

theorem FlatState.Held.unique (h : s.Held r k) (h' : s.Held r' k) : r' = r := by
  obtain ⟨source, hsource⟩ := h'.claim
  exact h.alone r' (mem_references.mpr (.inr ⟨source, hsource⟩))

/-- A guard that passes while the references agree finds nothing of another repository. -/
theorem FlatState.BytesOwned.guarded (h : s.BytesOwned)
    (hpass : ∀ owner, s.attributedOwner k = some owner → owner = r)
    (hagree : ∀ x ∈ s.references k, ∀ y ∈ s.references k, x = y) : s.Right r k := by
  have hresolves : ∀ x ∈ s.references k, s.attributedOwner k = some x := fun x hx =>
    attributedOwner_eq_some.mpr (.inl (resolveDirect_of_agree (fun y hy => hagree y hy x hx) hx))
  constructor
  · intro x hx hne
    exact (hne (hpass x (hresolves x (mem_references.mpr (.inl hx))))).elim
  · intro x source hsource
    exact h x k (hresolves x (mem_references.mpr (.inr ⟨source, hsource⟩)))

/-- With the claim in hand and no foreign bytes, the repository is alone at the key. -/
theorem FlatState.Right.held (h : s.Right r k) {source : ClaimSource}
    (hclaim : s.owners k = some (r, source)) : s.Held r k := by
  refine ⟨⟨source, hclaim⟩, fun x hx => ?_, h.claim r source hclaim⟩
  by_contra hne
  rcases mem_references.mp hx with hentry | ⟨source', hsource'⟩
  · exact hne (h.claim r source hclaim x (h.entries x hentry hne))
  · rw [hclaim] at hsource'
    exact hne (congrArg Prod.fst (Option.some.inj hsource')).symm

/-- Keys whose entries and claim stay as they are resolve as before. -/
theorem resolveDirect_insertClaim (hne : k' ≠ k) :
    (s.insertClaim r k).resolveDirect k' = s.resolveDirect k' := by
  simp only [FlatState.resolveDirect, FlatState.insertClaim, Function.update_of_ne hne]

/-- A fresh claim on a key without foreign bytes. -/
theorem insertClaim_held (hright : s.Right r k) (hbytes : s.OwnBytes r k) :
    (s.insertClaim r k).Held r k := by
  have hclaim : (s.insertClaim r k).owners k = some (r, .writeClaim) := Function.update_self ..
  have hright' : (s.insertClaim r k).Right r k := by
    refine ⟨hright.entries, fun x source hsource => ?_⟩
    rw [hclaim] at hsource
    cases hsource
    exact hbytes
  exact hright'.held hclaim

theorem insertClaim_bytesOwned (h : s.BytesOwned) (hright : s.Right r k) (hbytes : s.OwnBytes r k)
    (hsidecars : ∀ sidecar, stripChecksumSuffix sidecar = some k →
      s.resolveDirect sidecar = none → s.OwnBytes r sidecar) :
    (s.insertClaim r k).BytesOwned := by
  have hheld := (insertClaim_held hright hbytes).resolves
  intro x key howner
  by_cases hkey : key = k
  · subst hkey
    rcases attributedOwner_eq_some.mp howner with hdirect | ⟨hnone, -⟩
    · rw [hheld] at hdirect
      cases hdirect
      exact hbytes
    · rw [hheld] at hnone
      cases hnone
  · rcases attributedOwner_eq_some.mp howner with hdirect | ⟨hnone, base, hbase, hresolve⟩
    · rw [resolveDirect_insertClaim hkey] at hdirect
      exact h x key (attributedOwner_eq_some.mpr (.inl hdirect))
    · rw [resolveDirect_insertClaim hkey] at hnone
      by_cases hk : base = k
      · subst hk
        rw [hheld] at hresolve
        cases hresolve
        exact hsidecars key hbase hnone
      · rw [resolveDirect_insertClaim hk] at hresolve
        exact h x key (attributedOwner_eq_some.mpr (.inr ⟨hnone, base, hbase, hresolve⟩))

/-- What an upload knows carries over to a state in which what it is made of does. -/
theorem FlatOk.imp {s' : FlatState} (h : FlatOk p l s)
    (hright : ∀ r key, s.Right r key → s'.Right r key)
    (hheld : ∀ r key, l.reliesOn key = true → s.Held r key → s'.Held r key)
    (hstored : ∀ r key, s.Held r key → s.objects key = some r → s'.objects key = some r) :
    FlatOk p l s' := by
  cases l with
  | idle | finished _ => trivial
  | guarded r key withRow => exact hright r key h
  | conflicted r key withRow => exact hright r key h
  | claimed r key withRow claim => exact hheld r key (beq_self_eq_true key) h
  | stored r key => exact ⟨hheld r key (beq_self_eq_true key) h.1, hstored r key h.1 h.2⟩
  | releasing r key claim =>
    intro hneeds
    exact hheld r key (by simp [FlatProc.reliesOn, hneeds]) (h hneeds)

theorem FlatOk.insertClaim (h : FlatOk p l s) (hfree : s.owners k = none)
    (hbytes : s.OwnBytes r k) : FlatOk p l (s.insertClaim r k) := by
  refine h.imp (fun r' key hright => ?_) (fun r' key _ hheld => ?_) fun r' key _ hobject => hobject
  · refine ⟨hright.entries, fun x source hsource => ?_⟩
    by_cases hkey : key = k
    · subst hkey
      simp only [FlatState.insertClaim, Function.update_self, Option.some.injEq,
        Prod.mk.injEq] at hsource
      exact hsource.1 ▸ hbytes
    · simp only [FlatState.insertClaim, Function.update_of_ne hkey] at hsource
      exact hright.claim x source hsource
  · obtain ⟨source, hsource⟩ := hheld.claim
    have hkey : key ≠ k := by
      rintro rfl
      simp [hfree] at hsource
    refine ⟨⟨source, ?_⟩, fun x hx => hheld.alone x ?_, hheld.bytes⟩
    · simpa only [FlatState.insertClaim, Function.update_of_ne hkey] using hsource
    · simpa only [FlatState.references, FlatState.insertClaim, Function.update_of_ne hkey] using hx

/-- A released claim that nothing rests on. -/
theorem deleteClaim_bytesOwned (h : s.BytesOwned) (hheld : s.Held r k)
    (hbare : s.objects k = none ∨ (r, k) ∈ s.rows ++ s.files) : (s.deleteClaim r k).BytesOwned := by
  unfold FlatState.deleteClaim
  split
  swap
  · exact h
  set s' : FlatState := { s with owners := Function.update s.owners k none } with hs'
  have hother : ∀ {key}, key ≠ k → s'.resolveDirect key = s.resolveDirect key := by
    intro key hkey
    simp only [FlatState.resolveDirect, hs', Function.update_of_ne hkey]
  have hsub : ∀ x ∈ s'.references k, x = r ∧ (x, k) ∈ s.rows ++ s.files := by
    intro x hx
    rcases mem_references.mp hx with hentry | ⟨source, hsource⟩
    · exact ⟨hheld.alone x (mem_references.mpr (.inl hentry)), hentry⟩
    · simp [hs'] at hsource
  intro x key howner
  by_cases hkey : key = k
  · subst hkey
    rcases hbare with hnone | hentry
    · intro writer hwriter
      simp [hs', hnone] at hwriter
    · have hdirect : s'.resolveDirect key = some r :=
        resolveDirect_of_agree (fun y hy => (hsub y hy).1) (mem_references.mpr (.inl hentry))
      rcases attributedOwner_eq_some.mp howner with hx | ⟨hnone, -⟩
      · rw [hdirect] at hx
        cases hx
        exact hheld.bytes
      · simp [hdirect] at hnone
  · refine h x key (attributedOwner_eq_some.mpr ?_)
    rcases attributedOwner_eq_some.mp howner with hdirect | ⟨hnone, base, hbase, hresolve⟩
    · exact .inl (hother hkey ▸ hdirect)
    · refine .inr ⟨hother hkey ▸ hnone, base, hbase, ?_⟩
      by_cases hk : base = k
      · subst hk
        rw [(hsub x (resolveDirect_mem hresolve)).1]
        exact hheld.resolves
      · exact hother hk ▸ hresolve

theorem FlatOk.deleteClaim (h : FlatOk p l s) (hrelies : l.reliesOn k = false) :
    FlatOk p l (s.deleteClaim r k) := by
  unfold FlatState.deleteClaim
  split
  swap
  · exact h
  refine h.imp (fun r' key hright => ?_) (fun r' key hrely hheld => ?_)
    fun r' key _ hobject => hobject
  · refine ⟨hright.entries, fun x source hsource => ?_⟩
    by_cases hkey : key = k
    · subst hkey
      simp at hsource
    · simp only [Function.update_of_ne hkey] at hsource
      exact hright.claim x source hsource
  · have hkey : key ≠ k := by
      rintro rfl
      simp [hrelies] at hrely
    obtain ⟨source, hsource⟩ := hheld.claim
    refine ⟨⟨source, ?_⟩, fun x hx => hheld.alone x ?_, hheld.bytes⟩
    · simpa only [Function.update_of_ne hkey] using hsource
    · simpa only [FlatState.references, Function.update_of_ne hkey] using hx

/-- The holder of the claim writes. -/
theorem store_bytesOwned (h : s.BytesOwned) (hheld : s.Held r k) : (s.store r k).BytesOwned := by
  intro x key howner
  have howner' : s.attributedOwner key = some x := howner
  intro writer hwriter
  by_cases hkey : key = k
  · subst hkey
    simp only [FlatState.store, Function.update_self, Option.mem_def, Option.some.injEq] at hwriter
    subst hwriter
    rcases attributedOwner_eq_some.mp howner' with hdirect | ⟨hnone, -⟩
    · rw [hheld.resolves] at hdirect
      exact Option.some.inj hdirect
    · simp [hheld.resolves] at hnone
  · simp only [FlatState.store, Function.update_of_ne hkey] at hwriter
    exact h x key howner' writer hwriter

theorem OwnBytes_store : (s.store r k).OwnBytes r k := by
  intro writer hwriter
  simp only [FlatState.store, Function.update_self, Option.mem_def, Option.some.injEq] at hwriter
  exact hwriter.symm

theorem FlatOk.store (h : FlatOk p l s) (hheld : s.Held r k) : FlatOk p l (s.store r k) := by
  have hobjects : ∀ {key}, key ≠ k → (s.store r k).objects key = s.objects key :=
    fun hkey => Function.update_of_ne hkey ..
  refine h.imp (fun r' key hright => ?_) (fun r' key _ hheld' => ?_) fun r' key hheld' hobject => ?_
  · by_cases hkey : key = k
    · subst hkey
      refine ⟨fun x hx _ => ?_, fun x source hsource => ?_⟩
      · rw [hheld.alone x (mem_references.mpr (.inl hx))]
        exact Function.update_self ..
      · rw [hheld.alone x (mem_references.mpr (.inr ⟨source, hsource⟩))]
        exact OwnBytes_store
    · refine ⟨fun x hx hne => ?_, fun x source hsource writer hwriter => ?_⟩
      · rw [hobjects hkey]
        exact hright.entries x hx hne
      · rw [hobjects hkey] at hwriter
        exact hright.claim x source hsource writer hwriter
  · refine ⟨hheld'.claim, hheld'.alone, ?_⟩
    by_cases hkey : key = k
    · subst hkey
      rw [hheld.unique hheld']
      exact OwnBytes_store
    · intro writer hwriter
      rw [hobjects hkey] at hwriter
      exact hheld'.bytes writer hwriter
  · by_cases hkey : key = k
    · subst hkey
      rw [hheld.unique hheld']
      exact Function.update_self ..
    · rw [hobjects hkey]
      exact hobject

theorem mem_references_insertRow {x : Uuid} {key : String} :
    x ∈ (s.insertRow r k).references key ↔ x ∈ s.references key ∨ x = r ∧ key = k := by
  simp only [mem_references, FlatState.insertRow, List.mem_append, List.mem_singleton,
    Prod.mk.injEq]
  tauto

/-- The row of a stored object repeats the claim. -/
theorem resolveDirect_insertRow (hheld : s.Held r k) (key : String) :
    (s.insertRow r k).resolveDirect key = s.resolveDirect key := by
  by_cases hkey : key = k
  · subst hkey
    rw [hheld.resolves]
    refine resolveDirect_of_agree (fun y hy => ?_) (mem_references_insertRow.mpr (.inr ⟨rfl, rfl⟩))
    rcases mem_references_insertRow.mp hy with hold | ⟨rfl, -⟩
    · exact hheld.alone y hold
    · rfl
  · have hrows : FlatState.distinctOwners (s.rows ++ [(r, k)]) key =
        FlatState.distinctOwners s.rows key := by
      simp [FlatState.distinctOwners, List.filter_append, Ne.symm hkey]
    simp only [FlatState.resolveDirect, FlatState.insertRow, hrows]

theorem insertRow_bytesOwned (h : s.BytesOwned) (hheld : s.Held r k) :
    (s.insertRow r k).BytesOwned := by
  intro x key howner
  refine h x key (attributedOwner_eq_some.mpr ?_)
  simpa only [attributedOwner_eq_some, resolveDirect_insertRow hheld] using howner

theorem FlatOk.insertRow (h : FlatOk p l s) (hheld : s.Held r k) (hobject : s.objects k = some r) :
    FlatOk p l (s.insertRow r k) := by
  refine h.imp (fun r' key hright => ?_) (fun r' key _ hheld' => ?_) fun r' key _ hobj => hobj
  · refine ⟨fun x hx hne => ?_, hright.claim⟩
    simp only [FlatState.insertRow, List.mem_append, List.mem_singleton, Prod.mk.injEq] at hx
    rcases hx with (hrow | ⟨rfl, rfl⟩) | hfile
    · exact hright.entries x (List.mem_append_left _ hrow) hne
    · exact hobject
    · exact hright.entries x (List.mem_append_right _ hfile) hne
  · refine ⟨hheld'.claim, fun x hx => ?_, hheld'.bytes⟩
    rcases mem_references_insertRow.mp hx with hold | ⟨rfl, rfl⟩
    · exact hheld'.alone x hold
    · exact (hheld.unique hheld').symm

end Steps

/-- Every step that meets the conditions keeps the bytes with their owners and what every upload
knows. -/
theorem flatStep_ok {storageBackend : String} (hcloud : storageBackend ≠ "filesystem")
    {w : World FlatState FlatProc} {p : ℕ} {a : FlatAction} {s' : FlatState} {l' : FlatProc}
    (h : w.shared.BytesOwned) (hprocs : ∀ q, FlatOk q (w.procs q) w.shared)
    (hok : writesSeparate w (p, a))
    (hstep : (flatProtocol storageBackend).step p w.shared (w.procs p) a = some (s', l')) :
    s'.BytesOwned ∧ FlatOk p l' s' ∧ ∀ q, q ≠ p → FlatOk q (w.procs q) s' := by
  have hown := hprocs p
  have stay : ∀ {l : FlatProc}, FlatOk p l w.shared → w.shared.BytesOwned ∧ FlatOk p l w.shared ∧
      ∀ q, q ≠ p → FlatOk q (w.procs q) w.shared := fun hl => ⟨h, hl, fun q _ => hprocs q⟩
  cases hp : w.procs p with
  | idle =>
    rw [hp] at hstep
    cases a <;> simp only [flatProtocol, reduceCtorEq] at hstep
    case guardKey r k withRow =>
      simp only [writesSeparate, hp] at hok
      cases hstep
      refine stay ?_
      unfold FlatState.guardFlatKeyWritable
      rw [if_neg hcloud]
      rcases hok with ⟨owner, howner, hne⟩ | hagree
      · simp only [howner, if_pos hne]
        trivial
      · cases howner : w.shared.attributedOwner k with
        | none => exact h.guarded (by simp [howner]) hagree
        | some owner =>
          by_cases hne : owner = r
          · simp only [hne, ne_eq, not_true_eq_false, if_false]
            exact h.guarded (by simp [howner, hne]) hagree
          · simp only [ne_eq, hne, not_false_eq_true, if_true]
            trivial
  | guarded r k withRow =>
    rw [hp] at hstep hown
    cases a <;> simp only [flatProtocol, reduceCtorEq] at hstep
    case claim =>
      simp only [writesSeparate, hp] at hok
      rw [if_neg hcloud] at hstep
      split at hstep <;> cases hstep
      · next hfree =>
        obtain ⟨hbytes, hsidecars⟩ := hok hfree
        exact ⟨insertClaim_bytesOwned h hown hbytes hsidecars, insertClaim_held hown hbytes,
          fun q _ => (hprocs q).insertClaim hfree hbytes⟩
      · exact stay hown
    case crash =>
      cases hstep
      exact stay trivial
  | conflicted r k withRow =>
    rw [hp] at hstep hown
    cases a <;> simp only [flatProtocol, reduceCtorEq] at hstep
    case readOwner =>
      cases hstep
      refine stay ?_
      split
      · next howner =>
        obtain ⟨⟨owner, source⟩, hclaim, rfl⟩ := Option.map_eq_some_iff.mp howner
        exact FlatState.Right.held hown hclaim
      · trivial
    case crash =>
      cases hstep
      exact stay trivial
  | claimed r k withRow claim =>
    rw [hp] at hstep hown
    cases a <;> simp only [flatProtocol, reduceCtorEq] at hstep
    case put succeeds =>
      split at hstep <;> cases hstep
      · have hheld' : (w.shared.store r k).Held r k := ⟨hown.claim, hown.alone, OwnBytes_store⟩
        refine ⟨store_bytesOwned h hown, ?_, fun q _ => (hprocs q).store hown⟩
        split
        · exact ⟨hheld', Function.update_self ..⟩
        · trivial
      · exact stay fun _ => hown
    case crash =>
      cases hstep
      exact stay trivial
  | stored r k =>
    rw [hp] at hstep hown
    cases a <;> simp only [flatProtocol, reduceCtorEq] at hstep
    case insertRow =>
      cases hstep
      exact ⟨insertRow_bytesOwned h hown.1, trivial, fun q _ => (hprocs q).insertRow hown.1 hown.2⟩
    case crash =>
      cases hstep
      exact stay trivial
  | releasing r k claim =>
    rw [hp] at hstep hown
    cases a <;> simp only [flatProtocol, reduceCtorEq] at hstep
    case release =>
      cases hstep
      cases claim with
      | notApplicable | alreadyOwned => exact stay trivial
      | claimed =>
        simp only [writesSeparate, hp] at hok
        exact ⟨deleteClaim_bytesOwned h (hown rfl) hok.2, trivial,
          fun q hq => (hprocs q).deleteClaim (hok.1 q hq)⟩
    case crash =>
      cases hstep
      exact stay trivial
  | finished result =>
    rw [hp] at hstep
    cases a <;> simp only [flatProtocol, reduceCtorEq] at hstep

/-- Two repositories have a live row at one flat key; the first one wrote the object. -/
def sharedKey : FlatState where
  rows := [(1, "maven/g/a/1/a-1.jar"), (2, "maven/g/a/1/a-1.jar")]
  files := []
  owners _ := none
  objects key := if key = "maven/g/a/1/a-1.jar" then some 1 else none

/-- An unclaimed key without an object. -/
def freshKey : FlatState := ⟨[], [], fun _ => none, fun _ => none⟩

def freshKeyIdle : World FlatState FlatProc := ⟨freshKey, fun _ => .idle⟩

/-- Two repositories publish the same key at once: the second is refused, the first writes. -/
def racingWrites : List (ℕ × FlatAction) :=
  [(0, .guardKey 1 "maven/a.jar" true), (1, .guardKey 2 "maven/a.jar" true), (0, .claim),
    (1, .claim), (1, .readOwner), (0, .put true), (0, .insertRow)]

end ArtifactKeeper.Maven
