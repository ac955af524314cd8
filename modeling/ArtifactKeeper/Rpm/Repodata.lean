import ArtifactKeeper.JsonValue
import ArtifactKeeper.Text
import Mathlib.Algebra.Order.Ring.Int
import Mathlib.Data.List.Sort
import Mathlib.Order.Nat

/-! What an RPM index is rendered from, and the fingerprint that tells one state of it from
another. -/

namespace ArtifactKeeper.Rpm

/-- A live row of `artifacts`. -/
structure ArtifactRow where
  id : ℕ
  repositoryId : ℕ
  path : String
  name : String
  version : Option String
  sizeBytes : ℤ
  checksumSha256 : String
  storageKey : String
  updatedAt : ℤ
  deriving DecidableEq

/-- The live rows, what `artifact_metadata` has for an id, and the latest `updated_at` given out. -/
structure Tables where
  artifacts : List ArtifactRow
  metadata : List (ℕ × Json)
  clock : ℤ

inductive Write where
  /-- An insert, or an upsert on the repository and the path. -/
  | put (row : ArtifactRow)
  | delete (ids : List ℕ)
  | describe (id : ℕ) (metadata : Json)

def Write.apply (t : Tables) : Write → Tables
  | .put row => { t with
      artifacts := t.artifacts.filter (fun old =>
        old.repositoryId ≠ row.repositoryId ∨ old.path ≠ row.path) ++ [row]
      clock := row.updatedAt }
  | .delete ids => { t with artifacts := t.artifacts.filter (·.id ∉ ids) }
  | .describe id metadata => { t with metadata := (id, metadata) :: t.metadata }

/-- `updated_at` grows from write to write. -/
def Write.Stamped (t : Tables) : Write → Prop
  | .put row => t.clock < row.updatedAt
  | _ => True

structure RepodataFingerprint where
  repoIds : List ℕ
  liveRpmCount : ℕ
  latestUpdate : Option ℤ
  deriving DecidableEq

structure RpmArtifact where
  row : ArtifactRow
  metadata : Option Json

/-- The rows of the two queries. -/
def liveRpms (t : Tables) (repoIds : List ℕ) : List ArtifactRow :=
  t.artifacts.filter fun a => a.repositoryId ∈ repoIds ∧ ".rpm".toList.isSuffixOf a.path.toList

def repodataFingerprint (t : Tables) (repoIds : List ℕ) : RepodataFingerprint where
  repoIds := repoIds
  liveRpmCount := (liveRpms t repoIds).length
  latestUpdate := ((liveRpms t repoIds).map (·.updatedAt)).max?

/-- `NULL`s last. -/
def versionOrd : Option String → Option String → Ordering
  | some v, some w => compare v w
  | some _, none => .lt
  | none, some _ => .gt
  | none, none => .eq

def rowOrd (a b : ArtifactRow) : Ordering :=
  (compare a.name b.name).then ((versionOrd a.version b.version).then
    ((compare a.path b.path).then (compare a.id b.id)))

def collectRepodataArtifacts (t : Tables) (repoIds : List ℕ) : List RpmArtifact :=
  ((liveRpms t repoIds).insertionSort fun a b => (rowOrd a b).isLE).map fun row =>
    ⟨row, (t.metadata.find? (·.1 = row.id)).map (·.2)⟩

/-- No row is newer than the clock. -/
def Tables.Clocked (t : Tables) : Prop := ∀ row ∈ t.artifacts, row.updatedAt ≤ t.clock

/-- Every write of a list is stamped where it comes. -/
def AllStamped (t : Tables) : List Write → Prop
  | [] => True
  | w :: rest => w.Stamped t ∧ AllStamped (w.apply t) rest

variable {t : Tables} {w : Write} {ws : List Write} {m : ℤ}

theorem Tables.Clocked.apply (h : t.Clocked) (hw : w.Stamped t) : (w.apply t).Clocked := by
  cases w with
  | put row =>
    intro old hold
    rcases List.mem_append.mp hold with hold | hold
    · exact (h old (List.mem_of_mem_filter hold)).trans (le_of_lt hw)
    · rw [List.mem_singleton.mp hold]
      exact le_rfl
  | delete ids => exact fun old hold => h old (List.mem_of_mem_filter hold)
  | describe id metadata => exact h

theorem le_clock_apply (hw : w.Stamped t) : t.clock ≤ (w.apply t).clock := by
  cases w with
  | put row => exact le_of_lt hw
  | _ => exact le_rfl

/-- The covered rows that are not newer than `m`. -/
def rpmsUntil (t : Tables) (repoIds : List ℕ) (m : ℤ) : List ArtifactRow :=
  (liveRpms t repoIds).filter (·.updatedAt ≤ m)

/-- A write adds no row that is as old as the clock was. -/
theorem rpmsUntil_apply (repoIds : List ℕ) (hm : m ≤ t.clock) (hw : w.Stamped t) :
    (rpmsUntil (w.apply t) repoIds m).Sublist (rpmsUntil t repoIds m) := by
  have hkept : ∀ keep : ArtifactRow → Bool,
      (rpmsUntil { t with artifacts := t.artifacts.filter keep } repoIds m).Sublist
        (rpmsUntil t repoIds m) :=
    fun keep => (List.filter_sublist.filter _).filter _
  cases w with
  | put row =>
    have hsame : rpmsUntil (Write.apply t (.put row)) repoIds m =
        rpmsUntil { t with artifacts := t.artifacts.filter fun old =>
          old.repositoryId ≠ row.repositoryId ∨ old.path ≠ row.path } repoIds m := by
      have hnil : ([row].filter fun a => a.repositoryId ∈ repoIds ∧
          ".rpm".toList.isSuffixOf a.path.toList).filter (·.updatedAt ≤ m) = [] := by
        refine List.filter_eq_nil_iff.mpr fun a ha => ?_
        rw [List.mem_singleton.mp (List.mem_of_mem_filter ha)]
        simpa using hm.trans_lt hw
      simp only [rpmsUntil, liveRpms, Write.apply, List.filter_append]
      exact (congrArg _ hnil).trans (List.append_nil _)
    exact hsame ▸ hkept _
  | delete ids => exact hkept _
  | describe id metadata => exact List.Sublist.refl _

theorem rpmsUntil_foldl (repoIds : List ℕ) (hm : m ≤ t.clock) (hws : AllStamped t ws) :
    (rpmsUntil (ws.foldl Write.apply t) repoIds m).Sublist (rpmsUntil t repoIds m) := by
  induction ws generalizing t with
  | nil => exact List.Sublist.refl _
  | cons w rest ih =>
    exact (ih (hm.trans (le_clock_apply hws.1)) hws.2).trans (rpmsUntil_apply repoIds hm hws.1)

theorem Tables.Clocked.foldl (h : t.Clocked) (hws : AllStamped t ws) :
    (ws.foldl Write.apply t).Clocked := by
  induction ws generalizing t with
  | nil => exact h
  | cons w rest ih => exact ih (h.apply hws.1) hws.2

theorem le_clock_foldl (hws : AllStamped t ws) : t.clock ≤ (ws.foldl Write.apply t).clock := by
  induction ws generalizing t with
  | nil => exact le_rfl
  | cons w rest ih => exact (le_clock_apply hws.1).trans (ih hws.2)

theorem allStamped_append {first second : List Write} :
    AllStamped t (first ++ second) ↔
      AllStamped t first ∧ AllStamped (first.foldl Write.apply t) second := by
  induction first generalizing t with
  | nil => simp [AllStamped]
  | cons w rest ih => simp [AllStamped, ih, and_assoc]

theorem rpmsUntil_eq_of_latest {repoIds : List ℕ}
    (h : ((liveRpms t repoIds).map (·.updatedAt)).max? = some m) :
    rpmsUntil t repoIds m = liveRpms t repoIds := by
  refine List.filter_eq_self.mpr fun row hrow => decide_eq_true ?_
  exact (List.max?_eq_some_iff.mp h).2 _ (List.mem_map_of_mem hrow)

/-- Where a fingerprint returns, the rows are those it was taken from, and none of them was missing
in between. -/
theorem fingerprint_returns {repoIds : List ℕ} {first second : List Write} (h : t.Clocked)
    (hws : AllStamped t (first ++ second))
    (heq : repodataFingerprint ((first ++ second).foldl Write.apply t) repoIds =
      repodataFingerprint t repoIds) :
    liveRpms ((first ++ second).foldl Write.apply t) repoIds = liveRpms t repoIds ∧
      (liveRpms t repoIds).Sublist (liveRpms (first.foldl Write.apply t) repoIds) := by
  obtain ⟨hfirst, hsecond⟩ := allStamped_append.mp hws
  set t₁ := first.foldl Write.apply t with ht₁
  have hfold : (first ++ second).foldl Write.apply t = second.foldl Write.apply t₁ :=
    List.foldl_append
  rw [hfold] at heq ⊢
  have hcount : (liveRpms (second.foldl Write.apply t₁) repoIds).length =
      (liveRpms t repoIds).length := congrArg (·.liveRpmCount) heq
  have hlatest : ((liveRpms (second.foldl Write.apply t₁) repoIds).map (·.updatedAt)).max? =
      ((liveRpms t repoIds).map (·.updatedAt)).max? := congrArg (·.latestUpdate) heq
  cases hmax : ((liveRpms t repoIds).map (·.updatedAt)).max? with
  | none =>
    have hnil : liveRpms t repoIds = [] := List.map_eq_nil_iff.mp (List.max?_eq_none_iff.mp hmax)
    rw [hnil] at hcount ⊢
    exact ⟨List.length_eq_zero_iff.mp hcount, List.nil_sublist _⟩
  | some m =>
    rw [hmax] at hlatest
    have hrows := rpmsUntil_eq_of_latest hmax
    have hrows' := rpmsUntil_eq_of_latest hlatest
    have hm : m ≤ t.clock := by
      obtain ⟨row, hrow, rfl⟩ := List.mem_map.mp (List.max?_eq_some_iff.mp hmax).1
      exact h row (List.mem_of_mem_filter hrow)
    have hback := rpmsUntil_foldl repoIds (hm.trans (le_clock_foldl hfirst)) hsecond
    have hforth := rpmsUntil_foldl repoIds hm hfirst
    rw [hrows'] at hback
    rw [hrows] at hforth
    have hsame : liveRpms (second.foldl Write.apply t₁) repoIds = liveRpms t repoIds :=
      (hback.trans hforth).eq_of_length hcount
    exact ⟨hsame, hsame ▸ hback.trans List.filter_sublist⟩

def bashRow : ArtifactRow :=
  ⟨1, 7, "Packages/bash.rpm", "bash", some "5.2-1", 1024, "aa", "rpm/7/bash.rpm", 10⟩

def curlRow : ArtifactRow :=
  ⟨2, 7, "Packages/curl.rpm", "curl", some "8.1-1", 2048, "bb", "rpm/7/curl.rpm", 20⟩

/-- A package comes and goes. -/
theorem fingerprint_returns_curl :
    liveRpms ([Write.put curlRow, .delete [2]].foldl Write.apply ⟨[bashRow], [], 10⟩) [7] =
        liveRpms ⟨[bashRow], [], 10⟩ [7] ∧
      (liveRpms ⟨[bashRow], [], 10⟩ [7]).Sublist
        (liveRpms ([Write.put curlRow].foldl Write.apply ⟨[bashRow], [], 10⟩) [7]) :=
  @fingerprint_returns ⟨[bashRow], [], 10⟩ [7] [.put curlRow] [.delete [2]]
    (fun row hrow => by rw [List.mem_singleton.mp hrow]; decide)
    ⟨(by decide : (10 : ℤ) < 20), trivial, trivial⟩ (by decide +kernel)

end ArtifactKeeper.Rpm
