import ArtifactKeeper.Auth.Claims
import Mathlib.Data.Finset.Insert
import Mathlib.Data.Finset.Basic

/-! The age gate of remote npm and PyPI repositories: the decision for one version on the download
path, and the classification of all versions of a metadata document on the listing path. -/

namespace ArtifactKeeper.AgeGate

/-- Nanoseconds of UTC. -/
abbrev Instant := ℤ

inductive AgeGateReviewStatus where
  | pending | approved | rejected
  deriving DecidableEq, Repr

def AgeGateReviewStatus.asStr : AgeGateReviewStatus → String
  | .pending => "pending"
  | .approved => "approved"
  | .rejected => "rejected"

inductive AgeGateCheckAction where
  | allow
  | blockRejected
  | allowAndAutoApprovePending
  | allowAlreadyApproved
  | blockAndRequestReview
  deriving DecidableEq, Repr

/-- Whether `check` answers `AgeGateDecision::Allow` for the action. -/
def AgeGateCheckAction.allows : AgeGateCheckAction → Bool
  | .allow | .allowAndAutoApprovePending | .allowAlreadyApproved => true
  | .blockRejected | .blockAndRequestReview => false

def decideAgeGateCheck (existingStatus : Option String) (meetsThreshold : Bool) :
    AgeGateCheckAction :=
  if existingStatus = some AgeGateReviewStatus.rejected.asStr then .blockRejected
  else if meetsThreshold then
    if existingStatus = some AgeGateReviewStatus.pending.asStr then .allowAndAutoApprovePending
    else .allow
  else if existingStatus = some AgeGateReviewStatus.approved.asStr then .allowAlreadyApproved
  else .blockAndRequestReview

def nanosPerDay : ℤ := 24 * 60 * 60 * 1000000000

/-- Whole days, rounded towards zero and never negative. -/
def packageAgeDays (publishedAt now : Instant) : ℤ := max ((now - publishedAt).tdiv nanosPerDay) 0

def meetsAgeThreshold (publishedAt : Option Instant) (minAgeDays : ℤ) (now : Instant) : Bool :=
  match publishedAt with
  | some ts => minAgeDays ≤ packageAgeDays ts now
  | none => false

/-- The reviews of one package by version: the row's id and its status. -/
abbrev ReviewMap := String → Option (Uuid × String)

structure MetadataListingClassification where
  blocked : Finset String
  requestVersions : List String
  requestTimes : List (Option Instant)

/-- The body of the loop over the versions. -/
def classifyVersion (existingReviews : ReviewMap) (minAgeDays : ℤ) (now : Instant)
    (out : MetadataListingClassification) (entry : String × Option Instant) :
    MetadataListingClassification :=
  let status := (existingReviews entry.1).map (·.2)
  if status = some AgeGateReviewStatus.rejected.asStr then
    { out with blocked := insert entry.1 out.blocked }
  else if meetsAgeThreshold entry.2 minAgeDays now then out
  else if status = some AgeGateReviewStatus.approved.asStr then out
  else
    { blocked := insert entry.1 out.blocked
      requestVersions := out.requestVersions ++ [entry.1]
      requestTimes := out.requestTimes ++ [entry.2] }

def classifyVersionsForMetadataListing (versions : List (String × Option Instant))
    (existingReviews : ReviewMap) (minAgeDays : ℤ) (now : Instant) :
    MetadataListingClassification :=
  versions.foldl (classifyVersion existingReviews minAgeDays now) ⟨∅, [], []⟩

/-- What the download path answers for a version, given its publish time. -/
def allowsDownload (existingReviews : ReviewMap) (minAgeDays : ℤ) (now : Instant)
    (version : String) (publishedAt : Option Instant) : Bool :=
  (decideAgeGateCheck ((existingReviews version).map (·.2))
    (meetsAgeThreshold publishedAt minAgeDays now)).allows

section Listing
variable {existingReviews : ReviewMap} {minAgeDays : ℤ} {now : Instant}

/-- One version of the listing is blocked exactly when its download is. -/
theorem mem_classifyVersion_blocked {out : MetadataListingClassification}
    {entry : String × Option Instant} {version : String} :
    version ∈ (classifyVersion existingReviews minAgeDays now out entry).blocked ↔
      version ∈ out.blocked ∨ version = entry.1 ∧
        allowsDownload existingReviews minAgeDays now entry.1 entry.2 = false := by
  simp only [classifyVersion, allowsDownload, decideAgeGateCheck]
  split_ifs with hrejected hmeets hpending happroved
  · simp [AgeGateCheckAction.allows, or_comm]
  · simp [AgeGateCheckAction.allows]
  · simp [AgeGateCheckAction.allows]
  · simp [AgeGateCheckAction.allows]
  · simp [AgeGateCheckAction.allows, or_comm]

theorem mem_classify_blocked {versions : List (String × Option Instant)} {version : String} :
    version ∈ (classifyVersionsForMetadataListing versions existingReviews minAgeDays now).blocked ↔
      ∃ publishedAt, (version, publishedAt) ∈ versions ∧
        allowsDownload existingReviews minAgeDays now version publishedAt = false := by
  have hfold : ∀ out : MetadataListingClassification,
      version ∈ (versions.foldl (classifyVersion existingReviews minAgeDays now) out).blocked ↔
        version ∈ out.blocked ∨ ∃ publishedAt, (version, publishedAt) ∈ versions ∧
          allowsDownload existingReviews minAgeDays now version publishedAt = false := by
    induction versions with
    | nil => simp
    | cons entry versions ih =>
      intro out
      rw [List.foldl_cons, ih, mem_classifyVersion_blocked, or_assoc]
      apply or_congr_right
      constructor
      · rintro (⟨rfl, hblocked⟩ | ⟨publishedAt, hmem, hblocked⟩)
        · exact ⟨entry.2, List.mem_cons_self, hblocked⟩
        · exact ⟨publishedAt, List.mem_cons_of_mem _ hmem, hblocked⟩
      · rintro ⟨publishedAt, hmem, hblocked⟩
        rcases List.mem_cons.mp hmem with heq | hmem
        · exact .inl ⟨by rw [← heq], by rw [← heq]; exact hblocked⟩
        · exact .inr ⟨publishedAt, hmem, hblocked⟩
  simpa [classifyVersionsForMetadataListing] using hfold ⟨∅, [], []⟩

end Listing
end ArtifactKeeper.AgeGate
