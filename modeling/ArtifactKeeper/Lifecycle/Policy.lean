import ArtifactKeeper.Auth.Claims
import ArtifactKeeper.JsonValue
import ArtifactKeeper.Traced

/-! Lifecycle policies of `lifecycle_service.rs`: their configurations, and the tables that they
work on. -/

namespace Json

def digitsValue (digits : List Char) : Option ℕ :=
  if digits.isEmpty || !digits.all Char.isDigit then none else some (Nat.ofDigitChars 10 digits 0)

/-- `serde_json::Value::as_i64`. Larger integers, `-0` and what has a fraction or an exponent are
other kinds of number. -/
def asI64 : Json → Option ℤ
  | number literal =>
    match literal.toList with
    | '-' :: digits => (digitsValue digits).bind fun n =>
      if 0 < n ∧ n ≤ 2 ^ 63 then some (-(n : ℤ)) else none
    | digits => (digitsValue digits).bind fun n => if n < 2 ^ 63 then some (n : ℤ) else none
  | _ => none

theorem asI64_lt {j : Json} {n : ℤ} (h : j.asI64 = some n) : n < 2 ^ 63 := by
  unfold asI64 at h
  split at h
  · split at h
    all_goals
      obtain ⟨m, -, hm⟩ := Option.bind_eq_some_iff.mp h
      split at hm
      · rw [← Option.some.inj hm]
        push_cast
        omega
      · exact absurd hm (by simp)
  · exact absurd h (by simp)

end Json

namespace ArtifactKeeper.Lifecycle

open Chunking

inductive PolicyType where
  | maxAgeDays
  | maxVersions
  | noDownloadsDays
  | tagPatternKeep
  | tagPatternDelete
  | sizeQuotaBytes
  deriving DecidableEq, Repr

def PolicyType.asWireStr : PolicyType → String
  | .maxAgeDays => "max_age_days"
  | .maxVersions => "max_versions"
  | .noDownloadsDays => "no_downloads_days"
  | .tagPatternKeep => "tag_pattern_keep"
  | .tagPatternDelete => "tag_pattern_delete"
  | .sizeQuotaBytes => "size_quota_bytes"

/-- The columns of `lifecycle_policies` that the executors use. -/
structure LifecyclePolicy where
  id : Uuid
  repositoryId : Option Uuid
  name : String
  policyType : String
  config : Json

/-- The canonical key, else the policy type as a key. -/
def readI64 (config : Json) (policyType key : String) : Option ℤ :=
  ((config.get key).bind Json.asI64).or ((config.get policyType).bind Json.asI64)

def parseI64Field (config : Json) (policyTypeLabel key : String) : Except AppError ℤ :=
  match readI64 config policyTypeLabel key with
  | some n => .ok n
  | none => .error (.validation (policyTypeLabel ++ " requires '" ++ key ++ "' in config"))

/-- `read_positive_i64` with the error of its caller. -/
def requirePositiveI64 (config : Json) (policyType key : String) : Except AppError Unit :=
  match (readI64 config policyType key).filter (0 < ·) with
  | some _ => .ok ()
  | none => .error (.validation
      (policyType ++ " requires '" ++ key ++ "' (positive integer) in config"))

/-- Compiling a regular expression is the `regex` crate's. -/
def validatePolicyConfig (regexNew : String → Except String Unit) (policyType : String)
    (config : Json) : Except AppError Unit :=
  match policyType with
  | "max_age_days" => requirePositiveI64 config policyType "days"
  | "max_versions" => requirePositiveI64 config policyType "keep"
  | "no_downloads_days" => requirePositiveI64 config policyType "days"
  | "tag_pattern_keep" | "tag_pattern_delete" =>
    match (config.get "pattern").bind Json.asStr with
    | some pattern =>
      (regexNew pattern).mapError fun e => .validation ("Invalid regex pattern: " ++ e)
    | none => .error (.validation (policyType ++ " requires 'pattern' (string) in config"))
  | "size_quota_bytes" => requirePositiveI64 config policyType "quota_bytes"
  | _ => .ok ()

theorem requirePositiveI64_ok {config : Json} {policyType key : String}
    (h : requirePositiveI64 config policyType key = .ok ()) :
    ∃ n, 0 < n ∧ n < 2 ^ 63 ∧ parseI64Field config policyType key = .ok n := by
  unfold requirePositiveI64 at h
  split at h
  · next n hn =>
    obtain ⟨hread, hpos⟩ := Option.filter_eq_some_iff.mp hn
    refine ⟨n, by simpa using hpos, ?_, by rw [parseI64Field, hread]⟩
    rcases Option.or_eq_some_iff.mp hread with hcanonical | ⟨-, hflat⟩
    · obtain ⟨j, -, hj⟩ := Option.bind_eq_some_iff.mp hcanonical
      exact Json.asI64_lt hj
    · obtain ⟨j, -, hj⟩ := Option.bind_eq_some_iff.mp hflat
      exact Json.asI64_lt hj
  · exact absurd h (by simp)

structure PolicyExecutionResult where
  policyId : Uuid
  policyName : String
  dryRun : Bool
  artifactsMatched : ℤ
  artifactsRemoved : ℤ
  bytesFreed : ℤ
  errors : List String
  deriving DecidableEq, Repr

def buildExecutionResult (policy : LifecyclePolicy) (dryRun : Bool)
    (artifactsMatched artifactsRemoved bytesFreed : ℤ) : PolicyExecutionResult :=
  { policyId := policy.id
    policyName := policy.name
    dryRun := dryRun
    artifactsMatched := artifactsMatched
    artifactsRemoved := if dryRun then 0 else artifactsRemoved
    bytesFreed := if dryRun then 0 else bytesFreed
    errors := [] }

/-- Microseconds since 2000-01-01 in the range of `timestamptz`. -/
def IsTimestamp (t : ℤ) : Prop := -211813488000000000 ≤ t ∧ t < 9223371331200000000

instance (t : ℤ) : Decidable (IsTimestamp t) := inferInstanceAs (Decidable (_ ∧ _))

abbrev Timestamp := {t : ℤ // IsTimestamp t}

instance : DecidableLT Timestamp := fun a b => inferInstanceAs (Decidable (a.1 < b.1))

instance : DecidableLE Timestamp := fun a b => inferInstanceAs (Decidable (a.1 ≤ b.1))

/-- The columns of `artifacts` that the modelled statements use. -/
structure Artifact where
  id : Uuid
  repositoryId : Uuid
  sizeBytes : ℤ
  createdAt : Timestamp
  isDeleted : Bool
  deriving DecidableEq

/-- A row of `download_statistics`. -/
structure Download where
  artifactId : Uuid
  downloadedAt : Timestamp
  deriving DecidableEq

/-- The tables and the time of the transaction; `id` is the primary key of `artifacts`. -/
structure Tables where
  now : Timestamp
  artifacts : List Artifact
  downloads : List Download
  nodup : (artifacts.map (·.id)).Nodup

def Artifact.delete (a : Artifact) : Artifact := { a with isDeleted := true }

/-- `UPDATE artifacts SET is_deleted = true` on the rows with `cond`. -/
def markRows (cond : Artifact → Bool) (rows : List Artifact) : List Artifact :=
  rows.map fun a => if cond a then a.delete else a

/-- The rows that are not marked deleted. -/
def live (rows : List Artifact) : List Artifact := rows.filter (!·.isDeleted)

theorem map_id_markRows (cond : Artifact → Bool) (rows : List Artifact) :
    (markRows cond rows).map (·.id) = rows.map (·.id) := by
  rw [markRows, List.map_map]
  refine List.map_congr_left fun a _ => ?_
  dsimp only [Function.comp_apply]
  split <;> rfl

theorem live_markRows (cond : Artifact → Bool) (rows : List Artifact) :
    live (markRows cond rows) = (live rows).filter (!cond ·) := by
  induction rows with
  | nil => rfl
  | cons a rows ih =>
    cases hcond : cond a <;> cases hdeleted : a.isDeleted <;>
      simp_all [live, markRows, Artifact.delete]

theorem markRows_eq_self {cond : Artifact → Bool} {rows : List Artifact}
    (h : rows.filter cond = []) : markRows cond rows = rows := by
  rw [markRows, List.map_congr_left (g := id), List.map_id]
  intro a ha
  rw [if_neg (List.filter_eq_nil_iff.mp h a ha), id]

/-- The statement's effect and the number of rows it reports. -/
def Tables.softDelete (db : Tables) (cond : Artifact → Bool) : Tables × ℤ :=
  ({ db with
      artifacts := markRows cond db.artifacts
      nodup := by rw [map_id_markRows]; exact db.nodup },
    (db.artifacts.filter cond).length)

/-- The values of a `BIGINT`. -/
def FitsI64 (x : ℤ) : Prop := -2 ^ 63 ≤ x ∧ x < 2 ^ 63

instance (x : ℤ) : Decidable (FitsI64 x) := inferInstanceAs (Decidable (_ ∧ _))

def totalBytes (rows : List Artifact) : ℤ := (rows.map (·.sizeBytes)).sum

/-- `COALESCE(SUM(size_bytes), 0)::BIGINT`; the sum itself is a `NUMERIC`. -/
def sumBytes (rows : List Artifact) : Except AppError ℤ :=
  if FitsI64 (totalBytes rows) then .ok (totalBytes rows)
  else .error (.database "error returned from database: bigint out of range")

/-- Microseconds. The driver keeps its sessions in UTC, where every day has the same length. -/
def dayLength : ℤ := 86400000000

/-- `NOW() - make_interval(days => ..)`. -/
def daysBefore (now : Timestamp) (days : ℤ) : Except AppError Timestamp :=
  if h : IsTimestamp (now.1 - days * dayLength) then .ok ⟨_, h⟩
  else .error (.database "error returned from database: timestamp out of range")

end ArtifactKeeper.Lifecycle
