import ArtifactKeeper.Auth.Claims
import ArtifactKeeper.JsonValue
import ArtifactKeeper.Occurrence
import Mathlib.Data.List.Sort
import Mathlib.Data.List.Dedup

/-! The two gates of a promotion, the scan policy of a repository and a promotion rule, and what
they read of an artifact's scans. -/

namespace ArtifactKeeper.Promotion

/-- Nanoseconds of UTC. -/
abbrev Instant := ℤ

inductive ScanStatus where
  | pending | running | completed | failed | notApplicable
  deriving DecidableEq, Repr

/-- A row of `scan_results` with the CVE ids of its findings and whether each is acknowledged. Its
`created_at` is given apart. -/
structure ScanResult where
  id : Uuid
  scanType : String
  status : ScanStatus
  errorMessage : Option String
  criticalCount : ℤ
  highCount : ℤ
  mediumCount : ℤ
  lowCount : ℤ
  findingsCount : ℤ
  findings : List (Option String × Bool)
  deriving DecidableEq, Repr

/-- The scans of one artifact; the id is the primary key. -/
structure ScanTable where
  rows : List ScanResult
  ids : (rows.map (·.id)).Nodup

def notApplicableMarker : String := "does not apply"

def ScanResult.isNotApplicable (row : ScanResult) : Bool :=
  row.status == .notApplicable || row.status == .failed &&
    row.errorMessage.any fun m => (Occurrence.find notApplicableMarker.toList m.toList).isSome

inductive ScanState where
  | completed | inProgress | failed | neverScanned | notApplicable
  deriving DecidableEq, Repr

def ScanState.isUnscanned : ScanState → Bool
  | .inProgress | .failed | .neverScanned => true
  | .completed | .notApplicable => false

def ScanState.reasonToken : ScanState → String
  | .completed => "completed"
  | .inProgress => "scan_in_progress"
  | .failed => "scan_failed"
  | .neverScanned => "never_scanned"
  | .notApplicable => "not_applicable"

def classifyScanState (rows : List ScanResult) : ScanState :=
  if rows.any (·.status == .completed) then .completed
  else if rows.any fun r => r.status == .pending || r.status == .running then .inProgress
  else if rows.any fun r => r.status == .failed && !r.isNotApplicable then .failed
  else if rows = [] then .neverScanned
  else .notApplicable

def ScanTable.completed (t : ScanTable) : List ScanResult :=
  t.rows.filter (·.status == .completed)

/-- `… AND status = 'completed' ORDER BY created_at DESC LIMIT 1`, the query of both gates. -/
def ScanTable.latestCompleted (t : ScanTable) (createdAt : Uuid → Instant) : Option ScanResult :=
  (t.completed.insertionSort fun a b => createdAt b.id ≤ createdAt a.id).head?

structure CveSummary where
  criticalCount : ℤ
  highCount : ℤ
  mediumCount : ℤ
  lowCount : ℤ
  totalCount : ℤ
  openCves : List String
  deriving DecidableEq, Repr

/-- `OPEN_CVES_SQL` over the findings of one scan. -/
def ScanResult.openCves (scan : ScanResult) : List String :=
  (scan.findings.filterMap fun f => if f.2 then none else f.1).dedup

def buildCveSummary (scan : ScanResult) (openCves : List String) : CveSummary :=
  ⟨scan.criticalCount, scan.highCount, scan.mediumCount, scan.lowCount, scan.findingsCount,
    openCves⟩

def getCveSummary (t : ScanTable) (createdAt : Uuid → Instant) : Option CveSummary :=
  (t.latestCompleted createdAt).map fun scan => buildCveSummary scan scan.openCves

inductive PolicyAction where
  | allow | warn | block
  deriving DecidableEq, Repr

structure PolicyViolation where
  rule : String
  severity : String
  message : String
  details : Option Json

structure ScanPolicyConfig where
  maxSeverity : String
  blockUnscanned : Bool
  blockOnFail : Bool
  minStagingHours : Option ℤ
  maxArtifactAgeDays : Option ℤ
  requireSignature : Bool

structure LicensePolicyConfig where
  name : String
  allowedLicenses : List String
  deniedLicenses : List String
  allowUnknown : Bool
  action : PolicyAction

structure PromotionRule where
  id : Uuid
  name : String
  maxCveSeverity : Option String
  allowedLicenses : Option (List String)
  requireSignature : Bool
  minStagingHours : Option ℤ
  maxArtifactAgeDays : Option ℤ
  minHealthScore : Option ℤ

/-- What the gates read besides the scans. `upper` is `str::to_uppercase`; the licenses are those of
the newest SBOM; the two signature look-ups are those of the two services. -/
structure GateContext where
  upper : String → String
  now : Instant
  artifactCreatedAt : Option Instant
  sbomLicenses : Option (List String)
  scanPolicy : Option ScanPolicyConfig
  licensePolicy : Option LicensePolicyConfig
  policySignature : Bool
  ruleSignature : Bool
  healthScore : Option ℤ

def jsonInt (n : ℤ) : Json := .number (toString n)

def jsonStrings (l : List String) : Json := .array (l.map .string)

def maxI32 : ℤ := 2147483647

/-- `str::to_lowercase` for ASCII letters; no other character turns into a letter of the words
below. -/
def toLowercase (s : String) : String := String.ofList (s.toList.map Char.toLower)

/-- The most findings of each class that a policy tolerates. -/
def severityLimits (maxSeverity : String) : ℤ × ℤ × ℤ :=
  match toLowercase maxSeverity with
  | "critical" => (0, maxI32, maxI32)
  | "high" => (0, 0, maxI32)
  | "medium" | "low" => (0, 0, 0)
  | _ => (0, 0, maxI32)

def thresholdViolation (blockOnFail : Bool) (severity label : String) (count max : ℤ) :
    List PolicyViolation :=
  if max < count then
    [⟨"cve-severity-threshold", severity, "Found " ++ toString count ++ " " ++ label ++
        " vulnerabilities (max allowed: " ++ toString max ++ ")",
      some (.object [("count", jsonInt count), ("max_allowed", jsonInt max),
        ("block_on_fail", .bool blockOnFail)])⟩]
  else []

def evaluateCveThresholds (summary : CveSummary) (maxSeverity : String) (blockOnFail : Bool) :
    List PolicyViolation :=
  let limits := severityLimits maxSeverity
  thresholdViolation blockOnFail "critical" "critical" summary.criticalCount limits.1 ++
    thresholdViolation blockOnFail "high" "high severity" summary.highCount limits.2.1 ++
    thresholdViolation blockOnFail "medium" "medium" summary.mediumCount limits.2.2

def nanosPerHour : ℤ := 60 * 60 * 1000000000

def nanosPerDay : ℤ := 24 * nanosPerHour

def evaluateAgeGates (now artifactCreatedAt : Instant)
    (minStagingHours maxArtifactAgeDays : Option ℤ) : List PolicyViolation :=
  let hours := (now - artifactCreatedAt).tdiv nanosPerHour
  let days := (now - artifactCreatedAt).tdiv nanosPerDay
  (minStagingHours.toList.filter fun m => hours < m).map (fun m =>
    ⟨"min-staging-time", "high", "Artifact has only been in staging for " ++ toString hours ++
        " hours (minimum: " ++ toString m ++ " hours)",
      some (.object [("hours_in_staging", jsonInt hours), ("min_staging_hours", jsonInt m)])⟩) ++
  (maxArtifactAgeDays.toList.filter fun m => m < days).map fun m =>
    ⟨"max-artifact-age", "medium", "Artifact is " ++ toString days ++ " days old (maximum: " ++
        toString m ++ " days)",
      some (.object [("age_days", jsonInt days), ("max_artifact_age_days", jsonInt m)])⟩

def evaluateSignatureRequirement (hasSignature : Bool) : List PolicyViolation :=
  if hasSignature then []
  else [⟨"require-signature", "high", "Artifact does not have a valid signature", none⟩]

def LicensePolicyConfig.denies (upper : String → String) (policy : LicensePolicyConfig)
    (license : String) : Bool :=
  policy.deniedLicenses.any fun d => upper d == upper license

/-- Not denied, and not in an allow list that is to be kept to. -/
def LicensePolicyConfig.unknown (upper : String → String) (policy : LicensePolicyConfig)
    (license : String) : Bool :=
  !policy.denies upper license && !policy.allowedLicenses.isEmpty &&
    !(policy.allowedLicenses.any fun a => upper a == upper license) && !policy.allowUnknown

def licenseSeverity : PolicyAction → String
  | .block => "critical"
  | .warn => "medium"
  | .allow => "low"

def licenseViolation (severity what key : String) (found : List String) (policyName : String) :
    List PolicyViolation :=
  if found = [] then []
  else [⟨"license-compliance", severity, "Found " ++ toString found.length ++ what ++
      String.intercalate ", " found,
    some (.object [(key, jsonStrings found), ("policy_name", .string policyName)])⟩]

def evaluateLicensePolicy (upper : String → String) (licensesFound : List String)
    (policy : LicensePolicyConfig) : List PolicyViolation :=
  licenseViolation (licenseSeverity policy.action) " denied licenses: " "denied_licenses"
      (licensesFound.filter (policy.denies upper)) policy.name ++
    licenseViolation "medium" " licenses not in allowed list: " "unknown_licenses"
      (licensesFound.filter (policy.unknown upper)) policy.name

def escalateActionBySeverity (current : PolicyAction) (severity : String) : PolicyAction :=
  if severity = "critical" ∨ severity = "high" then .block
  else if current ≠ .block then .warn
  else current

def escalateActionByPolicy (current policyAction : PolicyAction) : PolicyAction :=
  match policyAction with
  | .block => .block
  | .warn => if current ≠ .block then .warn else current
  | .allow => current

/-- The violations found so far and the action they call for. -/
structure PolicyVerdict where
  violations : List PolicyViolation
  action : PolicyAction

/-- Add violations, each escalating the action. -/
def PolicyVerdict.collect (v : PolicyVerdict)
    (escalate : PolicyAction → PolicyViolation → PolicyAction) (new : List PolicyViolation) :
    PolicyVerdict :=
  ⟨v.violations ++ new, new.foldl escalate v.action⟩

/-- `collect_with_severity_escalation`. -/
def PolicyVerdict.collectBySeverity (v : PolicyVerdict) (new : List PolicyViolation) :
    PolicyVerdict :=
  v.collect (fun action violation => escalateActionBySeverity action violation.severity) new

/-- The violations of a scan's counts: the policy's thresholds, or without a policy any critical
vulnerability. -/
def cveViolations (scanPolicy : Option ScanPolicyConfig) (summary : CveSummary) :
    List PolicyViolation :=
  match scanPolicy with
  | some policy => evaluateCveThresholds summary policy.maxSeverity policy.blockOnFail
  | none =>
    if 0 < summary.criticalCount then
      [⟨"default-cve-policy", "critical", "Artifact has " ++ toString summary.criticalCount ++
          " critical vulnerabilities", some (.object [("cves", jsonStrings summary.openCves)])⟩]
    else []

def evaluateCvesAgainstPolicy (v : PolicyVerdict) (scanPolicy : Option ScanPolicyConfig)
    (summary : CveSummary) : PolicyVerdict :=
  v.collectBySeverity (cveViolations scanPolicy summary)

def evaluateLicensesAgainstPolicy (v : PolicyVerdict) (upper : String → String)
    (licensesFound : List String) (policy : LicensePolicyConfig) : PolicyVerdict :=
  v.collect (fun action _ => escalateActionByPolicy action policy.action)
    (evaluateLicensePolicy upper licensesFound policy)

def buildUnscannedViolation (state : ScanState) : PolicyViolation :=
  ⟨"block-unscanned", "high", "Artifact has no completed security scan",
    some (.object [("scan_state", .string state.reasonToken)])⟩

def unscannedViolations (state : ScanState) (policy : ScanPolicyConfig) : List PolicyViolation :=
  if state.isUnscanned && policy.blockUnscanned then [buildUnscannedViolation state] else []

def evaluateBlockUnscanned (v : PolicyVerdict) (state : ScanState) (policy : ScanPolicyConfig) :
    PolicyVerdict :=
  v.collectBySeverity (unscannedViolations state policy)

namespace GateContext
variable (ctx : GateContext)

def ageViolations (policy : ScanPolicyConfig) : List PolicyViolation :=
  match ctx.artifactCreatedAt with
  | some createdAt =>
    evaluateAgeGates ctx.now createdAt policy.minStagingHours policy.maxArtifactAgeDays
  | none => []

def signatureViolations (policy : ScanPolicyConfig) : List PolicyViolation :=
  if policy.requireSignature then evaluateSignatureRequirement ctx.policySignature else []

def evaluateAgeAndSignature (v : PolicyVerdict) (policy : ScanPolicyConfig) : PolicyVerdict :=
  (v.collectBySeverity (ctx.ageViolations policy)).collect (fun _ _ => .block)
    (ctx.signatureViolations policy)

end GateContext

structure PolicyEvaluationResult where
  passed : Bool
  action : PolicyAction
  violations : List PolicyViolation
  cveSummary : Option CveSummary
  licensesFound : Option (List String)

/-- `PromotionPolicyService::evaluate_artifact`. -/
def evaluatePolicy (ctx : GateContext) (t : ScanTable) (createdAt : Uuid → Instant) :
    PolicyEvaluationResult :=
  let cveSummary := getCveSummary t createdAt
  let start : PolicyVerdict := ⟨[], .allow⟩
  let afterCves := match cveSummary with
    | some summary => evaluateCvesAgainstPolicy start ctx.scanPolicy summary
    | none => start
  let afterLicenses := match ctx.sbomLicenses, ctx.licensePolicy with
    | some licenses, some policy =>
      evaluateLicensesAgainstPolicy afterCves ctx.upper licenses policy
    | _, _ => afterCves
  let final := match ctx.scanPolicy with
    | some policy => ctx.evaluateAgeAndSignature
        (evaluateBlockUnscanned afterLicenses (classifyScanState t.rows) policy) policy
    | none => afterLicenses
  ⟨final.violations.isEmpty, final.action, final.violations, cveSummary, ctx.sbomLicenses⟩

/-! Promotion rules. -/

/-- Lower is more severe. -/
def severityToLevel (severity : String) : ℕ :=
  match toLowercase severity with
  | "critical" => 0
  | "high" => 1
  | "medium" | "moderate" => 2
  | "low" => 3
  | "info" | "informational" | "none" => 4
  | _ => 2

def checkCveSeverity (maxCveSeverity : String) (scan : ScanResult) : Option String :=
  let threshold := severityToLevel maxCveSeverity
  let message := fun (count : ℤ) (severity : String) =>
    "Found " ++ toString count ++ " " ++ severity ++ " CVEs (max allowed severity: " ++
      maxCveSeverity ++ ")"
  if 0 < scan.criticalCount ∧ severityToLevel "critical" < threshold then
    some (message scan.criticalCount "critical")
  else if 0 < scan.highCount ∧ severityToLevel "high" < threshold then
    some (message scan.highCount "high")
  else if 0 < scan.mediumCount ∧ severityToLevel "medium" < threshold then
    some (message scan.mediumCount "medium")
  else if 0 < scan.lowCount ∧ severityToLevel "low" < threshold then
    some (message scan.lowCount "low")
  else none

def checkScanStateForCveRule (state : ScanState) : Option String :=
  if state.isUnscanned then
    some ("Artifact has no completed security scan (scan state: " ++ state.reasonToken ++
      "); a CVE severity rule requires a completed scan before auto-promotion")
  else none

def checkMinStagingHours (minHours : ℤ) (artifactCreatedAt now : Instant) : Option String :=
  let hours := (now - artifactCreatedAt).tdiv nanosPerHour
  if hours < minHours then
    some ("Artifact has only been in staging for " ++ toString hours ++ " hours (minimum: " ++
      toString minHours ++ ")")
  else none

def checkMaxArtifactAge (maxDays : ℤ) (artifactCreatedAt now : Instant) : Option String :=
  let days := (now - artifactCreatedAt).tdiv nanosPerDay
  if maxDays < days then
    some ("Artifact is " ++ toString days ++ " days old (maximum: " ++ toString maxDays ++ ")")
  else none

def checkMinHealthScore (minScore actualScore : ℤ) : Option String :=
  if actualScore < minScore then
    some ("Health score " ++ toString actualScore ++ " is below minimum required score of " ++
      toString minScore)
  else none

def checkAllowedLicenses (upper : String → String) (allowed found : List String) :
    Option String :=
  let disallowed := found.filter fun l => !(allowed.any fun a => upper a == upper l)
  if disallowed = [] then none
  else some ("Found licenses not in allowed list: " ++ String.intercalate ", " disallowed)

structure RuleEvaluationResult where
  ruleId : Uuid
  ruleName : String
  passed : Bool
  violations : List String

/-- The first criterion of a rule: the newest completed scan, or the lack of one. -/
def ruleCveViolation (rule : PromotionRule) (state : ScanState) (latest : Option ScanResult) :
    Option String :=
  rule.maxCveSeverity.bind fun maxSeverity =>
    match latest with
    | some scan => checkCveSeverity maxSeverity scan
    | none => checkScanStateForCveRule state

/-- The criteria of a rule that do not look at scans. -/
def otherRuleViolations (ctx : GateContext) (rule : PromotionRule) : List String :=
  (rule.allowedLicenses.bind fun allowed =>
      let licenses := ctx.sbomLicenses.getD []
      if allowed = [] ∨ licenses = [] then none
      else checkAllowedLicenses ctx.upper allowed licenses).toList ++
    (if rule.requireSignature ∧ ctx.ruleSignature = false then
      ["Artifact does not have a valid signature"] else []) ++
    (rule.minStagingHours.bind fun minHours => ctx.artifactCreatedAt.bind fun createdAt =>
      checkMinStagingHours minHours createdAt ctx.now).toList ++
    (rule.maxArtifactAgeDays.bind fun maxDays => ctx.artifactCreatedAt.bind fun createdAt =>
      checkMaxArtifactAge maxDays createdAt ctx.now).toList ++
    (rule.minHealthScore.bind fun minScore => ctx.healthScore.bind
      (checkMinHealthScore minScore)).toList

/-- `PromotionRuleService::evaluate_artifact`. -/
def evaluateRule (ctx : GateContext) (rule : PromotionRule) (t : ScanTable)
    (createdAt : Uuid → Instant) : RuleEvaluationResult :=
  let violations :=
    (ruleCveViolation rule (classifyScanState t.rows) (t.latestCompleted createdAt)).toList ++
      otherRuleViolations ctx rule
  ⟨rule.id, rule.name, violations.isEmpty, violations⟩

end ArtifactKeeper.Promotion
