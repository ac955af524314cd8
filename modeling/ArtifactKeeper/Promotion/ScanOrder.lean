import ArtifactKeeper.Promotion.Gates

/-! Whether the decision of a promotion depends on which scanner finished last. -/

namespace ArtifactKeeper.Promotion

namespace ScanTable
variable {t : ScanTable} {createdAt : Uuid → Instant}

theorem mem_completed {scan : ScanResult} :
    scan ∈ t.completed ↔ scan ∈ t.rows ∧ scan.status = .completed := by
  simp [completed]

theorem latestCompleted_mem {scan : ScanResult} (h : t.latestCompleted createdAt = some scan) :
    scan ∈ t.completed :=
  (List.mem_insertionSort _).mp (List.mem_of_mem_head? h)

theorem latestCompleted_eq_none : t.latestCompleted createdAt = none ↔ t.completed = [] := by
  rw [latestCompleted, List.head?_eq_none_iff, ← List.length_eq_zero_iff,
    List.length_insertionSort, List.length_eq_zero_iff]

/-- The created-at order in which `scan` is the newest. -/
def newest (scan : ScanResult) : Uuid → Instant := fun id => if id = scan.id then 1 else 0

/-- Any completed scan is the newest in some order. -/
theorem latestCompleted_newest {scan : ScanResult} (h : scan ∈ t.completed) :
    t.latestCompleted (newest scan) = some scan := by
  have hsorted : (t.completed.insertionSort fun a b => newest scan b.id ≤ newest scan a.id).Pairwise
      fun a b => newest scan b.id ≤ newest scan a.id :=
    List.pairwise_insertionSort _ _
  cases hlatest : t.latestCompleted (newest scan) with
  | none =>
    rw [latestCompleted_eq_none.mp hlatest] at h
    cases h
  | some first =>
    have hfirst := latestCompleted_mem hlatest
    have hmax : newest scan scan.id ≤ newest scan first.id := by
      rw [latestCompleted] at hlatest
      obtain ⟨rest, hrest⟩ := List.head?_eq_some_iff.mp hlatest
      rw [hrest, List.pairwise_cons] at hsorted
      have hmem : scan ∈ first :: rest := hrest ▸ (List.mem_insertionSort _).mpr h
      rcases List.mem_cons.mp hmem with rfl | hmem
      · exact le_rfl
      · exact hsorted.1 scan hmem
    have hid : first.id = scan.id := by
      by_contra hne
      simp [newest, hne] at hmax
    have hrows := t.ids
    exact congrArg some (List.inj_on_of_nodup_map hrows (mem_completed.mp hfirst).1
      (mem_completed.mp h).1 hid)

/-- A decision made on the newest completed scan is the same in every order exactly when every
completed scan leads to it. -/
theorem forall_latest_eq_iff {β : Type} (t : ScanTable) (decision : Option ScanResult → β) :
    (∀ c c', decision (t.latestCompleted c) = decision (t.latestCompleted c')) ↔
      ∀ a ∈ t.completed, ∀ b ∈ t.completed, decision (some a) = decision (some b) := by
  constructor
  · intro hsame a ha b hb
    rw [← latestCompleted_newest ha, ← latestCompleted_newest hb]
    exact hsame _ _
  · intro hsame c c'
    cases hc : t.latestCompleted c with
    | none => rw [latestCompleted_eq_none.mpr (latestCompleted_eq_none.mp hc)]
    | some a =>
      cases hc' : t.latestCompleted c' with
      | none =>
        rw [latestCompleted_eq_none.mpr (latestCompleted_eq_none.mp hc')] at hc
        cases hc
      | some b => exact hsame a (latestCompleted_mem hc) b (latestCompleted_mem hc')

end ScanTable

/-- The scan, taken alone, violates the scan policy. -/
def policyFlags (ctx : GateContext) (scan : ScanResult) : Prop :=
  cveViolations ctx.scanPolicy (buildCveSummary scan scan.openCves) ≠ []

/-- The scan, taken alone, violates the rule. -/
def ruleFlags (rule : PromotionRule) (scan : ScanResult) : Prop :=
  ∃ maxSeverity, rule.maxCveSeverity = some maxSeverity ∧
    checkCveSeverity maxSeverity scan ≠ none

/-- What the policy gate holds against the artifact apart from CVEs. -/
def otherPolicyViolations (ctx : GateContext) (t : ScanTable) : List PolicyViolation :=
  (match ctx.sbomLicenses, ctx.licensePolicy with
    | some licenses, some policy => evaluateLicensePolicy ctx.upper licenses policy
    | _, _ => []) ++
  match ctx.scanPolicy with
  | some policy => unscannedViolations (classifyScanState t.rows) policy ++
      ctx.ageViolations policy ++ ctx.signatureViolations policy
  | none => []

/-- Both decisions are the same whatever the order of the scans, and a critical finding of any
completed scan is in the counts that both gates look at. -/
structure OrderIndependent (ctx : GateContext) (rule : PromotionRule) (t : ScanTable) : Prop where
  policySame : ∀ c c', (evaluatePolicy ctx t c).passed = (evaluatePolicy ctx t c').passed
  ruleSame : ∀ c c', (evaluateRule ctx rule t c).passed = (evaluateRule ctx rule t c').passed
  criticalCounted : ∀ c, (∃ scan ∈ t.completed, 0 < scan.criticalCount) →
    (∃ summary, (evaluatePolicy ctx t c).cveSummary = some summary ∧ 0 < summary.criticalCount) ∧
    (rule.maxCveSeverity.isSome →
      ∃ scan, t.latestCompleted c = some scan ∧ 0 < scan.criticalCount)

/-- The completed scans speak with one voice: each gate fails for another reason or finds them all
violating or none, and critical findings are reported by all of them or by none. -/
structure ScansConcur (ctx : GateContext) (rule : PromotionRule) (t : ScanTable) : Prop where
  policyConcurs : otherPolicyViolations ctx t ≠ [] ∨
    ∀ a ∈ t.completed, ∀ b ∈ t.completed, policyFlags ctx a ↔ policyFlags ctx b
  ruleConcurs : otherRuleViolations ctx rule ≠ [] ∨
    ∀ a ∈ t.completed, ∀ b ∈ t.completed, ruleFlags rule a ↔ ruleFlags rule b
  criticalConcurs : (∃ a ∈ t.completed, 0 < a.criticalCount) →
    ∀ b ∈ t.completed, 0 < b.criticalCount

section Decisions
variable {ctx : GateContext} {rule : PromotionRule} {t : ScanTable}

def policyDecision (ctx : GateContext) (t : ScanTable) (latest : Option ScanResult) : Bool :=
  ((latest.map fun scan => cveViolations ctx.scanPolicy
    (buildCveSummary scan scan.openCves)).getD [] ++ otherPolicyViolations ctx t).isEmpty

theorem evaluatePolicy_passed (c : Uuid → Instant) :
    (evaluatePolicy ctx t c).passed = policyDecision ctx t (t.latestCompleted c) := by
  rw [evaluatePolicy, policyDecision, otherPolicyViolations, getCveSummary]
  cases t.latestCompleted c <;> cases ctx.sbomLicenses <;> cases ctx.licensePolicy <;>
    cases ctx.scanPolicy <;>
    simp [evaluateCvesAgainstPolicy, evaluateLicensesAgainstPolicy, evaluateBlockUnscanned,
      GateContext.evaluateAgeAndSignature, PolicyVerdict.collectBySeverity, PolicyVerdict.collect]

def ruleDecision (ctx : GateContext) (rule : PromotionRule) (t : ScanTable)
    (latest : Option ScanResult) : Bool :=
  ((ruleCveViolation rule (classifyScanState t.rows) latest).toList ++
    otherRuleViolations ctx rule).isEmpty

theorem isEmpty_append_eq_iff {α : Type} {xs ys zs : List α} :
    (xs ++ zs).isEmpty = (ys ++ zs).isEmpty ↔ zs ≠ [] ∨ (xs ≠ [] ↔ ys ≠ []) := by
  cases xs <;> cases ys <;> cases zs <;> simp

theorem policyDecision_some_eq_iff (a b : ScanResult) :
    policyDecision ctx t (some a) = policyDecision ctx t (some b) ↔
      otherPolicyViolations ctx t ≠ [] ∨ (policyFlags ctx a ↔ policyFlags ctx b) :=
  isEmpty_append_eq_iff

theorem ruleCveViolation_ne_nil_iff {state : ScanState} {scan : ScanResult} :
    (ruleCveViolation rule state (some scan)).toList ≠ [] ↔ ruleFlags rule scan := by
  rw [ruleCveViolation, ruleFlags]
  cases rule.maxCveSeverity with
  | none => simp
  | some maxSeverity => simp

theorem ruleDecision_some_eq_iff (a b : ScanResult) :
    ruleDecision ctx rule t (some a) = ruleDecision ctx rule t (some b) ↔
      otherRuleViolations ctx rule ≠ [] ∨ (ruleFlags rule a ↔ ruleFlags rule b) := by
  rw [ruleDecision, ruleDecision, isEmpty_append_eq_iff, ruleCveViolation_ne_nil_iff,
    ruleCveViolation_ne_nil_iff]

/-- A critical finding is counted in every order exactly when no completed scan lacks one. -/
theorem critical_counted_iff :
    (∀ c, (∃ scan ∈ t.completed, 0 < scan.criticalCount) →
      (∃ summary, (evaluatePolicy ctx t c).cveSummary = some summary ∧
        0 < summary.criticalCount) ∧
      (rule.maxCveSeverity.isSome →
        ∃ scan, t.latestCompleted c = some scan ∧ 0 < scan.criticalCount)) ↔
    ((∃ a ∈ t.completed, 0 < a.criticalCount) → ∀ b ∈ t.completed, 0 < b.criticalCount) := by
  constructor
  · intro hcounted hsome b hb
    obtain ⟨⟨summary, hsummary, hpos⟩, -⟩ := hcounted (ScanTable.newest b) hsome
    change getCveSummary t (ScanTable.newest b) = some summary at hsummary
    rw [getCveSummary, ScanTable.latestCompleted_newest hb, Option.map_some,
      Option.some.injEq] at hsummary
    rw [← hsummary] at hpos
    exact hpos
  · intro hall c hsome
    cases hlatest : t.latestCompleted c with
    | none =>
      obtain ⟨a, ha, -⟩ := hsome
      rw [ScanTable.latestCompleted_eq_none.mp hlatest] at ha
      cases ha
    | some scan =>
      have hpos := hall hsome scan (ScanTable.latestCompleted_mem hlatest)
      refine ⟨⟨buildCveSummary scan scan.openCves, ?_, hpos⟩, fun _ => ⟨scan, rfl, hpos⟩⟩
      change getCveSummary t c = _
      rw [getCveSummary, hlatest, Option.map_some]

end Decisions

/-- The gates are independent of the order of the scans exactly when the scans concur. -/
theorem order_independent_iff_concur (ctx : GateContext) (rule : PromotionRule) (t : ScanTable) :
    OrderIndependent ctx rule t ↔ ScansConcur ctx rule t := by
  have hpolicy : (∀ c c', (evaluatePolicy ctx t c).passed = (evaluatePolicy ctx t c').passed) ↔
      (otherPolicyViolations ctx t ≠ [] ∨
        ∀ a ∈ t.completed, ∀ b ∈ t.completed, policyFlags ctx a ↔ policyFlags ctx b) := by
    simp only [evaluatePolicy_passed, ScanTable.forall_latest_eq_iff t (policyDecision ctx t),
      policyDecision_some_eq_iff, forall_or_left]
  have hrule : (∀ c c', (evaluateRule ctx rule t c).passed =
        (evaluateRule ctx rule t c').passed) ↔
      (otherRuleViolations ctx rule ≠ [] ∨
        ∀ a ∈ t.completed, ∀ b ∈ t.completed, ruleFlags rule a ↔ ruleFlags rule b) := by
    refine (ScanTable.forall_latest_eq_iff t (ruleDecision ctx rule t)).trans ?_
    simp only [ruleDecision_some_eq_iff, forall_or_left]
  constructor
  · rintro ⟨hpolicySame, hruleSame, hcounted⟩
    exact ⟨hpolicy.mp hpolicySame, hrule.mp hruleSame, critical_counted_iff.mp hcounted⟩
  · rintro ⟨hpolicyConcurs, hruleConcurs, hcritical⟩
    exact ⟨hpolicy.mpr hpolicyConcurs, hrule.mpr hruleConcurs, critical_counted_iff.mpr hcritical⟩

/-- A dependency scan with one critical finding, and a clean malware scan. -/
def twoScanners : ScanTable where
  rows :=
    [⟨1, "dependency", .completed, none, 1, 0, 0, 0, 1, [(some "CVE-2021-44228", false)]⟩,
      ⟨2, "malware", .completed, none, 0, 0, 0, 0, 0, []⟩]
  ids := by decide

/-- No policies; everything else in order. -/
def plainContext : GateContext :=
  ⟨id, 0, none, none, none, none, true, true, none⟩

def mediumRule : PromotionRule :=
  ⟨1, "release", some "medium", none, false, none, none, none⟩

/-- With the malware scan last both gates pass and the critical finding is not counted; with the
dependency scan last both fail. -/
theorem late_clean_scan_passes :
    ((evaluatePolicy plainContext twoScanners fun id => (id : ℤ)).passed = true ∧
      (evaluatePolicy plainContext twoScanners fun id => -(id : ℤ)).passed = false) ∧
    ((evaluateRule plainContext mediumRule twoScanners fun id => (id : ℤ)).passed = true ∧
      (evaluateRule plainContext mediumRule twoScanners fun id => -(id : ℤ)).passed = false) ∧
    ¬ OrderIndependent plainContext mediumRule twoScanners := by
  have hpasses : (evaluatePolicy plainContext twoScanners fun id => (id : ℤ)).passed = true := by
    decide
  have hfails : (evaluatePolicy plainContext twoScanners fun id => -(id : ℤ)).passed = false := by
    decide
  refine ⟨⟨hpasses, hfails⟩, ⟨by decide, by decide⟩, fun h => ?_⟩
  have hsame := h.policySame (fun id => (id : ℤ)) fun id => -(id : ℤ)
  rw [hpasses, hfails] at hsame
  cases hsame

end ArtifactKeeper.Promotion
