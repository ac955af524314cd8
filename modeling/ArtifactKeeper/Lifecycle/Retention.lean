import ArtifactKeeper.Lifecycle.Policy

/-! The two retention rules by age, and how the number of days that they are given reaches the
database. -/

namespace ArtifactKeeper.Lifecycle

open Chunking

/-- The frame of the executors that are one condition: count the rows, and in a real run that has
counted some mark them. -/
def executeWhere (policy : LifecyclePolicy) (dryRun : Bool) (cond : Artifact → Bool)
    (db : Tables) : Except AppError (PolicyExecutionResult × Tables) := do
  let count : ℤ := (db.artifacts.filter cond).length
  let bytes ← sumBytes (db.artifacts.filter cond)
  if !dryRun && 0 < count then
    let (after, removed) := db.softDelete cond
    return (buildExecutionResult policy dryRun count removed bytes, after)
  return (buildExecutionResult policy dryRun count 0 bytes, db)

def maxAgeCond (repositoryId : Option Uuid) (cutoff : Timestamp) (a : Artifact) : Bool :=
  match repositoryId with
  | some r => a.repositoryId = r && !a.isDeleted && a.createdAt < cutoff
  | none => !a.isDeleted && a.createdAt < cutoff

def executeMaxAge (policy : LifecyclePolicy) (dryRun : Bool) (db : Tables) :
    Except AppError (PolicyExecutionResult × Tables) := do
  let days ← parseI64Field policy.config PolicyType.maxAgeDays.asWireStr "days"
  let cutoff ← daysBefore db.now (asI32 days)
  executeWhere policy dryRun (maxAgeCond policy.repositoryId cutoff) db

def noDownloadsCond (repoFilter : Option Uuid) (downloads : List Download) (cutoff : Timestamp)
    (a : Artifact) : Bool :=
  !a.isDeleted && repoFilter.all (a.repositoryId = ·) &&
    !(downloads.any fun ds => ds.artifactId = a.id && cutoff < ds.downloadedAt) &&
    a.createdAt < cutoff

def executeNoDownloads (policy : LifecyclePolicy) (dryRun : Bool) (db : Tables) :
    Except AppError (PolicyExecutionResult × Tables) := do
  let days ← parseI64Field policy.config PolicyType.noDownloadsDays.asWireStr "days"
  let cutoff ← daysBefore db.now (asI32 days)
  executeWhere policy dryRun (noDownloadsCond policy.repositoryId db.downloads cutoff) db

section Promise

/-- Rows before and after a sweep, one by one: live rows with `p` may be marked, the others stay. -/
def Swept (p : Artifact → Prop) (before after : List Artifact) : Prop :=
  List.Forall₂ (fun a b => b = a ∨ a.isDeleted = false ∧ p a ∧ b = a.delete) before after

/-- The rows that a sweep has marked. -/
def removedCount (before after : List Artifact) : ℤ := (live before).length - (live after).length

/-- A run marks only rows with `p`, and the dry run on the same tables writes nothing, ends as the
run does and reports as many matches as the run marks rows. -/
structure Spares (p : Artifact → Prop)
    (execute : Bool → Tables → Except AppError (PolicyExecutionResult × Tables))
    (db : Tables) : Prop where
  swept : ∀ result after, execute false db = .ok (result, after) →
    after.now = db.now ∧ after.downloads = db.downloads ∧ Swept p db.artifacts after.artifacts
  preview : ∀ result after, execute false db = .ok (result, after) →
    ∃ seen, execute true db = .ok (seen, db) ∧
      seen.artifactsMatched = removedCount db.artifacts after.artifacts
  previewError : ∀ e, execute true db = .error e ↔ execute false db = .error e

variable {p : Artifact → Prop} {cond : Artifact → Bool} {rows : List Artifact}

theorem Spares.congr {db : Tables}
    {f g : Bool → Tables → Except AppError (PolicyExecutionResult × Tables)}
    (h : ∀ dryRun, f dryRun db = g dryRun db) : Spares p f db ↔ Spares p g db := by
  constructor
  · rintro ⟨hswept, hpreview, herror⟩
    exact ⟨by simpa [h] using hswept, by simpa [h] using hpreview, by simpa [h] using herror⟩
  · rintro ⟨hswept, hpreview, herror⟩
    exact ⟨by simpa [h] using hswept, by simpa [h] using hpreview, by simpa [h] using herror⟩

theorem swept_markRows (hlive : ∀ a ∈ rows, cond a = true → a.isDeleted = false) :
    Swept p rows (markRows cond rows) ↔ ∀ a ∈ rows, cond a = true → p a := by
  rw [Swept, markRows, List.forall₂_map_right_iff, List.forall₂_same]
  refine forall₂_congr fun a ha => ?_
  split
  · next hcond =>
    have hne : a.delete ≠ a := fun h => by
      have hdeleted : a.isDeleted = true := by rw [← h]; rfl
      rw [hlive a ha hcond] at hdeleted
      exact absurd hdeleted (by decide)
    simp [hcond, hne, hlive a ha hcond]
  · next hcond => simp [hcond]

theorem removedCount_markRows (hlive : ∀ a ∈ rows, cond a = true → a.isDeleted = false) :
    removedCount rows (markRows cond rows) = (rows.filter cond).length := by
  have hfilter : rows.filter cond = (live rows).filter cond := by
    rw [live, List.filter_filter]
    refine List.filter_congr fun a ha => ?_
    cases hcond : cond a with
    | false => simp
    | true => simp [hlive a ha hcond]
  rw [removedCount, live_markRows, hfilter]
  have hsplit := List.length_eq_length_filter_add (l := live rows) cond
  omega

theorem executeWhere_dry (policy : LifecyclePolicy) (cond : Artifact → Bool) (db : Tables) :
    executeWhere policy true cond db = (sumBytes (db.artifacts.filter cond)).map fun bytes =>
      (buildExecutionResult policy true (db.artifacts.filter cond).length 0 bytes, db) := by
  rw [executeWhere]
  cases sumBytes (db.artifacts.filter cond) <;> rfl

/-- A run without matches skips the update, which would have changed nothing. -/
theorem executeWhere_real (policy : LifecyclePolicy) (cond : Artifact → Bool) (db : Tables) :
    executeWhere policy false cond db = (sumBytes (db.artifacts.filter cond)).map fun bytes =>
      (buildExecutionResult policy false (db.artifacts.filter cond).length
        (db.artifacts.filter cond).length bytes, (db.softDelete cond).1) := by
  rw [executeWhere]
  cases sumBytes (db.artifacts.filter cond) with
  | error e => rfl
  | ok bytes =>
    cases hrows : db.artifacts.filter cond with
    | nil =>
      have hsame : (db.softDelete cond).1 = db := by
        obtain ⟨now, artifacts, downloads, hnodup⟩ := db
        simp [Tables.softDelete, markRows_eq_self hrows]
      rw [hsame]
      rfl
    | cons a rows =>
      have hpos : 0 < ((a :: rows).length : ℤ) := by simp
      simp only [bind, Except.bind, Except.map, Tables.softDelete, hrows]
      rw [if_pos (by simp)]
      rfl

/-- A sweep by one condition spares what it should if it fails or if only such rows meet the
condition. -/
theorem spares_executeWhere (policy : LifecyclePolicy) (db : Tables)
    (hlive : ∀ a ∈ db.artifacts, cond a = true → a.isDeleted = false) :
    Spares p (fun dryRun => executeWhere policy dryRun cond) db ↔
      (FitsI64 (totalBytes (db.artifacts.filter cond)) →
        ∀ a ∈ db.artifacts, cond a = true → p a) := by
  by_cases hfits : FitsI64 (totalBytes (db.artifacts.filter cond))
  · have hsum : sumBytes (db.artifacts.filter cond) = .ok (totalBytes (db.artifacts.filter cond)) :=
      if_pos hfits
    have hdry := executeWhere_dry policy cond db
    have hreal := executeWhere_real policy cond db
    rw [hsum, Except.map] at hdry hreal
    constructor
    · intro h _
      exact (swept_markRows hlive).mp (h.swept _ _ hreal).2.2
    · intro h
      refine ⟨fun result after heq => ?_, fun result after heq => ?_, fun e => ?_⟩
      · rw [hreal] at heq
        obtain ⟨-, rfl⟩ := Prod.mk.inj (Except.ok.inj heq)
        exact ⟨rfl, rfl, (swept_markRows hlive).mpr (h hfits)⟩
      · rw [hreal] at heq
        obtain ⟨-, rfl⟩ := Prod.mk.inj (Except.ok.inj heq)
        exact ⟨_, hdry, (removedCount_markRows hlive).symm⟩
      · simp [hdry, hreal]
  · have hsum : sumBytes (db.artifacts.filter cond) =
        .error (.database "error returned from database: bigint out of range") := if_neg hfits
    have hdry := executeWhere_dry policy cond db
    have hreal := executeWhere_real policy cond db
    rw [hsum, Except.map] at hdry hreal
    exact iff_of_true ⟨by simp [hreal], by simp [hreal], by simp [hdry, hreal]⟩
      fun h => absurd h hfits

end Promise

/-- The rules by age. -/
inductive AgeRule where
  | maxAge
  | noDownloads
  deriving DecidableEq, Repr

def InScope (repositoryId : Option Uuid) (a : Artifact) : Prop :=
  ∀ r, repositoryId = some r → a.repositoryId = r

namespace AgeRule

def policyType : AgeRule → PolicyType
  | maxAge => .maxAgeDays
  | noDownloads => .noDownloadsDays

def execute : AgeRule → LifecyclePolicy → Bool → Tables →
    Except AppError (PolicyExecutionResult × Tables)
  | maxAge => executeMaxAge
  | noDownloads => executeNoDownloads

def cond (rule : AgeRule) (repositoryId : Option Uuid) (downloads : List Download)
    (cutoff : Timestamp) : Artifact → Bool :=
  match rule with
  | maxAge => maxAgeCond repositoryId cutoff
  | noDownloads => noDownloadsCond repositoryId downloads cutoff

/-- The artifact was created before `t`, and by the rule for downloads not downloaded after it. -/
def Unused (rule : AgeRule) (downloads : List Download) (t : ℤ) (a : Artifact) : Prop :=
  a.createdAt.1 < t ∧
    (rule = noDownloads → ∀ ds ∈ downloads, ds.artifactId = a.id → ds.downloadedAt.1 ≤ t)

/-- The last of the instants that the rule looks at lies between the two. -/
def LastUsedIn (rule : AgeRule) (downloads : List Download) (since t : ℤ) (a : Artifact) : Prop :=
  rule.Unused downloads t a ∧ (since ≤ a.createdAt.1 ∨
    rule = noDownloads ∧ ∃ ds ∈ downloads, ds.artifactId = a.id ∧ since < ds.downloadedAt.1)

variable {rule : AgeRule} {repositoryId : Option Uuid} {downloads : List Download}
  {cutoff : Timestamp} {a : Artifact}

theorem cond_iff : rule.cond repositoryId downloads cutoff a = true ↔
    a.isDeleted = false ∧ InScope repositoryId a ∧ rule.Unused downloads cutoff.1 a := by
  cases rule with
  | maxAge =>
    cases repositoryId <;>
      simp [cond, maxAgeCond, InScope, Unused, ← Subtype.coe_lt_coe, and_assoc, and_left_comm]
  | noDownloads =>
    cases repositoryId <;>
      simp [cond, noDownloadsCond, InScope, Unused, ← Subtype.coe_lt_coe, and_assoc, and_comm,
        and_left_comm]

theorem not_lastUsedIn_iff {since t : ℤ} : ¬ rule.LastUsedIn downloads since t a ↔
    (rule.Unused downloads t a → rule.Unused downloads since a) := by
  simp only [LastUsedIn, not_and, not_or, not_exists, not_le, not_lt]
  rfl

theorem execute_eq {policy : LifecyclePolicy} {n : ℤ}
    (hn : parseI64Field policy.config rule.policyType.asWireStr "days" = .ok n) (dryRun : Bool)
    (db : Tables) :
    rule.execute policy dryRun db = (daysBefore db.now (asI32 n)).bind fun cutoff =>
      executeWhere policy dryRun (rule.cond policy.repositoryId db.downloads cutoff) db := by
  cases rule with
  | maxAge =>
    rw [execute, executeMaxAge, show PolicyType.maxAgeDays = policyType .maxAge from rfl, hn]
    rfl
  | noDownloads =>
    rw [execute, executeNoDownloads,
      show PolicyType.noDownloadsDays = policyType .noDownloads from rfl, hn]
    rfl

/-- The rule with `n` days spares what is younger: everything outside the policy's repository, and
everything used in the last `n` days. -/
def SparesRecent (rule : AgeRule) (policy : LifecyclePolicy) (n : ℤ) (db : Tables) : Prop :=
  Spares (fun a => InScope policy.repositoryId a ∧
    rule.Unused db.downloads (db.now.1 - n * dayLength) a) (rule.execute policy) db

/-- The rows that the rule takes, with the number of days as the database gets it. -/
def taken (rule : AgeRule) (policy : LifecyclePolicy) (cutoff : Timestamp) (db : Tables) :
    List Artifact :=
  db.artifacts.filter (rule.cond policy.repositoryId db.downloads cutoff)

theorem sparesRecent_iff {policy : LifecyclePolicy} {n : ℤ}
    (hn : parseI64Field policy.config rule.policyType.asWireStr "days" = .ok n) (db : Tables) :
    rule.SparesRecent policy n db ↔ ∀ cutoff, daysBefore db.now (asI32 n) = .ok cutoff →
      FitsI64 (totalBytes (rule.taken policy cutoff db)) →
        ∀ a ∈ db.artifacts, a.isDeleted = false → InScope policy.repositoryId a →
          ¬ rule.LastUsedIn db.downloads (db.now.1 - n * dayLength) cutoff.1 a := by
  have hrun := execute_eq hn
  rw [SparesRecent]
  cases hcutoff : daysBefore db.now (asI32 n) with
  | error e =>
    have hfails : ∀ dryRun, rule.execute policy dryRun db = .error e := fun dryRun => by
      rw [hrun, hcutoff]
      rfl
    exact iff_of_true ⟨by simp [hfails], by simp [hfails], by simp [hfails]⟩ (by simp)
  | ok cutoff =>
    have hsame : ∀ dryRun, rule.execute policy dryRun db =
        executeWhere policy dryRun (rule.cond policy.repositoryId db.downloads cutoff) db :=
      fun dryRun => by
        rw [hrun, hcutoff]
        rfl
    have hlive : ∀ a ∈ db.artifacts,
        rule.cond policy.repositoryId db.downloads cutoff a = true → a.isDeleted = false :=
      fun a _ h => (cond_iff.mp h).1
    rw [Spares.congr hsame, spares_executeWhere policy db hlive]
    simp only [Except.ok.injEq, forall_eq', not_lastUsedIn_iff, cond_iff, taken]
    refine imp_congr_right fun _ => forall₂_congr fun a _ => ?_
    constructor
    · intro h hdeleted hscope hunused
      exact (h ⟨hdeleted, hscope, hunused⟩).2
    · rintro h ⟨hdeleted, hscope, hunused⟩
      exact ⟨hscope, h hdeleted hscope hunused⟩

theorem daysBefore_ok {now : Timestamp} {days : ℤ} (h : daysBefore now days = .ok cutoff) :
    cutoff.1 = now.1 - days * dayLength := by
  unfold daysBefore at h
  split at h
  · rw [← Except.ok.inj h]
  · exact absurd h (by simp)

theorem requirePositiveI64_of_valid {regexNew : String → Except String Unit} {config : Json}
    (hvalid : validatePolicyConfig regexNew rule.policyType.asWireStr config = .ok ()) :
    requirePositiveI64 config rule.policyType.asWireStr "days" = .ok () := by
  cases rule <;> exact hvalid

/-- A number of days in the narrow range arrives as it is. -/
theorem sparesRecent_of_lt {policy : LifecyclePolicy} {n : ℤ} (hpos : 0 < n) (hn32 : n < 2 ^ 31)
    (hn : parseI64Field policy.config rule.policyType.asWireStr "days" = .ok n) (db : Tables) :
    rule.SparesRecent policy n db := by
  refine (sparesRecent_iff hn db).mpr fun cutoff hcutoff _ a _ _ _ => not_lastUsedIn_iff.mpr ?_
  rw [daysBefore_ok hcutoff, asI32_of_lt (by omega) hn32]
  exact id

/-- One artifact of the policy's repository that nobody has downloaded. -/
def singleton (policy : LifecyclePolicy) (now createdAt : Timestamp) : Tables where
  now := now
  artifacts := [⟨0, policy.repositoryId.getD 0, 0, createdAt, false⟩]
  downloads := []
  nodup := by simp

/-- A number of days beyond the narrow range arrives as a smaller one, by whole words of days: what
was created just before the wrong instant is younger than it should be. -/
theorem not_sparesRecent_singleton {policy : LifecyclePolicy} {n : ℤ} (hn32 : 2 ^ 31 ≤ n)
    (hn : parseI64Field policy.config rule.policyType.asWireStr "days" = .ok n)
    {now cutoff : Timestamp} (hcutoff : daysBefore now (asI32 n) = .ok cutoff)
    (createdAt : Timestamp) (hcreated : createdAt.1 = cutoff.1 - 1) :
    ¬ rule.SparesRecent policy n (singleton policy now createdAt) := by
  intro h
  have hbytes : totalBytes (rule.taken policy cutoff (singleton policy now createdAt)) = 0 := by
    rw [totalBytes, taken, singleton, List.filter_singleton, Bool.cond_eq_ite]
    split <;> rfl
  have hscope : InScope policy.repositoryId
      ⟨0, policy.repositoryId.getD 0, 0, createdAt, false⟩ := fun r hr => by simp [hr]
  have hword : asI32 n * dayLength ≤ n * dayLength - 1 := by
    unfold asI32 dayLength
    omega
  have hinstant := daysBefore_ok hcutoff
  have holder : createdAt.1 < cutoff.1 := by omega
  have hyounger : now.1 - n * dayLength ≤ createdAt.1 := by omega
  exact (sparesRecent_iff hn _).mp h cutoff hcutoff (by rw [hbytes]; decide) _
    (List.mem_singleton_self _) rfl hscope
    ⟨⟨holder, fun _ ds hds => absurd hds List.not_mem_nil⟩, .inl hyounger⟩

end AgeRule

/-- An accepted policy by age keeps its promise, for all tables, just if its number of days is one
of 32 bits or the instant that the narrowed number leads to is none that a row can be older than.
On given tables it does too if no artifact of the scope was last used between the two instants, or
the statement fails on the sizes. -/
theorem sparesRecent_iff_narrow (regexNew : String → Except String Unit) (rule : AgeRule)
    (policy : LifecyclePolicy)
    (hvalid : validatePolicyConfig regexNew rule.policyType.asWireStr policy.config = .ok ()) :
    ∃ n, 0 < n ∧ n < 2 ^ 63 ∧
      parseI64Field policy.config rule.policyType.asWireStr "days" = .ok n ∧
      (∀ now, (∀ db : Tables, db.now = now → rule.SparesRecent policy n db) ↔
        n < 2 ^ 31 ∨ ∀ cutoff, daysBefore now (asI32 n) = .ok cutoff → IsBot cutoff) ∧
      ∀ db : Tables, rule.SparesRecent policy n db ↔
        n < 2 ^ 31 ∨ ∀ cutoff, daysBefore db.now (asI32 n) = .ok cutoff →
          FitsI64 (totalBytes (rule.taken policy cutoff db)) →
            ∀ a ∈ db.artifacts, a.isDeleted = false → InScope policy.repositoryId a →
              ¬ rule.LastUsedIn db.downloads (db.now.1 - n * dayLength) cutoff.1 a := by
  obtain ⟨n, hpos, hlt, hn⟩ := requirePositiveI64_ok (AgeRule.requirePositiveI64_of_valid hvalid)
  refine ⟨n, hpos, hlt, hn, fun now => ⟨fun h => ?_, ?_⟩, fun db => ⟨fun h => ?_, ?_⟩⟩
  · rcases lt_or_ge n (2 ^ 31) with hn32 | hn32
    · exact .inl hn32
    · refine .inr fun cutoff hcutoff => ?_
      by_contra hbot
      obtain ⟨t, ht⟩ := not_forall.mp hbot
      have hbelow : t.1 < cutoff.1 := not_le.mp ht
      have hbefore : IsTimestamp (cutoff.1 - 1) :=
        ⟨t.2.1.trans (Int.le_sub_one_of_lt hbelow), (sub_lt_self _ one_pos).trans cutoff.2.2⟩
      exact AgeRule.not_sparesRecent_singleton hn32 hn hcutoff ⟨_, hbefore⟩ rfl (h _ rfl)
  · rintro (hn32 | hbot) db rfl
    · exact AgeRule.sparesRecent_of_lt hpos hn32 hn db
    · refine (AgeRule.sparesRecent_iff hn db).mpr fun cutoff hcutoff _ a _ _ _ hin => ?_
      exact absurd hin.1.1 (not_lt.mpr (hbot cutoff hcutoff a.createdAt))
  · exact .inr ((AgeRule.sparesRecent_iff hn db).mp h)
  · rintro (hn32 | h)
    · exact AgeRule.sparesRecent_of_lt hpos hn32 hn db
    · exact (AgeRule.sparesRecent_iff hn db).mpr h

/-- A policy for all repositories with one number as its configuration. -/
def daysPolicy (rule : AgeRule) (literal : String) : LifecyclePolicy where
  id := 1
  repositoryId := none
  name := "retention"
  policyType := rule.policyType.asWireStr
  config := .object [("days", .number literal)]

/-- 2000-01-03. -/
def thirdDay : Timestamp := ⟨2 * 86400000000, by decide⟩

/-- Two artifacts, from the first day of the year 2000 and from the third. -/
def twoArtifacts : Tables where
  now := thirdDay
  artifacts := [⟨10, 1, 5, ⟨0, by decide⟩, false⟩, ⟨11, 1, 7, thirdDay, false⟩]
  downloads := []
  nodup := by decide

theorem sparesRecent_thirty :
    AgeRule.maxAge.SparesRecent (daysPolicy .maxAge "30") 30 twoArtifacts := by
  obtain ⟨n, -, -, hn, hall, -⟩ := sparesRecent_iff_narrow (fun _ => .ok ()) .maxAge
    (daysPolicy .maxAge "30") rfl
  have hthirty : parseI64Field (daysPolicy .maxAge "30").config AgeRule.maxAge.policyType.asWireStr
      "days" = .ok 30 := rfl
  obtain rfl := Except.ok.inj (hthirty.symm.trans hn)
  exact (hall twoArtifacts.now).mpr (.inl (by decide)) twoArtifacts rfl

/-- 2^32 + 1 days are accepted and arrive as one: an artifact of two days is gone. -/
theorem not_sparesRecent_two_days :
    validatePolicyConfig (fun _ => .ok ()) "max_age_days" (daysPolicy .maxAge "4294967297").config =
        .ok () ∧
      parseI64Field (daysPolicy .maxAge "4294967297").config "max_age_days" "days" =
        .ok 4294967297 ∧
      (executeMaxAge (daysPolicy .maxAge "4294967297") false twoArtifacts).toOption.map
          (fun r => (r.1.artifactsRemoved, r.2.artifacts.map (·.isDeleted))) =
        some (1, [true, false]) ∧
      ¬ AgeRule.maxAge.SparesRecent (daysPolicy .maxAge "4294967297") 4294967297 twoArtifacts := by
  have hn : parseI64Field (daysPolicy .maxAge "4294967297").config
      AgeRule.maxAge.policyType.asWireStr "days" = .ok 4294967297 := by decide +kernel
  refine ⟨by decide +kernel, hn, by decide +kernel, fun h => ?_⟩
  have hfits : FitsI64 (totalBytes (AgeRule.maxAge.taken (daysPolicy .maxAge "4294967297")
      ⟨86400000000, by decide⟩ twoArtifacts)) := by decide +kernel
  refine (AgeRule.sparesRecent_iff hn _).mp h ⟨86400000000, by decide⟩ (by decide +kernel) hfits
    _ List.mem_cons_self rfl (fun _ hr => by cases hr) ⟨⟨by decide, by simp⟩, .inl (by decide)⟩

end ArtifactKeeper.Lifecycle
