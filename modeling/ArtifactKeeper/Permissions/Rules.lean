import ArtifactKeeper.Auth.Claims

/-! Permission rules: the database queries of the permission service, and which rules decide about
which user on which repository. -/

namespace ArtifactKeeper.Permissions

/-- A row of `permissions`. The element type of a SQL text array admits `NULL`. -/
structure PermissionRule where
  principalType : String
  principalId : Uuid
  targetType : String
  targetId : Uuid
  actions : List (Option String)
  deriving DecidableEq, Repr

structure Repository where
  id : Uuid
  projectId : Option Uuid
  deriving DecidableEq, Repr

structure Role where
  id : Uuid
  permissions : List (Option String)
  deriving DecidableEq, Repr

/-- `repositoryId` is `NULL` for a global assignment. -/
structure RoleAssignment where
  userId : Uuid
  roleId : Uuid
  repositoryId : Option Uuid
  deriving DecidableEq, Repr

/-- The tables that authorization reads; members are pairs of user and group. -/
structure AuthzDb where
  permissions : List PermissionRule
  userGroupMembers : List (Uuid × Uuid)
  repositories : List Repository
  roles : List Role
  roleAssignments : List RoleAssignment
  repositories_pk : (repositories.map Repository.id).Nodup

/-- `value = ANY(elements)`, where it is true. -/
def eqAny (value : String) (elements : List (Option String)) : Bool :=
  elements.contains (some value)

namespace AuthzDb
variable (db : AuthzDb)

/-- `SELECT group_id FROM user_group_members WHERE user_id = $1`. -/
def groupsOf (userId : Uuid) : List Uuid :=
  (db.userGroupMembers.filter fun m => m.1 == userId).map Prod.snd

/-- `SELECT project_id FROM repositories WHERE id = $1`; `NULL` without such a repository. -/
def projectOf (repositoryId : Uuid) : Option Uuid :=
  (db.repositories.find? fun r => r.id == repositoryId).bind Repository.projectId

/-- `applicable_rules` of `check_repository_action`. -/
def applicableRules (userId repositoryId : Uuid) : List PermissionRule :=
  db.permissions.filter fun p =>
    (((p.principalType == "user" || p.principalType == "service_account") &&
        p.principalId == userId) ||
      (p.principalType == "group" && (db.groupsOf userId).contains p.principalId)) &&
    ((p.targetType == "repository" && p.targetId == repositoryId) ||
      (p.targetType == "project" && db.projectOf repositoryId == some p.targetId))

/-- `assigned_roles`: the permission lists of the user's roles on the repository. -/
def assignedRoles (userId repositoryId : Uuid) : List (List (Option String)) :=
  (db.roleAssignments.filter fun ra => ra.userId == userId &&
    (ra.repositoryId == some repositoryId || ra.repositoryId == none)).flatMap fun ra =>
      (db.roles.filter fun r => r.id == ra.roleId).map Role.permissions

def checkRepositoryAction (userId repositoryId : Uuid) (action : String) (isAdmin : Bool) : Bool :=
  if isAdmin then true
  else
    let rules := db.applicableRules userId repositoryId
    let roles := db.assignedRoles userId repositoryId
    (roles.any fun permissions => eqAny "admin" permissions) ||
      if !rules.isEmpty then rules.any fun p => eqAny action p.actions || eqAny "admin" p.actions
      else roles.any fun permissions => eqAny action permissions || eqAny "admin" permissions

/-- The rows that `query_actions` reads. -/
def matchingRules (userId : Uuid) (targetType : String) (targetId : Uuid) : List PermissionRule :=
  db.permissions.filter fun p =>
    (((p.principalType == "user" || p.principalType == "service_account") &&
        p.principalId == userId) ||
      (p.principalType == "group" && (db.groupsOf userId).contains p.principalId)) &&
    ((p.targetType == targetType && p.targetId == targetId) ||
      (targetType == "repository" && p.targetType == "project" &&
        db.projectOf targetId == some p.targetId))

/-- `SELECT DISTINCT unnest(actions)`; a `NULL` does not decode as a `String`. -/
def queryActions (userId : Uuid) (targetType : String) (targetId : Uuid) :
    Except AppError (List String) :=
  ((db.matchingRules userId targetType targetId).flatMap PermissionRule.actions).eraseDups.mapM
    fun
    | some action => .ok action
    | none => .error (.database ("error occurred while decoding column 0: " ++
        "unexpected null; try decoding as an `Option`"))

/-- The query of `has_any_rules_for_target`. -/
def hasAnyRulesForTarget (targetType : String) (targetId : Uuid) : Bool :=
  db.permissions.any fun p =>
    (p.targetType == targetType && p.targetId == targetId) ||
      (targetType == "repository" && p.targetType == "project" &&
        db.projectOf targetId == some p.targetId)

/-- `check_permission` with what the database answers. -/
def checkPermission (userId : Uuid) (targetType : String) (targetId : Uuid) (action : String)
    (isAdmin : Bool) : Except AppError Bool :=
  if isAdmin then .ok true
  else (db.queryActions userId targetType targetId).map fun actions => actions.any (· == action)

def addRule (rule : PermissionRule) : AuthzDb := { db with permissions := rule :: db.permissions }

end AuthzDb

namespace PermissionRule
variable (rule : PermissionRule) (db : AuthzDb)

/-- The rule names the user, or a group the user belongs to. -/
def Names (userId : Uuid) : Prop :=
  (rule.principalType = "user" ∨ rule.principalType = "service_account") ∧
      rule.principalId = userId ∨
    rule.principalType = "group" ∧ (userId, rule.principalId) ∈ db.userGroupMembers

/-- The rule targets the repository, or the project that the repository belongs to. -/
def Targets (repositoryId : Uuid) : Prop :=
  rule.targetType = "repository" ∧ rule.targetId = repositoryId ∨
    rule.targetType = "project" ∧
      ∃ r ∈ db.repositories, r.id = repositoryId ∧ r.projectId = some rule.targetId

end PermissionRule

section Applies
variable {db : AuthzDb} {rule : PermissionRule} {userId repositoryId : Uuid}

theorem mem_groupsOf {group : Uuid} :
    group ∈ db.groupsOf userId ↔ (userId, group) ∈ db.userGroupMembers := by
  simp [AuthzDb.groupsOf]

theorem projectOf_eq_some {project : Uuid} :
    db.projectOf repositoryId = some project ↔
      ∃ r ∈ db.repositories, r.id = repositoryId ∧ r.projectId = some project := by
  constructor
  · intro h
    obtain ⟨r, hfind, hproject⟩ := Option.bind_eq_some_iff.mp h
    exact ⟨r, List.mem_of_find?_eq_some hfind, by simpa using List.find?_some hfind, hproject⟩
  · rintro ⟨r, hr, rfl, hproject⟩
    cases hfind : db.repositories.find? fun r' => r'.id == r.id with
    | none => exact absurd (List.find?_eq_none.mp hfind r hr) (by simp)
    | some r' =>
      -- the primary key leaves one row
      have hid : r'.id = r.id := by simpa using List.find?_some hfind
      have heq := List.inj_on_of_nodup_map db.repositories_pk (List.mem_of_find?_eq_some hfind) hr
        hid
      rw [AuthzDb.projectOf, hfind, Option.bind_some, heq, hproject]

/-- Both queries read the rules that apply to the user on the repository. -/
theorem mem_applicableRules :
    rule ∈ db.applicableRules userId repositoryId ↔
      rule ∈ db.permissions ∧ rule.Names db userId ∧ rule.Targets db repositoryId := by
  simp [AuthzDb.applicableRules, PermissionRule.Names, PermissionRule.Targets, mem_groupsOf,
    projectOf_eq_some]

theorem mem_matchingRules_repository :
    rule ∈ db.matchingRules userId "repository" repositoryId ↔
      rule ∈ db.permissions ∧ rule.Names db userId ∧ rule.Targets db repositoryId := by
  simp [AuthzDb.matchingRules, PermissionRule.Names, PermissionRule.Targets, mem_groupsOf,
    projectOf_eq_some]

theorem eqAny_iff {value : String} {elements : List (Option String)} :
    eqAny value elements = true ↔ some value ∈ elements := by
  simp [eqAny]

/-- The assigned roles do not depend on the rules, and a rule that does not apply is not read. -/
theorem applicableRules_addRule (h : ¬ (rule.Names db userId ∧ rule.Targets db repositoryId)) :
    (db.addRule rule).applicableRules userId repositoryId =
      db.applicableRules userId repositoryId := by
  have hnot : rule ∉ (db.addRule rule).applicableRules userId repositoryId := by
    rw [mem_applicableRules]
    exact fun hmem => h hmem.2
  have hpermissions : (db.addRule rule).permissions = rule :: db.permissions := rfl
  simp only [AuthzDb.applicableRules, hpermissions, List.filter_cons] at hnot ⊢
  split at hnot
  · exact absurd List.mem_cons_self hnot
  · next hneg =>
    rw [if_neg hneg]
    rfl

theorem checkRepositoryAction_iff_of_rule {action : String}
    (hrule : ∃ rule ∈ db.permissions, rule.Names db userId ∧ rule.Targets db repositoryId)
    (hroles : ∀ permissions ∈ db.assignedRoles userId repositoryId, some "admin" ∉ permissions) :
    db.checkRepositoryAction userId repositoryId action false = true ↔
      ∃ rule ∈ db.permissions, rule.Names db userId ∧ rule.Targets db repositoryId ∧
        (some action ∈ rule.actions ∨ some "admin" ∈ rule.actions) := by
  have hadmin : ((db.assignedRoles userId repositoryId).any fun permissions =>
      eqAny "admin" permissions) = false := by
    simpa [eqAny] using hroles
  have hrules : (db.applicableRules userId repositoryId).isEmpty = false := by
    obtain ⟨rule, hmem, happlies⟩ := hrule
    exact List.isEmpty_eq_false_iff_exists_mem.mpr ⟨rule, mem_applicableRules.mpr ⟨hmem, happlies⟩⟩
  simp [AuthzDb.checkRepositoryAction, hadmin, hrules, mem_applicableRules, eqAny_iff, and_assoc]

theorem mapM_decode_eq_ok {elements : List (Option String)} {actions : List String} {e : AppError}
    (h : (elements.mapM fun
      | some action => .ok action
      | none => .error e : Except AppError (List String)) = .ok actions) :
    elements = actions.map some := by
  induction elements generalizing actions with
  | nil =>
    cases h
    rfl
  | cons element elements ih =>
    rw [List.mapM_cons] at h
    obtain ⟨action, haction, h⟩ := Except.bind_eq_ok_iff.mp h
    obtain ⟨rest, hrest, h⟩ := Except.bind_eq_ok_iff.mp h
    cases h
    cases element with
    | none => cases haction
    | some action' =>
      cases haction
      rw [ih hrest, List.map_cons]

/-- An action that `query_actions` returns is one of an applicable rule. -/
theorem mem_of_queryActions {actions : List String} {action : String}
    (h : db.queryActions userId "repository" repositoryId = .ok actions)
    (ha : action ∈ actions) :
    ∃ rule ∈ db.permissions, rule.Names db userId ∧ rule.Targets db repositoryId ∧
      some action ∈ rule.actions := by
  have hsome : some action ∈ actions.map some := List.mem_map_of_mem ha
  rw [← mapM_decode_eq_ok h, List.mem_eraseDups, List.mem_flatMap] at hsome
  obtain ⟨rule, hrule, haction⟩ := hsome
  obtain ⟨hmem, hnames, htargets⟩ := mem_matchingRules_repository.mp hrule
  exact ⟨rule, hmem, hnames, htargets, haction⟩

end Applies

/-- Authorization on repositories is scoped to principals. -/
structure PrincipalScoped (db : AuthzDb) : Prop where
  /-- A new rule decides about those it applies to, and about nobody else. -/
  frame : ∀ (rule : PermissionRule) (userId repositoryId : Uuid) (action : String),
    ¬ (rule.Names db userId ∧ rule.Targets db repositoryId) →
    (db.addRule rule).checkRepositoryAction userId repositoryId action false =
      db.checkRepositoryAction userId repositoryId action false
  /-- For a user with an applicable rule and no owner role the applicable rules decide. -/
  authoritative : ∀ (userId repositoryId : Uuid) (action : String),
    (∃ rule ∈ db.permissions, rule.Names db userId ∧ rule.Targets db repositoryId) →
    (∀ permissions ∈ db.assignedRoles userId repositoryId, some "admin" ∉ permissions) →
    (db.checkRepositoryAction userId repositoryId action false = true ↔
      ∃ rule ∈ db.permissions, rule.Names db userId ∧ rule.Targets db repositoryId ∧
        (some action ∈ rule.actions ∨ some "admin" ∈ rule.actions))
  /-- What the other query grants, this one grants. -/
  covers : ∀ (userId repositoryId : Uuid) (action : String),
    db.checkPermission userId "repository" repositoryId action false = .ok true →
    db.checkRepositoryAction userId repositoryId action false = true

theorem principalScoped (db : AuthzDb) : PrincipalScoped db where
  frame rule userId repositoryId action h := by
    have hroles : (db.addRule rule).assignedRoles userId repositoryId =
      db.assignedRoles userId repositoryId := rfl
    simp only [AuthzDb.checkRepositoryAction, applicableRules_addRule h, hroles]
  authoritative userId repositoryId action := checkRepositoryAction_iff_of_rule
  covers userId repositoryId action h := by
    simp only [AuthzDb.checkPermission, Bool.false_eq_true, if_false] at h
    obtain ⟨actions, hquery, hany⟩ := Except.map_eq_ok_iff.mp h
    obtain ⟨action', hmem, haction⟩ := List.any_eq_true.mp hany
    obtain rfl : action' = action := by simpa using haction
    obtain ⟨rule, hrule, hnames, htargets, hactions⟩ := mem_of_queryActions hquery hmem
    by_cases howner : ∃ permissions ∈ db.assignedRoles userId repositoryId,
        some "admin" ∈ permissions
    · obtain ⟨permissions, hpermissions, hadmin⟩ := howner
      have hany : ((db.assignedRoles userId repositoryId).any fun permissions =>
          eqAny "admin" permissions) = true :=
        List.any_eq_true.mpr ⟨permissions, hpermissions, eqAny_iff.mpr hadmin⟩
      simp [AuthzDb.checkRepositoryAction, hany]
    · have hroles : ∀ permissions ∈ db.assignedRoles userId repositoryId,
          some "admin" ∉ permissions := fun permissions hmem hadmin =>
        howner ⟨permissions, hmem, hadmin⟩
      exact (checkRepositoryAction_iff_of_rule ⟨rule, hrule, hnames, htargets⟩ hroles).mpr
        ⟨rule, hrule, hnames, htargets, .inl hactions⟩

/-- A developer without a rule, and a reader through a group. -/
def developerAndReader : AuthzDb where
  permissions := []
  userGroupMembers := [(1, 9)]
  repositories := [⟨7, some 3⟩]
  roles := [⟨4, [some "write"]⟩]
  roleAssignments := [⟨2, 4, some 7⟩, ⟨1, 4, some 7⟩]
  repositories_pk := by decide

/-- The first rule of the project, for the group, leaves the developer as before and decides for the
reader. -/
theorem principalScoped_groupRule :
    (developerAndReader.addRule ⟨"group", 9, "project", 3, [some "read"]⟩).checkRepositoryAction
        2 7 "write" false = developerAndReader.checkRepositoryAction 2 7 "write" false ∧
      developerAndReader.checkRepositoryAction 2 7 "write" false = true ∧
      (developerAndReader.addRule ⟨"group", 9, "project", 3, [some "read"]⟩).checkRepositoryAction
        1 7 "read" false = true ∧
      developerAndReader.checkRepositoryAction 1 7 "read" false = false := by
  refine ⟨(principalScoped developerAndReader).frame _ 2 7 "write" ?_, by decide, ?_, by decide⟩
  · simp [PermissionRule.Names, developerAndReader]
  · exact (principalScoped _).covers 1 7 "read" (by decide +kernel)

end ArtifactKeeper.Permissions
