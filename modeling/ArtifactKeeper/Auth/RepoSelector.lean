import ArtifactKeeper.Auth.Claims

/-! Repository selectors (`repo_selector_service.rs`) and access scopes (`access_scope.rs`). -/

namespace ArtifactKeeper.Auth

structure RepoRow where
  id : Uuid
  key : String
  format : String
  deriving DecidableEq, Repr

structure LabelRow where
  repositoryId : Uuid
  labelKey : String
  labelValue : String
  deriving DecidableEq, Repr

structure RepoSelector where
  matchLabels : List (String × String)
  matchFormats : List String
  matchPattern : Option String
  matchRepos : List Uuid
  deriving DecidableEq, Repr

def RepoSelector.default : RepoSelector := ⟨[], [], none, []⟩

def RepoSelector.isEmpty (s : RepoSelector) : Bool :=
  s.matchLabels.isEmpty && s.matchFormats.isEmpty && s.matchPattern.isNone && s.matchRepos.isEmpty

/-- What follows the first occurrence of `part`. -/
def afterFirst (part : List Char) : List Char → Option (List Char)
  | [] => if part.isEmpty then some [] else none
  | c :: rest => if part.isPrefixOf (c :: rest) then some ((c :: rest).drop part.length)
      else afterFirst part rest

/-- The loop of `sql_like_match` over the parts between wildcards; `first` marks index 0. -/
def likeLoop : Bool → List (List Char) → List Char → Bool
  | _, [], _ => true
  | first, part :: more, rest =>
    if part.isEmpty then likeLoop false more rest
    else if first then
      if part.isPrefixOf rest then likeLoop false more (rest.drop part.length) else false
    else if more.isEmpty then part.isSuffixOf rest
    else match afterFirst part rest with
      | some rest' => likeLoop false more rest'
      | none => false

def sqlLikeMatch (value pattern : String) : Bool :=
  let parts := pattern.toList.splitOn '%'
  if parts.length = 1 then value == pattern else likeLoop true parts value.toList

/-- `pattern.replace('*', "%")`. -/
def globToLike (pattern : String) : String :=
  String.ofList (pattern.toList.map fun c => if c = '*' then '%' else c)

/-- `resolve_repos_by_labels`: the repositories that carry every wanted label. -/
def hasAllLabels (labels : List LabelRow) (wanted : List (String × String)) (repo : Uuid) : Bool :=
  labels.any (fun l => l.repositoryId == repo) && wanted.all fun kv =>
    labels.any fun l => l.repositoryId == repo && l.labelKey == kv.1 && l.labelValue == kv.2

/-- `resolve_rows`; `lower` is `str::to_lowercase`. -/
def resolveRows (lower : String → String) (repositories : List RepoRow) (labels : List LabelRow)
    (s : RepoSelector) : List RepoRow :=
  if !s.matchRepos.isEmpty then repositories.filter fun r => s.matchRepos.contains r.id
  else if s.matchLabels.isEmpty && s.matchFormats.isEmpty && s.matchPattern.isNone then []
  else repositories.filter fun r =>
    (s.matchFormats.isEmpty || (s.matchFormats.map lower).contains (lower r.format)) &&
    (match s.matchPattern with
      | some pattern => sqlLikeMatch r.key (globToLike pattern)
      | none => true) &&
    (s.matchLabels.isEmpty || hasAllLabels labels s.matchLabels r.id)

def resolveIds (lower : String → String) (repositories : List RepoRow) (labels : List LabelRow)
    (s : RepoSelector) : List Uuid :=
  (resolveRows lower repositories labels s).map RepoRow.id

/-- A repository-scope decision: unrestricted, or an allow-list. -/
inductive AccessScope where
  | admin
  | restricted (ids : List Uuid)
  deriving DecidableEq, Repr

namespace AccessScope

def grants : AccessScope → Uuid → Bool
  | admin, _ => true
  | restricted ids, repoId => ids.contains repoId

def asAllowedRepoIds : AccessScope → Option (List Uuid)
  | admin => none
  | restricted ids => some ids

def ofOption : Option (List Uuid) → AccessScope
  | none => admin
  | some ids => restricted ids

end AccessScope
end ArtifactKeeper.Auth
