import HafleyRs.Ghcache.CheckoutTasks
import HafleyRs.Lib.Json
import HafleyRs.Lib.Table

/-!
# The sweep over pull requests (`crates/ghcache/src/sync/prs.rs`)

| here | there |
| --- | --- |
| `PullRequest`, `Review`, `Label`, `RequestedReviewer`, `StatusCheck` | the tables `pull_request`, `pr_review`, `pr_label`, `pr_requested_reviewer`, `pr_status_check` (`schema.sql` 22) |
| `Change` | the table `change_log` (141), as `log_change` writes it (`db.rs` 248) |
| `GitHubClient` | `gh.rs` 38, the calls the sweep makes |
| `upsertPr`, `upsertReview`, `upsertStatusCheck` | 200, 329, 351 |
| `syncBatch` | `sync_batch` (60); `syncRepo` and `syncNode` are the bodies of its loops |

A statement that fails ends the sweep in the source; here the statements succeed and the service may fail.
-/

namespace Ghcache

structure PullRequest where
  id           : Int
  repoId       : Int
  number       : Int
  ghNodeId     : Option String
  state        : String
  title        : String
  author       : Option String
  headRef      : Option String
  headSha      : Option String
  baseRef      : Option String
  mergeable    : Option String
  draft        : Bool
  additions    : Option Int
  deletions    : Option Int
  changedFiles : Option Int
  createdAt    : String
  updatedAt    : String
  mergedAt     : Option String
  closedAt     : Option String
  body         : Option String
  rawJson      : String
deriving DecidableEq, Repr

def PullRequest.key (row : PullRequest) : Int × Int := (row.repoId, row.number)

/-- `ON CONFLICT(repo_id, number) DO UPDATE` -/
def PullRequest.merge : Merge PullRequest.key where
  run old new := { new with id := old.id, createdAt := old.createdAt }
  keeps _ _ _ := rfl

structure Review where
  prId        : Int
  ghId        : Int
  author      : Option String
  state       : String
  body        : Option String
  submittedAt : Option String
deriving DecidableEq, Repr

def Review.key (row : Review) : Int × Int := (row.prId, row.ghId)

def Review.merge : Merge Review.key where
  run old new := { new with author := old.author }
  keeps _ _ _ := rfl

structure Label where
  prId  : Int
  label : String
  color : Option String
deriving DecidableEq, Repr

def Label.key (row : Label) : Int × String := (row.prId, row.label)

structure RequestedReviewer where
  prId     : Int
  reviewer : String
deriving DecidableEq, Repr

def RequestedReviewer.key (row : RequestedReviewer) : Int × String := (row.prId, row.reviewer)

structure StatusCheck where
  prId        : Int
  context     : String
  state       : String
  targetUrl   : Option String
  description : Option String
  updatedAt   : String
deriving DecidableEq, Repr

def StatusCheck.key (row : StatusCheck) : Int × String := (row.prId, row.context)

def StatusCheck.merge : Merge StatusCheck.key where
  run _ new := new
  keeps _ _ _ := rfl

inductive ChangeEvent where
  | inserted | updated
deriving DecidableEq, Repr

structure Change where
  entityType : String
  entityId   : Int
  event      : ChangeEvent
  repoSlug   : Option String
deriving DecidableEq, Repr

structure Db where
  pullRequests       : Table PullRequest.key
  reviews            : Table Review.key
  labels             : Table Label.key
  requestedReviewers : Table RequestedReviewer.key
  statusChecks       : Table StatusCheck.key
  changeLog          : List Change

/-- `AUTOINCREMENT`, `chrono::Utc::now` and `serde_json::to_string`. -/
structure Ext where
  newId  : Db → Int
  now    : Db → String
  toJson : Json → String

structure GitHubClient where
  throttleIfNeeded : String → Except String Int
  /-- The data of the answer to a query, by endpoint and query. -/
  graphql          : String → String → Except String Json

/-! ## One pull request -/

/-- `value[key]` -/
def index (v : Json) (key : String) : Json := (v.get key).getD .null

def nodesOf (v : Json) (key : String) : Option (List Json) := (index (index v key) "nodes").asArray

def number (pr : Json) : Option Int := (index pr "number").asI64

def updatedAt (pr : Json) : Option String := (index pr "updatedAt").asStr

section
variable (ext : Ext)

def upsertReview (prId : Int) (db : Db) (rv : Json) : Db :=
  let row : Review :=
    { prId
      ghId := ((index rv "databaseId").asI64).getD 0
      author := (index (index rv "author") "login").asStr
      state := ((index rv "state").asStr).getD ""
      body := (index rv "body").asStr
      submittedAt := (index rv "submittedAt").asStr }
  { db with reviews := db.reviews.upsert Review.merge row }

def upsertStatusCheck (prId : Int) (db : Db) (ctx : Json) : Db :=
  let write (context state : String) (targetUrl description : Option String) : Db :=
    let row : StatusCheck := ⟨prId, context, state, targetUrl, description, ext.now db⟩
    { db with statusChecks := db.statusChecks.upsert StatusCheck.merge row }
  match (index ctx "__typename").asStr with
  | some "StatusContext" =>
    write (((index ctx "context").asStr).getD "") (((index ctx "state").asStr).getD "") (index ctx "targetUrl").asStr
      (index ctx "description").asStr
  | some "CheckRun" =>
    write (((index ctx "name").asStr).getD "") (((index ctx "conclusion").asStr).getD "pending")
      (index ctx "detailsUrl").asStr none
  | _ => db

/-- `DELETE FROM pr_label WHERE pr_id = ?`, then `INSERT OR IGNORE`, which skips a label without a name. -/
def replaceLabels (prId : Int) (db : Db) (labels : List Json) : Db :=
  let kept : Table Label.key := ⟨db.labels.rows.filter fun row => row.prId ≠ prId,
    db.labels.unique.sublist (List.filter_sublist.map _)⟩
  { db with labels := labels.foldl (fun t lbl =>
      match (index lbl "name").asStr with
      | some label => (t.insertOrIgnore ⟨prId, label, (index lbl "color").asStr⟩).1
      | none => t) kept }

def replaceRequestedReviewers (prId : Int) (db : Db) (requests : List Json) : Db :=
  let kept : Table RequestedReviewer.key := ⟨db.requestedReviewers.rows.filter fun row => row.prId ≠ prId,
    db.requestedReviewers.unique.sublist (List.filter_sublist.map _)⟩
  { db with requestedReviewers := requests.foldl (fun t req =>
      let reviewer := index req "requestedReviewer"
      match (index reviewer "login").asStr <|> (index reviewer "name").asStr with
      | some name => (t.insertOrIgnore ⟨prId, name⟩).1
      | none => t) kept }

/-- The row `upsert_pr` binds. -/
def pullRequest (id repoId : Int) (pr : Json) : PullRequest where
  id
  repoId
  number := (number pr).getD 0
  ghNodeId := (index pr "id").asStr
  state :=
    match ((index pr "state").asStr).getD "OPEN" with
    | "MERGED" => "merged"
    | "CLOSED" => "closed"
    | _ => "open"
  title := ((index pr "title").asStr).getD ""
  author := (index (index pr "author") "login").asStr
  headRef := (index pr "headRefName").asStr
  headSha := (index pr "headRefOid").asStr
  baseRef := (index pr "baseRefName").asStr
  mergeable := (index pr "mergeable").asStr
  draft := ((index pr "isDraft").asBool).getD false
  additions := (index pr "additions").asI64
  deletions := (index pr "deletions").asI64
  changedFiles := (index pr "changedFiles").asI64
  createdAt := ((index pr "createdAt").asStr).getD ""
  updatedAt := (updatedAt pr).getD ""
  mergedAt := (index pr "mergedAt").asStr
  closedAt := (index pr "closedAt").asStr
  body := (index pr "body").asStr
  rawJson := ext.toJson pr

def upsertPr (db : Db) (repoId : Int) (repoSlug : String) (pr : Json) (isNew : Bool) : Db :=
  let row := pullRequest ext (ext.newId db) repoId pr
  let db := { db with pullRequests := db.pullRequests.upsert PullRequest.merge row }
  let prId := ((db.pullRequests.get row.key).map (·.id)).getD row.id
  let event := if isNew then .inserted else .updated
  let db := { db with changeLog := db.changeLog ++ [⟨"pull_request", prId, event, some repoSlug⟩] }
  let db := ((nodesOf pr "reviews").getD []).foldl (upsertReview prId) db
  let db := replaceLabels prId db ((nodesOf pr "labels").getD [])
  let db := replaceRequestedReviewers prId db ((nodesOf pr "reviewRequests").getD [])
  match (nodesOf pr "commits").bind List.head? with
  | none => db
  | some commit =>
    ((nodesOf (index (index commit "commit") "statusCheckRollup") "contexts").getD []).foldl
      (upsertStatusCheck ext prId) db

/-! ## The batch -/

/-- One node of the answer: the database, and whether something changed so far. -/
def syncNode (repo : Int × Slug) (existing : List Int) (s : Db × Bool) (pr : Json) : Db × Bool :=
  let n := (number pr).getD 0
  let isNew := !existing.contains n
  let changed := isNew || (s.1.pullRequests.get (repo.1, n)).map (·.updatedAt) ≠ updatedAt pr
  (upsertPr ext s.1 repo.1 (repo.2.1 ++ "/" ++ repo.2.2) pr isNew, s.2 || changed)

/-- The answer for one repository, and whether its pull requests changed. -/
def syncRepo (db : Db) (repo : Int × Slug) (nodes : List Json) : Db × Bool :=
  let existing := (db.pullRequests.rows.filter fun row => row.repoId = repo.1).map (·.number)
  let returnedNumbers := nodes.filterMap number
  let s := nodes.foldl (syncNode ext repo existing) (db, false)
  (s.1, s.2 || existing.any fun n => !returnedNumbers.contains n)

def syncChunk (data : Json) (s : Db × Finset Slug) (chunk : List (Int × Slug)) : Db × Finset Slug :=
  chunk.zipIdx.foldl (fun s x =>
    match nodesOf (index data s!"repo_{x.2}") "pullRequests" with
    | none => s
    | some nodes =>
      let r := syncRepo ext s.1 x.1 nodes
      (r.1, if r.2 then insert x.1.2 s.2 else s.2)) s

def prFields : String := "number title state isDraft body
              headRefName headRefOid baseRefName mergeable
              additions deletions changedFiles
              createdAt updatedAt mergedAt closedAt
              databaseId id
              author \x7b login \x7d
              reviews(last: 20) \x7b
                nodes \x7b databaseId author \x7b login \x7d state body submittedAt \x7d
              \x7d
              reviewRequests(first: 20) \x7b
                nodes \x7b
                  requestedReviewer \x7b
                    ... on User \x7b login \x7d
                    ... on Team \x7b name: slug \x7d
                  \x7d
                \x7d
              \x7d
              labels(first: 10) \x7b
                nodes \x7b name color \x7d
              \x7d
              commits(last: 1) \x7b
                nodes \x7b
                  commit \x7b
                    statusCheckRollup \x7b
                      contexts(first: 50) \x7b
                        nodes \x7b
                          __typename
                          ... on StatusContext \x7b context state targetUrl description \x7d
                          ... on CheckRun \x7b name conclusion detailsUrl \x7d
                        \x7d
                      \x7d
                    \x7d
                  \x7d
                \x7d
              \x7d"

def batchSize : Nat := 20

def endpoint (chunk : List (Int × Slug)) : String :=
  "graphql:prs:batch/" ++ (chunk.head?.map fun repo => repo.2.1).getD "?"

def aliasOf (repo : Int × Slug) (i : Nat) : String :=
  s!"  repo_{i}: repository(owner: \"" ++ repo.2.1 ++ "\", name: \"" ++ repo.2.2 ++ "\") \x7b\n" ++
    "    pullRequests(first: 100, states: OPEN, orderBy: \x7bfield: UPDATED_AT, direction: DESC\x7d) \x7b\n" ++
    "      nodes \x7b " ++ prFields ++ " \x7d\n" ++ "    \x7d\n" ++ "  \x7d"

def query (chunk : List (Int × Slug)) : String :=
  "\x7b \n" ++ String.intercalate "\n" (chunk.zipIdx.map fun x => aliasOf x.1 x.2) ++ "\n \x7d"

variable (gh : GitHubClient)

def syncChunks : Db × Finset Slug → List (List (Int × Slug)) → Db × Except String (Finset Slug)
  | s, [] => (s.1, .ok s.2)
  | s, chunk :: chunks =>
    match gh.throttleIfNeeded "graphql", gh.graphql (endpoint chunk) (query chunk) with
    | .ok _, .ok data => syncChunks (syncChunk ext data s chunk) chunks
    | .error e, _ => (s.1, .error e)
    | .ok _, .error e => (s.1, .error e)

def syncBatch (db : Db) (repos : List (Int × Slug)) : Db × Except String (Finset Slug) :=
  if repos.isEmpty then (db, .ok ∅) else syncChunks ext gh (db, ∅) (repos.toChunks batchSize)

end

end Ghcache
