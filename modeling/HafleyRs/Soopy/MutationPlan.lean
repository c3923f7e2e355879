import HafleyRs.Soopy.EditPlan

/-!
# Planning a batch of source actions (`crates/soopy/src/_7d_mutation_plan.rs`)

| here | there |
| --- | --- |
| `SourceRoot` | what the planner asks of the root: its identity, `symlink_metadata` and one `read_each` |
| `validateShape` | _7b_source_actions.rs:230-424 |
| `invalidPaths`, `pushInvalidPath` | 374, 397 |
| `SourceOperation`, `groupAction`, `insertNonReplace` | 348, the loop of `group_actions` (434), 534 |
| `claimDestination`, `groupActions` | the two destination loops (503, 511), 426 |
| `directSourceMode`, `readInputs`, `staleInputs` | 563, 597, 739 |
| `createdFile`, `plannedFile` | the two loops of `plan_mutations` (147, 161) |
| `plannedFileKey`, `planMutations` | 942, 82 |

`Halt` tells a refusal from a failed `expect`. `SourceActionGroup` has one field and is left out. The
derived `Debug` text the conflicts are sorted by is `debug`, and the digest of the content is `blake3`.
-/

namespace Soopy

/-- What `symlink_metadata` is asked for. -/
structure FileMetadata where
  isFile   : Bool
  readonly : Bool
  unixMode : Option Nat
deriving DecidableEq, Repr

/-- `ReadRequest`, and `FileReadRequest` for a directory. -/
structure ReadRequest where
  source   : ActionSource
  expected : Option ContentId
deriving DecidableEq, Repr

structure ReadAnswer where
  source  : ActionSource
  content : ContentId
  bytes   : Bytes
deriving DecidableEq, Repr

/-- A root as it stands while one plan is made. `readEach` gives the answers the callback gets, and the
error after them if there is one. -/
structure SourceRoot where
  identity : SourceRootId
  display  : String → String
  lstat    : String → Except String FileMetadata
  readEach : List ReadRequest → List ReadAnswer × Option String

/-- How a call ends that makes no plan. -/
inductive Halt where
  | refused (refusal : StageRefusal)
  | panicked
deriving DecidableEq, Repr

/-! ## `validate_shape` -/

def sourceActionSchemaVersion : Nat := 1

def validatePath (root : SourceRootId) (actionIndex : Nat) (path : SourcePath) :
    List SourceActionValidationError :=
  match root, path with
  | .directory _, .directory _ => []
  | .gitWorktree _ _, .git _ => []
  | _, _ => [.pathRootMismatch actionIndex path root]

def validateSource (root : SourceRootId) (actionIndex : Nat) (source : ActionSource) :
    List SourceActionValidationError :=
  match root, source with
  | .directory directory, .directory file =>
    if directory = file.directory then [] else [.sourceRootMismatch actionIndex source root]
  | .gitWorktree repository worktree, .git git =>
    if git.repository ≠ repository then [.sourceRootMismatch actionIndex source root]
    else match git.revision with
      | .worktree sourceWorktree _ _ =>
        if sourceWorktree = worktree then [] else [.sourceRootMismatch actionIndex source root]
      | .commit _ => [.immutableGitSource actionIndex git]
  | _, _ => [.sourceRootMismatch actionIndex source root]

def validateEdit (actionIndex : Nat) (source : ActionSource) (editIndex : Nat) (edit : TextEdit) :
    List SourceActionValidationError :=
  (if edit.range.source ≠ source then
    [.editSourceMismatch actionIndex editIndex source edit.range.source] else []) ++
  (if edit.range.start > edit.range.stop then
    [.invertedEditRange actionIndex editIndex edit.range.start edit.range.stop] else [])

def validateAction (root : SourceRootId) (actionIndex : Nat) :
    SourceAction → List SourceActionValidationError
  | .create path _ => validatePath root actionIndex path
  | .replace source _ edits =>
    validateSource root actionIndex source ++
      edits.zipIdx.flatMap fun e => validateEdit actionIndex source e.2 e.1
  | .move source _ destination =>
    validateSource root actionIndex source ++ validatePath root actionIndex destination
  | .delete source _ => validateSource root actionIndex source

def validateShape (request : StageRequest) : List SourceActionValidationError :=
  (if request.schemaVersion ≠ sourceActionSchemaVersion then
    [.unsupportedSchemaVersion request.schemaVersion] else []) ++
  request.actions.zipIdx.flatMap fun a => validateAction request.root a.2 a.1

/-! ## `invalid_paths` -/

def pathReason (raw : String) : Option InvalidPathReason :=
  if raw = "" ∨ raw = "." then some .empty
  else if '\n' ∈ raw.toList ∨ '\r' ∈ raw.toList then some .recordSeparator
  else if raw.toList.head? = some '/' then some .absolute
  else if ['.', '.'] ∈ raw.toList.splitOn '/' then some .traversal
  else none

def pushInvalidPath (actionIndex : Nat) (path : SourcePath) : List InvalidMutationPath :=
  match pathReason (pathText path) with
  | some reason => [⟨actionIndex, path, reason⟩]
  | none => []

def actionPaths : SourceAction → List SourcePath
  | .create path _ => [path]
  | .replace source _ _ => [sourcePath source]
  | .delete source _ => [sourcePath source]
  | .move source _ destination => [sourcePath source, destination]

def invalidPaths (request : StageRequest) : List InvalidMutationPath :=
  request.actions.zipIdx.flatMap fun a => (actionPaths a.1).flatMap (pushInvalidPath a.2)

/-! ## `group_actions` -/

inductive SourceOperation where
  | replace (expected : ContentId) (edits : List TextEdit)
  | move (expected : ContentId) (destination : SourcePath)
  | delete (expected : ContentId)
deriving DecidableEq, Repr

structure GroupedActions where
  creates : BTreeMap SourcePath Bytes
  sources : BTreeMap ActionSource SourceOperation

/-- The locals of the loop over the actions. -/
structure Grouping extends GroupedActions where
  conflicts : List MutationConflict

def canonicalContentIds (ids : List ContentId) : List ContentId := sortedDistinct ids

def insertNonReplace (g : Grouping) (source : ActionSource) (operation : SourceOperation) : Grouping :=
  { g with
    sources := g.sources.insert source operation
    conflicts := if g.sources[source]?.isSome then g.conflicts ++ [.sourceOperationCollision source]
      else g.conflicts }

def groupAction (g : Grouping) : SourceAction → Grouping
  | .create path bytes =>
    { g with
      creates := g.creates.insert path bytes
      conflicts := if g.creates[path]?.isSome then g.conflicts ++ [.pathCollision path]
        else g.conflicts }
  | .replace source expected edits =>
    match g.sources[source]? with
    | none => { g with sources := g.sources.insert source (.replace expected edits) }
    | some (.replace existing existingEdits) =>
      if existing = expected then
        { g with sources := g.sources.insert source (.replace existing (existingEdits ++ edits)) }
      else
        { g with conflicts := g.conflicts ++
            [.expectedContentMismatch source (canonicalContentIds [existing, expected])] }
    | some _ => { g with conflicts := g.conflicts ++ [.sourceOperationCollision source] }
  | .move source expected destination => insertNonReplace g source (.move expected destination)
  | .delete source expected => insertNonReplace g source (.delete expected)

def grouping (actions : List SourceAction) : Grouping := actions.foldl groupAction ⟨⟨∅, ∅⟩, []⟩

def destinationIsOccupied (root : SourceRoot) (path : SourcePath) : Bool :=
  match root.identity, path with
  | .directory _, .directory path => (root.lstat path).isOk
  | .gitWorktree _ _, .git path => (root.lstat path).isOk
  | _, _ => false

structure Destinations where
  claimed   : BTreeSet SourcePath
  conflicts : List MutationConflict

def claimDestination (root : SourceRoot) (sourcePaths : BTreeSet SourcePath) (d : Destinations)
    (path : SourcePath) : Destinations where
  claimed := d.claimed.insert path
  conflicts := d.conflicts ++ (if path ∈ d.claimed then [.pathCollision path] else []) ++
    if path ∈ sourcePaths ∨ destinationIsOccupied root path then [.occupiedDestination path] else []

def SourceOperation.destination : SourceOperation → Option SourcePath
  | .move _ destination => some destination
  | _ => none

/-- The destinations in the order of the two loops: the creates', then the moves'. -/
def GroupedActions.destinations (g : GroupedActions) : List SourcePath :=
  g.creates.keys ++ g.sources.toList.filterMap fun e => e.2.destination

def GroupedActions.sourcePaths (g : GroupedActions) : BTreeSet SourcePath :=
  g.sources.keys.foldl (fun s source => s.insert (sourcePath source)) ∅

variable (debug : MutationConflict → String)

/-- `conflicts` before it is sorted. -/
def foundConflicts (root : SourceRoot) (actions : List SourceAction) : List MutationConflict :=
  let g := grouping actions
  (g.destinations.foldl (claimDestination root g.sourcePaths) ⟨∅, g.conflicts⟩).conflicts

def sortConflicts (conflicts : List MutationConflict) : List MutationConflict :=
  (conflicts.insertionSort fun a b => debug a ≤ debug b).destutter (· ≠ ·)

def groupActions (root : SourceRoot) (actions : List SourceAction) : Except Halt GroupedActions :=
  let conflicts := sortConflicts debug (foundConflicts root actions)
  if conflicts = [] then .ok (grouping actions).toGroupedActions
  else .error (.refused (.conflict conflicts))

/-! ## `read_inputs` -/

structure SourceInput where
  content : ContentId
  bytes   : Bytes
  mode    : FileModeObservation
deriving DecidableEq, Repr

def expectedContent : SourceOperation → ContentId
  | .replace expected _ => expected
  | .move expected _ => expected
  | .delete expected => expected

def expectedForGitRead (operation : SourceOperation) : Option ContentId :=
  match expectedContent operation with
  | .gitBlob id => some (.gitBlob id)
  | .blake3 _ => none

def directSourceMode (root : SourceRoot) (source : ActionSource) : Except String FileModeObservation :=
  let regular (path : String) : Except String FileModeObservation :=
    match root.lstat path with
    | .error detail => .error ("read direct source metadata " ++ root.display path ++ ": " ++ detail)
    | .ok metadata =>
      if metadata.isFile then .ok ⟨metadata.readonly, metadata.unixMode⟩
      else .error ("source target is not a regular file: " ++ root.display path)
  match root.identity, source with
  | .directory _, .directory file => regular file.path
  | .gitWorktree _ _, .git git => regular git.path
  | _, _ => .error "source root does not match target root"

/-- The first loop: the mode of every source, before anything is read. -/
def sourceModes (root : SourceRoot) (sources : List ActionSource) :
    Except Halt (BTreeMap ActionSource FileModeObservation) :=
  sources.foldlM (fun modes source =>
    match directSourceMode root source with
    | .ok mode => .ok (modes.insert source mode)
    | .error detail => .error (.refused (.unreadable source detail))) ∅

/-- The callback of `read_each`. -/
def storeInput (modes : BTreeMap ActionSource FileModeObservation)
    (inputs : BTreeMap ActionSource SourceInput) (answer : ReadAnswer) :
    Except Halt (BTreeMap ActionSource SourceInput) :=
  match modes[answer.source]? with
  | some mode => .ok (inputs.insert answer.source ⟨answer.content, answer.bytes, mode⟩)
  | none => .error .panicked

def readRequest (root : SourceRoot) (source : ActionSource) (operation : SourceOperation) : ReadRequest where
  source := source
  expected := match root.identity with
    | .directory _ => none
    | .gitWorktree _ _ => expectedForGitRead operation

/-- `read_each` failed: the first source it gave no answer for is to blame. -/
def readFailure (root : SourceRoot) (requests : List ReadRequest)
    (inputs : BTreeMap ActionSource SourceInput) (detail : String) : Halt :=
  match requests.find? fun r => ¬ inputs.contains r.source with
  | none => .panicked
  | some request =>
    match root.identity with
    | .directory _ => .refused (.unreadable request.source detail)
    | .gitWorktree _ _ =>
      if "content changed".toList <:+: detail.toList then
        match request.expected with
        | some expected => .refused (.stale [⟨request.source, expected, none⟩])
        | none => .panicked
      else .refused (.unreadable request.source detail)

def readInputs (root : SourceRoot) (sources : List (ActionSource × SourceOperation)) :
    Except Halt (BTreeMap ActionSource SourceInput) := do
  let modes ← sourceModes root (sources.map Prod.fst)
  let requests := sources.map fun e => readRequest root e.1 e.2
  let (answers, error) := root.readEach requests
  let inputs ← answers.foldlM (storeInput modes) ∅
  match error with
  | some detail => .error (readFailure root requests inputs detail)
  | none => .ok inputs

/-! ## `plan_mutations` -/

def inputOf (inputs : BTreeMap ActionSource SourceInput) (source : ActionSource) : Except Halt SourceInput :=
  match inputs[source]? with
  | some input => .ok input
  | none => .error .panicked

def staleInput (inputs : BTreeMap ActionSource SourceInput) (e : ActionSource × SourceOperation) :
    Except Halt (List StaleInput) := do
  let input ← inputOf inputs e.1
  return if expectedContent e.2 ≠ input.content then [⟨e.1, expectedContent e.2, some input.content⟩] else []

def staleInputs (inputs : BTreeMap ActionSource SourceInput) (sources : List (ActionSource × SourceOperation)) :
    Except Halt (List StaleInput) := do
  let stale ← sources.mapM (staleInput inputs)
  return stale.flatten

variable (blake3 : Bytes → Bytes)

def blake3Content (bytes : Bytes) : ContentId := .blake3 (blake3 bytes)

def createdFile (path : SourcePath) (bytes : Bytes) : PlannedFile where
  kind := .create
  source := none
  pathBefore := none
  pathAfter := some path
  contentBefore := none
  contentAfter := some (blake3Content blake3 bytes)
  modeBefore := none
  bytesBefore := none
  bytesAfter := some bytes
  edits := []

/-- What is read of a source goes into its file whatever is done with it. -/
def readFile (kind : PlannedFileKind) (source : ActionSource) (input : SourceInput) : PlannedFile where
  kind := kind
  source := some source
  pathBefore := some (sourcePath source)
  pathAfter := none
  contentBefore := some input.content
  contentAfter := none
  modeBefore := some input.mode
  bytesBefore := some input.bytes
  bytesAfter := none
  edits := []

def plannedFile (inputs : BTreeMap ActionSource SourceInput) (e : ActionSource × SourceOperation) :
    Except Halt PlannedFile := do
  let input ← inputOf inputs e.1
  match e.2 with
  | .replace _ edits =>
    match normalizeEdits e.1 edits input.bytes.length with
    | .error refusal => .error (.refused refusal)
    | .ok edits =>
      match applyEdits input.bytes edits with
      | none => .error .panicked
      | some bytesAfter =>
        .ok { readFile .replace e.1 input with
          pathAfter := some (sourcePath e.1)
          contentAfter := some (blake3Content blake3 bytesAfter)
          bytesAfter := some bytesAfter
          edits := edits }
  | .move _ destination =>
    .ok { readFile .move e.1 input with
      pathAfter := some destination
      contentAfter := some input.content
      bytesAfter := some input.bytes }
  | .delete _ => .ok (readFile .delete e.1 input)

def plannedFileKey (file : PlannedFile) : WithBot SourcePath ×ₗ WithBot SourcePath ×ₗ PlannedFileKind :=
  toLex (optKey file.pathAfter, toLex (optKey file.pathBefore, file.kind))

/-- `plan_mutations` from the grouped actions on. -/
def planGrouped (root : SourceRoot) (creates : List (SourcePath × Bytes))
    (sources : List (ActionSource × SourceOperation)) : Except Halt MutationPlan := do
  let inputs ← readInputs root sources
  let stale ← staleInputs inputs sources
  if stale ≠ [] then .error (.refused (.stale stale))
  else do
    let created := creates.map fun e => createdFile blake3 e.1 e.2
    let files ← sources.mapM (plannedFile blake3 inputs)
    return ⟨root.identity, (created ++ files).insertionSort fun a b => plannedFileKey a ≤ plannedFileKey b⟩

def planMutations (root : SourceRoot) (request : StageRequest) : Except Halt MutationPlan :=
  if request.root ≠ root.identity then
    .error (.refused (.rootMismatch request.root root.identity))
  else if validateShape request ≠ [] then .error (.refused (.invalidRequest (validateShape request)))
  else if invalidPaths request ≠ [] then .error (.refused (.invalidPath (invalidPaths request)))
  else do
    let grouped ← groupActions debug root request.actions
    planGrouped blake3 root grouped.creates.toList grouped.sources.toList

end Soopy
