import HafleyRs.Lib.Checks
import HafleyRs.Lib.FileTree
import HafleyRs.Soopy.StageStore

/-!
# Applying a stage to a tree (`crates/soopy/src/_7f_commit.rs`)

| here | there |
| --- | --- |
| `CommitFailpoint`, `CommitRefusal`, `CommitReceipt` | 34, 80, 57 |
| `CommitEngine`, `World` | 173, with what is under the two roots |
| `normalNames`, `place` | `target_path` (1248): the normal components, and whether the text ends with a slash |
| `validateRelativePath`, `checkParentComponents` | 1182, 1204 |
| `contentMatches`, `modeMatches`, `verifyExisting` | 1135, 1121, 1095 |
| `operationFromFile`, `preflightOperation`, `preflight` | 826, 854, 678 |
| `materializePayload`, `operationBytes` | the loop of `materialize_payloads` (590), 645 |
| `setMode`, `atomicWrite`, `applyOperation`, `applyFrom` | 1171, 1155 with 1479, 926, the loop of `apply_journal` (732) |
| `classifyOperation` | 984 |
| `validateJournal`, `validateReceipt` | 1326, 1358 |
| `receipt`, `stageOperationReceipts`, `watchProjection` | 1517, 1546, 1560 |
| `admitStage`, `prepare`, `commitWithFailpoint` | 267 up to the journal, with its write, 267 |
| `recover` | 447 |

The state root is outside the target. What a file under it holds is the journal or receipt that was written, or
`garbled`. A refusal that passes on an error of the system has no text of its own here. Syncs, spans and meters
are left out, and so are I/O errors other than those that the tree forces.

A `Cut` ends a run where the process dies: at a failpoint, or when the receipt is written and the journal is
still there. The code has failpoints for `commit` only.
-/

namespace Soopy
open FileTree Checks

inductive CommitFailpoint where
  | afterJournal
  | beforeOperation (index : Nat)
  | afterOperation (index : Nat)
deriving DecidableEq, Repr

inductive Cut where
  | failpoint (point : CommitFailpoint)
  | afterReceipt
deriving DecidableEq, Repr

structure CommitWatchPost where
  path    : SourcePath
  present : Bool
  content : Option ContentId
deriving DecidableEq, Repr

structure CommitWatchCorrelation (D : Type) where
  stageId : D
  paths   : List SourcePath
  post    : List CommitWatchPost
deriving DecidableEq, Repr

structure CommitOperationReceipt where
  kind       : PlannedFileKind
  pathBefore : Option SourcePath
  pathAfter  : Option SourcePath
  before     : Option ContentId
  after      : Option ContentId
deriving DecidableEq, Repr

structure CommitReceipt (D : Type) where
  stageId         : D
  root            : SourceRootId
  appliedFiles    : Nat
  operations      : List CommitOperationReceipt
  journalBytes    : Nat
  checkpointBytes : Nat
  watch           : CommitWatchCorrelation D
deriving DecidableEq, Repr

inductive CommitRefusal (D : Type) where
  | rootMismatch (expected actual : SourceRootId)
  | unsafePath (path : SourcePath) (reason : String)
  | preflight (path : SourcePath) (reason : String)
  | recoveryRequired (stageId : D)
  | receiptDiverged (stageId : D) (path : SourcePath) (reason : String)
  | locked
  | io (operation detail : String)
  | cut (point : Cut)
deriving DecidableEq, Repr

inductive Durability where
  | durable | dryRun
deriving DecidableEq, Repr

structure JournalOperation (D : Type) where
  kind         : PlannedFileKind
  beforePath   : Option SourcePath
  afterPath    : Option SourcePath
  expected     : Option ContentId
  afterBlob    : Option D
  afterContent : Option ContentId
  mode         : Option FileModeObservation
deriving DecidableEq, Repr

structure CommitJournal (D : Type) where
  version    : Nat
  stageId    : D
  root       : SourceRootId
  operations : List (JournalOperation D)
deriving DecidableEq, Repr

def journalVersion : Nat := 2

inductive OperationState where
  | before | after | diverged
deriving DecidableEq, Repr

/-- What stands in a file that was written as a whole. -/
inductive Stored (α : Type) where
  | valid (value : α)
  | garbled

structure CommitEngine (D : Type) where
  durability   : Durability
  actualRootId : SourceRootId → Except String SourceRootId
  /-- What a link to a staged blob holds, if one can be made. -/
  stagedBlob   : D → Option Bytes
  hash         : Bytes → D
  toBytes      : D → Bytes
  hashObject   : Bytes → Except String ObjectId
  /-- The mode of a new file. -/
  createMode   : Nat
  journalBytes : CommitJournal D → Nat

structure World (D : Type) where
  tree     : Files Bytes
  journals : D → Option (Stored (CommitJournal D))
  receipts : D → Option (Stored (CommitReceipt D))
  blobs    : D → Option Bytes
  locked   : Bool

variable {D : Type} [DecidableEq D]

abbrev Checked (D α : Type) := Except (CommitRefusal D) α

def JournalOperation.paths (operation : JournalOperation D) : List SourcePath :=
  operation.beforePath.toList ++ operation.afterPath.toList

/-! ## Paths -/

def pieces (path : SourcePath) : List (List Char) := (pathText path).toList.splitOn '/'

def normalNames (path : SourcePath) : Path :=
  ((pieces path).filter fun piece => piece ≠ [] ∧ piece ≠ ['.']).map String.ofList

def place (path : SourcePath) : Place where
  names := normalNames path
  slash := (pieces path).getLast? = some [] ∨ (pieces path).getLast? = some ['.']

/-- The directories a path goes through. -/
def parents (names : Path) : List Path := (List.range (names.length - 1)).map fun i => names.take (i + 1)

def osError (operation : String) : CommitRefusal D := .io operation ""

def kindText : PlannedFileKind → String
  | .create => "Create"
  | .replace => "Replace"
  | .move => "Move"
  | .delete => "Delete"

def missingPath (kind : PlannedFileKind) : CommitRefusal D :=
  .io "construct journal operation" ("missing path for " ++ kindText kind)

def validateRelativePath (path : SourcePath) : Checked D Unit :=
  if pathText path = "" ∨ pathText path = "." then .error (.unsafePath path "empty path")
  else if (pathText path).toList.head? = some '/' then .error (.unsafePath path "absolute path")
  else
    match (normalNames path).find? fun name => name = ".git" ∨ name = ".." with
    | some name =>
      .error (.unsafePath path (if name = ".git" then ".git path is confined" else "path escapes root"))
    | none => .ok ()

def checkParent (t : Files Bytes) (path : SourcePath) (dir : Path) : Checked D Unit :=
  match t.stat ⟨dir, false⟩ with
  | .ok .link => .error (.unsafePath path "parent component is a symlink")
  | .ok .dir => .ok ()
  | .ok _ => .error (.preflight path "parent component is not a directory")
  | .error .notFound => .ok ()
  | .error _ => .error (osError "inspect parent component")

def checkParentComponents (t : Files Bytes) (path : SourcePath) : Checked D Unit :=
  each (checkParent t path) (parents (normalNames path))

def checkPath (t : Files Bytes) (path : SourcePath) : Checked D Unit :=
  match validateRelativePath path with
  | .error r => .error r
  | .ok () => checkParentComponents t path

/-! ## What is at a path -/

variable (engine : CommitEngine D)

def blake3Id (bytes : Bytes) : ContentId := .blake3 (engine.toBytes (engine.hash bytes))

/-- `observed` -/
def contentIdLike (expected : ContentId) (bytes : Bytes) : Checked D ContentId :=
  match expected with
  | .blake3 _ => .ok (blake3Id engine bytes)
  | .gitBlob _ =>
    match engine.hashObject bytes with
    | .ok id => .ok (.gitBlob id)
    | .error detail => .error (.io "commit" detail)

def readBytes (t : Files Bytes) (path : SourcePath) : Checked D Bytes :=
  match t.read (place path) with
  | .ok bytes => .ok bytes
  | .error _ => .error (osError "read commit target")

def contentMatches (t : Files Bytes) (path : SourcePath) (expected : Option ContentId) : Checked D Bool :=
  match expected with
  | none => .ok false
  | some expected =>
    match readBytes t path with
    | .error r => .error r
    | .ok bytes =>
      match contentIdLike engine expected bytes with
      | .error r => .error r
      | .ok observed => .ok (observed = expected)

def readonly (mode : Nat) : Bool := mode &&& 146 = 0

def modeMatches (mode : Nat) (expected : FileModeObservation) : Bool :=
  readonly mode = expected.readonly && expected.unixMode.all (mode = ·)

def verifyExisting (t : Files Bytes) (source : SourcePath) (expected : Option ContentId)
    (mode : Option FileModeObservation) : Checked D Unit :=
  match t.stat (place source) with
  | .error _ => .error (.preflight source "source unavailable")
  | .ok (.file found) =>
    match contentMatches engine t source expected with
    | .error r => .error r
    | .ok false => .error (.preflight source "source content changed after staging")
    | .ok true =>
      match mode with
      | none => .error (.preflight source "source mode was not captured")
      | some mode =>
        if modeMatches found mode then .ok () else .error (.preflight source "source mode changed after staging")
  | .ok _ => .error (.preflight source "source is not a regular file")

/-! ## Preflight -/

def operationFromFile (file : StagedFile D) : Checked D (JournalOperation D) :=
  match file.kind, file.pathBefore, file.pathAfter with
  | .create, some path, _ => .error (.preflight path "create has a source path")
  | .delete, _, some path => .error (.preflight path "delete has a destination path")
  | _, _, _ =>
    .ok { kind := file.kind, beforePath := file.pathBefore, afterPath := file.pathAfter,
          expected := file.contentBefore, afterBlob := file.stagedBytes <|> file.bytesAfter.map engine.hash,
          afterContent := file.contentAfter, mode := file.modeBefore }

def needsOutput (operation : JournalOperation D) (path : SourcePath) (reason : String) : Checked D Unit :=
  match operation.afterBlob with
  | none => .error (.preflight path reason)
  | some _ => .ok ()

def absent (t : Files Bytes) (path : SourcePath) (reason : String) : Checked D Unit :=
  match t.stat (place path) with
  | .ok _ => .error (.preflight path reason)
  | .error _ => .ok ()

def requirePath (kind : PlannedFileKind) (path : Option SourcePath) : Checked D SourcePath :=
  match path with
  | some path => .ok path
  | none => .error (missingPath kind)

def preflightOperation (t : Files Bytes) (operation : JournalOperation D) : Checked D Unit :=
  match operation.kind with
  | .create => do
    let destination ← requirePath operation.kind operation.afterPath
    absent t destination "create destination already exists"
    needsOutput operation destination "create has no output bytes"
  | .replace => do
    let source ← requirePath operation.kind operation.beforePath
    verifyExisting engine t source operation.expected operation.mode
    needsOutput operation source "replace has no output bytes"
  | .move => do
    let source ← requirePath operation.kind operation.beforePath
    let destination ← requirePath operation.kind operation.afterPath
    verifyExisting engine t source operation.expected operation.mode
    absent t destination "move destination already exists"
    needsOutput operation destination "move has no output bytes"
  | .delete => do
    let source ← requirePath operation.kind operation.beforePath
    verifyExisting engine t source operation.expected operation.mode

def preflightFile (t : Files Bytes) (file : StagedFile D) : Checked D (JournalOperation D) := do
  let operation ← operationFromFile engine file
  each (checkPath t) operation.paths
  preflightOperation engine t operation
  return operation

def preflight (t : Files Bytes) (stage : StagedSourceTransaction D) : Checked D (CommitJournal D) := do
  let operations ← stage.files.mapM (preflightFile engine t)
  return ⟨journalVersion, stage.id, stage.root, operations⟩

def pathOfRoot : SourceRootId → SourcePath → Bool
  | .directory _, .directory _ => true
  | .gitWorktree _ _, .git _ => true
  | _, _ => false

def validateJournal (journal : CommitJournal D) : Checked D Unit :=
  each (fun operation => do
    each validateRelativePath operation.paths
    if operation.paths.all (pathOfRoot journal.root) then .ok ()
    else .error (.io "validate commit journal" (match journal.root with
      | .directory _ => "directory journal has Git path"
      | .gitWorktree _ _ => "Git journal has directory path"))) journal.operations

/-! ## Payloads -/

abbrev Blobs (D : Type) := D → Option Bytes

def digestMismatch : CommitRefusal D := .io "verify commit payload" "payload digest mismatch"

def materializePayload (blobs : Blobs D) (file : StagedFile D) (operation : JournalOperation D) :
    Checked D (Blobs D) :=
  match operation.afterBlob with
  | none => .ok blobs
  | some blob =>
    match file.bytesAfter with
    | none => .error (.io "materialize commit payload" "stage has no output bytes")
    | some bytes =>
      if engine.hash bytes ≠ blob then .error (.io "materialize commit payload" "stage blob digest mismatch")
      else
        match blobs blob with
        | some existing => if engine.hash existing ≠ blob then .error digestMismatch else .ok blobs
        | none =>
          .ok (Function.update blobs blob (some (match engine.durability with
            | .dryRun => bytes
            | .durable => (engine.stagedBlob blob).getD bytes)))

/-- The blobs written before a failure stay. -/
def materializePayloads (blobs : Blobs D) : List (StagedFile D × JournalOperation D) → Blobs D × Checked D Unit
  | [] => (blobs, .ok ())
  | (file, operation) :: rest =>
    match materializePayload engine blobs file operation with
    | .error r => (blobs, .error r)
    | .ok blobs => materializePayloads blobs rest

def operationBytes (blobs : Blobs D) (operation : JournalOperation D) : Checked D (Option Bytes) :=
  match operation.afterBlob with
  | none => .ok none
  | some blob =>
    match blobs blob with
    | none => .error (osError "read commit payload")
    | some bytes => if engine.hash bytes ≠ blob then .error digestMismatch else .ok (some bytes)

/-! ## Applying -/

/-- The mode of a regular file after `set_permissions`. -/
def setMode (mode : FileModeObservation) (current : Nat) : Nat :=
  let permissions := if mode.readonly then current ^^^ (current &&& 146) else current ||| 146
  32768 + mode.unixMode.getD permissions % 4096

def atomicWrite (t : Files Bytes) (pl : Place) (bytes : Bytes) (mode : Option FileModeObservation) :
    Files Bytes × Checked D Unit :=
  match engine.durability with
  | .durable =>
    match t.publish pl bytes (mode.elim engine.createMode fun mode => setMode mode engine.createMode) with
    | .ok t' => (t', .ok ())
    | .error _ => (t, .error (osError "publish atomic target"))
  | .dryRun =>
    match t.writeInPlace pl bytes engine.createMode with
    | .error _ => (t, .error (osError "write atomic target"))
    | .ok t' =>
      match mode with
      | none => (t', .ok ())
      | some mode =>
        match t'.chmod pl (setMode mode) with
        | .ok t'' => (t'', .ok ())
        | .error _ => (t', .error (osError "set target mode"))

/-- After the parents of the path are made. -/
def withParents (t : Files Bytes) (names : Path) (next : Files Bytes → Files Bytes × Checked D Unit) :
    Files Bytes × Checked D Unit :=
  let (t', made) := t.mkdirAll [] names.dropLast
  if made then next t' else (t', .error (osError "create target parent"))

def applyOperation (t : Files Bytes) (operation : JournalOperation D) (bytes : Bytes) : Files Bytes × Checked D Unit :=
  match operation.kind with
  | .create | .replace =>
    match operation.afterPath with
    | none => (t, .error (missingPath operation.kind))
    | some path =>
      withParents t (normalNames path) fun t => atomicWrite engine t (place path) bytes operation.mode
  | .move =>
    match operation.beforePath, operation.afterPath with
    | some source, some destination =>
      withParents t (normalNames destination) fun t =>
        match t.rename (place source) (place destination) with
        | .ok t' => (t', .ok ())
        | .error _ => (t, .error (osError "rename staged move"))
    | _, _ => (t, .error (missingPath operation.kind))
  | .delete =>
    match operation.beforePath with
    | none => (t, .error (missingPath operation.kind))
    | some source =>
      match t.remove (place source) with
      | .ok t' => (t', .ok ())
      | .error _ => (t, .error (osError "delete staged file"))

/-- The loop over the operations from one on. -/
def applyFrom (cut : Option Cut) (completed : Nat → Bool) : Nat → Files Bytes →
    List (JournalOperation D × Option Bytes) → Files Bytes × Checked D Unit
  | _, t, [] => (t, .ok ())
  | index, t, (operation, payload) :: rest =>
    if completed index then applyFrom cut completed (index + 1) t rest
    else if cut = some (.failpoint (.beforeOperation index)) then
      (t, .error (.cut (.failpoint (.beforeOperation index))))
    else
      match applyOperation engine t operation (payload.getD []) with
      | (t', .error r) => (t', .error r)
      | (t', .ok ()) =>
        if cut = some (.failpoint (.afterOperation index)) then
          (t', .error (.cut (.failpoint (.afterOperation index))))
        else applyFrom cut completed (index + 1) t' rest

def applyJournal (w : World D) (journal : CommitJournal D) (cut : Option Cut) (completed : Nat → Bool) :
    World D × Checked D Unit :=
  match journal.operations.mapM (operationBytes engine w.blobs) with
  | .error r => (w, .error r)
  | .ok payloads =>
    let (t, result) := applyFrom engine cut completed 0 w.tree (journal.operations.zip payloads)
    ({ w with tree := t }, result)

/-! ## Classification -/

def classifyWritten (t : Files Bytes) (operation : JournalOperation D) (path : SourcePath) (after : Option Bytes) :
    Checked D OperationState :=
  match t.stat (place path) with
  | .ok (.file _) => do
    let bytes ← readBytes t path
    if some bytes = after then return .after
    else if operation.kind = .replace then do
      let unchanged ← contentMatches engine t path operation.expected
      return if unchanged then .before else .diverged
    else return .diverged
  | .ok _ => .error (.preflight path "recovery target is not a regular file")
  | .error e =>
    if operation.kind = .create ∧ operation.expected = none then .ok .before
    else if e = .notFound ∧ operation.kind = .replace then
      .error (.preflight path "recovery replacement disappeared")
    else .ok .diverged

def classifyDelete (t : Files Bytes) (operation : JournalOperation D) (path : SourcePath) : Checked D OperationState :=
  match t.stat (place path) with
  | .error .notFound => .ok .after
  | .error _ => .error (osError "inspect delete recovery")
  | .ok _ => do
    let unchanged ← contentMatches engine t path operation.expected
    return if unchanged then .before else .diverged

/-- The bytes at a path, if anything is there. -/
def bytesThere (t : Files Bytes) (path : SourcePath) : Checked D (Option Bytes) :=
  match t.stat (place path) with
  | .error _ => .ok none
  | .ok _ => do
    let bytes ← readBytes t path
    return some bytes

def classifyMove (t : Files Bytes) (operation : JournalOperation D) (source destination : SourcePath)
    (after : Option Bytes) : Checked D OperationState := do
  let sourceState ← bytesThere t source
  let destinationState ← bytesThere t destination
  let unchanged ←
    if sourceState.isSome && destinationState.isNone then contentMatches engine t source operation.expected
    else .ok false
  return if unchanged then .before
    else if sourceState = none ∧ destinationState = after then .after
    else .diverged

def classifyOperation (t : Files Bytes) (operation : JournalOperation D) (after : Option Bytes) :
    Checked D OperationState :=
  match operation.kind with
  | .create | .replace => do
    let path ← requirePath operation.kind operation.afterPath
    classifyWritten engine t operation path after
  | .delete => do
    let path ← requirePath operation.kind operation.beforePath
    classifyDelete engine t operation path
  | .move => do
    let source ← requirePath operation.kind operation.beforePath
    let destination ← requirePath operation.kind operation.afterPath
    classifyMove engine t operation source destination after

/-! ## Receipts -/

def operationReceipt (operation : JournalOperation D) : CommitOperationReceipt :=
  ⟨operation.kind, operation.beforePath, operation.afterPath, operation.expected, operation.afterContent⟩

def stageOperationReceipts (files : List (StagedFile D)) : List CommitOperationReceipt :=
  files.map fun file => ⟨file.kind, file.pathBefore, file.pathAfter, file.contentBefore, file.contentAfter⟩

def watchProjection (stageId : D) (operations : List CommitOperationReceipt) : CommitWatchCorrelation D where
  stageId
  paths := operations.flatMap fun operation => operation.pathBefore.toList ++ operation.pathAfter.toList
  post := operations.flatMap fun operation =>
    match operation.kind with
    | .delete => operation.pathBefore.toList.map fun path => ⟨path, false, none⟩
    | _ => operation.pathAfter.toList.map fun path => ⟨path, true, operation.after⟩

def receipt (journal : CommitJournal D) : CommitReceipt D :=
  let operations := journal.operations.map operationReceipt
  { stageId := journal.stageId
    root := journal.root
    appliedFiles := journal.operations.length
    operations
    journalBytes := engine.journalBytes journal
    checkpointBytes := 0
    watch := watchProjection journal.stageId operations }

def rootPath : SourcePath := .directory "."

def validateOperationReceipt (t : Files Bytes) (stageId : D) (root : SourceRootId)
    (operation : CommitOperationReceipt) : Checked D Unit := do
  let diverged (path : SourcePath) (reason : String) : Checked D Unit := .error (.receiptDiverged stageId path reason)
  each (fun path => if pathOfRoot root path then .ok ()
    else diverged path "receipt path variant does not match root")
    (operation.pathBefore.toList ++ operation.pathAfter.toList)
  match if operation.kind = .delete then operation.pathBefore else operation.pathAfter with
  | none =>
    diverged ((operation.pathBefore <|> operation.pathAfter).getD rootPath) "receipt operation has no path"
  | some path => do
    checkPath t path
    match operation.kind, t.stat (place path) with
    | .delete, .ok _ => diverged path "deleted path is present"
    | .delete, .error _ => .ok ()
    | _, .error _ => diverged path ""
    | kind, .ok (.file _) => do
      let same ← contentMatches engine t path operation.after
      if !same then diverged path "post-commit identity does not match receipt"
      else
        match kind, operation.pathBefore with
        | .move, some source =>
          match t.stat (place source) with
          | .ok _ => diverged source "moved source path is still present"
          | .error _ => .ok ()
        | _, _ => .ok ()
    | _, .ok _ => diverged path "post-commit identity does not match receipt"

def validateReceipt (t : Files Bytes) (r : CommitReceipt D) (stageId : D) (expectedRoot : SourceRootId) :
    Checked D Unit :=
  if r.stageId ≠ stageId ∨ r.root ≠ expectedRoot then
    .error (.receiptDiverged stageId rootPath "receipt identity does not match requested stage")
  else each (validateOperationReceipt engine t stageId expectedRoot) r.operations

def readReceipt (w : World D) (stageId : D) : Checked D (Option (CommitReceipt D)) :=
  match w.receipts stageId with
  | none => .ok none
  | some (.valid r) => .ok (some r)
  | some .garbled => .error (osError "decode commit receipt")

/-! ## Commit -/

/-- What the checks before the payloads come to. -/
inductive Admission (D : Type) where
  | replayed (receipt : CommitReceipt D)
  | admitted (journal : CommitJournal D)

def sealedReceipt (stage : StagedSourceTransaction D) (r : CommitReceipt D) : Bool :=
  let operations := stageOperationReceipts stage.files
  r.operations = operations && r.appliedFiles = operations.length && r.watch = watchProjection stage.id operations

/-- The receipt of the stage, if it holds; a refusal if it neither holds nor can be made to. -/
def replay (w : World D) (stage : StagedSourceTransaction D) : Checked D (Option (CommitReceipt D)) := do
  match ← readReceipt w stage.id with
  | none => return none
  | some r =>
    if !sealedReceipt stage r then
      .error (.receiptDiverged stage.id
        (((stageOperationReceipts stage.files).head?.bind fun operation =>
          operation.pathAfter <|> operation.pathBefore).getD rootPath)
        "receipt does not match the sealed stage")
    else
      match validateReceipt engine w.tree r stage.id stage.root with
      | .ok () => return some r
      | .error (.receiptDiverged id path reason) =>
        match preflight engine w.tree stage with
        | .error _ => .error (.receiptDiverged id path reason)
        | .ok _ => return none
      | .error refusal => .error refusal

def verifyRoot (root : SourceRootId) : Checked D Unit :=
  match engine.actualRootId root with
  | .error detail => .error (.io "commit" detail)
  | .ok actual => if actual ≠ root then .error (.rootMismatch root actual) else .ok ()

def admitStage (w : World D) (stage : StagedSourceTransaction D) : Checked D (Admission D) := do
  if w.locked then .error .locked
  verifyRoot engine stage.root
  match ← replay engine w stage with
  | some r => return .replayed r
  | none =>
    if (w.journals stage.id).isSome then .error (.recoveryRequired stage.id)
    let journal ← preflight engine w.tree stage
    validateJournal journal
    return .admitted journal

/-- All up to the first operation: the checks, the payloads and the journal. -/
def prepare (w : World D) (stage : StagedSourceTransaction D) : World D × Checked D (Admission D) :=
  match admitStage engine w stage with
  | .error r => (w, .error r)
  | .ok (.replayed r) => (w, .ok (.replayed r))
  | .ok (.admitted journal) =>
    match materializePayloads engine w.blobs (stage.files.zip journal.operations) with
    | (blobs, .error r) => ({ w with blobs }, .error r)
    | (blobs, .ok ()) =>
      ({ w with blobs, journals := Function.update w.journals stage.id (some (.valid journal)) },
        .ok (.admitted journal))

/-- The operations, then the receipt, and the journal goes. -/
def complete (w : World D) (journal : CommitJournal D) (cut : Option Cut) (completed : Nat → Bool) :
    World D × Checked D (CommitReceipt D) :=
  match applyJournal engine w journal cut completed with
  | (w, .error r) => (w, .error r)
  | (w, .ok ()) =>
    let r := receipt engine journal
    let w := { w with receipts := Function.update w.receipts journal.stageId (some (.valid r)) }
    if cut = some .afterReceipt then (w, .error (.cut .afterReceipt))
    else ({ w with journals := Function.update w.journals journal.stageId none }, .ok r)

def commitWithFailpoint (w : World D) (stage : StagedSourceTransaction D) (cut : Option Cut) :
    World D × Checked D (CommitReceipt D) :=
  match prepare engine w stage with
  | (w, .error r) => (w, .error r)
  | (w, .ok (.replayed r)) => (w, .ok r)
  | (w, .ok (.admitted journal)) =>
    if cut = some (.failpoint .afterJournal) then (w, .error (.cut (.failpoint .afterJournal)))
    else complete engine w journal cut fun _ => false

def commit (w : World D) (stage : StagedSourceTransaction D) : World D × Checked D (CommitReceipt D) :=
  commitWithFailpoint engine w stage none

/-! ## Recovery -/

def readJournal (w : World D) (stageId : D) : Checked D (CommitJournal D) :=
  match w.journals stageId with
  | none => .error (osError "read commit journal")
  | some .garbled => .error (osError "decode commit journal")
  | some (.valid journal) =>
    if journal.version ≠ journalVersion then .error (.io "validate commit journal" "unsupported journal version")
    else .ok journal

/-- What `recover` finds before it changes anything. -/
def survey (w : World D) (stageId : D) : Checked D (CommitJournal D × List OperationState) := do
  if w.locked then .error .locked
  let journal ← readJournal w stageId
  if journal.stageId ≠ stageId then .error (.io "validate commit journal" "journal stage ID mismatch")
  validateJournal journal
  verifyRoot engine journal.root
  each (fun operation => each (checkPath w.tree) operation.paths) journal.operations
  let states ← journal.operations.mapM fun operation => do
    let bytes ← operationBytes engine w.blobs operation
    classifyOperation engine w.tree operation bytes
  if .diverged ∈ states then .error (.recoveryRequired stageId)
  return (journal, states)

def recoverUntil (w : World D) (stageId : D) (cut : Option Cut) : World D × Checked D (CommitReceipt D) :=
  match survey engine w stageId with
  | .error r => (w, .error r)
  | .ok (journal, states) => complete engine w journal cut fun index => states[index]? = some .after

def recover (w : World D) (stageId : D) : World D × Checked D (CommitReceipt D) := recoverUntil engine w stageId none

end Soopy
