import HafleyRs.Lib.BTree
import HafleyRs.Lib.Machine
import HafleyRs.Lib.Words

/-!
# Identities and source actions (`crates/soopy/src/_0_types.rs`, `_7b_source_actions.rs`)

| here | there |
| --- | --- |
| `Byte`, `Bytes` | `u8`, `Vec<u8>` |
| `RepositoryId`, `WorktreeId`, `DirectoryId`, `RootPath`, `RepoPath`, `ObjectId` | newtypes of `Arc<str>` |
| `FileRef`, `RevisionId`, `SourceRef`, `ContentId` | _0_types.rs:110, 252, 285, 266 |
| `SourceRootId`, `SourcePath`, `ActionSource` | _7b_source_actions.rs:30, 44, 58 |
| `ActionSpan`, `ActionProducer`, `TextEdit` | _7b_source_actions.rs:70, 98, 136 |
| `pathText`, `sourcePath` | `path_text`, `source_path` (_7d_mutation_plan.rs:931, 920) |
| `SourceAction`, `StageRequest` | _7b_source_actions.rs:184, 211 |
| the `LinearOrder` instances | `#[derive(PartialOrd, Ord)]`: fields in order, variants in order |
-/

namespace Soopy

abbrev Byte := Fin 256
abbrev Bytes := List Byte

abbrev RepositoryId := String
abbrev WorktreeId := String
abbrev DirectoryId := String
abbrev RootPath := String
abbrev RepoPath := String
abbrev ObjectId := String

/-- `Option` ordered with `None` first. -/
def optKey {α : Type} (o : Option α) : WithBot α := o

theorem optKey_injective {α : Type} : Function.Injective (optKey (α := α)) := fun _ _ h => h

structure FileRef where
  directory : DirectoryId
  path      : RootPath
deriving DecidableEq, Repr

inductive RevisionId where
  | worktree (worktree : WorktreeId) (head : Option ObjectId) (dirty : Bool)
  | commit (id : ObjectId)
deriving DecidableEq, Repr

structure SourceRef where
  repository : RepositoryId
  revision   : RevisionId
  path       : RepoPath
deriving DecidableEq, Repr

inductive ContentId where
  | gitBlob (id : ObjectId)
  | blake3 (digest : Bytes)
deriving DecidableEq, Repr

inductive SourceRootId where
  | directory (directory : DirectoryId)
  | gitWorktree (repository : RepositoryId) (worktree : WorktreeId)
deriving DecidableEq, Repr

inductive SourcePath where
  | directory (path : RootPath)
  | git (path : RepoPath)
deriving DecidableEq, Repr

inductive ActionSource where
  | directory (file : FileRef)
  | git (source : SourceRef)
deriving DecidableEq, Repr

def pathText : SourcePath → String
  | .directory path => path
  | .git path => path

def sourcePath : ActionSource → SourcePath
  | .directory file => .directory file.path
  | .git source => .git source.path

structure ActionSpan where
  source : ActionSource
  start  : Nat
  stop   : Nat
deriving DecidableEq, Repr

structure ActionProducer where
  id              : String
  sameOffsetOrder : Option Nat
  rule            : Option String
deriving DecidableEq, Repr

structure TextEdit where
  range       : ActionSpan
  replacement : Bytes
  producer    : ActionProducer
deriving DecidableEq, Repr

inductive SourceAction where
  | create (path : SourcePath) (bytes : Bytes)
  | replace (source : ActionSource) (expected : ContentId) (edits : List TextEdit)
  | move (source : ActionSource) (expected : ContentId) (destination : SourcePath)
  | delete (source : ActionSource) (expected : ContentId)
deriving DecidableEq, Repr

structure StageRequest where
  schemaVersion : Nat
  root          : SourceRootId
  actions       : List SourceAction
deriving DecidableEq, Repr

/-! ## What a planner answers (`_7d_mutation_plan.rs`) -/

/-- `SourceActionValidationError` (_7b_source_actions.rs:253) -/
inductive SourceActionValidationError where
  | unsupportedSchemaVersion (found : Nat)
  | pathRootMismatch (actionIndex : Nat) (path : SourcePath) (root : SourceRootId)
  | sourceRootMismatch (actionIndex : Nat) (source : ActionSource) (root : SourceRootId)
  | immutableGitSource (actionIndex : Nat) (source : SourceRef)
  | editSourceMismatch (actionIndex editIndex : Nat) (actionSource editSource : ActionSource)
  | invertedEditRange (actionIndex editIndex start stop : Nat)
deriving DecidableEq, Repr

inductive InvalidPathReason where
  | empty | absolute | traversal | recordSeparator
deriving DecidableEq, Repr

structure InvalidMutationPath where
  actionIndex : Nat
  path        : SourcePath
  reason      : InvalidPathReason
deriving DecidableEq, Repr

structure NormalizedEdit where
  start       : Nat
  stop        : Nat
  replacement : Bytes
  producers   : List ActionProducer
deriving DecidableEq, Repr

/-- `PlannedFileKind` (_7d_mutation_plan.rs:55) -/
inductive PlannedFileKind where
  | create | replace | move | delete
deriving DecidableEq, Repr

structure FileModeObservation where
  readonly : Bool
  unixMode : Option Nat
deriving DecidableEq, Repr

structure PlannedFile where
  kind          : PlannedFileKind
  source        : Option ActionSource
  pathBefore    : Option SourcePath
  pathAfter     : Option SourcePath
  contentBefore : Option ContentId
  contentAfter  : Option ContentId
  modeBefore    : Option FileModeObservation
  bytesBefore   : Option Bytes
  bytesAfter    : Option Bytes
  edits         : List NormalizedEdit
deriving DecidableEq, Repr

structure MutationPlan where
  root  : SourceRootId
  files : List PlannedFile
deriving DecidableEq, Repr

inductive MutationConflict where
  | expectedContentMismatch (source : ActionSource) (expected : List ContentId)
  | sourceOperationCollision (source : ActionSource)
  | pathCollision (path : SourcePath)
  | occupiedDestination (path : SourcePath)
  | editOutOfBounds (source : ActionSource) (start stop inputLen : Nat)
  | overlappingEdits (source : ActionSource) (left right : NormalizedEdit)
  | sameOffsetOrderRequired (source : ActionSource) (offset : Nat) (edits : List NormalizedEdit)
  | sameOffsetOrderCollision (source : ActionSource) (offset : Nat) (edits : List NormalizedEdit)
deriving DecidableEq, Repr

structure StaleInput where
  source   : ActionSource
  expected : ContentId
  observed : Option ContentId
deriving DecidableEq, Repr

inductive StageRefusal where
  | rootMismatch (requested actual : SourceRootId)
  | invalidRequest (errors : List SourceActionValidationError)
  | invalidPath (paths : List InvalidMutationPath)
  | conflict (conflicts : List MutationConflict)
  | stale (inputs : List StaleInput)
  | unreadable (source : ActionSource) (detail : String)
  | store (detail : String)
deriving DecidableEq, Repr

/-! ## Derived orders -/

def FileRef.key (f : FileRef) : String ×ₗ String := toLex (f.directory, f.path)

instance : LinearOrder FileRef := LinearOrder.lift' FileRef.key fun a b h => by
  cases a; cases b; simpa [FileRef.key] using h

def RevisionId.key : RevisionId → (String ×ₗ WithBot String ×ₗ Bool) ⊕ₗ String
  | .worktree w head dirty => toLex (.inl (toLex (w, toLex (optKey head, dirty))))
  | .commit id => toLex (.inr id)

instance : LinearOrder RevisionId := LinearOrder.lift' RevisionId.key fun a b h => by
  cases a <;> cases b <;> simp_all [RevisionId.key, optKey_injective.eq_iff]

def SourceRef.key (s : SourceRef) : String ×ₗ RevisionId ×ₗ String :=
  toLex (s.repository, toLex (s.revision, s.path))

instance : LinearOrder SourceRef := LinearOrder.lift' SourceRef.key fun a b h => by
  cases a; cases b; simpa [SourceRef.key] using h

def ContentId.key : ContentId → String ⊕ₗ Bytes
  | .gitBlob id => toLex (.inl id)
  | .blake3 digest => toLex (.inr digest)

instance : LinearOrder ContentId := LinearOrder.lift' ContentId.key fun a b h => by
  cases a <;> cases b <;> simp_all [ContentId.key]

def SourcePath.key : SourcePath → String ⊕ₗ String
  | .directory path => toLex (.inl path)
  | .git path => toLex (.inr path)

instance : LinearOrder SourcePath := LinearOrder.lift' SourcePath.key fun a b h => by
  cases a <;> cases b <;> simp_all [SourcePath.key]

def ActionSource.key : ActionSource → FileRef ⊕ₗ SourceRef
  | .directory file => toLex (.inl file)
  | .git source => toLex (.inr source)

instance : LinearOrder ActionSource := LinearOrder.lift' ActionSource.key fun a b h => by
  cases a <;> cases b <;> simp_all [ActionSource.key]

def ActionProducer.key (p : ActionProducer) : String ×ₗ WithBot Nat ×ₗ WithBot String :=
  toLex (p.id, toLex (optKey p.sameOffsetOrder, optKey p.rule))

instance : LinearOrder ActionProducer := LinearOrder.lift' ActionProducer.key fun a b h => by
  cases a; cases b; simpa [ActionProducer.key, optKey_injective.eq_iff] using h

def PlannedFileKind.rank : PlannedFileKind → Nat
  | .create => 0
  | .replace => 1
  | .move => 2
  | .delete => 3

instance : LinearOrder PlannedFileKind := LinearOrder.lift' PlannedFileKind.rank fun a b h => by
  cases a <;> cases b <;> simp_all [PlannedFileKind.rank]

end Soopy
