import HafleyRs.Lib.KeyedDiff
import HafleyRs.Soopy.Types

/-!
# Snapshots, deltas and the two watchers (`crates/soopy/src/_8_watch.rs`, `_11_refs.rs`)

| here | there |
| --- | --- |
| the snapshot and delta types | _0_types.rs:117 to 160, 291, 555 to 840 |
| `classifyEventBatch` | _8_watch.rs:299 |
| `diff`, `diffDirectory`, `diffWorktrees` | _8_watch.rs:753, 788, 821 |
| `diffRefs` | _11_refs.rs:85 |
| `diffRepository`, `worktreeHead` | _8_watch.rs:707, 745 |
| `RepositoryWatcher.readSnapshot`, `recvBatch` | _8_watch.rs:215, 192 |
| `DirectoryWatcher.recvBatch` | _8_watch.rs:83 |

Git, the file system and the debouncer are the environment: a `Receive` holds the events of one
batch, which paths of them are relevant, and what every read of that call answers (or fails with).
The four `diff` functions have one shape, `KeyedDiff.diff`, over the rows indexed by key (`byKey`,
the `collect` into a `BTreeMap`); they differ in what counts as a change and in what a delta shows.
-/

namespace Soopy
open KeyedDiff

/-! ## Snapshots -/

structure FileEntry where
  file    : FileRef
  content : ContentId
  size    : Nat
deriving DecidableEq, Repr

structure FileSnapshot where
  files       : List FileEntry
  directories : List RootPath
deriving DecidableEq, Repr

structure SourceEntry where
  source  : SourceRef
  content : ContentId
  size    : Nat
deriving DecidableEq, Repr

structure DirectoryEntry where
  repository : RepositoryId
  revision   : RevisionId
  path       : RepoPath
deriving DecidableEq, Repr

structure SourceSnapshot where
  revision    : RevisionId
  files       : List SourceEntry
  directories : List DirectoryEntry
deriving DecidableEq, Repr

inductive ObjectKind where
  | blob | tree | commit | tag
deriving DecidableEq, Repr

structure Tagger where
  name  : String
  email : String
  when  : Int
deriving DecidableEq, Repr

structure TagMetadata where
  targetKind : ObjectKind
  tagger     : Tagger
  message    : String
deriving DecidableEq, Repr

structure RefObservation where
  repository : RepositoryId
  name       : String
  symbolic   : Option String
  direct     : ObjectId
  peeled     : Option ObjectId
  kind       : ObjectKind
  tag        : Option TagMetadata
deriving DecidableEq, Repr

inductive Head where
  | symbolic (target : String)
  | detached (id : ObjectId)
  | unborn (target : String)
deriving DecidableEq, Repr

structure HeadObservation where
  state  : Head
  target : Option ObjectId
deriving DecidableEq, Repr

structure RefSnapshot where
  repository : RepositoryId
  head       : Head
  headTarget : Option ObjectId
  refs       : List RefObservation
deriving DecidableEq, Repr

structure IndexSnapshot where
  repository : RepositoryId
  worktree   : WorktreeId
  index      : Bytes
deriving DecidableEq, Repr

structure WorktreeObservation where
  repository : RepositoryId
  worktree   : WorktreeId
  root       : String
  commit     : Option ObjectId
  head       : Head
deriving DecidableEq, Repr

structure WorktreeSnapshot where
  repository : RepositoryId
  worktrees  : List WorktreeObservation
deriving DecidableEq, Repr

structure RepositorySnapshot where
  repository : RepositoryId
  source     : Option SourceSnapshot
  refs       : Option RefSnapshot
  index      : Option IndexSnapshot
  worktrees  : Option WorktreeSnapshot
deriving DecidableEq, Repr

/-! ## Deltas -/

inductive DirectoryDelta where
  | added (path : String)
  | changed (path : String)
  | removed (path : String)
  | rescanRequired
deriving DecidableEq, Repr

inductive SourceDelta where
  | added (entry : SourceEntry)
  | changed (before after : SourceEntry)
  | removed (source : SourceRef)
  | revisionChanged (before after : RevisionId)
  | rescanRequired
deriving DecidableEq, Repr

inductive RefDelta where
  | headChanged (before after : HeadObservation)
  | added (row : RefObservation)
  | removed (row : RefObservation)
  | changed (before after : RefObservation)
deriving DecidableEq, Repr

inductive IndexDelta where
  | changed (before after : IndexSnapshot)
deriving DecidableEq, Repr

inductive WorktreeDelta where
  | added (worktree : WorktreeObservation)
  | removed (worktree : WorktreeObservation)
  | changed (before after : WorktreeObservation)
deriving DecidableEq, Repr

inductive RepositoryDelta where
  | ref (delta : RefDelta)
  | source (delta : SourceDelta)
  | index (delta : IndexDelta)
  | worktree (delta : WorktreeDelta)
  | rescanRequired
deriving DecidableEq, Repr

/-! ## The `diff` functions -/

/-- `rows.iter().map(|row| (key(row), row)).collect()`: of two rows with one key the last is kept. -/
def byKey {K E : Type} [LinearOrder K] (key : E → K) (rows : List E) : BTreeMap K E :=
  rows.foldl (fun m e => m.insert (key e) e) ∅

def SourceSnapshot.byPath (s : SourceSnapshot) : BTreeMap RepoPath SourceEntry :=
  byKey (fun e => e.source.path) s.files

def FileSnapshot.byPath (s : FileSnapshot) : BTreeMap RootPath FileEntry :=
  byKey (fun e => e.file.path) s.files

def RefSnapshot.byName (s : RefSnapshot) : BTreeMap String RefObservation :=
  byKey RefObservation.name s.refs

def WorktreeSnapshot.byId (s : WorktreeSnapshot) : BTreeMap WorktreeId WorktreeObservation :=
  byKey WorktreeObservation.worktree s.worktrees

def diff (before after : SourceSnapshot) : List SourceDelta :=
  (KeyedDiff.diff (fun b a => b.content ≠ a.content) before.byPath after.byPath).map fun
    | .added _ after => .added after
    | .removed _ before => .removed before.source
    | .changed _ before after => .changed before after

def diffDirectory (before after : FileSnapshot) : List DirectoryDelta :=
  (KeyedDiff.diff (fun b a => b.content ≠ a.content) before.byPath after.byPath).map fun
    | .added path _ => .added path
    | .removed path _ => .removed path
    | .changed path _ _ => .changed path

def diffWorktrees (before after : WorktreeSnapshot) : List WorktreeDelta :=
  (KeyedDiff.diff (fun b a => b ≠ a) before.byId after.byId).map fun
    | .added _ after => .added after
    | .removed _ before => .removed before
    | .changed _ before after => .changed before after

def RefSnapshot.observation (s : RefSnapshot) : HeadObservation := ⟨s.head, s.headTarget⟩

/-- The loop of `diff_refs` over the ref names. -/
def diffNamed (before after : RefSnapshot) : List RefDelta :=
  (KeyedDiff.diff (fun b a => b ≠ a) before.byName after.byName).map fun
    | .added _ after => .added after
    | .removed _ before => .removed before
    | .changed _ before after => .changed before after

def diffRefs (before after : RefSnapshot) : List RefDelta :=
  (if before.head ≠ after.head ∨ before.headTarget ≠ after.headTarget then
    [.headChanged before.observation after.observation] else []) ++ diffNamed before after

def worktreeHead : RevisionId → Option ObjectId
  | .worktree _ head _ => head
  | .commit _ => none

/-! The four `if let (Some(before), Some(after))` blocks of `diff_repository`. -/

def refDeltas : Option RefSnapshot → Option RefSnapshot → List RepositoryDelta
  | some before, some after => (diffRefs before after).map .ref
  | _, _ => []

def sourceDeltas : Option SourceSnapshot → Option SourceSnapshot → List RepositoryDelta
  | some before, some after =>
    (if worktreeHead before.revision ≠ worktreeHead after.revision then
      [.source (.revisionChanged before.revision after.revision)] else []) ++
    (diff before after).map .source
  | _, _ => []

def indexDeltas : Option IndexSnapshot → Option IndexSnapshot → List RepositoryDelta
  | some before, some after => if before ≠ after then [.index (.changed before after)] else []
  | _, _ => []

def worktreeDeltas : Option WorktreeSnapshot → Option WorktreeSnapshot → List RepositoryDelta
  | some before, some after => (diffWorktrees before after).map .worktree
  | _, _ => []

def diffRepository (before after : RepositorySnapshot) : List RepositoryDelta :=
  refDeltas before.refs after.refs ++ sourceDeltas before.source after.source ++
    indexDeltas before.index after.index ++ worktreeDeltas before.worktrees after.worktrees

/-! ## Event batches -/

structure Event where
  needRescan : Bool
  paths      : List String
deriving DecidableEq, Repr

/-- `Err` holds the debouncer's own errors, which nothing reads. -/
abbrev DebounceEventResult := Except Unit (List Event)

structure EventState where
  relevant : Bool
  rescan   : Bool
deriving DecidableEq, Repr

def classifyEvent (isRelevant : String → Bool) (state : EventState) (event : Event) : EventState :=
  ⟨state.relevant || event.paths.any isRelevant, state.rescan || event.needRescan⟩

def classifyEventBatch (isRelevant : String → Bool) (events : List DebounceEventResult) : EventState :=
  events.foldl (fun state result =>
    match result with
    | .ok events => events.foldl (classifyEvent isRelevant) state
    | .error _ => { state with rescan := true }) ⟨false, false⟩

/-! ## The repository watcher -/

/-- The surfaces a `WatchQuery` selects. -/
structure WatchQuery where
  source          : Bool
  refs            : Bool
  index           : Bool
  linkedWorktrees : Bool
deriving DecidableEq, Repr

/-- One receive: its events, and the answers its reads would get. -/
structure RepositoryReceive where
  events     : List DebounceEventResult
  isRelevant : String → Bool
  source     : Except String SourceSnapshot
  refs       : Except String RefSnapshot
  index      : Except String IndexSnapshot
  worktrees  : Except String WorktreeSnapshot
  refresh    : Except String Unit

structure RepositoryWatcher where
  repository : RepositoryId
  query      : WatchQuery
  snapshot   : Option RepositorySnapshot
deriving DecidableEq, Repr

/-- `selected.then(|| read()).transpose()` -/
def readSelected {α : Type} (selected : Bool) (read : Except String α) : Except String (Option α) :=
  if selected then some <$> read else .ok none

namespace RepositoryWatcher

def readSnapshot (self : RepositoryWatcher) (r : RepositoryReceive) :
    Except String RepositorySnapshot := do
  let source ← readSelected self.query.source r.source
  let refs ← readSelected self.query.refs r.refs
  let index ← readSelected self.query.index r.index
  let worktrees ← readSelected self.query.linkedWorktrees r.worktrees
  return ⟨self.repository, source, refs, index, worktrees⟩

/-- The opening read; `r` holds its answers. -/
def openWith (repository : RepositoryId) (query : WatchQuery) (r : RepositoryReceive) :
    Except String RepositoryWatcher := do
  let self : RepositoryWatcher := ⟨repository, query, none⟩
  let snapshot ← self.readSnapshot r
  return { self with snapshot := some snapshot }

/-- What a receive returns, and the watcher it leaves. -/
def recvBatch (self : RepositoryWatcher) (r : RepositoryReceive) :
    Except String (List RepositoryDelta) × RepositoryWatcher :=
  let state := classifyEventBatch r.isRelevant r.events
  if !state.relevant && !state.rescan then (.ok [], self)
  else match self.snapshot with
    | none => (.error "repository watcher has no prior snapshot", self)
    | some before =>
      match self.readSnapshot r with
      | .error e => (.error e, self)
      | .ok after =>
        match r.refresh with
        | .error e => (.error e, self)
        | .ok () =>
          (.ok ((if state.rescan then [.rescanRequired] else []) ++ diffRepository before after),
            { self with snapshot := some after })

end RepositoryWatcher

/-! ## The directory watcher -/

structure DirectoryReceive where
  events     : List DebounceEventResult
  isRelevant : String → Bool
  rootExists : Bool
  snapshot   : Except String FileSnapshot

structure DirectoryWatcher where
  snapshot : FileSnapshot
deriving DecidableEq, Repr

def DirectoryWatcher.recvBatch (self : DirectoryWatcher) (r : DirectoryReceive) :
    Except String (List DirectoryDelta) × DirectoryWatcher :=
  let state := classifyEventBatch r.isRelevant r.events
  if !state.relevant && !state.rescan then (.ok [], self)
  else if !r.rootExists then (.ok [.rescanRequired], self)
  else match r.snapshot with
    | .error e => (.error e, self)
    | .ok after =>
      (.ok ((if state.rescan then [.rescanRequired] else []) ++ diffDirectory self.snapshot after),
        { self with snapshot := after })

/-! ## Consumers -/

def SourceDelta.apply (files : BTreeMap RepoPath SourceEntry) :
    SourceDelta → BTreeMap RepoPath SourceEntry
  | .added entry => files.insert entry.source.path entry
  | .changed _ after => files.insert after.source.path after
  | .removed source => files.erase source.path
  | .revisionChanged _ _ | .rescanRequired => files

def WorktreeDelta.apply (worktrees : BTreeMap WorktreeId WorktreeObservation) :
    WorktreeDelta → BTreeMap WorktreeId WorktreeObservation
  | .added worktree => worktrees.insert worktree.worktree worktree
  | .removed worktree => worktrees.erase worktree.worktree
  | .changed _ after => worktrees.insert after.worktree after

/-- `HEAD` and the named refs. -/
abbrev RefView := HeadObservation × BTreeMap String RefObservation

def RefSnapshot.view (s : RefSnapshot) : RefView := (s.observation, s.byName)

def RefDelta.apply (view : RefView) : RefDelta → RefView
  | .headChanged _ after => (after, view.2)
  | .added row => (view.1, view.2.insert row.name row)
  | .removed row => (view.1, view.2.erase row.name)
  | .changed _ after => (view.1, view.2.insert after.name after)

/-- The paths of a directory, each with the content it is known to have; a path that was reported
    since has to be read again. -/
abbrev DirectoryView := BTreeMap RootPath (Option ContentId)

def FileSnapshot.view (s : FileSnapshot) : DirectoryView := s.byPath.map fun _ e => some e.content

def DirectoryDelta.apply (view : DirectoryView) : DirectoryDelta → DirectoryView
  | .added path | .changed path => view.insert path none
  | .removed path => view.erase path
  | .rescanRequired => view

/-- A consumer's copy of what a repository watcher reports. -/
structure Mirror where
  refs      : Option RefView
  revision  : Option RevisionId
  files     : BTreeMap RepoPath SourceEntry
  index     : Option IndexSnapshot
  worktrees : BTreeMap WorktreeId WorktreeObservation

def RepositorySnapshot.files (s : RepositorySnapshot) : BTreeMap RepoPath SourceEntry :=
  (s.source.map SourceSnapshot.byPath).getD ∅

def RepositorySnapshot.worktreesById (s : RepositorySnapshot) :
    BTreeMap WorktreeId WorktreeObservation :=
  (s.worktrees.map WorktreeSnapshot.byId).getD ∅

def RepositorySnapshot.mirror (s : RepositorySnapshot) : Mirror :=
  ⟨s.refs.map RefSnapshot.view, s.source.map SourceSnapshot.revision, s.files, s.index, s.worktreesById⟩

def Mirror.apply (m : Mirror) : RepositoryDelta → Mirror
  | .ref delta => { m with refs := m.refs.map fun view => delta.apply view }
  | .source (.revisionChanged _ after) => { m with revision := some after }
  | .source delta => { m with files := delta.apply m.files }
  | .index (.changed _ after) => { m with index := some after }
  | .worktree delta => { m with worktrees := delta.apply m.worktrees }
  | .rescanRequired => m

/-- The copy is the snapshot, but for the parts of a source row beside its content, and for what a
    revision says beside its head: `diff` reports neither. -/
structure Mirror.Agrees (m : Mirror) (s : RepositorySnapshot) : Prop where
  refs      : m.refs = s.refs.map RefSnapshot.view
  head      : m.revision.map worktreeHead = s.source.map fun source => worktreeHead source.revision
  contents  : ∀ path : RepoPath, m.files[path]?.map SourceEntry.content =
    s.files[path]?.map SourceEntry.content
  index     : m.index = s.index
  worktrees : m.worktrees = s.worktreesById

end Soopy
