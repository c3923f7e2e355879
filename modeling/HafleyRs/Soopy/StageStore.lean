import HafleyRs.Soopy.Types

/-!
# Stage stores (`crates/soopy/src/_7e_stage_store.rs`)

| here | there |
| --- | --- |
| `D` | `StageId` and `StagedContentId`, the blake3 digests |
| `Codec` | what the store uses of blake3, `serde_json`, diffy and UTF-8 decoding |
| `sealPlan`, `identityBytes`, `preview` | `seal_plan`, `identity_bytes`, `preview` (573-697) |
| `InMemoryStageStore` | 207-300 |
| `DurableStageStore` | 302-569; the two directories map file names to contents |
| `Call`, `Answer`, `StageStore` | the trait's methods (159-164), their arguments and results |

Spans, meters and device syncs are left out, and so are I/O errors; `publish_file` is the file it leaves.
-/

namespace Soopy

structure StagedFile (D : Type) where
  kind          : PlannedFileKind
  source        : Option ActionSource
  pathBefore    : Option SourcePath
  pathAfter     : Option SourcePath
  contentBefore : Option ContentId
  contentAfter  : Option ContentId
  modeBefore    : Option FileModeObservation
  stagedBytes   : Option D
  edits         : List NormalizedEdit
  bytesAfter    : Option Bytes
deriving DecidableEq, Repr

structure IdentityFile (D : Type) where
  kind          : PlannedFileKind
  source        : Option ActionSource
  pathBefore    : Option SourcePath
  pathAfter     : Option SourcePath
  contentBefore : Option ContentId
  contentAfter  : Option ContentId
  modeBefore    : Option FileModeObservation
  stagedBytes   : Option D
  edits         : List NormalizedEdit
deriving DecidableEq, Repr

structure FilePreview where
  kind        : PlannedFileKind
  pathBefore  : Option SourcePath
  pathAfter   : Option SourcePath
  summary     : String
  unified     : Option String
  binary      : Bool
  beforeBytes : Nat
  afterBytes  : Nat
deriving DecidableEq, Repr

structure StagedSourceTransaction (D : Type) where
  id       : D
  root     : SourceRootId
  files    : List (StagedFile D)
  previews : List FilePreview
deriving DecidableEq, Repr

structure StageIdentity (D : Type) where
  schemaVersion : Nat
  root          : SourceRootId
  files         : List (IdentityFile D)
deriving DecidableEq, Repr

structure StoredManifest (D : Type) where
  schemaVersion : Nat
  id            : D
  identity      : Bytes
  root          : SourceRootId
  files         : List (StagedFile D)
  previews      : List FilePreview
deriving DecidableEq, Repr

structure CleanupPolicy (D : Type) [LinearOrder D] where
  retain                  : BTreeSet D
  removeManifests         : Bool
  removeUnreferencedBlobs : Bool

structure Codec (D : Type) where
  hash          : Bytes → D
  toHex         : D → String
  fromHex       : String → Option D
  writeIdentity : StageIdentity D → Bytes
  writeManifest : StoredManifest D → Bytes
  readManifest  : Bytes → Option (StoredManifest D)
  isUtf8        : Bytes → Bool
  patch         : Bytes → Bytes → String

/-- What is read back of a file: `bytes_after` is skipped. -/
def StagedFile.skip {D : Type} (f : StagedFile D) : StagedFile D := { f with bytesAfter := none }

/-- The digest has no collisions, and what is written is read back. -/
structure Codec.Lawful {D : Type} (c : Codec D) : Prop where
  hash_injective : Function.Injective c.hash
  fromHex_toHex : ∀ d, c.fromHex (c.toHex d) = some d
  identity_injective : Function.Injective c.writeIdentity
  readManifest_writeManifest : ∀ m, c.readManifest (c.writeManifest m) = some { m with files := m.files.map .skip }

def stageStoreSchemaVersion : Nat := 1

variable {D : Type} (c : Codec D)

def preview (kind : PlannedFileKind) (pathBefore pathAfter : Option SourcePath) (before after : Option Bytes) :
    FilePreview :=
  let before := before.getD []
  let after := after.getD []
  let binary := !c.isUtf8 before || !c.isUtf8 after
  let bytes := " (" ++ toString after.length ++ " bytes)"
  { kind
    pathBefore
    pathAfter
    summary := match pathBefore, pathAfter, kind with
      | _, some path, .create => "create " ++ pathText path ++ bytes
      | some path, _, .delete => "delete " ++ pathText path
      | some from', some to', .move => "move " ++ pathText from' ++ " -> " ++ pathText to' ++ bytes
      | _, some path, _ => "update " ++ pathText path ++ bytes
      | _, _, _ => "empty staged operation"
    unified := if binary then none else some (c.patch before after)
    binary
    beforeBytes := before.length
    afterBytes := after.length }

/-! ## Sealing -/

def StagedFile.identity (f : StagedFile D) : IdentityFile D :=
  { kind := f.kind, source := f.source, pathBefore := f.pathBefore, pathAfter := f.pathAfter,
    contentBefore := f.contentBefore, contentAfter := f.contentAfter, modeBefore := f.modeBefore,
    stagedBytes := f.stagedBytes, edits := f.edits }

abbrev FileKey := WithBot SourcePath ×ₗ WithBot SourcePath ×ₗ PlannedFileKind

def fileKey (pathAfter pathBefore : Option SourcePath) (kind : PlannedFileKind) : FileKey :=
  toLex (optKey pathAfter, toLex (optKey pathBefore, kind))

def StagedFile.key (f : StagedFile D) : FileKey := fileKey f.pathAfter f.pathBefore f.kind
def IdentityFile.key (f : IdentityFile D) : FileKey := fileKey f.pathAfter f.pathBefore f.kind
def PlannedFile.key (f : PlannedFile) : FileKey := fileKey f.pathAfter f.pathBefore f.kind

/-- The files of the identity, sorted. -/
def identityFiles (files : List (StagedFile D)) : List (IdentityFile D) :=
  (files.map StagedFile.identity).insertionSort fun a b => a.key ≤ b.key

def identityBytes (root : SourceRootId) (files : List (StagedFile D)) : Bytes :=
  c.writeIdentity ⟨stageStoreSchemaVersion, root, identityFiles files⟩

def stageFile (f : PlannedFile) : StagedFile D :=
  { kind := f.kind, source := f.source, pathBefore := f.pathBefore, pathAfter := f.pathAfter,
    contentBefore := f.contentBefore, contentAfter := f.contentAfter, modeBefore := f.modeBefore,
    stagedBytes := f.bytesAfter.map c.hash, edits := f.edits, bytesAfter := none }

def previewFile (f : PlannedFile) : FilePreview := preview c f.kind f.pathBefore f.pathAfter f.bytesBefore f.bytesAfter

/-- The sealed transaction and its blobs. -/
def sealPlan (plan : MutationPlan) : StagedSourceTransaction D × List (D × Bytes) :=
  let blobs := plan.files.filterMap fun f => f.bytesAfter.map fun bytes => (c.hash bytes, bytes)
  let pairs := (plan.files.map fun f => (stageFile c f, previewFile c f)).insertionSort fun a b => a.1.key ≤ b.1.key
  let files := pairs.map (·.1)
  (⟨c.hash (identityBytes c plan.root files), plan.root, files, pairs.map (·.2)⟩, blobs)

def StagedSourceTransaction.recomputeId (t : StagedSourceTransaction D) : D := c.hash (identityBytes c t.root t.files)

/-! ## The two stores -/

variable [LinearOrder D]

inductive Call (D : Type) [LinearOrder D] where
  | save (plan : MutationPlan)
  | load (id : D)
  | discard (id : D)
  | cleanup (policy : CleanupPolicy D)

inductive Answer (D : Type) where
  | saved (stage : StagedSourceTransaction D)
  | loaded (stage : Option (StagedSourceTransaction D))
  | discarded (present : Bool)
  | cleaned (removed : Nat)
  | failed (error : String)
deriving DecidableEq, Repr

/-- A store answers a call and goes on. -/
abbrev StageStore (D S : Type) [LinearOrder D] := S → Call D → Answer D × S

def StageStore.run {S : Type} (store : StageStore D S) : S → List (Call D) → List (Answer D) × S
  | s, [] => ([], s)
  | s, call :: calls =>
    let r := store s call
    let rest := StageStore.run store r.2 calls
    (r.1 :: rest.1, rest.2)

/-- The digests that manifests refer to. -/
def referenced (files : List (StagedFile D)) : List D := files.filterMap (·.stagedBytes)

/-- Each staged file with its bytes, or the first error. -/
def rehydrate (blob : D → Except String Bytes) : List (StagedFile D) → Except String (List (StagedFile D))
  | [] => .ok []
  | f :: fs => do
    let f ← match f.stagedBytes with
      | none => .ok f
      | some id => do
        let bytes ← blob id
        .ok { f with bytesAfter := some bytes }
    let fs ← rehydrate blob fs
    .ok (f :: fs)

structure InMemoryStageStore (D : Type) [LinearOrder D] where
  stages : BTreeMap D (StagedSourceTransaction D)
  blobs  : BTreeMap D Bytes

namespace InMemoryStageStore

def new : InMemoryStageStore D := ⟨∅, ∅⟩

def save (s : InMemoryStageStore D) (plan : MutationPlan) : Answer D × InMemoryStageStore D :=
  let (transaction, blobs) := sealPlan c plan
  (.saved transaction,
    { stages := s.stages.insert transaction.id transaction
      blobs := blobs.foldl (fun m b => if m[b.1]?.isSome then m else m.insert b.1 b.2) s.blobs })

def load (s : InMemoryStageStore D) (id : D) : Answer D :=
  match s.stages[id]? with
  | none => .loaded none
  | some stage =>
    match rehydrate (fun blob => (s.blobs[blob]?).elim (.error "missing staged blob") .ok) stage.files with
    | .ok files => .loaded (some { stage with files })
    | .error e => .failed e

def discard (s : InMemoryStageStore D) (id : D) : Answer D × InMemoryStageStore D :=
  (.discarded s.stages[id]?.isSome, { s with stages := s.stages.erase id })

def cleanup (s : InMemoryStageStore D) (policy : CleanupPolicy D) : Answer D × InMemoryStageStore D :=
  let stages := if policy.removeManifests then s.stages.sweep (· ∉ policy.retain) else (s.stages, 0)
  let used := stages.1.toList.flatMap fun e => referenced e.2.files
  let blobs := if policy.removeUnreferencedBlobs then s.blobs.sweep (· ∉ used) else (s.blobs, 0)
  (.cleaned (stages.2 + blobs.2), ⟨stages.1, blobs.1⟩)

def store : StageStore D (InMemoryStageStore D)
  | s, .save plan => s.save c plan
  | s, .load id => (s.load id, s)
  | s, .discard id => s.discard id
  | s, .cleanup policy => s.cleanup policy

end InMemoryStageStore

/-- The directories `blobs` and `manifests`. -/
structure DurableStageStore where
  blobs     : BTreeMap String Bytes
  manifests : BTreeMap String Bytes

namespace DurableStageStore

def new : DurableStageStore := ⟨∅, ∅⟩

def manifestName (id : D) : String := c.toHex id ++ ".json"

/-- `strip_suffix` -/
def stripSuffix (name suffix : String) : Option String :=
  if suffix.toList <:+ name.toList then some (String.ofList (name.toList.take (name.length - suffix.length))) else none

/-- The stage a directory entry is the manifest of. -/
def manifestId (name : String) : Option D := (stripSuffix name ".json").bind c.fromHex

def save (s : DurableStageStore) (plan : MutationPlan) : Answer D × DurableStageStore :=
  let (transaction, blobs) := sealPlan c plan
  let manifest : StoredManifest D :=
    { schemaVersion := stageStoreSchemaVersion
      id := transaction.id
      identity := identityBytes c transaction.root transaction.files
      root := transaction.root
      files := transaction.files
      previews := transaction.previews }
  (.saved transaction,
    { blobs := blobs.foldl (fun m b =>
        if m[c.toHex b.1]?.any fun bytes => c.hash bytes = b.1 then m else m.insert (c.toHex b.1) b.2) s.blobs
      manifests := s.manifests.insert (manifestName c transaction.id) (c.writeManifest manifest) })

def load (s : DurableStageStore) (id : D) : Answer D :=
  match s.manifests[manifestName c id]? with
  | none => .loaded none
  | some bytes =>
    match c.readManifest bytes with
    | none => .failed "decode stage manifest"
    | some manifest =>
      if manifest.schemaVersion ≠ stageStoreSchemaVersion ∨ manifest.id ≠ id then
        .failed "invalid stage manifest identity"
      else if c.hash manifest.identity ≠ id then .failed "stage manifest digest mismatch"
      else if identityBytes c manifest.root manifest.files ≠ manifest.identity then
        .failed "stage manifest identity bytes mismatch"
      else
        let blob := fun d => match s.blobs[c.toHex d]? with
          | none => .error ("read staged blob " ++ c.toHex d)
          | some bytes => if c.hash bytes ≠ d then .error "staged blob digest mismatch" else .ok bytes
        match rehydrate blob manifest.files with
        | .ok files => .loaded (some ⟨id, manifest.root, files, manifest.previews⟩)
        | .error e => .failed e

def discard (s : DurableStageStore) (id : D) : Answer D × DurableStageStore :=
  (.discarded s.manifests[manifestName c id]?.isSome, { s with manifests := s.manifests.erase (manifestName c id) })

/-- The digests all manifests refer to; `none` when one does not decode. -/
def used (manifests : BTreeMap String Bytes) : Option (List D) :=
  (manifests.toList.mapM fun e => (c.readManifest e.2).map fun m => referenced m.files).map List.flatten

def cleanup (s : DurableStageStore) (policy : CleanupPolicy D) : Answer D × DurableStageStore :=
  let manifests :=
    if policy.removeManifests then s.manifests.sweep fun name => (manifestId c name).any (· ∉ policy.retain)
    else (s.manifests, 0)
  if policy.removeUnreferencedBlobs then
    match used c manifests.1 with
    | none => (.failed "decode stage manifest", { s with manifests := manifests.1 })
    | some used =>
      let blobs := s.blobs.sweep fun name => (c.fromHex name).any (· ∉ used)
      (.cleaned (manifests.2 + blobs.2), ⟨blobs.1, manifests.1⟩)
  else (.cleaned manifests.2, { s with manifests := manifests.1 })

def store : StageStore D DurableStageStore
  | s, .save plan => s.save c plan
  | s, .load id => (s.load c id, s)
  | s, .discard id => s.discard c id
  | s, .cleanup policy => s.cleanup c policy

end DurableStageStore
end Soopy
