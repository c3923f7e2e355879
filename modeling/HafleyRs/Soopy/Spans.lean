import HafleyRs.Lib.BTree
import HafleyRs.Lib.Checks
import HafleyRs.Lib.Lines
import HafleyRs.Lib.Machine
import HafleyRs.Soopy.Types

/-!
# Spans of source bytes (`crates/soopy/src/_7a_spans.rs`)

| here | there |
| --- | --- |
| `SourceSpan`, `BytePosition` | `_0_types.rs`:330, 359 |
| `NewlineIndex.storage`, `checkBudget`, `build`, `position` | 28, 46, 57, 71 |
| `slice`, `spanSlice` | 86, 190 |

`usize` is 64 bits wide, so the conversions between it and `u64` are left out. `reserve` says for how many elements
there is room.
-/

namespace Soopy.Spans
open Machine Search

/-- One for each message. Those from `otherRepository` on are of `SourceTree` and what it calls. -/
inductive SpanError where
  | newlineCount
  | indexStorage
  | budget (bytes lineStarts byteBudget : Nat)
  | allocate
  | noSourceStart
  | lineIndex
  | spanInverted (start stop : UInt64) (path : RepoPath)
  | spanPastEnd (stop : UInt64) (length : Nat) (path : RepoPath)
  | parentInverted
  | childInverted (start stop : UInt64)
  | childPastParent (stop length : UInt64)
  | childOverflow
  | noReadIndex
  | noResponse
  | noStorage
  | noIndex
  | otherRepository
  | notRelative (path : RepoPath)
  | escapes (path : RepoPath)
  | otherWorktree
  | io (detail : String)
  | catFile (spec : List Char)
  | otherBlob (commit : ObjectId) (path : RepoPath) (found expected : ObjectId)
  | notGitBlob
  | contentChanged (path : RepoPath)
deriving DecidableEq, Repr

/-- `.context(e)?` -/
def context {α : Type} (o : Option α) (e : SpanError) : Except SpanError α :=
  match o with
  | some a => .ok a
  | none => .error e

def checkedAdd (a b : Nat) : Option Nat := if a + b < 2 ^ 64 then some (a + b) else none

def checkedMul (a b : Nat) : Option Nat := if a * b < 2 ^ 64 then some (a * b) else none

/-! ## The index -/

def newline : Byte := 10

def sizeOfUsize : Nat := 8

structure NewlineIndexStorage where
  (lineStartCount bytes : Nat)
deriving DecidableEq, Repr

structure NewlineIndex where
  starts : List Nat

structure BytePosition where
  (line byteColumn : Nat)
deriving DecidableEq, Repr

namespace NewlineIndex

def storage (bytes : Bytes) : Except SpanError NewlineIndexStorage := do
  let lineStartCount ← context (checkedAdd (bytes.count newline) 1) .newlineCount
  let storageBytes ← context (checkedMul lineStartCount sizeOfUsize) .indexStorage
  .ok ⟨lineStartCount, storageBytes⟩

def checkBudget (storage : NewlineIndexStorage) (byteBudget : Nat) : Except SpanError Unit :=
  if byteBudget < storage.bytes then .error (.budget storage.bytes storage.lineStartCount byteBudget) else .ok ()

def build (reserve : Nat → Bool) (bytes : Bytes) (storage : NewlineIndexStorage) : Except SpanError NewlineIndex :=
  if reserve storage.lineStartCount then .ok ⟨0 :: Lines.startsFrom newline 0 bytes⟩ else .error .allocate

def position (index : NewlineIndex) (offset : Nat) : Except SpanError BytePosition :=
  match partitionPoint (fun start => start ≤ offset) index.starts with
  | 0 => .error .noSourceStart
  | line + 1 => do
    -- the search ends within the starts, so there is one
    let lineStart := index.starts[line]?.getD 0
    let number ← context (checkedAdd line 1) .lineIndex
    .ok ⟨number, offset - lineStart⟩

end NewlineIndex

/-! ## Slices -/

structure SourceSpan where
  source : SourceRef
  (start stop : UInt64)
deriving DecidableEq, Repr

def slice (span : SourceSpan) (bytes : Bytes) : Except SpanError Bytes :=
  if span.stop < span.start then .error (.spanInverted span.start span.stop span.source.path)
  else if bytes.length < span.stop.toNat then .error (.spanPastEnd span.stop bytes.length span.source.path)
  else .ok ((bytes.take span.stop.toNat).drop span.start.toNat)

def checkedAdd64 (a b : UInt64) : Option UInt64 := if a.toNat + b.toNat < 2 ^ 64 then some (a + b) else none

def checkedSub64 (a b : UInt64) : Option UInt64 := if b ≤ a then some (a - b) else none

def spanSlice (parent : SourceSpan) (relativeStart relativeEnd : UInt64) : Except SpanError SourceSpan := do
  let parentLength ← context (checkedSub64 parent.stop parent.start) .parentInverted
  if relativeEnd < relativeStart then .error (.childInverted relativeStart relativeEnd)
  else if parentLength < relativeEnd then .error (.childPastParent relativeEnd parentLength)
  else
    let start ← context (checkedAdd64 parent.start relativeStart) .childOverflow
    let stop ← context (checkedAdd64 parent.start relativeEnd) .childOverflow
    .ok ⟨parent.source, start, stop⟩

/-! ## What they give -/

theorem context_ok {α : Type} {o : Option α} {e : SpanError} {a : α} : context o e = .ok a ↔ o = some a := by
  cases o with
  | none => simp [context]
  | some b => simp [context]

theorem checkedAdd_some {a b n : Nat} : checkedAdd a b = some n ↔ a + b < 2 ^ 64 ∧ a + b = n := by
  rw [checkedAdd, Option.ite_none_right_eq_some, Option.some.injEq]

theorem checkedMul_some {a b n : Nat} : checkedMul a b = some n ↔ a * b < 2 ^ 64 ∧ a * b = n := by
  rw [checkedMul, Option.ite_none_right_eq_some, Option.some.injEq]

theorem storage_ok {bytes : Bytes} {s : NewlineIndexStorage} : NewlineIndex.storage bytes = .ok s ↔
    (bytes.count newline + 1) * 8 < 2 ^ 64 ∧ s = ⟨bytes.count newline + 1, (bytes.count newline + 1) * 8⟩ := by
  simp only [NewlineIndex.storage, bind_ok, context_ok, checkedAdd_some, checkedMul_some, sizeOfUsize,
    Except.ok.injEq]
  constructor
  · rintro ⟨n, ⟨hn, rfl⟩, m, ⟨hm, rfl⟩, rfl⟩
    exact ⟨hm, rfl⟩
  · rintro ⟨h, rfl⟩
    exact ⟨_, ⟨by omega, rfl⟩, _, ⟨h, rfl⟩, rfl⟩

theorem build_ok {reserve : Nat → Bool} {bytes : Bytes} {s : NewlineIndexStorage} {index : NewlineIndex} :
    NewlineIndex.build reserve bytes s = .ok index ↔
      reserve s.lineStartCount = true ∧ index = ⟨Lines.starts newline bytes⟩ := by
  rw [NewlineIndex.build]
  split
  · rename_i hroom
    rw [Except.ok.injEq]
    exact ⟨fun h => ⟨hroom, h.symm⟩, fun h => h.2.symm⟩
  · rename_i hroom
    exact ⟨fun h => (by cases h), fun h => absurd h.1 hroom⟩

/-- What the position at an offset is. -/
def positionAt (bytes : Bytes) (offset : Nat) : BytePosition :=
  ⟨1 + (bytes.take offset).count newline, (Lines.lastLine newline (bytes.take offset)).length⟩

/-- **The line is the number of newlines before the offset, and one; the column is how far the last one is.** -/
theorem position_eq {bytes : Bytes} {offset : Nat} (h : offset ≤ bytes.length)
    (hcount : bytes.count newline + 1 < 2 ^ 64) :
    (NewlineIndex.mk (Lines.starts newline bytes)).position offset = .ok (positionAt bytes offset) := by
  have hpoint := Lines.partitionPoint_starts newline h
  have hstart := Lines.getElem?_starts newline h
  have hline : (bytes.take offset).count newline ≤ bytes.count newline := (List.take_sublist _ _).count_le _
  have hback : (Lines.lastLine newline (bytes.take offset)).length ≤ offset := by
    refine Lines.lastLine_le.trans ?_
    rw [List.length_take]
    omega
  have hadd : checkedAdd ((bytes.take offset).count newline) 1 = some ((bytes.take offset).count newline + 1) :=
    if_pos (by omega)
  rw [NewlineIndex.position, hpoint]
  simp only [hstart, Option.getD_some, hadd, context]
  rw [positionAt, Nat.add_comm 1]
  have hcolumn : offset - (offset - (Lines.lastLine newline (bytes.take offset)).length) =
      (Lines.lastLine newline (bytes.take offset)).length := by omega
  rw [hcolumn]
  rfl

theorem slice_ok {span : SourceSpan} {bytes part : Bytes} : slice span bytes = .ok part ↔
    span.start ≤ span.stop ∧ span.stop.toNat ≤ bytes.length ∧
      part = (bytes.take span.stop.toNat).drop span.start.toNat := by
  rw [slice]
  split
  · rename_i h
    exact ⟨fun heq => (by cases heq), fun heq => absurd heq.1 (UInt64.not_le.2 h)⟩
  · rename_i h
    split
    · rename_i hlen
      exact ⟨fun heq => (by cases heq), fun heq => absurd heq.2.1 (by omega)⟩
    · rename_i hlen
      rw [Except.ok.injEq]
      exact ⟨fun heq => ⟨UInt64.not_lt.1 h, by omega, heq.symm⟩, fun heq => heq.2.2.symm⟩

theorem spanSlice_ok {parent child : SourceSpan} {a b : UInt64} : spanSlice parent a b = .ok child ↔
    parent.start ≤ parent.stop ∧ a ≤ b ∧ parent.start.toNat + b.toNat ≤ parent.stop.toNat ∧
      child = ⟨parent.source, parent.start + a, parent.start + b⟩ := by
  have hstop := parent.stop.toNat_lt
  simp only [spanSlice, bind_ok, context_ok, checkedSub64, checkedAdd64, Option.ite_none_right_eq_some,
    Option.some.injEq]
  constructor
  · rintro ⟨n, ⟨hle, rfl⟩, h⟩
    split at h
    · cases h
    · rename_i hab
      split at h
      · cases h
      · rename_i hin
        simp only [bind_ok, context_ok, Option.ite_none_right_eq_some, Option.some.injEq, Except.ok.injEq] at h
        obtain ⟨s, ⟨-, rfl⟩, e, ⟨-, rfl⟩, rfl⟩ := h
        rw [UInt64.not_lt, UInt64.le_iff_toNat_le, UInt64.toNat_sub_of_le _ _ hle] at hin
        rw [UInt64.le_iff_toNat_le] at hle
        exact ⟨UInt64.le_iff_toNat_le.2 hle, UInt64.not_lt.1 hab, by omega, rfl⟩
  · rintro ⟨hle, hab, hin, rfl⟩
    have hleN := UInt64.le_iff_toNat_le.1 hle
    have habN := UInt64.le_iff_toNat_le.1 hab
    refine ⟨_, ⟨hle, rfl⟩, ?_⟩
    rw [if_neg (UInt64.not_lt.2 hab), if_neg]
    · simp only [bind_ok, context_ok, Option.ite_none_right_eq_some, Option.some.injEq, Except.ok.injEq]
      exact ⟨_, ⟨by omega, rfl⟩, _, ⟨by omega, rfl⟩, rfl⟩
    · rw [UInt64.not_lt, UInt64.le_iff_toNat_le, UInt64.toNat_sub_of_le _ _ hle]
      omega

theorem toNat_add_of_lt {a b : UInt64} (h : a.toNat + b.toNat < 2 ^ 64) : (a + b).toNat = a.toNat + b.toNat := by
  rw [UInt64.toNat_add, Nat.mod_eq_of_lt h]

/-- **A slice of a slice is one of the file.** -/
theorem slice_spanSlice {parent : SourceSpan} {bytes whole part : Bytes} (h : slice parent bytes = .ok whole)
    (a b : UInt64) : (∃ child, spanSlice parent a b = .ok child ∧ slice child bytes = .ok part) ↔
      a ≤ b ∧ b.toNat ≤ whole.length ∧ part = (whole.take b.toNat).drop a.toNat := by
  obtain ⟨hle, hend, rfl⟩ := slice_ok.1 h
  have hstop := parent.stop.toNat_lt
  have hlen : ((bytes.take parent.stop.toNat).drop parent.start.toNat).length =
      parent.stop.toNat - parent.start.toNat := by
    rw [List.length_drop, List.length_take_of_le hend]
  have hleN := UInt64.le_iff_toNat_le.1 hle
  rw [hlen]
  have hcut : a ≤ b → parent.start.toNat + b.toNat ≤ parent.stop.toNat →
      (bytes.take (parent.start + b).toNat).drop (parent.start + a).toNat =
        (((bytes.take parent.stop.toNat).drop parent.start.toNat).take b.toNat).drop a.toNat := by
    intro hab hin
    have habN := UInt64.le_iff_toNat_le.1 hab
    rw [toNat_add_of_lt (by omega), toNat_add_of_lt (by omega), List.take_drop, List.take_take,
      Nat.min_eq_left (by omega), List.drop_drop]
  constructor
  · rintro ⟨child, hchild, hpart⟩
    obtain ⟨-, hab, hin, rfl⟩ := spanSlice_ok.1 hchild
    obtain ⟨-, -, rfl⟩ := slice_ok.1 hpart
    exact ⟨hab, by omega, hcut hab hin⟩
  · rintro ⟨hab, hin, rfl⟩
    have habN := UInt64.le_iff_toNat_le.1 hab
    have hbase : parent.start.toNat + b.toNat ≤ parent.stop.toNat := by omega
    refine ⟨_, spanSlice_ok.2 ⟨hle, hab, hbase, rfl⟩, slice_ok.2 ⟨?_, ?_, (hcut hab hbase).symm⟩⟩
    · rw [UInt64.le_iff_toNat_le, toNat_add_of_lt (by omega), toNat_add_of_lt (by omega)]
      omega
    · rw [toNat_add_of_lt (by omega)]
      omega

end Soopy.Spans

/-!
# Reading spans in batches (`crates/soopy/src/_7a_spans.rs`)

| here | there |
| --- | --- |
| `ReadRequest`, `SourceBytes`, the requests and answers | `_0_types.rs`:294 to 376 |
| `ensureRepositoryRelative` | `_1a_path.rs`:14 |
| `readSpecInto` | `GitBatch::read_spec_into`, `_6_git_batch.rs`:52 |
| `readOne`, `readMany` | one turn of `SourceTree::read_each`, `_7_source_tree.rs`:136, and `read_many`, 117 |
| `deduplicateReadRequests` | 112 |
| `SpanReadBatch`, `readForSpans`, `buildNewlineIndexes` | 131, 147, 162 |
| `spanTextMany`, `spanPositionMany` | 220, 248 |

`Host` is what is outside: the files, the hashes, the room for an index, and the object or the refusal with which
`git cat-file --batch` answers each line. The process of a tree is known by the lines it was sent and has not been
read the answer of. A path of a commit is sent as it is, so one with a newline sends two lines and reads one answer,
and what is asked next is given the second (`InStep`).
-/

namespace Soopy.Spans
open Machine

abbrev Line := List Char

structure ReadRequest where
  source   : SourceRef
  expected : Option ContentId
deriving DecidableEq, Repr

structure SourceBytes where
  source  : SourceRef
  content : ContentId
  bytes   : Bytes
deriving DecidableEq, Repr

structure SpanTextRequest where
  span     : SourceSpan
  expected : Option ContentId

structure SpanText where
  span    : SourceSpan
  content : ContentId
  bytes   : Bytes
deriving DecidableEq, Repr

structure SpanPositionRequest where
  span                   : SourceSpan
  expected               : Option ContentId
  newlineIndexByteBudget : Nat

structure SpanPosition where
  span    : SourceSpan
  content : ContentId
  (start stop : BytePosition)
deriving DecidableEq, Repr

/-! ## The tree -/

inductive Answer where
  | object (id : ObjectId) (kind : String) (bytes : Bytes)
  | other (line : Line)

structure Host where
  file       : RepoPath → Except SpanError Bytes
  hashObject : Bytes → Except SpanError ObjectId
  blake3     : Bytes → Bytes
  openGit    : Except SpanError Unit
  catFile    : Line → Answer
  reserve    : Nat → Bool

structure SourceTree where
  repository : RepositoryId
  worktree   : WorktreeId
  /-- The lines whose answers are not read yet. -/
  git        : Option (List Line)
deriving DecidableEq, Repr

def ensureRepositoryRelative (path : RepoPath) : Except SpanError Unit :=
  if path.toList.head? = some '/' then .error (.notRelative path)
  else if ['.', '.'] ∈ path.toList.splitOn '/' then .error (.escapes path)
  else .ok ()

/-- `"{commit}:{path}"` -/
def spec (commit : ObjectId) (path : RepoPath) : Line := commit.toList ++ ':' :: path.toList

def readSpecInto (host : Host) (unread : List Line) (spec : Line) :
    Except SpanError ((ObjectId × Bytes) × List Line) :=
  match unread ++ spec.splitOn '\n' with
  | [] => .error (.catFile spec)
  | line :: unread =>
    match host.catFile line with
    | .object id kind bytes => if kind = "blob" then .ok ((id, bytes), unread) else .error (.catFile spec)
    | .other _ => .error (.catFile spec)

def openGit (host : Host) (tree : SourceTree) : Except SpanError (List Line) :=
  match tree.git with
  | some unread => .ok unread
  | none => host.openGit.map fun _ => []

def worktreeContent (host : Host) (expected : Option ContentId) (bytes : Bytes) : Except SpanError ContentId :=
  match expected with
  | some (.gitBlob _) => (host.hashObject bytes).map ContentId.gitBlob
  | _ => .ok (.blake3 (host.blake3 bytes))

def checkBlob (commit : ObjectId) (path : RepoPath) (expected : Option ContentId) (id : ObjectId) :
    Except SpanError Unit :=
  match expected with
  | none => .ok ()
  | some (.gitBlob expected) => if expected = id then .ok () else .error (.otherBlob commit path id expected)
  | some (.blake3 _) => .error .notGitBlob

def fetch (host : Host) (tree : SourceTree) (request : ReadRequest) :
    Except SpanError ((Bytes × ContentId) × SourceTree) :=
  match request.source.revision with
  | .worktree worktree _ _ =>
    if worktree ≠ tree.worktree then .error .otherWorktree
    else do
      let bytes ← host.file request.source.path
      let content ← worktreeContent host request.expected bytes
      .ok ((bytes, content), tree)
  | .commit commit => do
    let unread ← openGit host tree
    let read ← readSpecInto host unread (spec commit request.source.path)
    checkBlob commit request.source.path request.expected read.1.1
    .ok ((read.1.2, .gitBlob read.1.1), { tree with git := some read.2 })

def readOne (host : Host) (tree : SourceTree) (request : ReadRequest) : Except SpanError (SourceBytes × SourceTree) :=
  if request.source.repository ≠ tree.repository then .error .otherRepository
  else do
    ensureRepositoryRelative request.source.path
    let fetched ← fetch host tree request
    if request.expected.any (· ≠ fetched.1.2) then .error (.contentChanged request.source.path)
    else .ok (⟨request.source, fetched.1.2, fetched.1.1⟩, fetched.2)

def readMany (host : Host) (tree : SourceTree) : List ReadRequest → Except SpanError (List SourceBytes × SourceTree)
  | [] => .ok ([], tree)
  | request :: rest => do
    let read ← readOne host tree request
    let answers ← readMany host read.2 rest
    .ok (read.1 :: answers.1, answers.2)

/-! ## The batch -/

/-- The key of the table. -/
def ReadRequest.key (request : ReadRequest) : SourceRef ×ₗ WithBot ContentId :=
  toLex (request.source, optKey request.expected)

structure Narrowing where
  indexes : BTreeMap (SourceRef ×ₗ WithBot ContentId) Nat
  unique  : List ReadRequest
  order   : List Nat

def narrow (s : Narrowing) (request : ReadRequest) : Narrowing :=
  let next := s.unique.length
  match s.indexes[request.key]? with
  | some index => { s with order := s.order ++ [index] }
  | none => ⟨s.indexes.insert request.key next, s.unique ++ [request], s.order ++ [next]⟩

def deduplicateReadRequests (requests : List ReadRequest) : List ReadRequest × List Nat :=
  let s := requests.foldl narrow ⟨∅, [], []⟩
  (s.unique, s.order)

structure SpanReadBatch where
  unique : List SourceBytes
  order  : List Nat

def SpanReadBatch.source (batch : SpanReadBatch) (requestIndex : Nat) : Except SpanError SourceBytes := do
  let sourceIndex ← context batch.order[requestIndex]? .noReadIndex
  context batch.unique[sourceIndex]? .noResponse

def readForSpans (host : Host) (tree : SourceTree) (requests : List ReadRequest) :
    Except SpanError (SpanReadBatch × SourceTree) := do
  let (uniqueRequests, order) := deduplicateReadRequests requests
  let read ← readMany host tree uniqueRequests
  .ok (⟨read.1, order⟩, read.2)

def buildNewlineIndexes (reserve : Nat → Bool) (batch : SpanReadBatch) (requests : List SpanPositionRequest) :
    Except SpanError (List NewlineIndex) := do
  let storage ← batch.unique.mapM fun source => NewlineIndex.storage source.bytes
  Checks.each (fun p => do
    let sourceIndex ← context batch.order[p.2]? .noReadIndex
    let source ← batch.source p.2
    let _ ← slice p.1.span source.bytes
    let requirement ← context storage[sourceIndex]? .noStorage
    NewlineIndex.checkBudget requirement p.1.newlineIndexByteBudget) requests.zipIdx
  (batch.unique.zip storage).mapM fun p => NewlineIndex.build reserve p.1.bytes p.2

def SpanTextRequest.toRead (request : SpanTextRequest) : ReadRequest := ⟨request.span.source, request.expected⟩

def SpanPositionRequest.toRead (request : SpanPositionRequest) : ReadRequest :=
  ⟨request.span.source, request.expected⟩

def spanTextMany (host : Host) (tree : SourceTree) (requests : List SpanTextRequest) :
    Except SpanError (List SpanText × SourceTree) := do
  let batch ← readForSpans host tree (requests.map SpanTextRequest.toRead)
  let answers ← requests.zipIdx.mapM fun p => do
    let source ← batch.1.source p.2
    let bytes ← slice p.1.span source.bytes
    .ok (⟨p.1.span, source.content, bytes⟩ : SpanText)
  .ok (answers, batch.2)

def spanPositionMany (host : Host) (tree : SourceTree) (requests : List SpanPositionRequest) :
    Except SpanError (List SpanPosition × SourceTree) := do
  let batch ← readForSpans host tree (requests.map SpanPositionRequest.toRead)
  let indexes ← buildNewlineIndexes host.reserve batch.1 requests
  let answers ← requests.zipIdx.mapM fun p => do
    let sourceIndex ← context batch.1.order[p.2]? .noReadIndex
    let source ← batch.1.source p.2
    let index ← context indexes[sourceIndex]? .noIndex
    let start ← index.position p.1.span.start.toNat
    let stop ← index.position p.1.span.stop.toNat
    .ok (⟨p.1.span, source.content, start, stop⟩ : SpanPosition)
  .ok (answers, batch.2)

end Soopy.Spans
