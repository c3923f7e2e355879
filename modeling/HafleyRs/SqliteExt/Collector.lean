import HafleyRs.Lib.Savepoints

/-!
# The row-change collector (`crates/sqlite-ext/src/collector.rs`)

| here | there |
| --- | --- |
| `Sizes` | `size_of::<RowChange>()`, `size_of::<Value>()` |
| `Collector` | `Collector` (104), less its name and its call counts, which nothing below reads |
| `begin'`, `update`, `savepoint`, `release`, `rollbackTo` | 192, 200, 239, 254, 267 |
| `drain`, `commit`, `rollback`, `reset` | 301, 334, 343, 385 |
| `List.merge` | `merge` (398) |

The shadow table is the list of its rows; `INSERT` appends, `SELECT … ORDER BY sequence` sorts (`schema.rs:96`).
-/

namespace SqliteExt
open Savepoints

inductive Value where
  | null
  | integer (i : Int)
  | real (bits : Nat)
  | text (text : String)
  | blob (bytes : List UInt8)
deriving DecidableEq, Repr

inductive Sign where
  | insert | delete
deriving DecidableEq, Repr

structure RowChange where
  table    : String
  sign     : Sign
  values   : List Value
  sequence : Nat
deriving DecidableEq, Repr

structure Sizes where
  rowChange : Nat
  value     : Nat
deriving DecidableEq, Repr

def valueBytes (sizes : Sizes) : Value → Nat
  | .text text => sizes.value + text.utf8ByteSize
  | .blob bytes => sizes.value + bytes.length
  | _ => sizes.value

def rowBytes (sizes : Sizes) (change : RowChange) : Nat :=
  sizes.rowChange + change.table.utf8ByteSize + (change.values.map (valueBytes sizes)).sum

structure Mark where
  savepoint    : Nat
  spilledRows  : Nat
  nextSequence : Nat
  drains       : Nat
deriving DecidableEq, Repr

structure Collector where
  width         : Nat
  staged        : List RowChange
  stagedBytes   : Nat
  spilledRows   : Nat
  marks         : List Mark
  nextSequence  : Nat
  /-- Memory rows a drain delivered while a savepoint was open, with the drain's number. -/
  applied       : List (RowChange × Nat)
  drains        : Nat
  stagedRowCap  : Nat
  stagedByteCap : Nat
deriving DecidableEq, Repr

namespace Collector

/-- `Collector::new(..).staged_rows(rows).staged_bytes(bytes)` -/
def new (width rows bytes : Nat) : Collector := ⟨width, [], 0, 0, [], 0, [], 0, max rows 1, max bytes 1⟩

def reset (self : Collector) : Collector :=
  { self with staged := [], stagedBytes := 0, spilledRows := 0, marks := [], applied := [], drains := 0,
              nextSequence := 0 }

def begin' (self : Collector) : Collector := self.reset

def readShadow (shadow : List RowChange) : List RowChange :=
  shadow.insertionSort fun a b => a.sequence ≤ b.sequence

/-- `none` is the refusal of a row that is too wide. -/
def update (sizes : Sizes) (self : Collector) (shadow : List RowChange) (change : RowChange) :
    Option (Collector × List RowChange) :=
  if change.values.length > self.width then none
  else
    let change := { change with sequence := self.nextSequence }
    let self := { self with nextSequence := self.nextSequence + 1 }
    let bytes := rowBytes sizes change
    if self.staged.length < self.stagedRowCap ∧ self.stagedBytes + bytes ≤ self.stagedByteCap then
      some ({ self with stagedBytes := self.stagedBytes + bytes, staged := self.staged ++ [change] }, shadow)
    else some ({ self with spilledRows := self.spilledRows + 1 }, shadow ++ [change])

def savepoint (self : Collector) (savepoint : Nat) : Collector :=
  { self with marks := (self.marks.filter fun mark => mark.savepoint < savepoint) ++
      [⟨savepoint, self.spilledRows, self.nextSequence, self.drains⟩] }

def release (self : Collector) (savepoint : Nat) : Collector :=
  let marks := self.marks.filter fun mark => mark.savepoint < savepoint
  { self with marks, applied := if marks.isEmpty then [] else self.applied }

def rollbackTo (sizes : Sizes) (self : Collector) (savepoint : Nat) : Collector :=
  let restored := (self.marks.filter fun mark => mark.savepoint = savepoint).getLast?
  let self := { self with marks := self.marks.filter fun mark => mark.savepoint ≤ savepoint }
  match restored with
  | none => self.reset
  | some mark =>
    let staged := self.staged.filter fun change => change.sequence < mark.nextSequence
    let unwound := self.applied.filter fun x => mark.drains ≤ x.2
    let kept := self.applied.filter fun x => ¬ mark.drains ≤ x.2
    let staged := staged ++ ((unwound.map (·.1)).filter fun change => change.sequence < mark.nextSequence)
    let staged := staged.insertionSort fun a b => a.sequence ≤ b.sequence
    { self with
      applied := kept
      stagedBytes := (staged.map (rowBytes sizes)).sum
      staged
      spilledRows := mark.spilledRows
      nextSequence := mark.nextSequence }

def drain (self : Collector) (shadow : List RowChange) : Collector × List RowChange × List RowChange :=
  let staged := self.staged
  let spilled := self.spilledRows
  let applied := if self.marks.isEmpty then self.applied else self.applied ++ staged.map (·, self.drains)
  let self := { self with staged := [], stagedBytes := 0, spilledRows := 0, applied, drains := self.drains + 1 }
  if spilled = 0 then (self, shadow, staged)
  else (self, [], staged.merge (readShadow shadow) fun left right => left.sequence ≤ right.sequence)

/-- A leftover is reported and stays. -/
def commit (self : Collector) : Collector := self

def rollback (self : Collector) : Collector := self.reset

end Collector

/-! ## A transaction -/

/-- What `rollback_to` restores: the collector's rows and counters, and the shadow table. -/
structure View where
  staged       : List RowChange
  stagedBytes  : Nat
  spilledRows  : Nat
  nextSequence : Nat
  shadow       : List RowChange
deriving DecidableEq, Repr

def View.empty : View := ⟨[], 0, 0, 0, []⟩

inductive Call where
  | update (change : RowChange)
  | savepoint (index : Nat)
  | release (index : Nat)
  | rollbackTo (index : Nat)
  | drain
deriving DecidableEq, Repr

/-- A collector within a transaction. SQLite has `depth` savepoints open, `saved` holds what stood at those opened
since the first write, and `batches` what the drains returned. -/
structure Transaction where
  collector : Collector
  shadow    : List RowChange
  saved     : List (Nat × View)
  depth     : Nat
  batches   : List (List RowChange)
deriving DecidableEq, Repr

namespace Transaction

def view (t : Transaction) : View :=
  ⟨t.collector.staged, t.collector.stagedBytes, t.collector.spilledRows, t.collector.nextSequence, t.shadow⟩

/-- The first write comes when `depth` savepoints are open; the shadow table is empty. -/
def start (collector : Collector) (depth : Nat) : Transaction := ⟨collector.begin', [], [], depth, []⟩

def call (sizes : Sizes) (t : Transaction) : Call → Transaction
  | .update change =>
    match t.collector.update sizes t.shadow change with
    | none => t
    | some (collector, shadow) => { t with collector, shadow }
  | .savepoint s =>
    { t with collector := t.collector.savepoint s, saved := put Prod.fst (s, t.view) t.saved, depth := s + 1 }
  | .release s => { t with collector := t.collector.release s, saved := release Prod.fst s t.saved, depth := s }
  | .rollbackTo s =>
    { t with
      collector := t.collector.rollbackTo sizes s
      shadow := (find Prod.fst s t.saved).elim [] (·.2.shadow)
      saved := rewind Prod.fst s t.saved
      depth := s + 1 }
  | .drain =>
    let (collector, shadow, batch) := t.collector.drain t.shadow
    { t with collector, shadow, batches := t.batches ++ [batch] }

/-- Savepoints form a stack: a new one goes on top of those open, or in place of the ones it ends. -/
def May (t : Transaction) : Call → Prop
  | .savepoint s => s ≤ t.depth
  | .release s => s < t.depth
  | .rollbackTo s => s < t.depth
  | _ => True

end Transaction

/-! ## What survives -/

inductive Event where
  | update (change : RowChange)
  | drain
deriving DecidableEq, Repr

/-- The updates no drain comes after, numbered among all updates from `i` on. -/
def pending (i : Nat) : List Event → List RowChange
  | [] => []
  | .update change :: events =>
    if .drain ∈ events then pending (i + 1) events else { change with sequence := i } :: pending (i + 1) events
  | .drain :: events => pending i events

/-- **The surviving events**: a rollback takes back those since its savepoint. -/
structure Ledger where
  events  : List Event
  marks   : List (Nat × Nat)
  batches : List (List RowChange)
deriving DecidableEq, Repr

namespace Ledger

def empty : Ledger := ⟨[], [], []⟩

def call (width : Nat) (l : Ledger) : Call → Ledger
  | .update change =>
    if change.values.length > width then l else { l with events := l.events ++ [.update change] }
  | .savepoint s => { l with marks := put Prod.fst (s, l.events.length) l.marks }
  | .release s => { l with marks := release Prod.fst s l.marks }
  | .rollbackTo s =>
    { l with
      events := l.events.take ((find Prod.fst s l.marks).elim 0 (·.2))
      marks := rewind Prod.fst s l.marks }
  | .drain => { l with events := l.events ++ [.drain], batches := l.batches ++ [pending 0 l.events] }

end Ledger
end SqliteExt
