import HafleyRs.BoopStore.Mail
import HafleyRs.Lib.LineLog
import HafleyRs.Lib.Machine

/-!
# Importing a mailbox file (`import_ndjson_tail`, `crates/boop-store/src/bus.rs`:877)

| here | there |
| --- | --- |
| `importMark` | bus.rs:831, for the one file (`set_import_mark` writes the digest "") |
| `Phase` | where an import stands between two looks at what it shares with others |
| `stat`, `readMark`, `read`, `transact` | bus.rs:878 to 886, the mark at :882, the file at :891, :911 to :918 |
| `importRows` | the closure inside the transaction, with `finish` (bus.rs:1000) in `transact` |
| `envelopes` | `from_utf8_lossy(complete).lines().filter_map(parse_line)`, bus.rs:896 |

Any number of processes open the database, each for itself, while an older program appends to the
file. An import looks at the file's length, at the stored mark, at the file's bytes, and last holds the
write lock for its transaction; between two of these anything may happen. `parse` is `parse_line` of a
line's lossy decoding (the decoding keeps line ends, so it works line by line). `written` and
`returned` only record: the rows of the committed transactions, and for each import that returned `Ok`
the length of the file it had seen.
-/

namespace BoopStore
open LineLog

section
variable (parse : Bytes → Option Message) (mailbox : String)

abbrev envelopes (text : Bytes) : List Message := records newline parse text

inductive Phase where
  | idle
  | statted (length : Nat)
  | seeking (length offset : Nat)
  | ready (length offset : Nat) (complete : Bytes) (messages : List Message)
deriving DecidableEq, Repr

structure World where
  file     : Option Bytes
  mark     : Option (Nat × String)
  db       : Mailbox
  opens    : Nat → Phase
  written  : List Arrival
  returned : List Nat

inductive Event where
  | append (chunk : Bytes)
  | stat (p : Nat)
  | readMark (p : Nat)
  | read (p : Nat)
  | transact (p : Nat) (clock : Nat → Nat) (fault : Option Nat)
  | fail (p : Nat)

namespace World

def start (db : Mailbox) : World := ⟨none, none, db, fun _ => .idle, [], []⟩

def text (w : World) : Bytes := w.file.getD []

def importMark (w : World) : Nat × String := w.mark.getD (0, "")

def enter (w : World) (p : Nat) (phase : Phase) : World :=
  { w with opens := Function.update w.opens p phase }

/-- The import of `p` returns `Ok`. -/
def finish (w : World) (p length : Nat) : World :=
  { w.enter p .idle with returned := w.returned ++ [length] }

def stat (w : World) (p : Nat) : World :=
  match w.opens p, w.file with
  | .idle, some bytes => w.enter p (.statted bytes.length)
  | _, _ => w

def readMark (w : World) (p : Nat) : World :=
  match w.opens p with
  | .statted length =>
    let (mark, _) := w.importMark
    let offset := if length < mark then 0 else mark
    if length = offset then w.finish p length else w.enter p (.seeking length offset)
  | _ => w

def read (w : World) (p : Nat) : World :=
  match w.opens p, w.file with
  | .seeking length offset, some content =>
    let bytes := content.drop offset
    match rposition (fun b => decide (b = newline)) bytes with
    | none => w.finish p length
    | some last =>
      let complete := bytes.take (last + 1)
      let messages := envelopes parse complete
      if messages.isEmpty then w.finish p length else w.enter p (.ready length offset complete messages)
  | _, _ => w

/-- The closure of the transaction; at `fault` its statement of that number fails. -/
def importRows (db : Mailbox) (arrivals : List Arrival) : Option Nat → Except String Mailbox
  | none => db.writeAll arrivals
  | some k => do
    let _ ← db.writeAll (arrivals.take k)
    .error "statement failed"

def transact (w : World) (p : Nat) (clock : Nat → Nat) (fault : Option Nat) : World :=
  match w.opens p with
  | .ready length offset complete messages =>
    let arrivals := messages.mapIdx fun i m => ⟨m, mailbox, "imported from ndjson", clock i⟩
    match importRows w.db arrivals fault with
    | .ok db =>
      { w.finish p length with
        db := db
        mark := some (offset + complete.length, "")
        written := w.written ++ arrivals }
    | .error _ => w.enter p .idle
  | _ => w

def step (w : World) : Event → World
  | .append chunk => { w with file := some (w.text ++ chunk) }
  | .stat p => w.stat p
  | .readMark p => w.readMark p
  | .read p => w.read parse p
  | .transact p clock fault => w.transact mailbox p clock fault
  | .fail p => w.enter p .idle

/-- The stored mark at the beginning of a transaction is the one the import has read from. -/
def FreshMark (w : World) : Event → Prop
  | .transact p _ none => ∀ length offset complete messages,
      w.opens p = .ready length offset complete messages → w.importMark.1 = offset
  | _ => True

end World

end

end BoopStore

/-!
# Each envelope line is imported once

The mark and the bytes are read before the write lock is taken, so two overlapping opens import the
same lines, and the later one may move the mark back (`overlapping_opens`). Where every transaction
begins at the mark its import has read from, the committed chunks follow each other from the first byte
to the mark, and the rows written are the envelopes of that part of the file, in order
(`import_exactly_once`). A transaction does so when no other import commits between the two.

`Inv` says what an import in each phase still knows about a file that has grown since it looked.
-/

namespace BoopStore
open LineLog

section
variable {parse : Bytes → Option Message} {mailbox : String}

/-! ## Envelopes of a growing file -/

theorem envelopes_append {a : Bytes} (ha : Boundary newline a) (b : Bytes) :
    envelopes parse (a ++ b) = envelopes parse a ++ envelopes parse b := records_append ha b

theorem envelopes_complete_mono (parse : Bytes → Option Message) {a b : Bytes} (h : a <+: b) :
    envelopes parse (complete newline a) <+: envelopes parse (complete newline b) :=
  records_complete_mono parse h

theorem envelopes_split (text : Bytes) {offset : Nat} (hb : Boundary newline (text.take offset)) :
    envelopes parse (complete newline text) = envelopes parse (text.take offset) ++
      envelopes parse (complete newline (text.drop offset)) := records_split text hb

/-! ## What an import knows -/

/-- What an import in some phase knows; `mark` is the stored mark. -/
def Phase.Knows (parse : Bytes → Option Message) (text : Bytes) (mark : Nat) : Phase → Prop
  | .idle => True
  | .statted length => length ≤ text.length
  | .seeking length offset => length ≤ text.length ∧ offset ≤ mark ∧ Boundary newline (text.take offset)
  | .ready length offset complete messages => ∃ n, length ≤ n ∧ n ≤ text.length ∧ offset ≤ mark ∧ offset ≤ n ∧
      Boundary newline (text.take offset) ∧
      complete = LineLog.complete newline ((text.take n).drop offset) ∧ messages = envelopes parse complete

/-- What holds of the file, the mark and the rows written. -/
structure ExactlyOnce (parse : Bytes → Option Message) (db : Mailbox) (w : World) : Prop where
  markLe   : w.importMark.1 ≤ w.text.length
  boundary : Boundary newline (w.text.take w.importMark.1)
  once     : w.written.map Arrival.message = envelopes parse (w.text.take w.importMark.1)
  stored   : db.writeAll w.written = .ok w.db
  returned : ∀ length ∈ w.returned, length ≤ w.text.length ∧
    envelopes parse (complete newline (w.text.take length)) <+: w.written.map Arrival.message

structure World.Inv (parse : Bytes → Option Message) (db : Mailbox) (w : World) : Prop
    extends ExactlyOnce parse db w where
  knows : ∀ p, (w.opens p).Knows parse w.text w.importMark.1

theorem World.start_inv (db : Mailbox) : World.Inv parse db (World.start db) := by
  refine ⟨⟨le_rfl, rfl, rfl, rfl, fun _ h => absurd h List.not_mem_nil⟩, fun _ => trivial⟩

/-! ## The steps -/

/-- A file that grows keeps what was read of it. -/
theorem Phase.Knows.append {text : Bytes} {mark : Nat} {phase : Phase} (chunk : Bytes)
    (h : phase.Knows parse text mark) (hmark : mark ≤ text.length) :
    phase.Knows parse (text ++ chunk) mark := by
  cases phase with
  | idle => trivial
  | statted length => exact le_trans h (by simp)
  | seeking length offset =>
    obtain ⟨hl, ho, hb⟩ := h
    exact ⟨le_trans hl (by simp), ho, by rwa [List.take_append_of_le_length (ho.trans hmark)]⟩
  | ready length offset complete messages =>
    obtain ⟨n, hl, hn, ho, hon, hb, hc, hm⟩ := h
    refine ⟨n, hl, le_trans hn (by simp), ho, hon, ?_, ?_, hm⟩
    · rwa [List.take_append_of_le_length (ho.trans hmark)]
    · rwa [List.take_append_of_le_length hn]

theorem Phase.Knows.mono {text : Bytes} {mark mark' : Nat} {phase : Phase}
    (h : phase.Knows parse text mark) (hle : mark ≤ mark') : phase.Knows parse text mark' := by
  cases phase with
  | idle => trivial
  | statted length => exact h
  | seeking length offset => exact ⟨h.1, h.2.1.trans hle, h.2.2⟩
  | ready length offset complete messages =>
    obtain ⟨n, hl, hn, ho, hrest⟩ := h
    exact ⟨n, hl, hn, ho.trans hle, hrest⟩

theorem World.Inv.append {db : Mailbox} {w : World} (h : w.Inv parse db) (chunk : Bytes) :
    ({ w with file := some (w.text ++ chunk) } : World).Inv parse db := by
  have htake : ∀ {n}, n ≤ w.text.length → (w.text ++ chunk).take n = w.text.take n :=
    fun hn => List.take_append_of_le_length hn
  refine ⟨⟨?_, ?_, ?_, h.stored, fun length hl => ?_⟩, fun p => (h.knows p).append chunk h.markLe⟩
  · exact le_trans h.markLe (by simp [World.text])
  · show Boundary newline ((w.text ++ chunk).take w.importMark.1)
    rw [htake h.markLe]; exact h.boundary
  · show w.written.map Arrival.message = envelopes parse ((w.text ++ chunk).take w.importMark.1)
    rw [htake h.markLe]; exact h.once
  · obtain ⟨hle, hfront⟩ := h.returned length hl
    refine ⟨le_trans hle (by simp [World.text]), ?_⟩
    show envelopes parse (complete newline ((w.text ++ chunk).take length)) <+: _
    rw [htake hle]; exact hfront

theorem World.Inv.enter {db : Mailbox} {w : World} (h : w.Inv parse db) {p : Nat} (phase : Phase)
    (hp : phase.Knows parse w.text w.importMark.1) : (w.enter p phase).Inv parse db := by
  refine ⟨⟨h.markLe, h.boundary, h.once, h.stored, h.returned⟩, fun q => ?_⟩
  show (Function.update w.opens p phase q).Knows parse w.text w.importMark.1
  by_cases hq : q = p
  · subst hq; rwa [Function.update_self]
  · rw [Function.update_of_ne hq]; exact h.knows q

theorem World.Inv.finish {db : Mailbox} {w : World} (h : w.Inv parse db) {p length : Nat}
    (hle : length ≤ w.text.length) (hall : envelopes parse (complete newline (w.text.take length)) <+:
      w.written.map Arrival.message) : (w.finish p length).Inv parse db := by
  have hidle := h.enter (p := p) .idle trivial
  refine ⟨⟨h.markLe, h.boundary, h.once, h.stored, fun l hl => ?_⟩, hidle.knows⟩
  rcases List.mem_append.1 hl with hl | hl
  · exact h.returned l hl
  · rw [List.mem_singleton.1 hl]; exact ⟨hle, hall⟩

/-- Up to an offset not past the mark, everything has been written. -/
theorem World.Inv.written_of_le {db : Mailbox} {w : World} (h : w.Inv parse db) {offset : Nat}
    (ho : offset ≤ w.importMark.1) (hb : Boundary newline (w.text.take offset)) :
    envelopes parse (w.text.take offset) <+: w.written.map Arrival.message := by
  have hmono := envelopes_complete_mono parse (List.take_prefix_take_left (l := w.text) ho)
  rwa [hb, h.boundary, ← h.once] at hmono

theorem World.Inv.stat {db : Mailbox} {w : World} (h : w.Inv parse db) (p : Nat) :
    (w.stat p).Inv parse db := by
  unfold World.stat
  split
  · rename_i bytes _ hfile
    refine h.enter _ ?_
    show bytes.length ≤ w.text.length
    rw [World.text, hfile]
    exact le_rfl
  · exact h

theorem World.Inv.readMark {db : Mailbox} {w : World} (h : w.Inv parse db) (p : Nat) :
    (w.readMark p).Inv parse db := by
  have hknows := h.knows p
  unfold World.readMark
  split
  · rename_i length hphase
    rw [hphase] at hknows
    simp only
    have hoffset : (if length < w.importMark.1 then 0 else w.importMark.1) ≤ w.importMark.1 ∧
        Boundary newline (w.text.take (if length < w.importMark.1 then 0 else w.importMark.1)) := by
      split
      · exact ⟨Nat.zero_le _, by rw [List.take_zero]; exact boundary_nil⟩
      · exact ⟨le_rfl, h.boundary⟩
    generalize (if length < w.importMark.1 then 0 else w.importMark.1) = offset at hoffset ⊢
    split
    · rename_i heq
      refine h.finish hknows ?_
      rw [heq, hoffset.2]
      exact h.written_of_le hoffset.1 hoffset.2
    · exact h.enter _ ⟨hknows, hoffset⟩
  · exact h

theorem World.Inv.read {db : Mailbox} {w : World} (h : w.Inv parse db) (p : Nat) :
    (w.read parse p).Inv parse db := by
  have hknows := h.knows p
  unfold World.read
  split
  · rename_i length offset content hphase hfile
    rw [hphase] at hknows
    obtain ⟨hl, ho, hb⟩ := hknows
    have htext : w.text = content := by rw [World.text, hfile]; rfl
    have hcomplete : (rposition (fun b => decide (b = newline)) (content.drop offset)).elim []
        (fun last => (content.drop offset).take (last + 1)) = complete newline (w.text.drop offset) := by
      rw [htext, complete]
      cases rposition (fun b => decide (b = newline)) (content.drop offset) <;> rfl
    -- with nothing behind the offset, the import has nothing to add
    have hnothing : envelopes parse (complete newline (w.text.drop offset)) = [] →
        (w.finish p length).Inv parse db := fun hnil => by
      refine h.finish hl ((envelopes_complete_mono parse (List.take_prefix length w.text)).trans ?_)
      rw [envelopes_split _ hb, hnil, List.append_nil]
      exact h.written_of_le ho hb
    simp only
    split
    · rename_i hnone
      rw [hnone] at hcomplete
      exact hnothing (by rw [← hcomplete]; rfl)
    · rename_i last hlast
      rw [hlast, Option.elim_some] at hcomplete
      rw [hcomplete]
      split
      · rename_i hempty
        exact hnothing (List.isEmpty_iff.1 hempty)
      · refine h.enter _ ⟨w.text.length, hl, le_rfl, ho, ho.trans h.markLe, hb, ?_, rfl⟩
        rw [List.take_length]
  · exact h

/-- A commit at the mark its import has read from: what it writes stands between that mark and the
    new one. -/
theorem World.Inv.commit {db db' : Mailbox} {w : World} (h : w.Inv parse db) {p length offset : Nat}
    {chunk : Bytes} {messages : List Message} {arrivals : List Arrival}
    (hmark : w.importMark.1 = offset)
    (hknows : Phase.Knows parse w.text w.importMark.1 (.ready length offset chunk messages))
    (hok : w.db.writeAll arrivals = .ok db') (harrivals : arrivals.map Arrival.message = messages) :
    World.Inv parse db { w.finish p length with
      db := db', mark := some (offset + chunk.length, ""), written := w.written ++ arrivals } := by
  subst hmark
  obtain ⟨n, hl, hn, -, hon, hb, hchunk, hmessages⟩ := hknows
  have hfront : chunk <+: w.text.drop w.importMark.1 := by
    rw [hchunk, List.drop_take]
    exact (complete_isPrefix _).trans ( List.take_prefix _ _)
  have htake : w.text.take (w.importMark.1 + chunk.length) = w.text.take w.importMark.1 ++ chunk := by
    rw [List.take_add, ← List.prefix_iff_eq_take.1 hfront]
  have hwritten : (w.written ++ arrivals).map Arrival.message =
      envelopes parse (w.text.take (w.importMark.1 + chunk.length)) := by
    rw [List.map_append, h.once, harrivals, hmessages, htake, envelopes_append hb]
  refine ⟨⟨?_, ?_, hwritten, ?_, fun l hl' => ?_⟩, fun q => ?_⟩
  · have hlen := hfront.length_le
    rw [List.length_drop] at hlen
    show w.importMark.1 + chunk.length ≤ w.text.length
    have := h.markLe
    omega
  · show Boundary newline (w.text.take (w.importMark.1 + chunk.length))
    rw [htake, hchunk]
    exact hb.append (complete_complete _)
  · rw [writeAll_append, h.stored]
    exact hok
  · rcases List.mem_append.1 hl' with hl' | hl'
    · obtain ⟨hle, hpre⟩ := h.returned l hl'
      refine ⟨hle, hpre.trans ?_⟩
      rw [List.map_append]
      exact List.prefix_append _ _
    · rw [List.mem_singleton.1 hl']
      refine ⟨hl.trans hn, ?_⟩
      have hmono := envelopes_complete_mono parse (List.take_prefix_take_left (l := w.text) hl)
      have hsplit : (w.text.take n).take w.importMark.1 = w.text.take w.importMark.1 := by
        rw [List.take_take, Nat.min_eq_left hon]
      rw [envelopes_split (w.text.take n) (by rw [hsplit]; exact hb), hsplit, ← hchunk] at hmono
      rwa [hwritten, htake, envelopes_append hb]
  · have hidle := h.enter (p := p) .idle trivial
    exact (hidle.knows q).mono (Nat.le_add_right _ _)

/-- A transaction that begins at its import's mark writes what stands between the old mark and the
    new one. -/
theorem World.Inv.transact {db : Mailbox} {w : World} (h : w.Inv parse db) {p : Nat} {clock : Nat → Nat}
    {fault : Option Nat} (hfresh : w.FreshMark (.transact p clock fault)) :
    (w.transact mailbox p clock fault).Inv parse db := by
  have hknows := h.knows p
  unfold World.transact
  split
  · rename_i length offset text messages hphase
    rw [hphase] at hknows
    obtain ⟨n, hl, hn, ho, hon, hb, htext, hmessages⟩ := hknows
    cases fault with
    | some k =>
      obtain ⟨db', hok, -⟩ := writeAll_ok w.db ((messages.mapIdx fun i m =>
        (⟨m, mailbox, "imported from ndjson", clock i⟩ : Arrival)).take k)
      simp only [World.importRows, hok]
      exact h.enter .idle trivial
    | none =>
      have hmark := hfresh length offset text messages hphase
      obtain ⟨db', hok, -⟩ := writeAll_ok w.db (messages.mapIdx fun i m =>
        ⟨m, mailbox, "imported from ndjson", clock i⟩)
      simp only [World.importRows, hok]
      refine h.commit hmark ⟨n, hl, hn, ho, hon, hb, htext, hmessages⟩ hok ?_
      exact List.ext_getElem? fun i => by simp [Function.comp_def]
  · exact h

theorem World.Inv.step {db : Mailbox} {w : World} (h : w.Inv parse db) {e : Event}
    (hfresh : w.FreshMark e) : (w.step parse mailbox e).Inv parse db := by
  cases e with
  | append chunk => exact h.append chunk
  | stat p => exact h.stat p
  | readMark p => exact h.readMark p
  | read p => exact h.read p
  | transact p clock fault => exact h.transact hfresh
  | fail p => exact h.enter .idle trivial

/-! ## Histories -/

/-- **`import_ndjson_tail` (bus.rs:877)** over any history of appends and of opens, failing ones
    included, whose transactions begin at the mark they have read from; and in any state an import
    that fails leaves the mark and the database alone. -/
theorem import_exactly_once :
    (∀ db es w, Machine.Run (Machine.guarded World.FreshMark fun w e w' => w.step parse mailbox e = w')
      (World.start db) es w → ExactlyOnce parse db w) ∧
    ∀ (w : World) p clock k,
      ((w.step parse mailbox (.transact p clock (some k))).mark = w.mark ∧
        (w.step parse mailbox (.transact p clock (some k))).db = w.db) ∧
      (w.step parse mailbox (.fail p)).mark = w.mark ∧ (w.step parse mailbox (.fail p)).db = w.db := by
  refine ⟨fun db es w hrun => ?_, fun w p clock k => ⟨?_, rfl, rfl⟩⟩
  · refine (hrun.invariant (fun w e w' (h : w.Inv parse db) hstep => ?_)
      (World.start_inv db)).toExactlyOnce
    obtain ⟨hfresh, rfl⟩ := hstep
    exact h.step hfresh
  · unfold World.step World.transact
    simp only
    split
    · rename_i messages _
      obtain ⟨db', hok, -⟩ := writeAll_ok w.db ((messages.mapIdx fun i m =>
        (⟨m, mailbox, "imported from ndjson", clock i⟩ : Arrival)).take k)
      simp only [World.importRows, hok]
      exact ⟨rfl, rfl⟩
    · exact ⟨rfl, rfl⟩

end

/-! ## Overlapping opens -/

/-- A JSON object with the id `m1` and the route `a`, and the message it is. -/
def noteLine : Bytes := "\x7b\"id\":\"m1\",\"to\":\"a\"\x7d".toList.map fun c => Fin.ofNat 256 c.toNat

def note : Message := ⟨"m1", "", "a", "", none, .note, none, "", none, none, none⟩

def parseNote (line : Bytes) : Option Message := if line = noteLine then some note else none

/-- An import up to its transaction. -/
def opening (p : Nat) : List Event := [.stat p, .readMark p, .read p]

def oneOpen : List Event := .append (noteLine ++ [newline]) :: opening 0 ++ [.transact 0 (fun _ => 0) none]

def twoOpens : List Event :=
  .append (noteLine ++ [newline]) :: opening 0 ++ opening 1 ++
    [.transact 0 (fun _ => 0) none, .transact 1 (fun _ => 0) none]

theorem import_exactly_once_note :
    ExactlyOnce parseNote .empty (oneOpen.foldl (World.step parseNote "bus") (.start .empty)) := by
  refine (@import_exactly_once parseNote "bus").1 .empty _ _ (.cons (a := oneOpen[0]) ⟨trivial, rfl⟩
    (.cons (a := oneOpen[1]) ⟨trivial, rfl⟩ (.cons (a := oneOpen[2]) ⟨trivial, rfl⟩
      (.cons (a := oneOpen[3]) ⟨trivial, rfl⟩ (.cons (a := oneOpen[4]) ⟨?_, rfl⟩ (.nil _))))))
  intro length offset complete messages hphase
  cases hphase
  rfl

/-- Both opens read the line before either has stored its mark; both write it. -/
theorem overlapping_opens : ¬ ∀ parse mailbox db es w,
    Machine.Run (fun w e w' => World.step parse mailbox w e = w') (World.start db) es w →
      ExactlyOnce parse db w := by
  intro h
  have honce := (h parseNote "bus" .empty _ _
    (Machine.run_foldl (World.step parseNote "bus") (.start .empty) twoOpens)).once
  exact absurd (congrArg List.length honce) (by decide)

end BoopStore
