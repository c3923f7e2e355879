import HafleyRs.BoopHarness.Omp
import HafleyRs.BoopStore.Tail

/-!
# Children of a Codex session (`crates/boop-harness/src/harness/codex.rs`)

| here | there |
| --- | --- |
| `readUntil`, `readFirstCompleteLine` | `BufRead::read_until`, `read_first_complete_line` (boop-store/src/tail.rs:31) |
| `SessionMeta`, `firstSessionMeta` | `SessionMeta`, `first_session_meta` (codex.rs:787) |
| `Owner`, `Ownership`, `Ownership.observe` | `NativeRecordOwner` (827), `NativeChildOwnership` (838), `observe` (846) |
| `ownershipBefore` | `native_child_ownership_before` (905) |
| `eventsOf`, `collect`, `eventsWithOwnership` | a round of `native_child_events_with_ownership` (936), its loop |
| `collectFrom`, `eventsFromLines` | `native_child_events_from_lines` (968) |
| `observeNativeChildren` | `observe_native_children` (352) |

A file that cannot be read is left out. `ownershipBefore` has fuel for a line in each round; `file.length` is enough.
-/

namespace BoopHarness.Codex
open BoopStore

/-! ## Reading -/

/-- Up to and with the first delimiter, or to the end. -/
def readUntil (delimiter : Byte) : Bytes → Bytes × Bytes
  | [] => ([], [])
  | b :: rest =>
    if b = delimiter then ([b], rest)
    else
      let (bytes, rest) := readUntil delimiter rest
      (b :: bytes, rest)

def readFirstCompleteLine (file : Bytes) : Option CompleteLine :=
  let bytes := (readUntil newline file).1
  if bytes.getLast? = some newline then some ⟨0, bytes.dropLast⟩ else none

structure SessionMeta where
  sessionId  : String
  parent     : Option String
  cwd        : Option String
  nickname   : String
  isGuardian : Bool
deriving DecidableEq, Repr

def firstSessionMeta (codec : Codec) (file : Bytes) : Option SessionMeta := do
  let first ← readFirstCompleteLine file
  let value ← codec.fromSlice first.bytes
  if value.strField "type" ≠ some "session_meta" then none
  let payload ← (value.get "payload").bind fun payload => payload.asObject.map Json.obj
  let sessionId ← payload.strField "id"
  let subagent := ((value.get "payload").bind (Json.get "source")).bind (Json.get "subagent")
  return {
    sessionId
    parent := (payload.strField "parent_thread_id").orElse fun _ => payload.strField "forked_from_id"
    cwd := payload.strField "cwd"
    nickname := (payload.strField "agent_nickname").getD sessionId
    isGuardian := subagent.bind (Json.strField "other") = some "guardian" }

/-! ## Who owns a record -/

inductive Owner where
  | child | other
deriving DecidableEq, Repr

def ownerOf (childSession session : String) : Owner := if session = childSession then .child else .other

structure Ownership where
  current : Option Owner
  turns   : String → Option Owner

def Ownership.default : Ownership := ⟨none, fun _ => none⟩

/-- The ownership behind a record, and whether that is the child's own header or the end of a task of its. -/
def Ownership.observe (own : Ownership) (value : Json) (childSession : String) : Ownership × Bool × Bool :=
  let outer := value.strField "type"
  let field := fun key => (value.get "payload").bind (Json.strField key)
  if outer = some "session_meta" then
    let current := (field "id").map (ownerOf childSession)
    ({ own with current }, decide (current = some .child), false)
  else
    let current := ((field "thread_id").map (ownerOf childSession)).orElse fun _ => own.current
    let turnId := field "turn_id"
    let turns :=
      if outer = some "event_msg" ∧ field "type" = some "task_started" then
        match turnId, current with
        | some turn, some owner => Function.update own.turns turn (some owner)
        | _, _ => own.turns
      else own.turns
    let eventOwner := (turnId.bind turns).orElse fun _ => current
    (⟨current, turns⟩, false,
      decide (outer = some "event_msg" ∧ field "type" = some "task_complete" ∧ eventOwner = some .child))

/-! ## Events -/

inductive NativeChildEvent where
  | spawned (parentSession childSession : String) (atMs : Nat)
  | completed (parentSession childSession outcome : String) (atMs : Nat)
deriving DecidableEq, Repr

/-- A line that is no JSON is passed over. -/
def eventsOf (codec : Codec) (parent child : String) (own : Ownership) (line : CompleteLine) :
    Ownership × List NativeChildEvent :=
  match codec.fromSlice line.bytes with
  | none => (own, [])
  | some value =>
    let atMs := ((value.strField "timestamp").bind codec.parseIsoMs).getD 0
    let (own, spawned, completed) := own.observe value child
    (own, (if spawned then [.spawned parent child atMs] else []) ++
      if completed then [.completed parent child "completed" atMs] else [])

def collect (codec : Codec) (parent child : String) (s : Ownership × List NativeChildEvent) (line : CompleteLine) :
    Ownership × List NativeChildEvent :=
  let (own, events) := eventsOf codec parent child s.1 line
  (own, s.2 ++ events)

def eventsWithOwnership (codec : Codec) (parent child : String) (lines : List CompleteLine) (own : Ownership) :
    Ownership × List NativeChildEvent :=
  lines.foldl (collect codec parent child) (own, [])

/-- Only a line that starts at `start` or behind gives events. -/
def collectFrom (codec : Codec) (parent child : String) (start : Nat) (s : Ownership × List NativeChildEvent)
    (line : CompleteLine) : Ownership × List NativeChildEvent :=
  let (own, projected) := eventsWithOwnership codec parent child [line] s.1
  (own, if start ≤ line.start then s.2 ++ projected else s.2)

def eventsFromLines (codec : Codec) (parent child : String) (lines : List CompleteLine) (start : Nat) :
    List NativeChildEvent :=
  (lines.foldl (collectFrom codec parent child start) (Ownership.default, [])).2

/-! ## The observer -/

/-- `rest` is what the reader has not consumed. -/
def ownershipBefore (codec : Codec) (child : String) (before : Nat) : Nat → Bytes → Nat → Ownership → Ownership
  | 0, _, _, own => own
  | fuel + 1, rest, consumed, own =>
    if consumed < before then
      let (bytes, rest) := readUntil newline rest
      let consumed := consumed + bytes.length
      if bytes.isEmpty ∨ before < consumed ∨ bytes.getLast? ≠ some newline then own
      else match codec.fromSlice bytes.dropLast with
        | some value => ownershipBefore codec child before fuel rest consumed (own.observe value child).1
        | none => ownershipBefore codec child before fuel rest consumed own
    else own

def observeNativeChildren (codec : Codec) (session : SessionRef) (file : Bytes) (cursor : Nat) :
    List NativeChildEvent :=
  match session.parent with
  | none => []
  | some parent =>
    if ((firstSessionMeta codec file).map SessionMeta.isGuardian).getD false then []
    else
      let result := readCompleteLines file cursor
      let own :=
        if cursor = 0 ∨ result.reset then Ownership.default
        else ownershipBefore codec session.sessionId cursor file.length file 0 .default
      (eventsWithOwnership codec parent session.sessionId result.lines own).2

end BoopHarness.Codex

/-!
# The cursor of the observer does not matter

`ownershipAfter`: the ownership behind some lines. The reader of the prefix comes to it line by line
(`ownershipBefore_eq`), so a read from a boundary gives the events that one scan of the file gives from there on
(`observe_eq_scanned`). What a file gives it still gives when it has grown (`scanned_grows`), which is why passes with
rising cursors miss nothing and add nothing.
-/

namespace BoopHarness.Codex
open BoopStore LineLog Machine

section
variable {codec : Codec} {parent child : String}

/-! ## The ownership behind a prefix -/

def ownershipAfter (codec : Codec) (child : String) (lines : List Bytes) (own : Ownership) : Ownership :=
  lines.foldl (fun own bytes => ((codec.fromSlice bytes).map fun v => (own.observe v child).1).getD own) own

theorem ownershipAfter_cons (line : Bytes) (lines : List Bytes) (own : Ownership) :
    ownershipAfter codec child (line :: lines) own =
      ownershipAfter codec child lines (ownershipAfter codec child [line] own) := rfl

theorem readUntil_line {line : Bytes} (h : newline ∉ line) (rest : Bytes) :
    readUntil newline (line ++ newline :: rest) = (line ++ [newline], rest) := by
  induction line with
  | nil => simp [readUntil]
  | cons b line ih =>
    rw [List.mem_cons, not_or] at h
    rw [List.cons_append, readUntil, if_neg (Ne.symm h.1), ih h.2]
    rfl

/-- The reader of the prefix, in front of some whole lines of it. -/
theorem ownershipBefore_eq {text : Bytes} (h : Boundary newline text) (rest : Bytes) {before consumed fuel : Nat}
    (hbefore : before = consumed + text.length) (hfuel : text.length ≤ fuel) (own : Ownership) :
    ownershipBefore codec child before fuel (text ++ rest) consumed own =
      ownershipAfter codec child (completeLines text) own := by
  revert consumed fuel own
  refine boundary_lines (P := fun text => ∀ {consumed fuel : Nat}, before = consumed + text.length →
    text.length ≤ fuel → ∀ own, ownershipBefore codec child before fuel (text ++ rest) consumed own =
      ownershipAfter codec child (completeLines text) own) ?_ ?_ h
  · intro consumed fuel hbefore _ own
    rw [List.length_nil, Nat.add_zero] at hbefore
    cases fuel with
    | zero => rfl
    | succ fuel =>
      rw [ownershipBefore, if_neg (by omega)]
      rfl
  · intro line text hopen _ ih consumed fuel hbefore hfuel own
    rw [List.length_append, List.length_cons] at hbefore hfuel
    obtain ⟨fuel, rfl⟩ : ∃ n, fuel = n + 1 := ⟨fuel - 1, by omega⟩
    have hstops : ¬ ((line ++ [newline]).isEmpty ∨ before < consumed + (line ++ [newline]).length ∨
        (line ++ [newline]).getLast? ≠ some newline) := by
      simp
      omega
    have hnext : before = consumed + (line ++ [newline]).length + text.length := by
      rw [List.length_append, List.length_singleton]
      omega
    rw [List.append_assoc, List.cons_append, ownershipBefore, if_pos (by omega), readUntil_line hopen]
    simp only [if_neg hstops, List.dropLast_concat, completeLines_line hopen]
    have henough : text.length ≤ fuel := by omega
    rw [ownershipAfter_cons]
    cases hparse : codec.fromSlice line with
    | some value =>
      have hown : ownershipAfter codec child [line] own = (own.observe value child).1 := by
        simp only [ownershipAfter, List.foldl_cons, List.foldl_nil, hparse, Option.map_some, Option.getD_some]
      rw [hown]
      exact ih hnext henough _
    | none =>
      have hown : ownershipAfter codec child [line] own = own := by
        simp only [ownershipAfter, List.foldl_cons, List.foldl_nil, hparse, Option.map_none, Option.getD_none]
      rw [hown]
      exact ih hnext henough _

/-! ## One scan -/

theorem eventsOf_own (own : Ownership) (line : CompleteLine) :
    (eventsOf codec parent child own line).1 = ownershipAfter codec child [line.bytes] own := by
  unfold eventsOf ownershipAfter
  rw [List.foldl_cons, List.foldl_nil]
  cases codec.fromSlice line.bytes <;> rfl

theorem collect_eq (s : Ownership × List NativeChildEvent) (line : CompleteLine) :
    collect codec parent child s line =
      (ownershipAfter codec child [line.bytes] s.1, s.2 ++ (eventsOf codec parent child s.1 line).2) := by
  rw [← @eventsOf_own codec parent child]
  rfl

theorem collectFrom_eq (start : Nat) (s : Ownership × List NativeChildEvent) (line : CompleteLine) :
    collectFrom codec parent child start s line = if start ≤ line.start then collect codec parent child s line
      else (ownershipAfter codec child [line.bytes] s.1, s.2) := by
  have hsingle : eventsWithOwnership codec parent child [line] s.1 =
      (ownershipAfter codec child [line.bytes] s.1, (eventsOf codec parent child s.1 line).2) := by
    rw [eventsWithOwnership, List.foldl_cons, collect_eq]
    rfl
  unfold collectFrom
  rw [hsingle, collect_eq]
  by_cases hstart : start ≤ line.start
  · simp only [if_pos hstart]
  · simp only [if_neg hstart]

/-- A walk over the lines, from some events on. -/
theorem foldl_collect (lines : List CompleteLine) (own : Ownership) (events : List NativeChildEvent) :
    lines.foldl (collect codec parent child) (own, events) =
      (ownershipAfter codec child (lines.map CompleteLine.bytes) own,
        events ++ (eventsWithOwnership codec parent child lines own).2) := by
  induction lines generalizing own events with
  | nil =>
    rw [eventsWithOwnership, List.foldl_nil, List.foldl_nil, List.append_nil]
    rfl
  | cons line lines ih =>
    rw [eventsWithOwnership, List.foldl_cons, List.foldl_cons, collect_eq, collect_eq, ih, ih, List.nil_append,
      List.append_assoc]
    rfl

theorem eventsWithOwnership_append (a b : List CompleteLine) (own : Ownership) :
    (eventsWithOwnership codec parent child (a ++ b) own).2 = (eventsWithOwnership codec parent child a own).2 ++
      (eventsWithOwnership codec parent child b (ownershipAfter codec child (a.map CompleteLine.bytes) own)).2 := by
  rw [eventsWithOwnership, List.foldl_append, foldl_collect, foldl_collect, List.nil_append]

/-- The loop of a scan over lines that all start before `start`. -/
theorem scan_before {lines : List CompleteLine} {start : Nat} (h : ∀ l ∈ lines, l.start < start) (own : Ownership)
    (events : List NativeChildEvent) :
    lines.foldl (collectFrom codec parent child start) (own, events) =
      (ownershipAfter codec child (lines.map CompleteLine.bytes) own, events) := by
  induction lines generalizing own with
  | nil => rfl
  | cons line lines ih =>
    have hline := h line (List.mem_cons_self ..)
    rw [List.foldl_cons, collectFrom_eq, if_neg (not_le.2 hline), ih fun l hl => h l (List.mem_cons_of_mem _ hl)]
    rfl

/-- And over lines that all start at it or behind. -/
theorem scan_behind {lines : List CompleteLine} {start : Nat} (h : ∀ l ∈ lines, start ≤ l.start)
    (s : Ownership × List NativeChildEvent) :
    lines.foldl (collectFrom codec parent child start) s = lines.foldl (collect codec parent child) s := by
  refine List.foldl_ext _ _ _ fun s line hline => ?_
  rw [collectFrom_eq, if_pos (h line hline)]

/-- A scan whose lines are those before the start, and those behind it. -/
theorem eventsFromLines_append {a b : List CompleteLine} {start : Nat} (ha : ∀ l ∈ a, l.start < start)
    (hb : ∀ l ∈ b, start ≤ l.start) :
    eventsFromLines codec parent child (a ++ b) start = (eventsWithOwnership codec parent child b
      (ownershipAfter codec child (a.map CompleteLine.bytes) .default)).2 := by
  rw [eventsFromLines, List.foldl_append, scan_before ha, scan_behind hb]
  rfl

/-! ## A read from a boundary -/

/-- The events of one scan of the whole file, from the lines that start at `start` or behind. -/
def scanned (codec : Codec) (session : SessionRef) (file : Bytes) (start : Nat) : List NativeChildEvent :=
  match session.parent with
  | none => []
  | some parent =>
    if ((firstSessionMeta codec file).map SessionMeta.isGuardian).getD false then []
    else eventsFromLines codec parent session.sessionId (readFrom file 0).lines start

theorem scan_split {file : Bytes} {cursor : Nat} (hle : cursor ≤ file.length)
    (h : Boundary newline (file.take cursor)) :
    eventsFromLines codec parent child (readFrom file 0).lines cursor =
      (eventsWithOwnership codec parent child (readFrom file cursor).lines
        (ownershipAfter codec child (completeLines (file.take cursor)) .default)).2 := by
  have hextent : extent (completeLines (file.take cursor)) = cursor := by
    rw [extent_completeLines h, List.length_take_of_le hle]
  have hbefore : ∀ l ∈ placed 0 (completeLines (file.take cursor)), l.start < cursor := fun l hl => by
    have hlt := (le_start_of_mem_placed hl).2
    omega
  have hbehind : ∀ l ∈ (readFrom file cursor).lines, cursor ≤ l.start := fun l hl => by
    rw [readFrom_placed] at hl
    exact (le_start_of_mem_placed hl).1
  rw [readFrom_split hle h, eventsFromLines_append hbefore hbehind, placed_bytes]

/-- **A read from a boundary gives what one scan of the file gives from there on** -/
theorem observe_eq_scanned {session : SessionRef} {file : Bytes} {cursor : Nat} (hle : cursor ≤ file.length)
    (h : Boundary newline (file.take cursor)) :
    observeNativeChildren codec session file cursor = scanned codec session file cursor := by
  unfold observeNativeChildren scanned
  cases session.parent with
  | none => rfl
  | some parent =>
    simp only [readCompleteLines_long hle, scan_split hle h]
    have hreset : (readFrom file cursor).reset = false := rfl
    by_cases hzero : cursor = 0
    · subst hzero
      rfl
    · have hown : ownershipBefore codec session.sessionId cursor file.length file 0 .default =
          ownershipAfter codec session.sessionId (completeLines (file.take cursor)) .default := by
        have hlength : (file.take cursor).length = cursor := List.length_take_of_le hle
        have heq := @ownershipBefore_eq codec session.sessionId _ h (file.drop cursor) cursor 0 file.length
          (by omega) (by omega) .default
        rwa [List.take_append_drop] at heq
      simp only [hzero, hreset, Bool.false_eq_true, or_self, if_false, hown]

/-- A file shorter than the cursor is scanned as a whole. -/
theorem observe_reset {session : SessionRef} {file : Bytes} {cursor : Nat} (hlt : file.length < cursor) :
    observeNativeChildren codec session file cursor = scanned codec session file 0 := by
  rw [← observe_eq_scanned (Nat.zero_le _) boundary_nil]
  unfold observeNativeChildren
  rw [readCompleteLines_short hlt, readCompleteLines_long (Nat.zero_le _)]
  cases session.parent with
  | none => rfl
  | some parent => simp only [or_true, true_or, if_true]

/-! ## A file that grows -/

theorem readUntil_append {a : Bytes} (h : newline ∈ a) (b : Bytes) :
    (readUntil newline (a ++ b)).1 = (readUntil newline a).1 := by
  obtain ⟨line, rest, rfl, hopen⟩ := List.eq_append_cons_of_mem h
  rw [List.append_assoc, List.cons_append, readUntil_line hopen, readUntil_line hopen]

theorem firstSessionMeta_append {a : Bytes} (h : newline ∈ a) (b : Bytes) :
    firstSessionMeta codec (a ++ b) = firstSessionMeta codec a := by
  unfold firstSessionMeta readFirstCompleteLine
  rw [readUntil_append h]

theorem scanned_nil (session : SessionRef) (start : Nat) : scanned codec session [] start = [] := by
  unfold scanned
  cases session.parent with
  | none => rfl
  | some parent => exact ite_self _

/-- Of whole lines and what follows them, the events of the lines and those from their end on. -/
theorem scanned_split (session : SessionRef) {file : Bytes} {cursor : Nat} (hle : cursor ≤ file.length)
    (h : Boundary newline (file.take cursor)) :
    scanned codec session file 0 =
      scanned codec session (file.take cursor) 0 ++ scanned codec session file cursor := by
  by_cases hmem : newline ∈ file.take cursor
  · have hmeta : firstSessionMeta codec file = firstSessionMeta codec (file.take cursor) := by
      rw [← firstSessionMeta_append hmem (file.drop cursor), List.take_append_drop]
    unfold scanned
    cases session.parent with
    | none => rfl
    | some parent =>
      simp only [hmeta, scan_split (Nat.zero_le _) boundary_nil, scan_split hle h]
      split_ifs
      · rfl
      · rw [readFrom_split hle h, eventsWithOwnership_append, placed_bytes, readFrom_placed (file.take cursor)]
        rfl
  · rw [Boundary, complete_of_not_mem hmem] at h
    have hzero : cursor = 0 := by
      have hlength := List.length_take_of_le hle
      rw [← h] at hlength
      exact hlength.symm
    subst hzero
    rw [List.take_zero, scanned_nil, List.nil_append]

theorem scanned_complete (session : SessionRef) (file : Bytes) :
    scanned codec session file 0 = scanned codec session (complete newline file) 0 := by
  have hfront : complete newline file <+: file := complete_isPrefix file
  have htake : file.take (complete newline file).length = complete newline file :=
    (List.prefix_iff_eq_take.1 hfront).symm
  have hsplit := @scanned_split codec session file (complete newline file).length hfront.length_le
    (htake.symm ▸ complete_complete file)
  have hnone : scanned codec session file (complete newline file).length = [] := by
    unfold scanned
    cases session.parent with
    | none => rfl
    | some parent =>
      have hrest : (readFrom file (complete newline file).length).lines = [] := by
        have hopen : newline ∉ file.drop (complete newline file).length := not_mem_tail file
        rw [readFrom_placed, completeLines_nil_of hopen]
        rfl
      simp only [scan_split hfront.length_le (htake.symm ▸ complete_complete file), hrest]
      exact ite_self _
  rw [hsplit, hnone, List.append_nil, htake]

/-- What a file gives, it still gives when it has grown. -/
theorem scanned_grows (session : SessionRef) {a b : Bytes} (h : a <+: b) :
    scanned codec session a 0 <+: scanned codec session b 0 := by
  have hfront : complete newline a <+: b := (complete_isPrefix a).trans h
  have htake : b.take (complete newline a).length = complete newline a := (List.prefix_iff_eq_take.1 hfront).symm
  have hsplit := @scanned_split codec session b (complete newline a).length hfront.length_le
    (htake.symm ▸ complete_complete a)
  rw [scanned_complete, hsplit, htake]
  exact List.prefix_append _ _

end

/-! ## Passes -/

structure Watching where
  file     : Bytes
  cursor   : Nat
  observed : List NativeChildEvent

/-- `between` is written between the read of the projection and that of the observer; `next` is the new cursor. -/
inductive WatchEvent where
  | append (bytes : Bytes)
  | pass (between : Bytes) (next : Nat)

/-- The new cursor is the start of a line, not before the old one and not behind what the projection read. -/
def watchStep (codec : Codec) (session : SessionRef) (s : Watching) : WatchEvent → Option Watching
  | .append bytes => some { s with file := s.file ++ bytes }
  | .pass between next =>
    if s.cursor ≤ next ∧ next ≤ (readCompleteLines s.file s.cursor).nextOffset ∧
        complete newline (s.file.take next) = s.file.take next then
      some {
        file := s.file ++ between
        cursor := next
        observed := s.observed ++ observeNativeChildren codec session (s.file ++ between) s.cursor }
    else none

/-- The relation of the steps. -/
def Watch (codec : Codec) (session : SessionRef) (s : Watching) (e : WatchEvent) (t : Watching) : Prop :=
  watchStep codec session s e = some t

def Watching.start (file : Bytes) : Watching := ⟨file, 0, []⟩

/-- What is observed is in the file, and what the file has before the cursor is observed. -/
structure Caught (codec : Codec) (session : SessionRef) (s : Watching) : Prop where
  le       : s.cursor ≤ s.file.length
  boundary : Boundary newline (s.file.take s.cursor)
  sound    : ∀ ev ∈ s.observed, ev ∈ scanned codec session s.file 0
  before   : ∀ ev ∈ scanned codec session (s.file.take s.cursor) 0, ev ∈ s.observed

section
variable {codec : Codec} {session : SessionRef}

theorem caught_start (file : Bytes) : Caught codec session (.start file) where
  le       := Nat.zero_le _
  boundary := boundary_nil
  sound    := nofun
  before ev hev := by
    rw [Watching.start, List.take_zero, scanned_nil] at hev
    cases hev

theorem Caught.append {s : Watching} (h : Caught codec session s) (bytes : Bytes) :
    Caught codec session { s with file := s.file ++ bytes } := by
  have htake : (s.file ++ bytes).take s.cursor = s.file.take s.cursor := List.take_append_of_le_length h.le
  refine ⟨h.le.trans (by simp), ?_, fun ev hev => ?_, fun ev hev => h.before ev ?_⟩
  · show Boundary newline ((s.file ++ bytes).take s.cursor)
    rw [htake]
    exact h.boundary
  · exact (scanned_grows session (List.prefix_append _ _)).subset (h.sound ev hev)
  · rwa [← htake]

/-- The offset behind a read: the end of a line, in the file. -/
theorem nextOffset_boundary {file : Bytes} {cursor : Nat} (hle : cursor ≤ file.length)
    (h : Boundary newline (file.take cursor)) :
    cursor ≤ (readCompleteLines file cursor).nextOffset ∧
      (readCompleteLines file cursor).nextOffset ≤ file.length ∧
      Boundary newline (file.take (readCompleteLines file cursor).nextOffset) := by
  have hnext := (readFrom_spec file cursor).2.1
  rw [← readCompleteLines_long hle] at hnext
  have hfront : file.take cursor ++ complete newline (file.drop cursor) <+: file := by
    obtain ⟨rest, hrest⟩ : complete newline (file.drop cursor) <+: file.drop cursor := complete_isPrefix _
    exact ⟨rest, by rw [List.append_assoc, hrest, List.take_append_drop]⟩
  have hlength : (file.take cursor ++ complete newline (file.drop cursor)).length =
      (readCompleteLines file cursor).nextOffset := by
    rw [hnext, List.length_append, List.length_take_of_le hle]
  refine ⟨hnext ▸ Nat.le_add_right _ _, hlength ▸ hfront.length_le, ?_⟩
  rw [← hlength, ← List.prefix_iff_eq_take.1 hfront]
  exact h.append (complete_complete _)

/-- Behind a pass everything of the file is observed. -/
theorem Caught.pass {s t : Watching} (h : Caught codec session s) {between : Bytes} {next : Nat}
    (hstep : watchStep codec session s (.pass between next) = some t) :
    Caught codec session t ∧ ∀ ev, ev ∈ t.observed ↔ ev ∈ scanned codec session t.file 0 := by
  obtain ⟨⟨hrises, hread, hline⟩, rfl⟩ : (s.cursor ≤ next ∧ next ≤ (readCompleteLines s.file s.cursor).nextOffset ∧
      complete newline (s.file.take next) = s.file.take next) ∧ _ = t := by
    rw [watchStep] at hstep
    split_ifs at hstep with hok
    exact ⟨hok, Option.some.inj hstep⟩
  have hgrown := h.append between
  have hnext : next ≤ s.file.length := hread.trans (nextOffset_boundary h.le h.boundary).2.1
  have htake : (s.file ++ between).take next = s.file.take next := List.take_append_of_le_length hnext
  have hsplit : scanned codec session (s.file ++ between) 0 =
      scanned codec session ((s.file ++ between).take s.cursor) 0 ++
        scanned codec session (s.file ++ between) s.cursor := scanned_split session hgrown.le hgrown.boundary
  have hobserve : observeNativeChildren codec session (s.file ++ between) s.cursor =
      scanned codec session (s.file ++ between) s.cursor := observe_eq_scanned hgrown.le hgrown.boundary
  have hall : ∀ ev, ev ∈ s.observed ++ observeNativeChildren codec session (s.file ++ between) s.cursor ↔
      ev ∈ scanned codec session (s.file ++ between) 0 := by
    intro ev
    rw [hobserve, List.mem_append, hsplit, List.mem_append]
    constructor
    · rintro (hev | hev)
      · exact List.mem_append.1 (hsplit ▸ hgrown.sound ev hev)
      · exact Or.inr hev
    · exact Or.imp_left (hgrown.before ev)
  refine ⟨⟨hnext.trans (by simp), ?_, fun ev hev => (hall ev).1 hev, fun ev hev => (hall ev).2 ?_⟩, hall⟩
  · show complete newline ((s.file ++ between).take next) = (s.file ++ between).take next
    rw [htake, hline]
  · exact (scanned_grows session (List.take_prefix _ _)).subset hev

theorem Caught.step {s t : Watching} {e : WatchEvent} (h : Caught codec session s)
    (hstep : Watch codec session s e t) : Caught codec session t := by
  cases e with
  | append bytes =>
    obtain rfl := Option.some.inj hstep
    exact h.append bytes
  | pass between next => exact (h.pass hstep).1

end

/-- **The events of a child do not depend on the cursor: from each boundary they are those of one scan from there on,
and after each pass of a run with rising cursors the observed ones are those of one scan of the file** -/
theorem child_events_scan (codec : Codec) (session : SessionRef) :
    (∀ (file : Bytes) (cursor : Nat), cursor ≤ file.length → Boundary newline (file.take cursor) →
      observeNativeChildren codec session file cursor = scanned codec session file cursor) ∧
    ∀ (file : Bytes) (events : List WatchEvent) (s : Watching), Run (Watch codec session) (.start file) events s →
      (∀ between, ∃ t, Watch codec session s (.pass between (readCompleteLines s.file s.cursor).nextOffset) t) ∧
      ∀ between next t, Watch codec session s (.pass between next) t →
        ∀ ev, ev ∈ t.observed ↔ ev ∈ scanned codec session t.file 0 := by
  refine ⟨fun file cursor => observe_eq_scanned, fun file events s hrun => ?_⟩
  have hcaught : Caught codec session s :=
    hrun.invariant (I := Caught codec session) (fun _ _ _ h hstep => h.step hstep) (caught_start file)
  refine ⟨fun between => ?_, fun between next t hstep => (hcaught.pass hstep).2⟩
  obtain ⟨hrises, -, hline⟩ := nextOffset_boundary hcaught.le hcaught.boundary
  exact ⟨_, if_pos ⟨hrises, le_rfl, hline⟩⟩

/-- Reads `{}`. -/
def emptyObjects : Codec :=
  ⟨fun bytes => if bytes = [123, 125] then some (.obj []) else none, fun _ => "", fun _ => none⟩

theorem one_line_observed :
    observeNativeChildren emptyObjects ⟨"child", some "parent"⟩ [123, 125, 10, 123] 3 =
      scanned emptyObjects ⟨"child", some "parent"⟩ [123, 125, 10, 123] 3 ∧
    ∀ ev, ev ∈ observeNativeChildren emptyObjects ⟨"child", some "parent"⟩ [123, 125, 10, 123] 0 ↔
      ev ∈ scanned emptyObjects ⟨"child", some "parent"⟩ [123, 125, 10, 123] 0 := by
  have h := child_events_scan emptyObjects ⟨"child", some "parent"⟩
  refine ⟨h.1 [123, 125, 10, 123] 3 (by decide) rfl, ?_⟩
  exact (h.2 [123, 125, 10] [] _ (.nil _)).2 [123] 3 ⟨[123, 125, 10, 123], 3, _⟩ rfl

end BoopHarness.Codex
