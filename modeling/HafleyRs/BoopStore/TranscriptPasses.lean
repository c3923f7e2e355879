import HafleyRs.BoopStore.TranscriptRuns

/-!
# Incremental syncs of a transcript

A transcript grows by appends, also inside a line, and is synced now and then; a sync may fail and is rolled back. Each
sync leaves what one sync of the whole file would (`sync_incremental`): `synced_run` carries the refinement of a
`State` to a log that grows.
-/

namespace BoopStore.Transcript
open TurnStore Passes

structure State where
  file  : Bytes
  store : Store

inductive SyncEvent where
  | append (bytes : Bytes)
  | sync (modifiedMs : Nat)
  | rolledBack

def step (codec : Codec) (sid : String) (projectionVersion : Nat) (s : State) : SyncEvent → State
  | .append bytes => { s with file := s.file ++ bytes }
  | .sync modifiedMs =>
    match syncSessionWith codec sid projectionVersion modifiedMs s.store s.file with
    | .ok (store, _) => { s with store }
    | .error _ => s
  | .rolledBack => s

def run (codec : Codec) (sid : String) (projectionVersion : Nat) (turns : TurnStore)
  (events : List SyncEvent) : State :=
  events.foldl (step codec sid projectionVersion) ⟨[], turns, none⟩

/-! ## A state as a log that grows -/

def State.offset (s : State) : Nat := (cursorState s.store).offset

def State.growing (s : State) : Growing Byte TurnStore := ⟨s.file, s.offset, s.store.turns⟩

def SyncEvent.growing : SyncEvent → Passes.Event Byte
  | .append bytes => .append bytes
  | .sync _ => .pass
  | .rolledBack => .rolledBack

section
variable {codec : Codec} {sid : String} {projectionVersion : Nat}

variable (codec sid) in
/-- The updates of the cursor row leave the walk alone. -/
theorem projectRecords_fst (lines : List CompleteLine) (w : Walk) (row : Option CursorRow) :
    (lines.foldlM (projectRecord codec sid) (w, row)).map Prod.fst =
      (lines.map CompleteLine.bytes).foldlM (projectLine codec sid) w := by
  induction lines generalizing w row with
  | nil => rfl
  | cons line lines ih =>
    rw [List.foldlM_cons, List.map_cons, List.foldlM_cons]
    unfold projectRecord
    cases projectLine codec sid w line.bytes with
    | error e => rfl
    | ok w' => exact ih w' _

variable (projectionVersion) in
/-- A sync stores what a pass of the projector does, and its cursor behind what it read. -/
theorem syncSession_spec {store : Store} {file : Bytes} (hle : (cursorState store).offset ≤ file.length)
    {turns : TurnStore}
    (hpass : (projector codec sid).pass store.turns (completeLines (file.drop (cursorState store).offset)) = .ok turns)
    (modifiedMs : Nat) :
    ∃ store' stat, syncSessionWith codec sid projectionVersion modifiedMs store file = .ok (store', stat) ∧
      store'.turns = turns ∧ (cursorState store').offset =
        (cursorState store).offset + (LineLog.complete newline (file.drop (cursorState store).offset)).length := by
  generalize hoffset : (cursorState store).offset = offset at hle hpass ⊢
  obtain ⟨hlines, hnext, -⟩ := readFrom_spec file offset
  unfold syncSessionWith projectTranscriptWith
  simp only [hoffset, readCompleteLines_long hle]
  by_cases hempty : (readFrom file offset).lines = []
  · rw [hempty, List.map_nil] at hlines
    rw [← hlines] at hpass
    obtain rfl := Except.ok.inj hpass
    rw [if_pos (by simpa using hempty), complete_of_no_lines hempty]
    exact ⟨_, _, rfl, rfl, rfl⟩
  · rw [if_neg (by simpa using hempty)]
    have hne : completeLines (file.drop offset) ≠ [] := by
      rw [← hlines]
      simpa using hempty
    rw [Projector.pass_of_ne_nil _ hne, ← hlines] at hpass
    have hwalk := projectRecords_fst codec sid (readFrom file offset).lines
      ⟨store.turns, store.turns.maxTurn sid, {}⟩ (ensureCursor store offset).cursor
    cases hfold : (readFrom file offset).lines.foldlM (projectRecord codec sid)
        (⟨store.turns, store.turns.maxTurn sid, {}⟩, (ensureCursor store offset).cursor) with
    | error e =>
      rw [hfold] at hwalk
      have hfail : ((readFrom file offset).lines.map CompleteLine.bytes).foldlM (projector codec sid).line
          ((projector codec sid).begin store.turns ((readFrom file offset).lines.map CompleteLine.bytes)) = .error e :=
        hwalk.symm
      rw [hfail] at hpass
      cases hpass
    | ok s =>
      rw [hfold] at hwalk
      have hok : ((readFrom file offset).lines.map CompleteLine.bytes).foldlM (projector codec sid).line
          ((projector codec sid).begin store.turns ((readFrom file offset).lines.map CompleteLine.bytes)) = .ok s.1 :=
        hwalk.symm
      rw [hok] at hpass
      have hstart : (readFrom file offset).lines.foldlM (projectRecord codec sid)
          (⟨(ensureCursor store offset).turns, (ensureCursor store offset).turns.maxTurn sid, {}⟩,
            (ensureCursor store offset).cursor) = .ok s := hfold
      rw [hstart]
      exact ⟨_, _, rfl, Except.ok.inj hpass, hnext⟩

/-- A sync is a pass over the log, as long as the pass does not fail. -/
theorem step_growing {s : State} (hle : s.offset ≤ s.file.length) {turns : TurnStore}
    (hpass : (projector codec sid).pass s.store.turns (s.growing.batch newline) = .ok turns) (e : SyncEvent) :
    (step codec sid projectionVersion s e).growing = Passes.step newline (projector codec sid) s.growing e.growing := by
  cases e with
  | append bytes => rfl
  | rolledBack => rfl
  | sync modifiedMs =>
    obtain ⟨store', stat, hsync, hturns, hoffset⟩ :=
      syncSession_spec projectionVersion hle hpass modifiedMs
    have hstep : step codec sid projectionVersion s (.sync modifiedMs) = { s with store := store' } := by
      simp only [step, hsync]
    have hwhole : Passes.step newline (projector codec sid) s.growing .pass =
        ⟨s.file, s.offset + (LineLog.complete newline (s.file.drop s.offset)).length, turns⟩ := by
      have hhere : (projector codec sid).pass s.growing.store (s.growing.batch newline) = .ok turns := hpass
      simp only [Passes.step, hhere]
      rfl
    rw [hstep]
    refine Eq.trans ?_ hwhole.symm
    simp only [State.growing, State.offset, hturns, hoffset]

/-! ## Every run -/

/-- A session that is in no row, in a store whose calls are in order. -/
structure Unseen (store : TurnStore) (sid : String) : Prop where
  turns    : store.turnsOf sid = []
  usage    : store.usageOf sid = []
  refs     : (store.usage.rows.map fun r => r.usage.request).Nodup
  interned : ∀ q, q ∈ store.requests.rows ↔ q ∈ store.usage.rows.map fun r => r.usage.request

/-- The rows of other sessions may hang on what they hung on. -/
theorem Unseen.ready {turns : TurnStore} (h : Unseen turns sid) : Ready sid (· ∈ turns.usage.keys) turns := by
  have hmax : turns.maxTurn sid = 0 := by
    rw [maxTurn, h.turns]
    rfl
  refine ⟨?_, ⟨h.refs, h.interned, fun r hr => .inr (List.mem_map_of_mem hr)⟩, fun t ht => ?_⟩
  · rw [hmax]
    exact h.turns
  · obtain ⟨r, hr, hkey⟩ := List.mem_map.1 ht
    have hmem : r ∈ turns.usageOf sid :=
      List.mem_filter.2 ⟨hr, decide_eq_true (congrArg Prod.fst hkey)⟩
    rw [h.usage] at hmem
    cases hmem

/-- In every state the store is that of one pass over the lines up to the cursor. -/
theorem synced_run {turns : TurnStore} (h : Unseen turns sid) (events : List SyncEvent) :
    Synced newline (projector codec sid) turns (run codec sid projectionVersion turns events).growing := by
  induction events using List.reverseRecOn with
  | nil => exact synced_start turns
  | append_singleton events e ih =>
    have hrun : run codec sid projectionVersion turns (events ++ [e]) =
        step codec sid projectionVersion (run codec sid projectionVersion turns events) e := by
      rw [run, List.foldl_append]
      rfl
    generalize run codec sid projectionVersion turns events = s at ih hrun
    obtain ⟨w, -, hpass, -, hready, -⟩ := pass_spec codec h.ready (s.growing.seen newline)
    have hstore : w.store = s.store.turns := Except.ok.inj (hpass.symm.trans ih.store)
    rw [hstore] at hready
    obtain ⟨w', -, hhere, -, -, -⟩ := pass_spec codec hready (s.growing.batch newline)
    rw [hrun, step_growing ih.le hhere]
    refine ih.step ?_
    cases e with
    | append bytes => trivial
    | rolledBack => trivial
    | sync modifiedMs => exact resumes h.ready ih.store _

/-- **Incremental syncs of a transcript** (`sync_session_with` with `project_transcript_with`): whatever was appended,
    synced and rolled back before, a sync goes through and stores the turns, tool facts, usage and offset that one sync
    of the file does. The ordinals of the session are 1 to n, and each call of the file has one usage row, on a turn (or
    where it was before), with the counts of the last usage whose output is not below that of any before it. -/
theorem sync_incremental (codec : Codec) (sid : String) (projectionVersion : Nat) {turns : TurnStore}
    (h : Unseen turns sid) (events : List SyncEvent) (modifiedMs : Nat) :
    let s := run codec sid projectionVersion turns events
    ∃ stored whole stat stat',
      syncSessionWith codec sid projectionVersion modifiedMs s.store s.file = .ok (stored, stat) ∧
      syncSessionWith codec sid projectionVersion modifiedMs ⟨turns, none⟩ s.file = .ok (whole, stat') ∧
      stored.turns = whole.turns ∧ (cursorState stored).offset = (cursorState whole).offset ∧
      (∃ n, stored.turns.turnsOf sid = List.range' 1 n) ∧
      ∀ q, usagesAt codec (completeLines s.file) q ≠ [] → ∃ r u,
        (∀ r', r' ∈ stored.turns.usage.rows ∧ r'.usage.request = q ↔ r' = r) ∧
        (r.key ∈ stored.turns.turns.keys ∨ r.key ∈ turns.usage.keys) ∧
        LastLeading ((turns.usageAt q).toList ++ usagesAt codec (completeLines s.file) q) u ∧
        UsageCounts.of r.usage = UsageCounts.of u := by
  intro s
  have hsynced : Synced newline (projector codec sid) turns s.growing := synced_run h events
  obtain ⟨w, -, hseen, -, hready, -⟩ := pass_spec codec h.ready (s.growing.seen newline)
  have hstore : w.store = s.store.turns := Except.ok.inj (hseen.symm.trans hsynced.store)
  rw [hstore] at hready
  obtain ⟨w', -, hbatch, hgood, -, -⟩ := pass_spec codec hready (s.growing.batch newline)
  obtain ⟨-, -, -, hwhole⟩ := hsynced.pass (resumes h.ready hsynced.store _) hbatch
  obtain ⟨stored, stat, hsync, hturns, hoffset⟩ :=
    syncSession_spec projectionVersion hsynced.le hbatch modifiedMs
  obtain ⟨whole, stat', hsync', hturns', hoffset'⟩ := syncSession_spec projectionVersion
    (show (cursorState ⟨turns, none⟩).offset ≤ s.file.length from Nat.zero_le _) hwhole modifiedMs
  refine ⟨stored, whole, stat, stat', hsync, hsync', hturns.trans hturns'.symm, ?_, ⟨w'.turn, ?_⟩, fun q hq => ?_⟩
  · rw [hoffset, hoffset']
    obtain ⟨hcomplete, -⟩ := hsynced.complete
    have hlength := congrArg List.length hcomplete
    rw [List.length_append, List.length_take_of_le hsynced.le] at hlength
    show s.offset + _ = 0 + (LineLog.complete newline (s.file.drop 0)).length
    rw [Nat.zero_add, List.drop_zero]
    exact hlength.symm
  · rw [hturns]
    exact hgood.numbered
  · obtain ⟨w'', -, hpass, -, -, husage⟩ := pass_spec codec h.ready (completeLines s.file)
    have hsame : w''.store = w'.store := Except.ok.inj (hpass.symm.trans hwhole)
    have hat := husage q
    rw [hsame] at hat
    -- a row that was there before is one more usage in front
    have hfold : (usagesAt codec (completeLines s.file) q).foldl absorb (turns.usageAt q) =
        ((turns.usageAt q).toList ++ usagesAt codec (completeLines s.file) q).foldl absorb none := by
      cases turns.usageAt q <;> rfl
    have hsome : (turns.usageAt q).toList ++ usagesAt codec (completeLines s.file) q ≠ [] := by simp [hq]
    obtain ⟨row, u, hrow, hlast, hcounts, -⟩ := absorb_spec hsome
    rw [hfold, hrow] at hat
    obtain ⟨r, hr, rfl⟩ := Option.map_eq_some_iff.1 hat
    obtain ⟨hunique, hattached⟩ := hgood.usage.row hr
    rw [hturns]
    exact ⟨r, u, hunique, hattached, hlast, hcounts⟩

end

/-- One record of the response `m`, with its output so far. -/
def responseLine (output : String) : Bytes :=
  ascii ("\x7b\"type\":\"assistant\",\"message\":\x7b\"id\":\"m\",\"content\":[\x7b\"type\":\"text\",\"text\":\"hi\"" ++
    "\x7d],\"usage\":\x7b\"output_tokens\":" ++ output ++ "\x7d\x7d\x7d")

def response (output : Nat) : Json :=
  .obj [("type", .str "assistant"), ("message", .obj [("id", .str "m"), ("content", .arr [textBlock "hi"]),
    ("usage", .obj [("output_tokens", .num (.posInt output))])])]

def responseCodec : Codec where
  fromSlice line := List.lookup line [(responseLine "3", response 3), (responseLine "7", response 7)]
  parseIsoMs _ := none

/-- The response in two records, synced in the middle of the second. -/
def splitResponse : List SyncEvent :=
  [.append (responseLine "3" ++ [newline] ++ (responseLine "7").take 20), .sync 1, .append ((responseLine "7").drop 20),
    .rolledBack, .append [newline]]

theorem unseen_empty (sid : String) : Unseen .empty sid := ⟨rfl, rfl, List.nodup_nil, fun _ => Iff.rfl⟩

theorem sync_incremental_split :
    let s := run responseCodec "s" 0 .empty splitResponse
    ∃ stored whole stat stat', syncSessionWith responseCodec "s" 0 2 s.store s.file = .ok (stored, stat) ∧
      syncSessionWith responseCodec "s" 0 2 ⟨.empty, none⟩ s.file = .ok (whole, stat') ∧ stored.turns = whole.turns ∧
      ∃ r u, (∀ r', r' ∈ stored.turns.usage.rows ∧ r'.usage.request = ⟨"m", ""⟩ ↔ r' = r) ∧
        LastLeading (usagesAt responseCodec (completeLines s.file) ⟨"m", ""⟩) u ∧
        UsageCounts.of r.usage = UsageCounts.of u := by
  have hcalled : usagesAt responseCodec (completeLines (run responseCodec "s" 0 .empty splitResponse).file) ⟨"m", ""⟩ ≠
      [] := by decide +kernel
  have hnone : TurnStore.empty.usageAt ⟨"m", ""⟩ = none := rfl
  obtain ⟨stored, whole, stat, stat', hsync, hsync', hturns, -, -, hcalls⟩ :=
    sync_incremental responseCodec "s" 0 (unseen_empty "s") splitResponse 2
  obtain ⟨r, u, hunique, -, hlast, hcounts⟩ := hcalls ⟨"m", ""⟩ hcalled
  rw [hnone, Option.toList_none, List.nil_append] at hlast
  exact ⟨stored, whole, stat, stat', hsync, hsync', hturns, r, u, hunique, hlast, hcounts⟩

end BoopStore.Transcript
