import HafleyRs.BoopHarness.KimiSums

/-!
# Incremental syncs of a Kimi transcript

A transcript grows by appends, also inside a line, and is ingested now and then from the cursor of the ingest before. In
a run whose passes are all cut `Whole` the store is at any time that of one ingest of everything up to the cursor
(`synced_in_full`). A pass that is cut inside the usage of a turn takes the totals of the turn up from nothing.
-/

namespace BoopHarness.Kimi
open BoopStore Passes Machine

section
variable (codec : Codec) (session : SessionRef)

def step (s : Growing Byte TurnStore) : Event Byte → Growing Byte TurnStore
  | .append bytes => { s with file := s.file ++ bytes }
  | .pass =>
    match ingest codec session s.store s.file s.cursor with
    | .ok (store, ingested) => { s with store, cursor := ingested.nextCursor }
    | .error _ => s
  | .rolledBack => s

/-- A pass does not begin with usage for a turn whose usage is the last that was ingested. -/
def CutsWhole (s : Growing Byte TurnStore) : Event Byte → Prop
  | .pass => Whole codec (s.seen newline) (s.batch newline)
  | _ => True

/-- What is stored is what one ingest stores, and its counts are sums. -/
structure InFull (start : TurnStore) (s : Growing Byte TurnStore) : Prop where
  stored : ∃ stat, ingest codec session start (s.file.take s.cursor) 0 = .ok (s.store, ⟨stat, s.cursor⟩)
  rows   : ∀ turn, (session.sessionId, turn) ∈ s.store.usage.keys ↔
    usagesAt (attached codec 0 (completeLines (s.file.take s.cursor))) turn ≠ []
  counts : ∀ turn r, s.store.usage.get (session.sessionId, turn) = some r →
    Rising (usagesAt (attached codec 0 (completeLines (s.file.take s.cursor))) turn) →
    TurnStore.UsageCounts.of r.usage = sums (usagesAt (attached codec 0 (completeLines (s.file.take s.cursor))) turn)

end

section
variable {codec : Codec} {session : SessionRef}

/-- An ingest is a pass over the lines behind the cursor. -/
theorem ingest_eq (store : TurnStore) {file : Bytes} {cursor : Nat} (hle : cursor ≤ file.length) :
    (ingest codec session store file cursor).map (fun r => (r.1, r.2.nextCursor)) =
      ((projector codec session).pass store (completeLines (file.drop cursor))).map
        fun store => (store, cursor + (LineLog.complete newline (file.drop cursor)).length) := by
  obtain ⟨hlines, hoffset, -⟩ := readFrom_spec file cursor
  unfold ingest
  simp only [readCompleteLines_long hle]
  by_cases hempty : (readFrom file cursor).lines = []
  · have hnone := complete_of_no_lines hempty
    rw [← hlines, hempty, hnone]
    rfl
  · have hne : completeLines (file.drop cursor) ≠ [] := by
      rw [← hlines]
      simpa using hempty
    rw [if_neg (by simpa using hempty), Projector.pass_of_ne_nil _ hne, hlines, hoffset]
    have hwalk : (completeLines (file.drop cursor)).foldlM (projector codec session).line
        ((projector codec session).begin store (completeLines (file.drop cursor))) =
        (completeLines (file.drop cursor)).foldlM (projectLine codec session) (begin session store) := rfl
    rw [hwalk]
    cases (completeLines (file.drop cursor)).foldlM (projectLine codec session) (begin session store) <;> rfl

/-- A pass that goes through. -/
theorem ingest_ok {store store' : TurnStore} {file : Bytes} {cursor : Nat} (hle : cursor ≤ file.length)
    (hpass : (projector codec session).pass store (completeLines (file.drop cursor)) = .ok store') :
    ∃ stat, ingest codec session store file cursor =
      .ok (store', ⟨stat, cursor + (LineLog.complete newline (file.drop cursor)).length⟩) := by
  have heq := @ingest_eq codec session store file cursor hle
  rw [hpass] at heq
  cases hingest : ingest codec session store file cursor with
  | error e =>
    rw [hingest] at heq
    cases heq
  | ok r =>
    rw [hingest] at heq
    obtain ⟨store'', stat, nextCursor⟩ := r
    obtain ⟨rfl, rfl⟩ := Prod.mk.inj (Except.ok.inj heq)
    exact ⟨stat, rfl⟩

/-- A step is one of a log that grows. -/
theorem step_eq {s : Growing Byte TurnStore} (hle : s.cursor ≤ s.file.length) (e : Event Byte) :
    step codec session s e = Passes.step newline (projector codec session) s e := by
  cases e with
  | append bytes => rfl
  | rolledBack => rfl
  | pass =>
    have heq := @ingest_eq codec session s.store s.file s.cursor hle
    have hbatch : s.batch newline = completeLines (s.file.drop s.cursor) := rfl
    simp only [step, Passes.step, hbatch]
    cases hpass : (projector codec session).pass s.store (completeLines (s.file.drop s.cursor)) with
    | ok store =>
      obtain ⟨stat, hingest⟩ := ingest_ok hle hpass
      rw [hingest]
    | error e =>
      rw [hpass] at heq
      cases hingest : ingest codec session s.store s.file s.cursor with
      | error e' => rfl
      | ok r =>
        rw [hingest] at heq
        cases heq

/-! ## Runs -/

theorem Whole.resumesHere {start : TurnStore} {s : Growing Byte TurnStore}
    (h : Synced newline (projector codec session) start s) {e : Event Byte} (hwhole : CutsWhole codec s e) :
    ResumesHere newline (projector codec session) start s e := by
  cases e with
  | append bytes => trivial
  | rolledBack => trivial
  | pass => exact resumes h.store hwhole

theorem synced_run {start : TurnStore} {events : List (Event Byte)} {s : Growing Byte TurnStore}
    (hrun : Run (guarded (CutsWhole codec) fun s e t => step codec session s e = t) ⟨[], 0, start⟩ events s) :
    Synced newline (projector codec session) start s := by
  refine hrun.invariant (fun s e t hs hstep => ?_) (synced_start start)
  obtain ⟨hwhole, rfl⟩ := hstep
  rw [step_eq hs.le]
  exact hs.step (Whole.resumesHere hs hwhole)

/-- The walk of a pass, also of one without a line. -/
theorem pass_eq (store : TurnStore) (lines : List Bytes) :
    (projector codec session).pass store lines =
      (lines.foldlM (projectLine codec session) (begin session store)).map fun p => p.walk.store := by
  by_cases hempty : lines = []
  · subst hempty
    rfl
  · exact Projector.pass_of_ne_nil _ hempty store

theorem inFull_of_synced {start : TurnStore} (h : Omp.Lacks start session.sessionId) {s : Growing Byte TurnStore}
    (hs : Synced newline (projector codec session) start s) : InFull codec session start s := by
  have hcomplete : LineLog.complete newline (s.file.take s.cursor) = s.file.take s.cursor := hs.boundary
  have hseen : s.seen newline = completeLines (s.file.take s.cursor) := by
    rw [completeLines, hcomplete]
    rfl
  have hstore := hs.store
  rw [hseen] at hstore
  obtain ⟨q, hq, htallied⟩ := (tallied_begin h).lines (completeLines (s.file.take s.cursor))
  have hturn : (begin session start).walk.turn = 0 := by
    show start.maxTurn session.sessionId = 0
    rw [TurnStore.maxTurn, h.turns]
    rfl
  rw [List.nil_append, hturn] at htallied
  have hsame : q.walk.store = s.store := by
    rw [pass_eq, hq] at hstore
    exact Except.ok.inj hstore
  refine ⟨?_, fun turn => ?_, fun turn r hr hrising => ?_⟩
  · obtain ⟨stat, hingest⟩ := ingest_ok (Nat.zero_le _) hstore
    rw [List.drop_zero, hcomplete, List.length_take_of_le hs.le, Nat.zero_add] at hingest
    exact ⟨stat, hingest⟩
  · rw [← hsame]
    exact htallied.rows turn
  · rw [← hsame] at hr
    exact htallied.counts turn r hr hrising

/-- A pass of a store without loose ends goes through. -/
theorem pass_ok {start : TurnStore} (h : Omp.Lacks start session.sessionId) (lines : List Bytes) :
    ∃ store, (projector codec session).pass start lines = .ok store := by
  obtain ⟨q, hq, -⟩ := (tallied_begin h).lines lines
  exact ⟨q.walk.store, by rw [pass_eq, hq]; rfl⟩

/-- **Incremental ingests of a transcript** whose passes are all cut whole: in every state the store is that of one
    ingest of the file up to the cursor, and behind a pass that of one ingest of the file. The session has a usage row
    for each ordinal with usages, with their sums. -/
theorem synced_in_full {start : TurnStore} (h : Omp.Lacks start session.sessionId) (events : List (Event Byte))
    (s : Growing Byte TurnStore)
    (hrun : Run (guarded (CutsWhole codec) fun s e t => step codec session s e = t) ⟨[], 0, start⟩ events s) :
    InFull codec session start s ∧
      (events.getLast? = some .pass → ∃ stat,
        ingest codec session start s.file 0 = .ok (s.store, ⟨stat, s.cursor⟩)) := by
  refine ⟨inFull_of_synced h (synced_run hrun), fun hlast => ?_⟩
  obtain ⟨before, rfl⟩ := List.getLast?_eq_some_iff.1 hlast
  obtain ⟨u, hbefore, hwhole, rfl⟩ := hrun.of_concat
  have hu := synced_run hbefore
  have hresumes := Whole.resumesHere hu hwhole
  obtain ⟨store, hpass⟩ := pass_ok h (LineLog.lines newline (LineLog.complete newline u.file))
  have hhere : (projector codec session).pass u.store (u.batch newline) = .ok store := by
    rw [← hresumes, ← hu.complete.2, hpass]
  obtain ⟨-, hstore, hcursor, hall⟩ := hu.pass hresumes hhere
  rw [step_eq hu.le, hstore, hcursor]
  obtain ⟨stat, hingest⟩ := ingest_ok (Nat.zero_le _) hall
  rw [List.drop_zero, Nat.zero_add] at hingest
  refine ⟨stat, ?_⟩
  rw [← hingest]
  simp only [Passes.step, hhere]

end


/-- A message, one turn. -/
def messageLine : Bytes :=
  ascii ("\x7b\"type\":\"context.append_message\",\"message\":\x7b\"role\":\"user\",\"content\":[\x7b" ++
    "\"type\":\"text\",\"text\":\"hi\"\x7d]\x7d\x7d")

def message : Json :=
  .obj [("type", .str "context.append_message"), ("message", .obj [("role", .str "user"),
    ("content", .arr [.obj [("type", .str "text"), ("text", .str "hi")]])])]

def usageBytes (output : String) : Bytes :=
  ascii ("\x7b\"type\":\"usage.record\",\"usage\":\x7b\"output\":" ++ output ++ "\x7d\x7d")

def usageValue (output : Nat) : Json :=
  .obj [("type", .str "usage.record"), ("usage", .obj [("output", .num (.posInt output))])]

def usageCodec : Codec where
  fromSlice line :=
    List.lookup line [(messageLine, message), (usageBytes "5", usageValue 5), (usageBytes "7", usageValue 7)]
  parseIsoMs _ := none
  toText _ := ""

/-- Two usages of the second turn in one pass, in the first pass none. -/
def cutBetween : List (Event Byte) :=
  [.append (messageLine ++ [newline] ++ messageLine.take 9), .pass,
    .append (messageLine.drop 9 ++ [newline] ++ usageBytes "5" ++ [newline] ++ usageBytes "7" ++ [newline]), .pass]

theorem synced_in_full_between :
    let s := cutBetween.foldl (step usageCodec Omp.plainSession) ⟨[], 0, .empty⟩
    ∃ stat, ingest usageCodec Omp.plainSession .empty s.file 0 = .ok (s.store, ⟨stat, s.cursor⟩) := by
  intro s
  have hrun : Run (guarded (CutsWhole usageCodec) fun s e t => step usageCodec Omp.plainSession s e = t)
      ⟨[], 0, .empty⟩ cutBetween s := by
    refine run_foldl_guarded ⟨trivial, ?_, trivial, ?_, trivial⟩
    · show ¬ (_ = true ∧ _ = true)
      decide +kernel
    · show ¬ (_ = true ∧ _ = true)
      decide +kernel
  exact (synced_in_full (Omp.lacks_empty "s") cutBetween s hrun).2 rfl

/-- Two usages of one turn, and a pass between them. -/
def cutInside : List (Event Byte) :=
  [.append (messageLine ++ [newline] ++ usageBytes "5" ++ [newline]), .pass,
    .append (usageBytes "7" ++ [newline]), .pass]

/-- The outputs of an ingest. -/
def outputs (r : Except String (TurnStore × Omp.Ingested)) : Except String (List Int) :=
  r.map fun stored => (stored.1.usageOf "s").map fun r => r.usage.outputTokens

theorem outputs_ok (store : TurnStore) (ingested : Omp.Ingested) :
    outputs (.ok (store, ingested)) = .ok ((store.usageOf "s").map fun r => r.usage.outputTokens) := rfl

theorem totals_restart : ¬ ∀ (codec : Codec) (session : SessionRef) (start : TurnStore),
    Omp.Lacks start session.sessionId → ∀ (events : List (Event Byte)) (s : Growing Byte TurnStore),
    Run (fun s e t => step codec session s e = t) ⟨[], 0, start⟩ events s → events.getLast? = some .pass →
    ∃ stat, ingest codec session start s.file 0 = .ok (s.store, ⟨stat, s.cursor⟩) := by
  intro h
  obtain ⟨stat, hingest⟩ := h usageCodec Omp.plainSession .empty (Omp.lacks_empty "s") cutInside _
    (run_foldl (step usageCodec Omp.plainSession) ⟨[], 0, .empty⟩ cutInside) rfl
  have hwhole : outputs (ingest usageCodec Omp.plainSession .empty
      (cutInside.foldl (step usageCodec Omp.plainSession) ⟨[], 0, .empty⟩).file 0) = .ok [12] := by decide +kernel
  have hstored : ((cutInside.foldl (step usageCodec Omp.plainSession) ⟨[], 0, .empty⟩).store.usageOf "s").map
      (fun r => r.usage.outputTokens) = [7] := by decide +kernel
  rw [hingest, outputs_ok, hstored] at hwhole
  cases hwhole

end BoopHarness.Kimi
