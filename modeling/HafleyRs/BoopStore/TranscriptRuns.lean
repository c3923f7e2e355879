import HafleyRs.Lib.Machine
import HafleyRs.Lib.Passes
import HafleyRs.BoopStore.Transcript
import HafleyRs.BoopStore.TurnStore

/-!
# A transcript that is synced while it grows

A walk carries nothing but the store and the last ordinal, and the ordinal is the greatest of the store (`Good`). So a
pass leads from what is stored where one walk over the whole would (`resumes`).
-/

namespace BoopStore.Transcript
open TurnStore Passes

variable (codec : Codec) (sid : String) (loose : String × Nat → Prop)

/-! ## One record -/

/-- The turns are numbered up to the ordinal, the usage is in order, and none of the session is loose. -/
structure Good (w : Walk) : Prop where
  numbered : Numbered w.store sid w.turn
  usage    : UsageOk loose w.store
  bound    : ∀ t, ¬ loose (sid, t)

/-- Blocks behind the walk `w₀`: turns were added, and the first of them is kept. -/
structure Opened (w₀ : Walk) (s : Walk × Option Nat) : Prop where
  numbered : Numbered s.1.store sid s.1.turn
  usage    : s.1.store.usage = w₀.store.usage
  requests : s.1.store.requests = w₀.store.requests
  keys     : ∀ k ∈ w₀.store.turns.keys, k ∈ s.1.store.turns.keys
  le       : w₀.turn ≤ s.1.turn
  first    : ∀ t ∈ s.2, w₀.turn < t ∧ t ≤ s.1.turn

variable {codec sid loose}

theorem emitToolFact_eq (store : TurnStore) (session : String) (turn ts : Nat) (name : String) (input : Option Json) :
    ∃ facts, store.emitToolFact session turn ts name input = { store with facts } := by
  unfold TurnStore.emitToolFact
  cases TurnStore.toolFact name input with
  | none => exact ⟨store.facts, rfl⟩
  | some fact => exact ⟨_, rfl⟩

/-- One more turn, whatever facts come with it. -/
theorem Opened.turn {w₀ : Walk} {s : Walk × Option Nat} (h : Opened sid w₀ s) {turns : Table TurnRow.key}
    {row : TurnRow} (hrows : turns.rows = s.1.store.turns.rows ++ [row])
    (hnumbered : Numbered { s.1.store with turns } sid (s.1.turn + 1)) (facts : Table FactRow.key) (stat : SyncStat) :
    Opened sid w₀ (⟨{ s.1.store with turns, facts }, s.1.turn + 1, stat⟩, some (s.2.getD (s.1.turn + 1))) := by
  refine ⟨hnumbered.of_turns rfl, h.usage, h.requests, fun k hk => ?_, h.le.trans (Nat.le_succ _), fun t ht => ?_⟩
  · show k ∈ turns.rows.map TurnRow.key
    rw [hrows, List.map_append]
    exact List.mem_append_left _ (h.keys k hk)
  · have hle := h.le
    cases hfirst : s.2 with
    | none =>
      rw [hfirst] at ht
      cases ht
      exact ⟨Nat.lt_succ_of_le hle, le_rfl⟩
    | some first =>
      rw [hfirst] at ht
      cases ht
      have hold := h.first first hfirst
      exact ⟨hold.1, hold.2.trans (Nat.le_succ _)⟩

theorem projectBlock_spec {w₀ : Walk} {s : Walk × Option Nat} (h : Opened sid w₀ s) (ts : Nat) (role : String)
    (cwd : Option String) (block : Json) :
    ∃ s', projectBlock sid ts role cwd s block = .ok s' ∧ Opened sid w₀ s' := by
  obtain ⟨w, firstTurn⟩ := s
  unfold projectBlock
  by_cases htext : (block.strField "type").getD "" = "text"
  · let sourceClass :=
      if role = "user" then "human"
      else if role ∈ ["meta", "assistant", "tool", "system"] then "harness"
      else "unknown"
    have hclass : sourceClass ∈ ["human", "harness", "unknown"] := by
      simp only [sourceClass]
      split_ifs <;> simp
    obtain ⟨turns, hadd, hrows, hnumbered⟩ :=
      h.numbered.add ts role ((block.strField "text").getD "") cwd sourceClass
    have hwrite : w.store.writeTurnClassified sid (w.turn + 1) ts role
      ((block.strField "text").getD "") cwd sourceClass =
        .ok ({ w.store with turns }, 1) := (if_pos hclass).trans (congrArg Except.ok hadd)
    simp only [htext, if_true]
    rw [show (w.store.writeTurnClassified sid (w.turn + 1) ts role ((block.strField "text").getD "") cwd _) = _
      from hwrite]
    exact ⟨_, rfl, h.turn hrows hnumbered _ _⟩
  · simp only [if_neg htext]
    by_cases htool : (block.strField "type").getD "" = "tool_use"
    · obtain ⟨turns, hadd, hrows, hnumbered⟩ := h.numbered.add ts "tool" ((block.strField "name").getD "") cwd "harness"
      have hwrite : addTurn w.store sid (w.turn + 1) ts "tool" ((block.strField "name").getD "") cwd =
          ({ w.store with turns }, 1) := hadd
      obtain ⟨facts, hfacts⟩ := emitToolFact_eq { w.store with turns } sid (w.turn + 1) ts
        ((block.strField "name").getD "") (block.get "input")
      simp only [if_pos htool, hwrite, hfacts]
      exact ⟨_, rfl, h.turn hrows hnumbered facts _⟩
    · simp only [if_neg htool]
      exact ⟨_, rfl, h⟩

theorem projectBlocks_spec {w₀ : Walk} (ts : Nat) (role : String) (cwd : Option String) (blocks : List Json)
    {s : Walk × Option Nat} (h : Opened sid w₀ s) :
    ∃ s', blocks.foldlM (projectBlock sid ts role cwd) s = .ok s' ∧ Opened sid w₀ s' := by
  induction blocks generalizing s with
  | nil => exact ⟨s, rfl, h⟩
  | cons block blocks ih =>
    obtain ⟨s₁, hblock, hopened⟩ := projectBlock_spec h ts role cwd block
    obtain ⟨s', hrest, hend⟩ := ih hopened
    refine ⟨s', ?_, hend⟩
    rw [List.foldlM_cons, hblock]
    exact hrest

/-- The usage of a call behind a record. -/
def absorbs (usage : Option UsageRow) (old : Option UsageRow) (q : Request) : Option UsageRow :=
  match usage with
  | some new => if new.request = q then absorb old new else old
  | none => old

theorem Opened.good {w₀ : Walk} (hgood : Good sid loose w₀) {s : Walk × Option Nat} (h : Opened sid w₀ s) :
    Good sid loose s.1 ∧ ∀ q, usageAt s.1.store q = usageAt w₀.store q := by
  refine ⟨⟨h.numbered, hgood.usage.of_turns h.usage h.requests h.keys, hgood.bound⟩, fun q => ?_⟩
  rw [usageAt, usageAt, rowAt, rowAt, h.usage]

theorem projectUsage_spec {w₀ : Walk} (hgood : Good sid loose w₀) {s : Walk × Option Nat} (h : Opened sid w₀ s)
    (ts : Nat)
    (role : String) (cwd : Option String) (usage : UsageRow) :
    ∃ w', projectUsage sid ts role cwd usage s = .ok w' ∧ Good sid loose w' ∧
      ∀ q, usageAt w'.store q = absorbs (some usage) (usageAt w₀.store q) q := by
  obtain ⟨hhere, hsame⟩ := h.good hgood
  obtain ⟨w, firstTurn⟩ := s
  -- no ordinal behind the walk's own has a usage row
  have hfree : ∀ t, w₀.turn < t → (sid, t) ∉ w.store.usage.keys := by
    intro t ht hmem
    rw [h.usage] at hmem
    obtain ⟨r, hr, hkey⟩ := List.mem_map.1 hmem
    have hturn := (hgood.usage.attached r hr).resolve_right (hkey ▸ hgood.bound t)
    rw [hkey, hgood.numbered.mem_keys] at hturn
    omega
  unfold projectUsage
  rcases internRequest_eq w.store usage.messageId usage.requestId with
    ⟨hold, hintern⟩ | ⟨hnew, requests, hintern, hrows⟩
  · obtain ⟨rows, changed, hadd, hok, -, husage⟩ := addUsage_old hhere.usage sid 0 hold
    simp only [hintern, Bool.not_false, if_true, hadd]
    refine ⟨_, rfl, ⟨h.numbered.of_turns rfl, hok, hgood.bound⟩, fun q => ?_⟩
    rw [husage, hsame]
    rfl
  · cases hfirst : firstTurn with
    | some first =>
      have hrange := h.first first hfirst
      have hmem : (sid, first) ∈ w.store.turns.keys := h.numbered.mem_keys.2 ⟨by omega, hrange.2⟩
      obtain ⟨rows, hadd, hok, husage⟩ := addUsage_new hhere.usage w.store.facts hnew hrows (fun _ hk => hk)
        hmem (hfree first hrange.1)
      simp only [hintern, Bool.not_true, Bool.false_eq_true, if_false, hadd]
      refine ⟨_, rfl, ⟨h.numbered.of_turns rfl, hok, hgood.bound⟩, fun q => ?_⟩
      rw [husage, hsame]
      rfl
    | none =>
      have hinterned : Numbered { w.store with requests } sid w.turn := h.numbered.of_turns rfl
      obtain ⟨turns, hturn, hturns, hnumbered⟩ := hinterned.add ts role "" cwd
        (if role ∈ ["assistant", "tool", "system", "meta"] then "harness" else "unknown")
      have hwrite : addTurn { w.store with requests } sid (w.turn + 1) ts role "" cwd =
          ({ w.store with requests, turns }, 1) := hturn
      have hkeys : ∀ k ∈ w.store.turns.keys, k ∈ turns.keys := by
        intro k hk
        show k ∈ turns.rows.map TurnRow.key
        rw [hturns, List.map_append]
        exact List.mem_append_left _ hk
      have hmem : (sid, w.turn + 1) ∈ turns.keys := by
        show _ ∈ turns.rows.map TurnRow.key
        rw [hturns, List.map_append]
        exact List.mem_append_right _ (List.mem_singleton_self _)
      obtain ⟨rows, hadd, hok, husage⟩ := addUsage_new hhere.usage w.store.facts hnew hrows hkeys hmem
        (hfree (w.turn + 1) (Nat.lt_succ_of_le h.le))
      simp only [hintern, Bool.not_true, Bool.false_eq_true, if_false, hwrite, Walk.record, hadd]
      refine ⟨_, rfl, ⟨hnumbered.of_turns rfl, hok, hgood.bound⟩, fun q => ?_⟩
      rw [husage, hsame]
      rfl

variable (codec) in
/-- The usage of a record. -/
def usageIn (object : Json) : Option UsageRow :=
  let recordType := (object.strField "type").getD ""
  if recordType = "user" ∨ recordType = "assistant" then
    (object.get "message").bind fun message => parseUsage object message (timestamp codec object)
  else none

variable (codec) in
theorem projectValue_spec {w : Walk} (h : Good sid loose w) (object : Json) :
    ∃ w', projectValue codec sid w object = .ok w' ∧ Good sid loose w' ∧
      ∀ q, usageAt w'.store q = absorbs (usageIn codec object) (usageAt w.store q) q := by
  have hstart : Opened sid w (w, none) :=
    ⟨h.numbered, rfl, rfl, fun _ hk => hk, le_rfl, fun _ ht => nomatch ht⟩
  unfold projectValue usageIn
  by_cases hlink : (object.strField "type").getD "" = "pr-link"
  · simp only [hlink, if_true]
    have hnone : ¬ ("pr-link" = "user" ∨ "pr-link" = "assistant") := by decide
    rw [if_neg hnone]
    by_cases hurl : (prUrl object).isEmpty
    · exact ⟨w, if_pos hurl, h, fun _ => rfl⟩
    · obtain ⟨turns, hadd, hrows, hnumbered⟩ :=
        h.numbered.add (timestamp codec object) "system" "" (object.strField "cwd") "harness"
      have hwrite : addTurn w.store sid (w.turn + 1) (timestamp codec object) "system" "" (object.strField "cwd") =
          ({ w.store with turns }, 1) := hadd
      obtain ⟨hgood, husage⟩ := (hstart.turn hrows hnumbered w.store.facts _).good h
      rw [if_neg hurl, hwrite]
      exact ⟨_, rfl, hgood, husage⟩
  · simp only [if_neg hlink]
    by_cases hkind : (object.strField "type").getD "" = "user" ∨ (object.strField "type").getD "" = "assistant"
    · rw [if_neg (by tauto), if_pos hkind]
      cases hmessage : object.get "message" with
      | none => exact ⟨w, rfl, h, fun _ => rfl⟩
      | some message =>
        simp only [Option.bind_some]
        obtain ⟨s, hblocks, hopened⟩ := projectBlocks_spec (timestamp codec object)
          (classifyUserRole ((object.strField "type").getD "") object (blocksOf message)) (object.strField "cwd")
          (blocksOf message) hstart
        rw [hblocks]
        cases husage : parseUsage object message (timestamp codec object) with
        | none =>
          obtain ⟨hgood, hsame⟩ := hopened.good h
          exact ⟨s.1, rfl, hgood, hsame⟩
        | some usage =>
          obtain ⟨w', hw', hgood, hafter⟩ := projectUsage_spec h hopened (timestamp codec object)
            (classifyUserRole ((object.strField "type").getD "") object (blocksOf message))
              (object.strField "cwd") usage
          exact ⟨w', hw', hgood, hafter⟩
    · rw [if_pos (by tauto), if_neg hkind]
      exact ⟨w, rfl, h, fun _ => rfl⟩

/-- The records of lines. -/
def recordsOf (codec : Codec) (lines : List Bytes) : List Json :=
  (lines.filterMap codec.fromSlice).filter fun value => value.asObject.isSome

/-- The usages of lines. -/
def usagesOf (codec : Codec) (lines : List Bytes) : List UsageRow := (recordsOf codec lines).filterMap (usageIn codec)

/-- Those of one call. -/
def usagesAt (codec : Codec) (lines : List Bytes) (q : Request) : List UsageRow :=
  (usagesOf codec lines).filter fun usage => usage.request = q

theorem usagesAt_cons (line : Bytes) (lines : List Bytes) (q : Request) :
    usagesAt codec (line :: lines) q = usagesAt codec [line] q ++ usagesAt codec lines q := by
  simp only [usagesAt, usagesOf, recordsOf]
  rw [show line :: lines = [line] ++ lines from rfl, List.filterMap_append, List.filter_append, List.filterMap_append,
    List.filter_append]

variable (codec) in
theorem projectLine_spec {w : Walk} (h : Good sid loose w) (line : Bytes) :
    ∃ w', projectLine codec sid w line = .ok w' ∧ Good sid loose w' ∧
      ∀ q, usageAt w'.store q = (usagesAt codec [line] q).foldl absorb (usageAt w.store q) := by
  unfold projectLine usagesAt usagesOf recordsOf
  cases hparse : codec.fromSlice line with
  | none => exact ⟨w, rfl, h, fun _ => by simp [hparse]⟩
  | some value =>
    by_cases hobject : value.asObject.isNone
    · refine ⟨w, if_pos hobject, h, fun _ => ?_⟩
      simp [hparse, Option.isNone_iff_eq_none.1 hobject]
    · obtain ⟨w', hw', hgood, husage⟩ := projectValue_spec codec h value
      refine ⟨w', (if_neg hobject).trans hw', hgood, fun q => ?_⟩
      have hsome : value.asObject.isSome = true := by simpa [Option.isSome_iff_ne_none] using hobject
      rw [husage]
      cases hin : usageIn codec value with
      | none => simp [hparse, hsome, hin, absorbs]
      | some usage =>
        by_cases hq : usage.request = q
        · simp [hparse, hsome, hin, absorbs, hq]
        · simp [hparse, hsome, hin, absorbs, hq]

variable (codec) in
/-- **A walk over lines** does not fail; the ordinals stay a row, and every call has absorbed its usages. -/
theorem projectLines_spec (lines : List Bytes) {w : Walk} (h : Good sid loose w) :
    ∃ w', lines.foldlM (projectLine codec sid) w = .ok w' ∧ Good sid loose w' ∧
      ∀ q, usageAt w'.store q = (usagesAt codec lines q).foldl absorb (usageAt w.store q) := by
  induction lines generalizing w with
  | nil => exact ⟨w, rfl, h, fun _ => rfl⟩
  | cons line lines ih =>
    obtain ⟨w₁, hline, hgood, hhere⟩ := projectLine_spec codec h line
    obtain ⟨w', hrest, hgood', hafter⟩ := ih hgood
    refine ⟨w', ?_, hgood', fun q => ?_⟩
    · rw [List.foldlM_cons, hline]
      exact hrest
    · rw [hafter, hhere, usagesAt_cons line lines, List.foldl_append]

/-! ## A walk from another count -/

/-- Two walks that differ in what they have counted. -/
def Same (w w' : Walk) : Prop := w.store = w'.store ∧ w.turn = w'.turn

def SameOpened (s s' : Walk × Option Nat) : Prop := Same s.1 s'.1 ∧ s.2 = s'.2

theorem projectBlock_same (ts : Nat) (role : String) (cwd : Option String) (block : Json) {s s' : Walk × Option Nat}
    (h : SameOpened s s') :
    Alike SameOpened (projectBlock sid ts role cwd s block)
      (projectBlock sid ts role cwd s' block) := by
  obtain ⟨⟨store, turn, stat⟩, first⟩ := s
  obtain ⟨⟨store', turn', stat'⟩, first'⟩ := s'
  obtain ⟨⟨hstore, hturn⟩, hfirst⟩ := h
  obtain rfl : store = store' := hstore
  obtain rfl : turn = turn' := hturn
  obtain rfl : first = first' := hfirst
  unfold projectBlock
  by_cases htext : (block.strField "type").getD "" = "text"
  · simp only [htext, if_true]
    cases store.writeTurnClassified sid (turn + 1) ts role ((block.strField "text").getD "") cwd _ with
    | error e => exact rfl
    | ok written => exact ⟨⟨rfl, rfl⟩, rfl⟩
  · simp only [if_neg htext]
    by_cases htool : (block.strField "type").getD "" = "tool_use"
    · simp only [if_pos htool]
      exact ⟨⟨rfl, rfl⟩, rfl⟩
    · simp only [if_neg htool]
      exact ⟨⟨rfl, rfl⟩, rfl⟩

theorem projectUsage_same (ts : Nat) (role : String) (cwd : Option String) (usage : UsageRow)
    {s s' : Walk × Option Nat} (h : SameOpened s s') :
    Alike Same (projectUsage sid ts role cwd usage s) (projectUsage sid ts role cwd usage s') := by
  obtain ⟨⟨store, turn, stat⟩, first⟩ := s
  obtain ⟨⟨store', turn', stat'⟩, first'⟩ := s'
  obtain ⟨⟨hstore, hturn⟩, hfirst⟩ := h
  obtain rfl : store = store' := hstore
  obtain rfl : turn = turn' := hturn
  obtain rfl : first = first' := hfirst
  unfold projectUsage
  dsimp only
  generalize store.internRequest usage.messageId usage.requestId = interned
  obtain ⟨store₁, isNew⟩ := interned
  cases isNew with
  | false =>
    simp only [Bool.not_false, if_true]
    cases store₁.addUsage sid 0 false usage with
    | error e => exact rfl
    | ok added => exact ⟨rfl, rfl⟩
  | true =>
    cases first with
    | some first =>
      simp only [Bool.not_true, Bool.false_eq_true, if_false]
      cases store₁.addUsage sid first true usage with
      | error e => exact rfl
      | ok added => exact ⟨rfl, rfl⟩
    | none =>
      simp only [Bool.not_true, Bool.false_eq_true, if_false, Walk.record]
      cases TurnStore.addUsage _ sid (turn + 1) true usage with
      | error e => exact rfl
      | ok added => exact ⟨rfl, rfl⟩

theorem projectValue_same (object : Json) {w w' : Walk} (h : Same w w') :
    Alike Same (projectValue codec sid w object) (projectValue codec sid w' object) := by
  unfold projectValue
  by_cases hlink : (object.strField "type").getD "" = "pr-link"
  · simp only [hlink, if_true]
    by_cases hurl : (prUrl object).isEmpty
    · rw [if_pos hurl, if_pos hurl]
      exact h
    · rw [if_neg hurl, if_neg hurl, h.1, h.2]
      exact ⟨rfl, rfl⟩
  · simp only [if_neg hlink]
    by_cases hkind : (object.strField "type").getD "" ≠ "user" ∧ (object.strField "type").getD "" ≠ "assistant"
    · rw [if_pos hkind, if_pos hkind]
      exact h
    · rw [if_neg hkind, if_neg hkind]
      cases object.get "message" with
      | none => exact h
      | some message =>
        refine @Alike.bind _ _ _ _ _ SameOpened _ _ _ _ _ ?_ fun s s' hs => ?_
        · exact @Alike.foldlM _ _ _ _ (fun _ => SameOpened) _ _
            (fun block _ s s' hs => projectBlock_same _ _ _ block hs) _ _ _ ⟨h, rfl⟩
        · cases parseUsage object message (timestamp codec object) with
          | none => exact hs.1
          | some usage => exact projectUsage_same _ _ _ usage hs

theorem projectLine_same (line : Bytes) {w w' : Walk} (h : Same w w') :
    Alike Same (projectLine codec sid w line) (projectLine codec sid w' line) := by
  unfold projectLine
  cases codec.fromSlice line with
  | none => exact h
  | some value =>
    by_cases hobject : value.asObject.isNone
    · simp only [if_pos hobject]
      exact h
    · simp only [if_neg hobject]
      exact projectValue_same value h

/-! ## One pass -/

def projector (codec : Codec) (sid : String) : Projector String TurnStore Walk Bytes where
  begin store _ := ⟨store, store.maxTurn sid, {}⟩
  line := projectLine codec sid
  store := Walk.store

/-- A store in which the walk of a session begins where it ended. -/
def Ready (sid : String) (loose : String × Nat → Prop) (store : TurnStore) : Prop :=
  Good sid loose ⟨store, store.maxTurn sid, {}⟩

variable (codec) in
/-- **A pass over lines** does not fail. -/
theorem pass_spec {store : TurnStore} (h : Ready sid loose store) (lines : List Bytes) :
    ∃ w, lines.foldlM (projectLine codec sid) ⟨store, store.maxTurn sid, {}⟩ = .ok w ∧
      (projector codec sid).pass store lines = .ok w.store ∧ Good sid loose w ∧ Ready sid loose w.store ∧
      ∀ q, usageAt w.store q = (usagesAt codec lines q).foldl absorb (usageAt store q) := by
  obtain ⟨w, hw, hgood, husage⟩ := projectLines_spec codec lines h
  refine ⟨w, hw, ?_, hgood, ?_, husage⟩
  · by_cases hempty : lines = []
    · subst hempty
      cases hw
      rfl
    · rw [Projector.pass_of_ne_nil _ hempty]
      exact congrArg (Except.map Walk.store) hw
  · refine ⟨?_, hgood.usage, hgood.bound⟩
    rw [hgood.numbered.maxTurn]
    exact hgood.numbered

/-- **A pass resumes**: from the store it leads where the walk behind all the lines before it does. -/
theorem resumes {start store : TurnStore} (h : Ready sid loose start) {seen : List Bytes}
    (hseen : (projector codec sid).pass start seen = .ok store) (batch : List Bytes) :
    (projector codec sid).Resumes start seen batch store := by
  by_cases hempty : batch = []
  · subst hempty
    exact Projector.resumes_nil _ hseen
  obtain ⟨w, hw, hpass, hgood, -, -⟩ := pass_spec codec h seen
  obtain rfl : w.store = store := Except.ok.inj (hpass.symm.trans hseen)
  rw [Projector.Resumes, Projector.pass_append _ hempty, Projector.pass_of_ne_nil _ hempty]
  have hwalk : seen.foldlM (projector codec sid).line ((projector codec sid).begin start (seen ++ batch)) = .ok w := hw
  rw [hwalk]
  have hsame : Same w ((projector codec sid).begin w.store batch) := ⟨rfl, hgood.numbered.maxTurn.symm⟩
  exact (@Alike.foldlM _ _ _ _ (fun _ => Same) _ _ (fun line _ w w' h => projectLine_same line h) _ _ _ hsame).map_eq
    fun w w' h => h.1

end BoopStore.Transcript
