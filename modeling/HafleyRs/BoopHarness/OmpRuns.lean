import HafleyRs.BoopHarness.Omp
import HafleyRs.BoopStore.TurnStore

/-!
# The usage of an OMP transcript, over its passes

A usage row is keyed by its session and the ordinal at which it was written, and `dict_request` by a message id
made of the same two and the response id. An assistant message that writes no turn leaves the ordinal where the
usage before it stands. `Apart` says that this does not happen: between two usages there is a turn.

`Advanced` is what a record does to the turns; `Placed` ties the running ordinal to the rows of the session.
-/

namespace BoopHarness.Omp
open BoopStore

/-! ## What a record holds -/

def messageOf (value : Json) : Option Json :=
  if value.strField "type" = some "message" then value.get "message" else none

/-- The tool calls of an assistant message. -/
def toolCalls (message : Json) : List Json :=
  (contentItems message).filter fun item => item.strField "type" = some "toolCall"

/-- The text parts of an assistant message, joined. -/
def prose (message : Json) : String := "\n".intercalate ((contentItems message).filterMap textPart)

def textTurns (text : String) : Nat := if text.isEmpty then 0 else 1

/-- How many turns a record writes. -/
def turnsWritten (value : Json) : Nat :=
  match messageOf value with
  | none => 0
  | some message =>
    if roleOf message = "user" then textTurns (messageText message)
    else if roleOf message = "assistant" then (toolCalls message).length + textTurns (prose message)
    else if roleOf message = "toolResult" then 1
    else 0

/-- The usage of an assistant message. -/
def usageIn (value : Json) : Option Json :=
  (messageOf value).bind fun message => if roleOf message = "assistant" then message.get "usage" else none

structure Counts where
  input      : Int
  output     : Int
  cacheWrite : Int
  cacheRead  : Int
deriving DecidableEq, Repr

def Counts.read (usage : Json) : Counts :=
  let count := fun key => ((usage.get key).bind Json.asI64).getD 0
  ⟨count "input", count "output", count "cacheWrite", count "cacheRead"⟩

def Counts.stored (r : UsageRecord) : Counts :=
  ⟨r.usage.inputTokens, r.usage.outputTokens, r.usage.cacheCreate5mTokens, r.usage.cacheReadTokens⟩

/-- The token counts of the usage rows of a session. -/
def storedCounts (store : TurnStore) (sid : String) : List Counts := (store.usageOf sid).map Counts.stored

/-- The token counts of the responses, one for each assistant message that has any. -/
def responses (values : List Json) : List Counts := values.filterMap fun v => (usageIn v).map Counts.read

/-- Between two usages, up to and with the later, a turn is written. -/
def Apart (values : List Json) : Prop :=
  ∀ before first between later after, values = before ++ first :: (between ++ later :: after) →
    (usageIn first).isSome → (usageIn later).isSome → ∃ v ∈ between ++ [later], 0 < turnsWritten v

/-- `Apart` along the list; `taken`: the running ordinal has a usage. -/
def Clear : Bool → List Json → Prop
  | _, [] => True
  | taken, v :: vs =>
    let taken := taken && turnsWritten v = 0
    if (usageIn v).isSome then taken = false ∧ Clear true vs else Clear taken vs

theorem clear_cons_usage {taken : Bool} {v : Json} {vs : List Json} (hv : (usageIn v).isSome) :
    Clear taken (v :: vs) ↔ (taken && turnsWritten v = 0) = false ∧ Clear true vs := by
  simp only [Clear, hv, if_true]

theorem clear_cons_other {taken : Bool} {v : Json} {vs : List Json} (hv : ¬ (usageIn v).isSome) :
    Clear taken (v :: vs) ↔ Clear (taken && turnsWritten v = 0) vs := by
  simp only [Clear, hv, if_false, Bool.false_eq_true]

theorem Clear.of_append {vs rest : List Json} {taken : Bool} (h : Clear taken (vs ++ rest)) : Clear taken vs := by
  induction vs generalizing taken with
  | nil => trivial
  | cons v vs ih =>
    rw [List.cons_append] at h
    by_cases hv : (usageIn v).isSome
    · rw [clear_cons_usage hv] at h ⊢
      exact ⟨h.1, ih h.2⟩
    · rw [clear_cons_other hv] at h ⊢
      exact ih h

theorem Apart.tail {v : Json} {vs : List Json} (h : Apart (v :: vs)) : Apart vs :=
  fun before first between later after hvs => h (v :: before) first between later after (by rw [hvs]; rfl)

/-- Nothing is written up to a usage. -/
def Reaches (vs : List Json) : Prop :=
  ∃ between later after, vs = between ++ later :: after ∧ (usageIn later).isSome ∧
    ∀ v ∈ between ++ [later], turnsWritten v = 0

theorem reaches_cons {v : Json} {vs : List Json} :
    Reaches (v :: vs) ↔ turnsWritten v = 0 ∧ ((usageIn v).isSome ∨ Reaches vs) := by
  constructor
  · rintro ⟨between, later, after, hvs, hlater, hnone⟩
    cases between with
    | nil =>
      obtain ⟨rfl, rfl⟩ := List.cons.inj hvs
      exact ⟨hnone _ (by simp), .inl hlater⟩
    | cons w between =>
      obtain ⟨rfl, rfl⟩ := List.cons.inj hvs
      refine ⟨hnone _ (by simp), .inr ⟨between, later, after, rfl, hlater, fun u hu => hnone u ?_⟩⟩
      exact List.mem_cons_of_mem _ hu
  · rintro ⟨hv, hhere | ⟨between, later, after, rfl, hlater, hnone⟩⟩
    · exact ⟨[], v, vs, rfl, hhere, by simpa using hv⟩
    · refine ⟨v :: between, later, after, rfl, hlater, ?_⟩
      intro u hu
      rcases List.mem_cons.1 hu with rfl | hu
      · exact hv
      · exact hnone u hu

theorem apart_cons {v : Json} {vs : List Json} :
    Apart (v :: vs) ↔ Apart vs ∧ ((usageIn v).isSome → ¬ Reaches vs) := by
  constructor
  · intro h
    refine ⟨h.tail, ?_⟩
    rintro hv ⟨between, later, after, hvs, hlater, hnone⟩
    obtain ⟨u, hu, hpos⟩ := h [] v between later after (by rw [hvs]; rfl) hv hlater
    exact hpos.ne' (hnone u hu)
  · rintro ⟨htail, hhead⟩ before first between later after hvs hfirst hlater
    cases before with
    | cons w before => exact htail before first between later after (List.cons.inj hvs).2 hfirst hlater
    | nil =>
      obtain ⟨rfl, hrest⟩ := List.cons.inj hvs
      by_contra hnone
      refine hhead hfirst ⟨between, later, after, hrest, hlater, fun u hu => ?_⟩
      by_contra hpos
      exact hnone ⟨u, hu, Nat.pos_of_ne_zero hpos⟩

theorem clear_iff {taken : Bool} {vs : List Json} : Clear taken vs ↔ Apart vs ∧ (taken = true → ¬ Reaches vs) := by
  induction vs generalizing taken with
  | nil =>
    have hapart : Apart [] := fun before _ _ _ _ h => by cases before <;> cases h
    have hreach : ¬ Reaches [] := by
      rintro ⟨between, later, after, h, -⟩
      cases between <;> cases h
    simp [Clear, hapart, hreach]
  | cons v vs ih =>
    rw [apart_cons, reaches_cons]
    by_cases hv : (usageIn v).isSome
    · rw [clear_cons_usage hv, ih]
      cases taken <;> simp [hv]
      tauto
    · rw [clear_cons_other hv, ih]
      by_cases hnone : turnsWritten v = 0 <;> cases taken <;> simp [hv, hnone]

theorem apart_iff_clear {vs : List Json} : Apart vs ↔ Clear false vs := by
  rw [clear_iff]
  simp

/-! ## Turns -/

/-- The ordinal runs `k` on, and no usage is touched. -/
structure Advanced (sid : String) (w w' : Walk) (k : Nat) : Prop where
  turn     : w'.turn = w.turn + k
  usage    : w'.store.usage = w.store.usage
  requests : w'.store.requests = w.store.requests
  maxTurn  : w.store.maxTurn sid = w.turn → w'.store.maxTurn sid = w'.turn

theorem Advanced.refl (sid : String) (w : Walk) : Advanced sid w w 0 := ⟨rfl, rfl, rfl, id⟩

theorem Advanced.trans {sid : String} {w w' w'' : Walk} {k m : Nat} (h : Advanced sid w w' k)
    (h' : Advanced sid w' w'' m) : Advanced sid w w'' (k + m) :=
  ⟨by rw [h'.turn, h.turn, Nat.add_assoc], h'.usage.trans h.usage, h'.requests.trans h.requests,
    fun hmax => h'.maxTurn (h.maxTurn hmax)⟩

theorem le_foldl_max (ns : List Nat) (m : Nat) : m ≤ ns.foldl max m ∧ ∀ n ∈ ns, n ≤ ns.foldl max m := by
  induction ns generalizing m with
  | nil => simp
  | cons n ns ih =>
    obtain ⟨hle, hall⟩ := ih (max m n)
    rw [List.foldl_cons]
    refine ⟨(le_max_left m n).trans hle, fun k hk => ?_⟩
    rcases List.mem_cons.1 hk with rfl | hk
    · exact (le_max_right m k).trans hle
    · exact hall k hk

theorem writeTurn_spec (sid : String) (ts : Nat) (role said sourceClass : String)
    (hclass : sourceClass ∈ ["human", "harness", "unknown"]) (w : Walk) :
    ∃ w', writeTurn sid ts role said sourceClass w = .ok w' ∧ Advanced sid w w' 1 := by
  have hwrite : w.store.writeTurnClassified sid (w.turn + 1) ts role said none sourceClass =
      .ok (w.store.addTurnWithSource sid (w.turn + 1) ts role said none sourceClass) := if_pos hclass
  simp only [writeTurn, hwrite]
  refine ⟨_, rfl, rfl, rfl, rfl, fun hmax => ?_⟩
  have hnew : (sid, w.turn + 1) ∉ w.store.turns.keys := by
    rw [← TurnStore.mem_turnsOf]
    intro hmem
    have hle := (le_foldl_max (w.store.turnsOf sid) 0).2 _ hmem
    rw [← TurnStore.maxTurn, hmax] at hle
    omega
  simp only [TurnStore.addTurnWithSource]
  rcases Table.insertOrIgnore_spec w.store.turns ⟨sid, w.turn + 1, ts, role, said, none, sourceClass⟩ with
    ⟨-, hrows, -⟩ | ⟨hmem, -⟩
  · rw [TurnStore.maxTurn, TurnStore.turnsOf, hrows, List.filter_append, List.map_append, List.foldl_append,
      ← TurnStore.turnsOf, ← TurnStore.maxTurn, hmax]
    simp
  · exact absurd hmem hnew

theorem emitToolFact_advanced (sid : String) (ts : Nat) (name : String) (input : Option Json) (w : Walk) :
    Advanced sid w { w with store := w.store.emitToolFact sid w.turn ts name input } 0 := by
  unfold TurnStore.emitToolFact
  cases TurnStore.toolFact name input with
  | none => exact .refl sid w
  | some fact => exact ⟨rfl, rfl, rfl, id⟩

def isToolCall (item : Json) : Bool := item.strField "type" = some "toolCall"

theorem contentItem_spec (codec : Codec) (sid : String) (ts : Nat) (s : List String × Walk) (item : Json) :
    ∃ w', contentItem codec sid ts s item = .ok (s.1 ++ (textPart item).toList, w') ∧
      Advanced sid s.2 w' (if isToolCall item then 1 else 0) := by
  obtain ⟨prose, w⟩ := s
  unfold contentItem isToolCall textPart
  by_cases htext : item.strField "type" = some "text"
  · have hcall : item.strField "type" ≠ some "toolCall" := by
      rw [htext]
      decide
    simp only [htext, if_true]
    refine ⟨w, ?_, by simpa using .refl sid w⟩
    cases item.strField "text" <;> simp [pure, Except.pure]
  · simp only [htext, if_false, Option.toList_none, List.append_nil]
    by_cases hcall : item.strField "type" = some "toolCall"
    · obtain ⟨w', hw', hadv⟩ := writeTurn_spec sid ts "tool"
        (toolCallBody codec ((item.strField "name").getD "tool") (item.get "arguments")) "harness"
        (by simp) w
      have hfact := emitToolFact_advanced sid ts ((item.strField "name").getD "tool") (item.get "arguments") w'
      simp only [hcall, if_true, hw']
      exact ⟨_, rfl, by simpa using hadv.trans hfact⟩
    · simp only [hcall, if_false]
      exact ⟨w, rfl, by simpa using .refl sid w⟩

/-- The loop over the content: the prose is the text parts, each tool call a turn. -/
theorem contentItems_spec (codec : Codec) (sid : String) (ts : Nat) (items : List Json) (s : List String × Walk) :
    ∃ w', items.foldlM (contentItem codec sid ts) s = .ok (s.1 ++ items.filterMap textPart, w') ∧
      Advanced sid s.2 w' (items.filter isToolCall).length := by
  induction items generalizing s with
  | nil => exact ⟨s.2, by simp [pure, Except.pure], .refl sid s.2⟩
  | cons item items ih =>
    obtain ⟨w', hitem, hadv⟩ := contentItem_spec codec sid ts s item
    obtain ⟨w'', hrest, hadv'⟩ := ih (s.1 ++ (textPart item).toList, w')
    have hprose : s.1 ++ (item :: items).filterMap textPart =
        s.1 ++ (textPart item).toList ++ items.filterMap textPart := by
      cases htext : textPart item <;> simp [htext]
    have hcalls : ((item :: items).filter isToolCall).length =
        (if isToolCall item then 1 else 0) + (items.filter isToolCall).length := by
      by_cases hcall : isToolCall item
      · simp [hcall, Nat.add_comm]
      · simp [hcall]
    refine ⟨w'', ?_, ?_⟩
    · rw [List.foldlM_cons, hitem, hprose]
      exact hrest
    · rw [hcalls]
      exact hadv.trans hadv'

/-- A text is a turn unless it is empty. -/
theorem textTurn_spec (sid : String) (ts : Nat) (role said sourceClass : String)
    (hclass : sourceClass ∈ ["human", "harness", "unknown"]) (w : Walk) :
    ∃ w', (if said.isEmpty then pure w else writeTurn sid ts role said sourceClass w) = .ok w' ∧
      Advanced sid w w' (textTurns said) := by
  unfold textTurns
  by_cases hempty : said.isEmpty
  · rw [if_pos hempty, if_pos hempty]
    exact ⟨w, rfl, .refl sid w⟩
  · rw [if_neg hempty, if_neg hempty]
    exact writeTurn_spec sid ts role said sourceClass hclass w

theorem assistantTurns_spec (codec : Codec) (sid : String) (ts : Nat) (message : Json) (w : Walk) :
    ∃ w', assistantTurns codec sid ts message w = .ok w' ∧
      Advanced sid w w' ((toolCalls message).length + textTurns (prose message)) := by
  obtain ⟨w', hitems, hadv⟩ := contentItems_spec codec sid ts (contentItems message) ([], w)
  obtain ⟨w'', htext, hadv'⟩ := textTurn_spec sid ts "assistant" (prose message) "harness" (by simp) w'
  refine ⟨w'', ?_, hadv.trans hadv'⟩
  rw [assistantTurns, hitems]
  exact htext

theorem resetBoundary_advanced (sid : String) (ts : Nat) (w : Walk) : Advanced sid w (resetBoundary sid ts w) 0 := by
  unfold resetBoundary
  simp only
  split
  · exact ⟨rfl, rfl, rfl, id⟩
  · exact .refl sid w

/-- **A record**: its turns, and then its usage at the ordinal they end at. -/
theorem projectValue_spec (codec : Codec) (session : SessionRef) (value : Json) (w : Walk) :
    ∃ w', Advanced session.sessionId w w' (turnsWritten value) ∧
      ((usageIn value = none ∧ projectValue codec session value w = .ok w') ∨
       ∃ message, usageIn value = message.get "usage" ∧
        projectValue codec session value w = assistantUsage session (timestamp codec value) value message w') := by
  unfold projectValue turnsWritten usageIn messageOf
  simp only
  by_cases hreset : value.strField "type" = some "reset_boundary"
  · rw [hreset]
    exact ⟨_, resetBoundary_advanced session.sessionId _ w, .inl ⟨rfl, rfl⟩⟩
  · rw [if_neg hreset]
    by_cases hmessage : value.strField "type" = some "message"
    · rw [hmessage]
      simp only [ne_eq, not_true_eq_false, if_false, if_true]
      cases hget : value.get "message" with
      | none => exact ⟨w, .refl _ w, .inl ⟨rfl, rfl⟩⟩
      | some message =>
        simp only [Option.bind_some]
        generalize roleOf message = role
        by_cases huser : role = "user"
        · subst huser
          obtain ⟨w', hw', hadv⟩ := textTurn_spec session.sessionId (timestamp codec value) "user"
            (messageText message) "human" (by simp) w
          exact ⟨w', hadv, .inl ⟨rfl, hw'⟩⟩
        by_cases hassistant : role = "assistant"
        · subst hassistant
          obtain ⟨w', hw', hadv⟩ := assistantTurns_spec codec session.sessionId (timestamp codec value) message w
          refine ⟨w', hadv, .inr ⟨message, rfl, ?_⟩⟩
          simp only [hw']
          rfl
        rw [if_neg huser, if_neg huser, if_neg hassistant, if_neg hassistant, if_neg hassistant]
        by_cases htool : role = "toolResult"
        · rw [if_pos htool, if_pos htool]
          obtain ⟨w', hw', hadv⟩ := writeTurn_spec session.sessionId (timestamp codec value) "tool"
            (toolResultBody (message.get "content")) "harness" (by simp) w
          exact ⟨w', hadv, .inl ⟨rfl, hw'⟩⟩
        · rw [if_neg htool, if_neg htool]
          exact ⟨w, .refl _ w, .inl ⟨rfl, rfl⟩⟩
    · rw [if_pos hmessage, if_neg hmessage]
      exact ⟨w, .refl _ w, .inl ⟨rfl, rfl⟩⟩

/-! ## Usage -/

def messageId (sid : String) (turn : Nat) : String := sid ++ "#t" ++ toString turn

theorem messageId_inj {sid : String} {turn turn' : Nat} (h : messageId sid turn = messageId sid turn') :
    turn = turn' := Nat.repr_injective ((String.append_right_inj _).1 h)

/-- Nothing of a session is in the store, and nothing that its usage would be taken for. -/
structure Lacks (store : TurnStore) (sid : String) : Prop where
  turns    : store.turnsOf sid = []
  usage    : store.usageOf sid = []
  requests : ∀ q ∈ store.requests.rows, ∀ turn, q.messageId ≠ messageId sid turn
  refs     : ∀ r ∈ store.usage.rows, ∀ turn, r.usage.messageId ≠ messageId sid turn

/-- The usage of the session is at ordinals up to `turn`; `taken` says whether there is one at `turn`. -/
structure Placed (sid : String) (store : TurnStore) (turn : Nat) (taken : Bool) : Prop where
  maxTurn  : store.maxTurn sid = turn
  le       : ∀ r ∈ store.usageOf sid, r.turn ≤ turn
  taken    : taken = true ↔ ∃ r ∈ store.usageOf sid, r.turn = turn
  requests : ∀ q ∈ store.requests.rows, ∀ t, q.messageId = messageId sid t → ∃ r ∈ store.usageOf sid, r.turn = t
  refs     : ∀ r ∈ store.usage.rows, ∀ t, r.usage.messageId = messageId sid t → ∃ r ∈ store.usageOf sid, r.turn = t

theorem Lacks.placed {store : TurnStore} {sid : String} (h : Lacks store sid) :
    Placed sid store (store.beginWalk sid) false := by
  refine ⟨rfl, ?_, ?_, fun q hq t ht => absurd ht (h.requests q hq t), fun r hr t ht => absurd ht (h.refs r hr t)⟩
  · rw [h.usage]
    intro r hr
    cases hr
  · rw [h.usage]
    simp

theorem Placed.advanced {sid : String} {w w' : Walk} {taken : Bool} {k : Nat} (h : Placed sid w.store w.turn taken)
    (hadv : Advanced sid w w' k) : Placed sid w'.store w'.turn (taken && k = 0) := by
  have husage : w'.store.usageOf sid = w.store.usageOf sid := by
    rw [TurnStore.usageOf, hadv.usage, TurnStore.usageOf]
  refine ⟨hadv.maxTurn h.maxTurn, fun r hr => ?_, ?_, ?_, ?_⟩
  · rw [husage] at hr
    rw [hadv.turn]
    exact (h.le r hr).trans (Nat.le_add_right _ _)
  · rw [husage, Bool.and_eq_true, h.taken, decide_eq_true_eq, hadv.turn]
    constructor
    · rintro ⟨⟨r, hr, hturn⟩, hk⟩
      exact ⟨r, hr, by omega⟩
    · rintro ⟨r, hr, hturn⟩
      have hle := h.le r hr
      exact ⟨⟨r, hr, by omega⟩, by omega⟩
  · rw [hadv.requests, husage]
    exact h.requests
  · rw [hadv.usage, husage]
    exact h.refs

/-- A usage at an ordinal that has none is a new row. -/
theorem assistantUsage_free {session : SessionRef} {w : Walk} (ts : Nat) (value message usage : Json)
    (hget : message.get "usage" = some usage) (h : Placed session.sessionId w.store w.turn false) :
    ∃ w', assistantUsage session ts value message w = .ok w' ∧ w'.turn = w.turn ∧
      Placed session.sessionId w'.store w'.turn true ∧
      (w'.store.usageOf session.sessionId).map Counts.stored =
        (w.store.usageOf session.sessionId).map Counts.stored ++ [Counts.read usage] := by
  set sid := session.sessionId with hsid
  set row := usageRow session ts w.turn value message usage with hrow
  have hid : row.messageId = messageId sid w.turn := rfl
  have hfree : ∀ r ∈ w.store.usageOf sid, r.turn ≠ w.turn := by
    intro r hr hturn
    have htrue := h.taken.2 ⟨r, hr, hturn⟩
    cases htrue
  have hnotMem : row.request ∉ w.store.requests.rows := by
    intro hmem
    obtain ⟨r, hr, hturn⟩ := h.requests row.request hmem w.turn hid
    exact hfree r hr hturn
  have hrefs : row.request ∉ w.store.usage.rows.map fun r => r.usage.request := by
    intro hmem
    obtain ⟨r, hr, hre⟩ := List.mem_map.1 hmem
    have hmid : r.usage.messageId = messageId sid w.turn := congrArg Request.messageId hre
    obtain ⟨r', hr', hturn⟩ := h.refs r hr w.turn hmid
    exact hfree r' hr' hturn
  have hkey : UsageRecord.key ⟨sid, w.turn, row⟩ ∉ w.store.usage.keys := by
    intro hmem
    obtain ⟨r, hr, hre⟩ := List.mem_map.1 hmem
    obtain ⟨hsession, hturn⟩ := Prod.mk.inj hre
    exact hfree r (List.mem_filter.2 ⟨hr, by simpa using hsession⟩) hturn
  obtain ⟨requests, hrequests, hwrite⟩ := TurnStore.writeUsage_new hnotMem hrefs hkey
  have hrows : (w.store.usage.push ⟨sid, w.turn, row⟩ hkey).rows = w.store.usage.rows ++ [⟨sid, w.turn, row⟩] := rfl
  have hof : ∀ store : TurnStore, store.usage.rows = w.store.usage.rows ++ [⟨sid, w.turn, row⟩] →
      store.usageOf sid = w.store.usageOf sid ++ [⟨sid, w.turn, row⟩] := by
    intro store hstore
    rw [TurnStore.usageOf, hstore, List.filter_append, ← TurnStore.usageOf]
    simp
  simp only [assistantUsage, hget, ← hsid, ← hrow, hwrite]
  refine ⟨_, rfl, rfl, ⟨h.maxTurn, ?_, ?_, ?_, ?_⟩, ?_⟩
  all_goals simp only [hof { w.store with requests, usage := w.store.usage.push ⟨sid, w.turn, row⟩ hkey } hrows]
  · intro r hr
    rcases List.mem_append.1 hr with hr | hr
    · exact h.le r hr
    · rw [List.mem_singleton.1 hr]
  · simp
  · rw [hrequests]
    intro q hq t ht
    rcases List.mem_append.1 hq with hq | hq
    · obtain ⟨r, hr, hturn⟩ := h.requests q hq t ht
      exact ⟨r, List.mem_append_left _ hr, hturn⟩
    · rw [List.mem_singleton.1 hq] at ht
      exact ⟨_, List.mem_append_right _ (List.mem_singleton_self _), messageId_inj ht⟩
  · rw [hrows]
    intro r hr t ht
    rcases List.mem_append.1 hr with hr | hr
    · obtain ⟨r', hr', hturn⟩ := h.refs r hr t ht
      exact ⟨r', List.mem_append_left _ hr', hturn⟩
    · rw [List.mem_singleton.1 hr] at ht
      exact ⟨_, List.mem_append_right _ (List.mem_singleton_self _), messageId_inj ht⟩
  · rw [List.map_append]
    rfl

/-- A usage that is written is one row more, at an ordinal that had none, or none. -/
theorem assistantUsage_length {session : SessionRef} {ts : Nat} {value message : Json} {w w' : Walk}
    (h : assistantUsage session ts value message w = .ok w') :
    (w'.store.usageOf session.sessionId).length = (w.store.usageOf session.sessionId).length ∨
    (message.get "usage").isSome ∧ (∀ r ∈ w.store.usageOf session.sessionId, r.turn ≠ w.turn) ∧
      (w'.store.usageOf session.sessionId).length = (w.store.usageOf session.sessionId).length + 1 := by
  unfold assistantUsage at h
  cases hget : message.get "usage" with
  | none =>
    rw [hget] at h
    cases h
    exact .inl rfl
  | some usage =>
    simp only [hget, TurnStore.writeUsage, Machine.bind_ok] at h
    obtain ⟨⟨store, isNew, changed⟩, ⟨⟨store', changed'⟩, hadd, hwrite⟩, hw⟩ := h
    cases hwrite
    cases hw
    have hkeep : (w.store.internRequest (usageRow session ts w.turn value message usage).messageId
        (usageRow session ts w.turn value message usage).requestId).1.usage = w.store.usage := rfl
    generalize w.store.internRequest (usageRow session ts w.turn value message usage).messageId
      (usageRow session ts w.turn value message usage).requestId = interned at hadd hkeep
    unfold TurnStore.addUsage at hadd
    rw [hkeep] at hadd
    split at hadd
    · split at hadd
      · cases hadd
      · by_cases hmem : UsageRecord.key ⟨session.sessionId, w.turn, usageRow session ts w.turn value message usage⟩ ∈
            w.store.usage.keys
        · rw [Table.insert?_of_mem hmem] at hadd
          cases hadd
        · rw [Table.insert?_of_notMem hmem] at hadd
          cases hadd
          refine .inr ⟨rfl, fun r hr hturn => hmem (List.mem_map.2 ⟨r, (List.mem_filter.1 hr).1, ?_⟩), ?_⟩
          · have hsession : r.session = session.sessionId := by simpa using (List.mem_filter.1 hr).2
            exact Prod.ext hsession hturn
          · rw [TurnStore.usageOf, Table.push, List.filter_append, List.length_append, ← TurnStore.usageOf]
            simp
    · cases hadd
      refine .inl ?_
      rw [TurnStore.usageOf, Table.update, List.filter_map, List.length_map, TurnStore.usageOf]
      congr 2
      funext r
      simp only [Function.comp]
      split <;> rfl

/-! ## Runs -/

section
variable (codec : Codec) (session : SessionRef)

/-- What a list of records leaves: a new row for each response, if no two are at one ordinal. -/
theorem projectValues_clear {values : List Json} {w : Walk} {taken : Bool}
    (h : Placed session.sessionId w.store w.turn taken) (hclear : Clear taken values) :
    ∃ w' taken', values.foldlM (fun w v => projectValue codec session v w) w = .ok w' ∧
      Placed session.sessionId w'.store w'.turn taken' ∧ (∀ rest, Clear taken (values ++ rest) ↔ Clear taken' rest) ∧
      (w'.store.usageOf session.sessionId).map Counts.stored =
        (w.store.usageOf session.sessionId).map Counts.stored ++ responses values := by
  induction values generalizing w taken with
  | nil => exact ⟨w, taken, rfl, h, fun _ => Iff.rfl, by simp [responses]⟩
  | cons v values ih =>
    obtain ⟨w₁, hadv, hproject⟩ := projectValue_spec codec session v w
    have hplaced := h.advanced hadv
    have hsame : w₁.store.usageOf session.sessionId = w.store.usageOf session.sessionId := by
      rw [TurnStore.usageOf, hadv.usage, TurnStore.usageOf]
    rw [List.foldlM_cons]
    by_cases hv : (usageIn v).isSome
    · rw [clear_cons_usage hv] at hclear
      obtain ⟨usage, husage⟩ := Option.isSome_iff_exists.1 hv
      rcases hproject with ⟨hnone, -⟩ | ⟨message, hmessage, hproject⟩
      · rw [hnone] at husage
        cases husage
      · rw [hclear.1] at hplaced
        obtain ⟨w₂, hw₂, -, hplaced₂, hcounts⟩ := assistantUsage_free (timestamp codec v) v message usage
          (hmessage ▸ husage) hplaced
        obtain ⟨w', taken', hw', hplaced', hrest, hcounts'⟩ := ih hplaced₂ hclear.2
        refine ⟨w', taken', ?_, hplaced', fun rest => ?_, ?_⟩
        · rw [hproject, hw₂]
          exact hw'
        · rw [List.cons_append, clear_cons_usage hv, ← hrest rest]
          simp [hclear.1]
        · rw [hcounts', hcounts, hsame]
          simp [responses, husage]
    · rw [clear_cons_other hv] at hclear
      have hnone : usageIn v = none := by simpa using hv
      have hproject : projectValue codec session v w = .ok w₁ := by
        rcases hproject with ⟨-, hproject⟩ | ⟨message, hmessage, hproject⟩
        · exact hproject
        · rw [hproject, assistantUsage, ← hmessage, hnone]
          rfl
      obtain ⟨w', taken', hw', hplaced', hrest, hcounts'⟩ := ih hplaced hclear
      refine ⟨w', taken', ?_, hplaced', fun rest => ?_, ?_⟩
      · rw [hproject]
        exact hw'
      · rw [List.cons_append, clear_cons_other hv]
        exact hrest rest
      · rw [hcounts', hsame]
        simp [responses, hnone]

/-- One record adds a row at most, none if it has no usage, or its ordinal has one. -/
theorem projectValue_length {v : Json} {w w' : Walk} (h : projectValue codec session v w = .ok w') :
    (w'.store.usageOf session.sessionId).length ≤
      (w.store.usageOf session.sessionId).length + (responses [v]).length ∧
    ∀ taken, Placed session.sessionId w.store w.turn taken → (usageIn v).isSome → (taken && turnsWritten v = 0) = true →
      (w'.store.usageOf session.sessionId).length = (w.store.usageOf session.sessionId).length := by
  obtain ⟨w₁, hadv, hproject⟩ := projectValue_spec codec session v w
  have hsame : w₁.store.usageOf session.sessionId = w.store.usageOf session.sessionId := by
    rw [TurnStore.usageOf, hadv.usage, TurnStore.usageOf]
  rcases hproject with ⟨hnone, hproject⟩ | ⟨message, hmessage, hproject⟩
  · rw [hproject] at h
    cases h
    rw [hsame]
    exact ⟨Nat.le_add_right _ _, fun _ _ _ _ => rfl⟩
  · rw [hproject] at h
    rcases assistantUsage_length h with hlen | ⟨hsome, hfree, hlen⟩
    · rw [hlen, hsame]
      exact ⟨Nat.le_add_right _ _, fun _ _ _ _ => rfl⟩
    · rw [← hmessage] at hsome
      obtain ⟨usage, husage⟩ := Option.isSome_iff_exists.1 hsome
      rw [hlen, hsame]
      refine ⟨by simp [responses, husage], fun taken hplaced _ htaken => ?_⟩
      obtain ⟨r, hr, hturn⟩ := (hplaced.advanced hadv).taken.1 htaken
      exact absurd hturn (hfree r hr)

theorem responses_cons (v : Json) (values : List Json) : responses (v :: values) = responses [v] ++ responses values :=
  List.filterMap_append (l := [v])

theorem projectValues_length {values : List Json} {w w' : Walk}
    (h : values.foldlM (fun w v => projectValue codec session v w) w = .ok w') :
    (w'.store.usageOf session.sessionId).length ≤
      (w.store.usageOf session.sessionId).length + (responses values).length := by
  induction values generalizing w with
  | nil =>
    cases h
    exact Nat.le_add_right _ _
  | cons v values ih =>
    rw [List.foldlM_cons, Machine.bind_ok] at h
    obtain ⟨w₁, hv, hrest⟩ := h
    have hle := ih hrest
    have hone := (projectValue_length codec session hv).1
    rw [responses_cons, List.length_append]
    omega

/-- Two usages at one ordinal: one row for both, if the store takes the second at all. -/
theorem projectValues_lost {values : List Json} {w w' : Walk} {taken : Bool}
    (h : Placed session.sessionId w.store w.turn taken) (hclear : ¬ Clear taken values)
    (hrun : values.foldlM (fun w v => projectValue codec session v w) w = .ok w') :
    (w'.store.usageOf session.sessionId).length <
      (w.store.usageOf session.sessionId).length + (responses values).length := by
  induction values generalizing w taken with
  | nil => exact absurd trivial hclear
  | cons v values ih =>
    rw [List.foldlM_cons, Machine.bind_ok] at hrun
    obtain ⟨w₁, hv, hrest⟩ := hrun
    rw [responses_cons, List.length_append]
    have hlen := projectValue_length codec session hv
    have hle := projectValues_length codec session hrest
    by_cases hhere : (usageIn v).isSome ∧ (taken && turnsWritten v = 0) = true
    · have heq := hlen.2 taken h hhere.1 hhere.2
      obtain ⟨usage, husage⟩ := Option.isSome_iff_exists.1 hhere.1
      have hone : (responses [v]).length = 1 := by simp [responses, husage]
      omega
    · -- the first record is in order, the loss is behind it
      have hfirst : Clear taken [v] := by
        by_cases hsome : (usageIn v).isSome
        · rw [clear_cons_usage hsome]
          exact ⟨by simpa using fun ht hn => hhere ⟨hsome, by simp [ht, hn]⟩, trivial⟩
        · rw [clear_cons_other hsome]
          trivial
      obtain ⟨w₂, taken', hw₂, hplaced, hiff, hcounts⟩ := projectValues_clear codec session h hfirst
      have hw : w₂ = w₁ := by
        rw [List.foldlM_cons, hv] at hw₂
        cases hw₂
        rfl
      subst hw
      have hlt := ih hplaced (fun hc => hclear ((hiff values).2 hc)) hrest
      have hcount := congrArg List.length hcounts
      rw [List.length_map, List.length_append, List.length_map] at hcount
      omega
end

section
variable (codec : Codec) (session : SessionRef)

/-- The passes over a file that grows by `chunks`, one pass behind each. -/
def passes (store : TurnStore) (file : Bytes) (cursor : Nat) : List Bytes → Except String TurnStore
  | [] => .ok store
  | bytes :: chunks => do
    let (store, ingested) ← ingest codec session store (file ++ bytes) cursor
    passes store (file ++ bytes) ingested.nextCursor chunks

/-- The records of the complete lines of a text. -/
def recordsOf (text : Bytes) : List Json := LineLog.records newline codec.fromSlice (LineLog.complete newline text)

theorem projectLines_eq (lines : List CompleteLine) (w : Walk) :
    lines.foldlM (projectLine codec session) w =
      ((lines.map CompleteLine.bytes).filterMap codec.fromSlice).foldlM
        (fun w v => projectValue codec session v w) w := by
  induction lines generalizing w with
  | nil => rfl
  | cons line lines ih =>
    rw [List.foldlM_cons, List.map_cons, List.filterMap_cons]
    cases hparse : codec.fromSlice line.bytes with
    | none =>
      have hline : projectLine codec session w line = .ok w := by
        rw [projectLine, hparse]
        rfl
      rw [hline]
      exact ih w
    | some value =>
      have hline : projectLine codec session w line = projectValue codec session value w := by
        rw [projectLine, hparse]
      rw [hline, List.foldlM_cons]
      cases projectValue codec session value w with
      | error e => rfl
      | ok w' => exact ih w'

/-- **`Omp::ingest` (omp.rs:223)**: the records behind the cursor, from the last ordinal on. -/
theorem ingest_eq (store : TurnStore) {file : Bytes} {cursor : Nat} (hle : cursor ≤ file.length) :
    ingest codec session store file cursor = (do
      let w ← (recordsOf codec (file.drop cursor)).foldlM (fun w v => projectValue codec session v w)
        ⟨store, store.beginWalk session.sessionId, {}⟩
      return (w.store, ⟨w.stat, cursor + (LineLog.complete newline (file.drop cursor)).length⟩)) := by
  obtain ⟨hlines, hoffset, -⟩ := readFrom_spec file cursor
  unfold ingest
  simp only [readCompleteLines_long hle]
  have hrecords : ((readFrom file cursor).lines.map CompleteLine.bytes).filterMap codec.fromSlice =
      recordsOf codec (file.drop cursor) := by
    rw [hlines]
    rfl
  by_cases hempty : (readFrom file cursor).lines = []
  · have hnone := complete_of_no_lines hempty
    rw [← hrecords, hempty, hnone]
    rfl
  · rw [if_neg (by simpa using hempty), projectLines_eq, hrecords, hoffset]

/-- The records behind the cursor are those of this pass and those behind its end. -/
theorem recordsOf_drop {file : Bytes} {cursor : Nat} (hle : cursor ≤ file.length) (more : Bytes) :
    let next := cursor + (LineLog.complete newline (file.drop cursor)).length
    next ≤ file.length ∧
      recordsOf codec ((file ++ more).drop cursor) =
        recordsOf codec (file.drop cursor) ++ recordsOf codec ((file ++ more).drop next) := by
  intro next
  have hfront : LineLog.complete newline (file.drop cursor) <+: file.drop cursor := LineLog.complete_isPrefix _
  have hlen : (LineLog.complete newline (file.drop cursor)).length ≤ file.length - cursor := by
    simpa using hfront.length_le
  have hnext : next ≤ file.length := by omega
  have hboundary : LineLog.Boundary newline (LineLog.complete newline (file.drop cursor)) := LineLog.complete_complete _
  have hsplit : (file ++ more).drop cursor =
      LineLog.complete newline (file.drop cursor) ++ (file ++ more).drop next := by
    obtain ⟨rest, hrest⟩ := hfront
    have hdrop : file.drop next = rest := by
      have hbehind := congrArg (List.drop (LineLog.complete newline (file.drop cursor)).length) hrest
      rw [List.drop_left, List.drop_drop] at hbehind
      exact hbehind.symm
    rw [List.drop_append_of_le_length hle, List.drop_append_of_le_length hnext, hdrop, ← List.append_assoc, hrest]
  refine ⟨hnext, ?_⟩
  rw [hsplit, recordsOf, hboundary.complete_append, LineLog.records_append hboundary]
  rfl

theorem passes_length (chunks : List Bytes) {store store' : TurnStore} {file : Bytes} {cursor : Nat}
    (hle : cursor ≤ file.length) (h : passes codec session store file cursor chunks = .ok store') :
    (store'.usageOf session.sessionId).length ≤ (store.usageOf session.sessionId).length +
      (responses (recordsOf codec ((file ++ chunks.flatten).drop cursor))).length := by
  induction chunks generalizing store file cursor with
  | nil =>
    cases h
    exact Nat.le_add_right _ _
  | cons bytes chunks ih =>
    have hle' : cursor ≤ (file ++ bytes).length := hle.trans (by simp)
    obtain ⟨hnext, hrecords⟩ := recordsOf_drop codec hle' chunks.flatten
    rw [passes, ingest_eq codec session store hle', Machine.bind_ok] at h
    obtain ⟨⟨store₁, ingested⟩, hpass, hrest⟩ := h
    obtain ⟨w, hw, hpass⟩ := Machine.bind_ok.1 hpass
    cases hpass
    have hone := projectValues_length codec session hw
    have hmore := ih hnext hrest
    rw [List.flatten_cons, ← List.append_assoc, hrecords, responses, List.filterMap_append, List.length_append]
    simp only [responses] at hone hmore
    omega

theorem responses_append (values values' : List Json) :
    responses (values ++ values') = responses values ++ responses values' := List.filterMap_append

/-- **The passes, from a cursor with nothing waiting**: each response is a row, or there are fewer rows. -/
theorem passes_spec (chunks : List Bytes) {store : TurnStore} {file : Bytes} {cursor : Nat} {taken : Bool}
    (hle : cursor ≤ file.length) (hdone : recordsOf codec (file.drop cursor) = [])
    (h : Placed session.sessionId store (store.beginWalk session.sessionId) taken) :
    let values := recordsOf codec ((file ++ chunks.flatten).drop cursor)
    (Clear taken values → ∃ store', passes codec session store file cursor chunks = .ok store' ∧
      storedCounts store' session.sessionId = storedCounts store session.sessionId ++ responses values) ∧
    (∀ store', passes codec session store file cursor chunks = .ok store' → ¬ Clear taken values →
      (store'.usageOf session.sessionId).length <
        (store.usageOf session.sessionId).length + (responses values).length) := by
  intro values
  induction chunks generalizing store file cursor taken with
  | nil =>
    have hnone : values = [] := by simpa [values] using hdone
    rw [hnone]
    refine ⟨fun _ => ⟨store, rfl, (List.append_nil _).symm⟩, fun _ _ hclear => absurd trivial hclear⟩
  | cons bytes chunks ih =>
    have hle' : cursor ≤ (file ++ bytes).length := hle.trans (by simp)
    obtain ⟨hnext, hrecords⟩ := recordsOf_drop codec hle' chunks.flatten
    obtain ⟨-, hhere⟩ := recordsOf_drop codec hle' []
    rw [List.append_nil, List.self_eq_append_right] at hhere
    have hfile : file ++ (bytes :: chunks).flatten = file ++ bytes ++ chunks.flatten := by
      rw [List.flatten_cons, List.append_assoc]
    have hvalues : values = recordsOf codec ((file ++ bytes).drop cursor) ++
        recordsOf codec ((file ++ bytes ++ chunks.flatten).drop
          (cursor + (LineLog.complete newline ((file ++ bytes).drop cursor)).length)) := by
      simp only [values]
      rw [hfile, hrecords]
    rw [hvalues, passes, ingest_eq codec session store hle']
    by_cases hclear : Clear taken (recordsOf codec ((file ++ bytes).drop cursor))
    · have hwalk : Placed session.sessionId (Walk.mk store (store.beginWalk session.sessionId) {}).store
          (Walk.mk store (store.beginWalk session.sessionId) {}).turn taken := h
      obtain ⟨w, taken', hw, hplaced, hiff, hcounts⟩ := projectValues_clear codec session hwalk hclear
      have hagain : Placed session.sessionId w.store (w.store.beginWalk session.sessionId) taken' := by
        rw [TurnStore.beginWalk, hplaced.maxTurn]
        exact hplaced
      obtain ⟨hok, hlost⟩ := ih hnext hhere hagain
      rw [hw]
      refine ⟨fun hall => ?_, fun store' hrun hnot => ?_⟩
      · obtain ⟨store', hrun, hstored⟩ := hok ((hiff _).1 hall)
        refine ⟨store', hrun, hstored.trans ?_⟩
        rw [storedCounts, hcounts, responses_append, List.append_assoc]
        rfl
      · have hlt := hlost store' hrun fun hrest => hnot ((hiff _).2 hrest)
        have hcount : (w.store.usageOf session.sessionId).length = (store.usageOf session.sessionId).length +
            (responses (recordsOf codec ((file ++ bytes).drop cursor))).length := by
          simpa using congrArg List.length hcounts
        rw [responses_append, List.length_append]
        omega
    · refine ⟨fun hall => absurd hall.of_append hclear, fun store' hrun _ => ?_⟩
      obtain ⟨⟨store₁, ingested⟩, hpass, hrest⟩ := Machine.bind_ok.1 hrun
      obtain ⟨w, hw, hpass⟩ := Machine.bind_ok.1 hpass
      cases hpass
      have hlt : (w.store.usageOf session.sessionId).length < (store.usageOf session.sessionId).length + _ :=
        projectValues_lost codec session (w := ⟨store, _, {}⟩) h hclear hw
      have hmore : _ ≤ (w.store.usageOf session.sessionId).length + _ :=
        passes_length codec session chunks hnext hrest
      rw [responses_append, List.length_append]
      omega

/-- **Usage of a transcript** that grows and is projected pass by pass: every pass succeeds and the rows of the
    session hold the counts of each response once iff no two usages stand at one ordinal. -/
theorem usage_once_iff {store : TurnStore} (h : Lacks store session.sessionId) (chunks : List Bytes) :
    (∃ store', passes codec session store [] 0 chunks = .ok store' ∧
      (storedCounts store' session.sessionId).Perm (responses (recordsOf codec chunks.flatten))) ↔
    Apart (recordsOf codec chunks.flatten) := by
  have hstart : 0 ≤ ([] : Bytes).length := Nat.le_refl 0
  obtain ⟨hok, hlost⟩ := passes_spec codec session chunks hstart rfl h.placed
  rw [List.nil_append, List.drop_zero] at hok hlost
  rw [apart_iff_clear]
  constructor
  · rintro ⟨store', hrun, hperm⟩
    by_contra hclear
    have hlt := hlost store' hrun hclear
    have hlen := hperm.length_eq
    rw [storedCounts, List.length_map] at hlen
    rw [h.usage, List.length_nil, Nat.zero_add] at hlt
    exact absurd hlen hlt.ne
  · intro hclear
    obtain ⟨store', hrun, hstored⟩ := hok hclear
    refine ⟨store', hrun, ?_⟩
    rw [hstored, storedCounts, h.usage]
    rfl
end

/-- A line of an assistant message that thinks and says nothing, with `usage` and a response id of its own. -/
def thinkingLine (responseId : String) : Bytes :=
  ascii ("\x7b\"type\":\"message\",\"responseId\":\"" ++ responseId ++ "\",\"message\":\x7b\"role\":\"assistant\"," ++
    "\"content\":[\x7b\"type\":\"thinking\"\x7d],\"usage\":\x7b\"input\":5,\"output\":7\x7d\x7d\x7d")

/-- The value of that line. -/
def thinking (responseId : String) : Json :=
  .obj [("type", .str "message"), ("responseId", .str responseId),
    ("message", .obj [("role", .str "assistant"), ("content", .arr [.obj [("type", .str "thinking")]]),
      ("usage", .obj [("input", .num (.posInt 5)), ("output", .num (.posInt 7))])])]

/-- A reader of these lines. -/
def thinkingCodec : Codec where
  fromSlice line := ["r1", "r2"].findSome? fun id => if line = thinkingLine id then some (thinking id) else none
  toText _ := ""
  parseIsoMs _ := none

def plainSession : SessionRef := ⟨"s", none⟩

theorem lacks_empty (sid : String) : Lacks .empty sid :=
  ⟨rfl, rfl, fun _ hq => (List.not_mem_nil hq).elim, fun _ hr => (List.not_mem_nil hr).elim⟩

theorem usage_once_iff_thinking :
    (∃ store', passes thinkingCodec plainSession .empty [] 0 [thinkingLine "r1", [newline]] = .ok store' ∧
      (storedCounts store' "s").Perm
        (responses (recordsOf thinkingCodec [thinkingLine "r1", [newline]].flatten))) ↔
    Apart (recordsOf thinkingCodec [thinkingLine "r1", [newline]].flatten) :=
  usage_once_iff thinkingCodec plainSession (lacks_empty "s") [thinkingLine "r1", [newline]]

/-- The response ids of the messages with usage. -/
def responseIds (values : List Json) : List (Option String) :=
  (values.filter fun v => (usageIn v).isSome).map (Json.strField "responseId")

theorem thinking_twice :
    ¬ ∀ (codec : Codec) (session : SessionRef) (store : TurnStore) (chunks : List Bytes),
      Lacks store session.sessionId → (responseIds (recordsOf codec chunks.flatten)).Nodup →
      none ∉ responseIds (recordsOf codec chunks.flatten) →
      ∃ store', passes codec session store [] 0 chunks = .ok store' ∧
        (storedCounts store' session.sessionId).Perm
          (responses (recordsOf codec chunks.flatten)) := by
  intro h
  have hrun := h thinkingCodec plainSession .empty [thinkingLine "r1" ++ [newline] ++ thinkingLine "r2" ++ [newline]]
    (lacks_empty "s") (by decide +kernel) (by decide +kernel)
  have hfail : (passes thinkingCodec plainSession .empty [] 0
      [thinkingLine "r1" ++ [newline] ++ thinkingLine "r2" ++ [newline]]).isOk = false := by decide +kernel
  obtain ⟨store', hok, -⟩ := hrun
  rw [hok] at hfail
  cases hfail
end BoopHarness.Omp
