import HafleyRs.BoopStore.TurnStore
import HafleyRs.BoopHarness.KimiRuns

/-!
# The usage of a Kimi turn is a sum

`attached`: the usages of some lines with the ordinals they hang on. One pass over lines of a session that the store
lacks leaves one usage row for each ordinal with usages, and in it their sums (`Tallied.lines`), as long as the output
of the ordinal does not fall or overflow (`Rising`): a row is only renewed by an output that is not below its own.
-/

namespace BoopHarness.Kimi
open BoopStore Machine

/-- The usages of the lines behind an ordinal. -/
def attached (codec : Codec) : Nat → List Bytes → List (Nat × Json)
  | _, [] => []
  | turn, line :: rest =>
    match lineUsage codec line with
    | some usage => (attachTurn turn, usage) :: attached codec (attachTurn turn) rest
    | none => attached codec (turn + lineTurns codec line) rest

def usagesAt (entries : List (Nat × Json)) (turn : Nat) : List Json :=
  (entries.filter fun e => e.1 = turn).map Prod.snd

def countOf (key : String) (usage : Json) : Int := ((usage.get key).bind Json.asI64).getD 0

def total (usages : List Json) (key : String) : Int := (usages.map (countOf key)).sum

/-- The sums of some usages, of 64 bits. -/
def sums (usages : List Json) : TurnStore.UsageCounts where
  input         := wrap (total usages "inputOther")
  output        := wrap (total usages "output")
  cacheCreate5m := wrap (total usages "inputCacheCreation")
  cacheCreate1h := 0
  cacheRead     := wrap (total usages "inputCacheRead")

/-- No output is negative, and their sum is a number of 64 bits with a sign. -/
structure Rising (usages : List Json) : Prop where
  nonneg : ∀ usage ∈ usages, 0 ≤ countOf "output" usage
  lt     : total usages "output" < 2 ^ 63

/-! ## Sums -/

theorem usagesAt_concat (entries : List (Nat × Json)) (turn turn' : Nat) (usage : Json) :
    usagesAt (entries ++ [(turn, usage)]) turn' =
      if turn = turn' then usagesAt entries turn' ++ [usage] else usagesAt entries turn' := by
  unfold usagesAt
  rw [List.filter_append, List.map_append]
  by_cases heq : turn = turn'
  · simp [heq]
  · simp [heq]

theorem usagesAt_of_lt {entries : List (Nat × Json)} {turn : Nat} (h : ∀ e ∈ entries, e.1 < turn) :
    usagesAt entries turn = [] := by
  rw [usagesAt, List.filter_eq_nil_iff.2 fun e he => by simpa using (h e he).ne, List.map_nil]

theorem total_concat (usages : List Json) (usage : Json) (key : String) :
    total (usages ++ [usage]) key = total usages key + countOf key usage := by
  simp [total]

theorem wrap_add (a b : Int) : wrap (wrap a + b) = wrap (a + b) := Int.bmod_add_bmod

theorem Rising.total_nonneg {usages : List Json} (h : Rising usages) : 0 ≤ total usages "output" :=
  List.sum_nonneg fun n hn => by
    obtain ⟨usage, hmem, rfl⟩ := List.mem_map.1 hn
    exact h.nonneg usage hmem

theorem Rising.front {usages : List Json} {usage : Json} (h : Rising (usages ++ [usage])) : Rising usages := by
  have hlast := h.nonneg usage (by simp)
  have hlt := h.lt
  rw [total_concat] at hlt
  exact ⟨fun u hu => h.nonneg u (List.mem_append_left _ hu), by omega⟩

theorem Rising.wrap_eq {usages : List Json} (h : Rising usages) :
    wrap (total usages "output") = total usages "output" := by
  have hnonneg := h.total_nonneg
  have hlt := h.lt
  unfold wrap
  rw [Int.bmod_eq_of_le] <;> omega

/-- The output of a rising list is not below that of its front. -/
theorem Rising.le {usages : List Json} {usage : Json} (h : Rising (usages ++ [usage])) :
    (sums usages).output ≤ (sums (usages ++ [usage])).output := by
  have hlast := h.nonneg usage (by simp)
  show wrap (total usages "output") ≤ wrap (total (usages ++ [usage]) "output")
  rw [h.wrap_eq, h.front.wrap_eq, total_concat]
  omega

/-- The totals behind some usages of a turn. -/
def tally (turn : Nat) (usages : List Json) : TurnTokens := usages.foldl TurnTokens.add { turn }

theorem tally_concat (turn : Nat) (usages : List Json) (usage : Json) :
    tally turn (usages ++ [usage]) = (tally turn usages).add usage := by
  rw [tally, List.foldl_append]
  rfl

theorem tally_eq (turn : Nat) (usages : List Json) :
    tally turn usages = ⟨turn, (sums usages).input, (sums usages).output, (sums usages).cacheCreate5m,
      (sums usages).cacheRead⟩ := by
  induction usages using List.reverseRecOn with
  | nil => rfl
  | append_singleton usages usage ih =>
    rw [tally_concat, ih]
    simp only [TurnTokens.add, sums, wrap_add, total_concat]
    rfl

/-! ## A walk -/

def requestOf (sid : String) (turn : Nat) : Request := ⟨Omp.messageId sid turn, ""⟩

theorem requestOf_inj {sid : String} {turn turn' : Nat} : requestOf sid turn = requestOf sid turn' ↔ turn = turn' := by
  constructor
  · intro h
    exact Omp.messageId_inj (congrArg Request.messageId h)
  · rintro rfl
    rfl

/-- What a walk has stored of the usages so far. -/
structure Tallied (sid : String) (entries : List (Nat × Json)) (p : Projecting) : Prop where
  maxTurn  : p.walk.store.maxTurn sid = p.walk.turn
  le       : ∀ e ∈ entries, e.1 ≤ p.walk.turn
  current  : p.tokens.turn ≤ p.walk.turn
  tokens   : p.tokens.forTurn (attachTurn p.walk.turn) =
    tally (attachTurn p.walk.turn) (usagesAt entries (attachTurn p.walk.turn))
  requests : ∀ turn, requestOf sid turn ∈ p.walk.store.requests.rows ↔ usagesAt entries turn ≠ []
  refs     : ∀ r ∈ p.walk.store.usage.rows, ∀ turn, r.usage.request = requestOf sid turn ↔ r.key = (sid, turn)
  rows     : ∀ turn, (sid, turn) ∈ p.walk.store.usage.keys ↔ usagesAt entries turn ≠ []
  counts   : ∀ turn r, p.walk.store.usage.get (sid, turn) = some r → Rising (usagesAt entries turn) →
    TurnStore.UsageCounts.of r.usage = sums (usagesAt entries turn)

section
variable {codec : Codec} {session : SessionRef} {entries : List (Nat × Json)} {p q : Projecting}

theorem forTurn_of_ne {tokens : TurnTokens} {turn : Nat} (h : tokens.turn ≠ turn) : tokens.forTurn turn = { turn } :=
  if_pos h

theorem tallied_begin {store : TurnStore} (h : Omp.Lacks store session.sessionId) :
    Tallied session.sessionId [] (begin session store) := by
  have hfree : ∀ turn, (session.sessionId, turn) ∉ store.usage.keys := by
    intro turn hmem
    obtain ⟨r, hr, hkey⟩ := List.mem_map.1 hmem
    have hhere : r ∈ store.usageOf session.sessionId :=
      List.mem_filter.2 ⟨hr, decide_eq_true (congrArg Prod.fst hkey)⟩
    rw [h.usage] at hhere
    cases hhere
  refine ⟨rfl, by simp, Nat.zero_le _, ?_, fun turn => ?_, fun r hr turn => ?_, fun turn => ?_, fun turn r hr => ?_⟩
  · exact forTurn_of_ne (le_attachTurn _).2.ne
  · exact iff_of_false (fun hmem => h.requests _ hmem turn rfl) (by simp [usagesAt])
  · refine iff_of_false (fun hrequest => h.refs r hr turn (congrArg Request.messageId hrequest)) fun hkey => ?_
    exact hfree turn (List.mem_map.2 ⟨r, hr, hkey⟩)
  · exact iff_of_false (hfree turn) (by simp [usagesAt])
  · exact absurd (Table.get_isSome.1 (Option.isSome_of_mem hr)) (hfree turn)

/-- Turns without usage. -/
theorem Tallied.advanced (h : Tallied session.sessionId entries p) {w : Walk} {k : Nat}
    (hadv : Omp.Advanced session.sessionId p.walk w k) : Tallied session.sessionId entries { p with walk := w } := by
  have hforward := hadv.turn
  have hcurrent := h.current
  refine ⟨hadv.maxTurn h.maxTurn, fun e he => (h.le e he).trans ?_, hcurrent.trans ?_, ?_, ?_, ?_, ?_, ?_⟩
  · exact hforward ▸ Nat.le_add_right _ _
  · exact hforward ▸ Nat.le_add_right _ _
  · show p.tokens.forTurn (attachTurn w.turn) = tally (attachTurn w.turn) (usagesAt entries (attachTurn w.turn))
    by_cases hk : k = 0
    · rw [hforward, hk, Nat.add_zero]
      exact h.tokens
    · have hattach := (le_attachTurn w.turn).1
      have hahead : ∀ e ∈ entries, e.1 < attachTurn w.turn := fun e he => by
        have hle := h.le e he
        omega
      rw [usagesAt_of_lt hahead]
      exact forTurn_of_ne (by omega)
  · rw [hadv.requests]
    exact h.requests
  · rw [hadv.usage]
    exact h.refs
  · rw [hadv.usage]
    exact h.rows
  · rw [hadv.usage]
    exact h.counts

/-- A store behind the usage of a turn. -/
structure Counted (sid : String) (turn : Nat) (counts : UsageRow → Prop) (store store' : TurnStore) : Prop where
  turns    : store'.turns = store.turns
  requests : ∀ t, requestOf sid t ∈ store'.requests.rows ↔ requestOf sid t ∈ store.requests.rows ∨ turn = t
  refs     : ∀ r' ∈ store'.usage.rows, r'.usage.request = requestOf sid turn ∧ r'.key = (sid, turn) ∨
    ∃ r ∈ store.usage.rows, r'.usage.request = r.usage.request ∧ r'.key = r.key
  row      : ∃ r, store'.usage.get (sid, turn) = some r ∧ counts r.usage
  others   : ∀ t, turn ≠ t → store'.usage.get (sid, t) = store.usage.get (sid, t)

/-- The first usage of a turn. -/
theorem Tallied.first (h : Tallied session.sessionId entries p) (hfirst : usagesAt entries p.walk.turn = [])
    {usage : UsageRow} (hrequest : usage.request = requestOf session.sessionId p.walk.turn) :
    ∃ store' isNew changed, p.walk.store.writeUsage session.sessionId p.walk.turn usage = .ok (store', isNew, changed) ∧
      Counted session.sessionId p.walk.turn (TurnStore.UsageCounts.of · = TurnStore.UsageCounts.of usage) p.walk.store store' := by
  have hkey : UsageRecord.key ⟨session.sessionId, p.walk.turn, usage⟩ ∉ p.walk.store.usage.keys := fun hmem =>
    (h.rows _).1 hmem hfirst
  have hnew : usage.request ∉ p.walk.store.requests.rows := by
    rw [hrequest]
    exact fun hmem => (h.requests _).1 hmem hfirst
  have hrefs : usage.request ∉ p.walk.store.usage.rows.map fun r => r.usage.request := by
    intro hmem
    obtain ⟨r, hr, heq⟩ := List.mem_map.1 hmem
    exact hkey (List.mem_map.2 ⟨r, hr, (h.refs r hr _).1 (heq.trans hrequest)⟩)
  obtain ⟨requests, hrows, hwrite⟩ := TurnStore.writeUsage_new hnew hrefs hkey
  refine ⟨_, _, _, hwrite, rfl, fun t => ?_, fun r' hr' => ?_, ?_, fun t ht => ?_⟩
  · rw [hrows, hrequest, List.mem_append, List.mem_singleton, requestOf_inj, eq_comm (a := t)]
  · rcases List.mem_append.1 hr' with hr' | hr'
    · exact Or.inr ⟨r', hr', rfl, rfl⟩
    · rw [List.mem_singleton.1 hr']
      exact Or.inl ⟨hrequest, rfl⟩
  · exact ⟨_, (Table.get_push _ _ hkey _).trans (if_pos rfl), rfl⟩
  · refine (Table.get_push _ _ hkey _).trans (if_neg fun heq => ht ?_)
    exact congrArg Prod.snd heq

/-- Another usage of a turn: its output must not be below the one that is stored. -/
theorem Tallied.again (h : Tallied session.sessionId entries p) (hagain : usagesAt entries p.walk.turn ≠ [])
    {usage : UsageRow} (hrequest : usage.request = requestOf session.sessionId p.walk.turn) :
    ∃ store' isNew changed, p.walk.store.writeUsage session.sessionId p.walk.turn usage = .ok (store', isNew, changed) ∧
      Counted session.sessionId p.walk.turn
        (fun row => Rising (usagesAt entries p.walk.turn) →
          (sums (usagesAt entries p.walk.turn)).output ≤ usage.outputTokens → TurnStore.UsageCounts.of row = TurnStore.UsageCounts.of usage)
        p.walk.store store' := by
  have hold : usage.request ∈ p.walk.store.requests.rows := by
    rw [hrequest]
    exact (h.requests _).2 hagain
  obtain ⟨changed, hwrite⟩ := TurnStore.writeUsage_old hold session.sessionId p.walk.turn
  refine ⟨_, _, _, hwrite, rfl, fun t => ?_, fun r' hr' => ?_, ?_, fun t ht => ?_⟩
  · refine ⟨Or.inl, ?_⟩
    rintro (hmem | rfl)
    · exact hmem
    · exact hrequest ▸ hold
  · obtain ⟨r, hr, rfl⟩ := List.mem_map.1 hr'
    exact Or.inr ⟨r, hr, TurnStore.request_renew usage r, TurnStore.key_renew usage r⟩
  · obtain ⟨r, hr⟩ := Option.isSome_iff_exists.1 (Table.get_isSome.2 ((h.rows p.walk.turn).2 hagain))
    refine ⟨TurnStore.renew usage r, by rw [Table.get_update, hr, Option.map_some], fun hrising hle => ?_⟩
    have hcounts := h.counts _ r hr hrising
    have hhere : r.usage.request = requestOf session.sessionId p.walk.turn := by
      refine (h.refs r (Table.mem_rows_iff _ |>.2 ?_) _).2 (Table.key_of_get hr)
      rw [Table.key_of_get hr]
      exact hr
    have hupdates : TurnStore.updates usage r = true := by
      have houtput : r.usage.outputTokens ≤ usage.outputTokens := by
        rw [← hcounts] at hle
        exact hle
      simp [TurnStore.updates, hhere, hrequest, houtput]
    rw [TurnStore.renew, if_pos hupdates]
    rfl
  · rw [Table.get_update]
    cases hr : p.walk.store.usage.get (session.sessionId, t) with
    | none => rfl
    | some r =>
      have hother : r.usage.request ≠ usage.request := by
        rw [hrequest]
        intro heq
        have hmem : r ∈ p.walk.store.usage.rows := by
          rw [Table.mem_rows_iff, Table.key_of_get hr]
          exact hr
        have hkey := (h.refs r hmem _).1 heq
        rw [Table.key_of_get hr] at hkey
        exact ht (congrArg Prod.snd hkey).symm
      have hupdates : TurnStore.updates usage r = false := by simp [TurnStore.updates, hother]
      rw [Option.map_some, TurnStore.renew, hupdates]
      rfl

/-- A usage: its turn has the sums with it. -/
theorem Tallied.usage (h : Tallied session.sessionId entries p) (hattach : attachTurn p.walk.turn = p.walk.turn)
    (ts : Nat) (model : String) (usage : Json) :
    ∃ q, writeTotals session ts model ((p.tokens.forTurn p.walk.turn).add usage) p.walk = .ok q ∧
      q.walk.turn = p.walk.turn ∧ Tallied session.sessionId (entries ++ [(p.walk.turn, usage)]) q := by
  have htokens := h.tokens
  rw [hattach] at htokens
  rw [htokens, ← tally_concat]
  set turn := p.walk.turn with hturn
  set usages := usagesAt entries turn ++ [usage] with husages
  set row := usageRow session ts turn model (tally turn usages) with hrow
  have hcounts : TurnStore.UsageCounts.of row = sums usages := by
    rw [hrow, tally_eq]
    rfl
  have hwritten : ∃ store' isNew changed,
      p.walk.store.writeUsage session.sessionId turn row = .ok (store', isNew, changed) ∧
      Counted session.sessionId turn (fun row => Rising usages → TurnStore.UsageCounts.of row = sums usages) p.walk.store
        store' := by
    by_cases hfirst : usagesAt entries turn = []
    · obtain ⟨store', isNew, changed, hwrite, hcounted⟩ := @Tallied.first _ _ _ h hfirst row rfl
      obtain ⟨r, hr, hsame⟩ := hcounted.row
      exact ⟨store', isNew, changed, hwrite, { hcounted with row := ⟨r, hr, fun _ => hsame.trans hcounts⟩ }⟩
    · obtain ⟨store', isNew, changed, hwrite, hcounted⟩ := @Tallied.again _ _ _ h hfirst row rfl
      obtain ⟨r, hr, hsame⟩ := hcounted.row
      refine ⟨store', isNew, changed, hwrite, { hcounted with row := ⟨r, hr, fun hrising => ?_⟩ }⟩
      have houtput : row.outputTokens = (sums usages).output := congrArg TurnStore.UsageCounts.output hcounts
      exact (hsame hrising.front (houtput ▸ hrising.le)).trans hcounts
  obtain ⟨store', isNew, changed, hwrite, hcounted⟩ := hwritten
  obtain ⟨r, hr, hsums⟩ := hcounted.row
  have hat : ∀ t, usagesAt (entries ++ [(turn, usage)]) t = if turn = t then usages else usagesAt entries t := by
    intro t
    rw [usagesAt_concat]
    split_ifs with heq
    · rw [husages, heq]
    · rfl
  have hne : usages ≠ [] := by simp [husages]
  obtain ⟨stat, hq⟩ : ∃ stat, writeTotals session ts model (tally turn usages) p.walk =
      .ok ⟨⟨store', turn, stat⟩, tally turn usages⟩ := by
    simp only [writeTotals, ← hturn, ← hrow, hwrite]
    exact ⟨_, rfl⟩
  refine ⟨_, hq, rfl, ?_, fun e he => ?_, ?_, ?_, fun t => ?_, fun r' hr' t => ?_, fun t => ?_, fun t r' hr' => ?_⟩
  · show store'.maxTurn session.sessionId = turn
    rw [TurnStore.maxTurn, TurnStore.turnsOf, hcounted.turns]
    exact h.maxTurn
  · rcases List.mem_append.1 he with he | he
    · exact h.le e he
    · rw [List.mem_singleton.1 he]
  · show (tally turn usages).turn ≤ turn
    rw [tally_eq]
  · show (tally turn usages).forTurn (attachTurn turn) = tally (attachTurn turn) (usagesAt _ (attachTurn turn))
    rw [hattach, hat, if_pos rfl, tally_eq, TurnTokens.forTurn, if_neg (not_not.2 rfl)]
  · rw [hcounted.requests, h.requests, hat]
    split_ifs with heq
    · simp [heq, hne]
    · simp [heq]
  · rcases hcounted.refs r' hr' with ⟨hrequest, hkey⟩ | ⟨r₀, hr₀, hrequest, hkey⟩
    · rw [hrequest, hkey, requestOf_inj, Prod.mk.injEq, eq_self_iff_true, true_and]
    · rw [hrequest, hkey]
      exact h.refs r₀ hr₀ t
  · rw [hat, ← Table.get_isSome]
    split_ifs with heq
    · rw [← heq]
      exact iff_of_true (Option.isSome_of_mem hr) hne
    · rw [hcounted.others t heq, Table.get_isSome]
      exact h.rows t
  · rw [hat]
    split_ifs with heq
    · rw [← heq, hr] at hr'
      obtain rfl := Option.some.inj hr'
      exact hsums
    · rw [hcounted.others t heq] at hr'
      exact h.counts t r' hr'

/-- A line: what it adds to the usages is stored. -/
theorem Tallied.line (h : Tallied session.sessionId entries p) (line : Bytes) (rest : List Bytes) :
    ∃ q more, projectLine codec session p line = .ok q ∧
      attached codec p.walk.turn (line :: rest) = more ++ attached codec q.walk.turn rest ∧
      Tallied session.sessionId (entries ++ more) q := by
  rcases projectLine_cases codec session line with ⟨ts, value, usage, hsome, hline⟩ | ⟨hnone, f, hline, hadv, -⟩
  · set model := (value.strField "model").getD "unknown" with hmodel
    obtain ⟨w, hw, hturn, hadv⟩ := usageTurn_spec session.sessionId ts model p.walk
    have hhere := h.advanced hadv
    have hattach : attachTurn w.turn = w.turn := by rw [hturn, attachTurn_attachTurn]
    obtain ⟨q, hq, hqturn, htallied⟩ := hhere.usage hattach ts model usage
    refine ⟨q, [(w.turn, usage)], ?_, ?_, htallied⟩
    · rw [hline]
      simp only [usageRecord, ← hmodel, hw]
      exact hq
    · rw [attached, hsome, hqturn, hturn]
      rfl
  · refine ⟨_, [], hline p, ?_, ?_⟩
    · rw [attached, hnone, List.nil_append, (hadv p.walk).turn]
    · rw [List.append_nil]
      exact h.advanced (hadv p.walk)

/-- **One pass** stores the sums of the usages of its lines. -/
theorem Tallied.lines (lines : List Bytes) (h : Tallied session.sessionId entries p) :
    ∃ q, lines.foldlM (projectLine codec session) p = .ok q ∧
      Tallied session.sessionId (entries ++ attached codec p.walk.turn lines) q := by
  induction lines generalizing entries p with
  | nil => exact ⟨p, rfl, by rwa [attached, List.append_nil]⟩
  | cons line lines ih =>
    obtain ⟨q, more, hq, hattached, htallied⟩ := @Tallied.line codec _ _ _ h line lines
    obtain ⟨r, hr, hrest⟩ := ih htallied
    refine ⟨r, ?_, ?_⟩
    · rw [List.foldlM_cons, hq]
      exact hr
    · rw [hattached, ← List.append_assoc]
      exact hrest

end

end BoopHarness.Kimi
