import HafleyRs.Lib.Greedy

/-!
# Usage windows (`crates/boop-store/src/usage.rs`)

| here | there |
| --- | --- |
| `Block` | :58 |
| `foldCall`, `foldBlocks` | :507, one call and the fold |
| `walkRows`, `planWindows` | `PLAN_CTE` (:724): `walk`, and the grouped select |

A timeline lists the calls, each a time in milliseconds and its tokens, in the order of the times.
`usageWindows` is the rule both follow (`Lib.Greedy`). The fold makes a block of every window the rule opens
(`foldBlocks_eq`), the query a row of every hour a window starts at, so they differ when two windows open
in one floored hour: a window shorter than the hour, and times before the epoch, whose hours are floored
towards zero, allow it.
-/

namespace BoopStore

abbrev Call := Int × Int

structure Block where
  windowStart : Int
  firstTs     : Int
  lastTs      : Int
  calls       : Int
  totalTokens : Int
  isGap       : Bool
deriving DecidableEq, Repr

def hourMs : Int := 3600000

/-- `ts / HOUR_MS * HOUR_MS`: the division drops the rest. -/
def floorHour (ts : Int) : Int := ts.tdiv hourMs * hourMs

/-! ## The fold -/

structure BlockFold where
  blocks     : List Block
  previousTs : Option Int

def foldCall (windowMs : Int) (s : BlockFold) (call : Call) : BlockFold :=
  let ts := call.1
  let tokens := call.2
  let opens : Bool := match s.blocks.getLast?, s.previousTs with
    | none, _ => true
    | some block, some previous => ts - block.windowStart > windowMs || ts - previous > windowMs
    | some _, none => true
  if opens then
    let blocks := match s.previousTs with
      | some previous =>
        if !s.blocks.isEmpty && ts - previous > windowMs then s.blocks ++ [⟨previous, previous, ts, 0, 0, true⟩]
        else s.blocks
      | none => s.blocks
    ⟨blocks ++ [⟨floorHour ts, ts, ts, 1, tokens, false⟩], some ts⟩
  else
    let blocks := match s.blocks.getLast? with
      | some block =>
        s.blocks.dropLast ++
          [{ block with lastTs := ts, calls := block.calls + 1, totalTokens := block.totalTokens + tokens }]
      | none => s.blocks
    ⟨blocks, some ts⟩

def foldBlocks (timeline : List Call) (windowMs : Int) : List Block :=
  (timeline.foldl (foldCall windowMs) ⟨[], none⟩).blocks

/-! ## The rule and the query -/

/-- The start of the window and the time of the call before. -/
abbrev WindowState := Int × Int

def opens (windowMs : Int) (s : WindowState) (call : Call) : Bool :=
  call.1 - s.1 > windowMs || call.1 - s.2 > windowMs

def enterWindow (call : Call) : WindowState := (floorHour call.1, call.1)

def stayInWindow (s : WindowState) (call : Call) : WindowState := (s.1, call.1)

/-- `walk` with the tokens of its row: each call and the window start it was given. -/
def walkRows (windowMs : Int) (timeline : List Call) : List (Call × Int) :=
  (Greedy.states (opens windowMs) enterWindow stayInWindow timeline).map fun p => (p.1, p.2.1)

def tokensOf (calls : List Call) : Int := (calls.map Prod.snd).sum

/-- `GROUP BY walk.window_start ORDER BY walk.window_start` -/
def planWindows (windowMs : Int) (timeline : List Call) : List (Int × Int × Int) :=
  let rows := walkRows windowMs timeline
  (Greedy.sortedKeys rows).map fun start =>
    let group := (rows.filter fun p => p.2 = start).map Prod.fst
    (start, (group.length : Int), tokensOf group)

def usageWindows (windowMs : Int) (timeline : List Call) : List (Call × List Call) :=
  Greedy.windows (opens windowMs) enterWindow stayInWindow timeline

theorem walkRows_tagged (windowMs : Int) (timeline : List Call) : walkRows windowMs timeline =
    Greedy.tagged enterWindow Prod.fst (usageWindows windowMs timeline) :=
  @Greedy.states_tagged _ _ _ (opens windowMs) enterWindow stayInWindow Prod.fst (fun _ _ => rfl) timeline

/-! ## The fold follows the rule -/

/-- The block of a window. -/
def blockOf (w : Call × List Call) : Block where
  windowStart := floorHour w.1.1
  firstTs := w.1.1
  lastTs := ((Greedy.members w).getLast (List.cons_ne_nil _ _)).1
  calls := (Greedy.members w).length
  totalTokens := tokensOf (Greedy.members w)
  isGap := false

@[simp] theorem blockOf_windowStart (w : Call × List Call) : (blockOf w).windowStart = floorHour w.1.1 := rfl

def real (blocks : List Block) : List Block := blocks.filter fun b => !b.isGap

theorem real_append (as bs : List Block) : real (as ++ bs) = real as ++ real bs := List.filter_append ..

theorem real_gap (b : Block) (h : b.isGap = true) : real [b] = [] := by simp [real, h]

theorem real_blockOf (w : Call × List Call) : real [blockOf w] = [blockOf w] := rfl

/-- One more call in a window. -/
theorem blockOf_concat (a : Call) (seen : List Call) (c : Call) : blockOf (a, seen ++ [c]) =
    { blockOf (a, seen) with
      lastTs := c.1
      calls := (blockOf (a, seen)).calls + 1
      totalTokens := (blockOf (a, seen)).totalTokens + c.2 } := by
  have hmembers : Greedy.members (a, seen ++ [c]) = Greedy.members (a, seen) ++ [c] := rfl
  simp only [blockOf, hmembers, List.getLast_append_singleton, List.length_append, List.length_singleton,
    tokensOf, List.map_append, List.sum_append]
  simp

section
variable {windowMs : Int} {blocks : List Block} {a : Call} {seen : List Call} {previous : Int} {c : Call}

theorem foldCall_stay (h : opens windowMs (floorHour a.1, previous) c = false) :
    foldCall windowMs ⟨blocks ++ [blockOf (a, seen)], some previous⟩ c =
      ⟨blocks ++ [blockOf (a, seen ++ [c])], some c.1⟩ := by
  unfold foldCall
  simp only [List.getLast?_concat, List.dropLast_concat]
  rw [if_neg (by simpa [opens] using h), blockOf_concat]

theorem foldCall_open (h : opens windowMs (floorHour a.1, previous) c = true) : ∃ gap,
    foldCall windowMs ⟨blocks ++ [blockOf (a, seen)], some previous⟩ c =
      ⟨blocks ++ [blockOf (a, seen)] ++ gap ++ [blockOf (c, [])], some c.1⟩ ∧ real gap = [] := by
  unfold foldCall
  simp only [List.getLast?_concat]
  rw [if_pos (by simpa [opens] using h)]
  have hnew : (⟨floorHour c.1, c.1, c.1, 1, c.2, false⟩ : Block) = blockOf (c, []) := by
    simp [blockOf, Greedy.members, tokensOf]
  rw [hnew]
  split
  · exact ⟨_, rfl, real_gap _ rfl⟩
  · exact ⟨[], by simp, rfl⟩

/-- The loop, from the middle of a window. -/
theorem fold_spec (cs : List Call) : ∀ (blocks : List Block) (a : Call) (seen : List Call) (previous : Int),
    real (cs.foldl (foldCall windowMs) ⟨blocks ++ [blockOf (a, seen)], some previous⟩).blocks =
      real blocks ++
        [blockOf (a, seen ++ (Greedy.cut (opens windowMs) enterWindow stayInWindow (floorHour a.1, previous) cs).1)] ++
          (Greedy.cut (opens windowMs) enterWindow stayInWindow (floorHour a.1, previous) cs).2.map blockOf := by
  induction cs with
  | nil =>
    intro blocks a seen previous
    simp [Greedy.cut, real_append, real_blockOf]
  | cons c cs ih =>
    intro blocks a seen previous
    rw [List.foldl_cons]
    by_cases h : opens windowMs (floorHour a.1, previous) c = true
    · obtain ⟨gap, hstep, hgap⟩ := @foldCall_open _ blocks _ seen _ _ h
      rw [hstep, ih, real_append, real_append, real_blockOf, hgap, Greedy.cut, if_pos h]
      simp [enterWindow]
    · have hstep := @foldCall_stay _ blocks _ seen _ _ (by simpa using h)
      rw [hstep, ih, Greedy.cut, if_neg h]
      simp [stayInWindow]

end

/-- **`fold_blocks` (usage.rs:507)**: a block for every window of the rule. -/
theorem foldBlocks_eq (timeline : List Call) (windowMs : Int) :
    real (foldBlocks timeline windowMs) = (usageWindows windowMs timeline).map blockOf := by
  cases timeline with
  | nil => rfl
  | cons c cs =>
    have hfirst : foldCall windowMs ⟨[], none⟩ c = ⟨[] ++ [blockOf (c, [])], some c.1⟩ := by
      simp [foldCall, blockOf, Greedy.members, tokensOf]
    rw [foldBlocks, List.foldl_cons, hfirst, fold_spec]
    rfl

/-! ## The fold and the query -/

/-- The key of a window is the hour it starts at. -/
def starts (windowMs : Int) (timeline : List Call) : List Int :=
  Greedy.keys enterWindow Prod.fst (usageWindows windowMs timeline)

/-- What the query returns of a block. -/
def Block.row (b : Block) : Int × Int × Int := (b.windowStart, b.calls, b.totalTokens)

def foldWindows (timeline : List Call) (windowMs : Int) : List (Int × Int × Int) :=
  (real (foldBlocks timeline windowMs)).map Block.row

theorem foldWindows_eq (timeline : List Call) (windowMs : Int) : foldWindows timeline windowMs =
    (usageWindows windowMs timeline).map fun w =>
      (floorHour w.1.1, ((Greedy.members w).length : Int), tokensOf (Greedy.members w)) := by
  rw [foldWindows, foldBlocks_eq, List.map_map]
  rfl

/-- Rising window starts make the groups the windows. -/
theorem planWindows_of_lt {windowMs : Int} {timeline : List Call} (h : (starts windowMs timeline).Pairwise (· < ·)) :
    planWindows windowMs timeline = foldWindows timeline windowMs := by
  unfold planWindows
  simp only
  rw [walkRows_tagged, Greedy.sortedKeys_tagged h, foldWindows_eq, Greedy.keys, List.map_map]
  refine List.map_congr_left fun w hw => ?_
  have hgroup := Greedy.filter_tagged (h.imp fun hlt => hlt.ne) hw
  have hmembers : ((Greedy.members w).map fun a => (a, (enterWindow w.1).1)).map Prod.fst = Greedy.members w := by
    rw [List.map_map]
    exact List.map_id _
  simp only [Function.comp_apply]
  rw [hgroup, hmembers]
  rfl

theorem nodup_of_planWindows {windowMs : Int} {timeline : List Call}
    (h : foldWindows timeline windowMs = planWindows windowMs timeline) : (starts windowMs timeline).Nodup := by
  by_contra hdup
  have hlt := Greedy.length_keys_lt hdup
  have hlength := congrArg List.length h
  rw [foldWindows_eq, planWindows, List.length_map, List.length_map, walkRows_tagged] at hlength
  rw [← hlength, Greedy.keys, List.length_map] at hlt
  exact lt_irrefl _ hlt

/-! ## Window starts -/

theorem floorHour_mono {a b : Int} (h : a ≤ b) : floorHour a ≤ floorHour b := by
  unfold floorHour hourMs
  have hdiv : a.tdiv 3600000 ≤ b.tdiv 3600000 := Int.tdiv_le_tdiv (by decide) h
  omega

theorem starts_le {windowMs : Int} {timeline : List Call} (h : timeline.Pairwise fun a b => a.1 ≤ b.1) :
    (starts windowMs timeline).Pairwise (· ≤ ·) := by
  have hsub := Greedy.openers_sublist (usageWindows windowMs timeline)
  rw [usageWindows, Greedy.windows_flatten] at hsub
  have hopeners : ((usageWindows windowMs timeline).map Prod.fst).Pairwise fun a b => a.1 ≤ b.1 := h.sublist hsub
  rw [List.pairwise_map] at hopeners
  exact List.pairwise_map.2 (hopeners.imp fun hle => floorHour_mono hle)

/-- No call opens a window in the hour that the window it leaves starts at. -/
def NoReopenFrom (windowMs : Int) : WindowState → List Call → Prop
  | _, [] => True
  | s, c :: cs =>
    if opens windowMs s c then floorHour c.1 ≠ s.1 ∧ NoReopenFrom windowMs (enterWindow c) cs
    else NoReopenFrom windowMs (stayInWindow s c) cs

def NoReopen (windowMs : Int) : List Call → Prop
  | [] => True
  | c :: cs => NoReopenFrom windowMs (enterWindow c) cs

theorem noReopenFrom_iff {windowMs : Int} (s : WindowState) (cs : List Call) : NoReopenFrom windowMs s cs ↔
    (s.1 :: Greedy.keys enterWindow Prod.fst (Greedy.cut (opens windowMs) enterWindow stayInWindow s cs).2).IsChain
      (· ≠ ·) := by
  induction cs generalizing s with
  | nil => exact iff_of_true trivial (List.isChain_singleton _)
  | cons c cs ih =>
    unfold NoReopenFrom Greedy.cut
    by_cases h : opens windowMs s c = true
    · simp only [if_pos h, Greedy.keys, List.map_cons]
      rw [List.isChain_cons_cons, ih]
      exact and_congr_left' ne_comm
    · simp only [if_neg h]
      exact ih (stayInWindow s c)

theorem noReopen_iff {windowMs : Int} (timeline : List Call) :
    NoReopen windowMs timeline ↔ (starts windowMs timeline).IsChain (· ≠ ·) := by
  cases timeline with
  | nil => exact iff_of_true trivial List.isChain_nil
  | cons c cs => exact noReopenFrom_iff (enterWindow c) cs

theorem pairwise_lt_of_chain {keys : List Int} (hle : keys.Pairwise (· ≤ ·)) (hne : keys.IsChain (· ≠ ·)) :
    keys.Pairwise (· < ·) := by
  induction keys with
  | nil => exact .nil
  | cons k keys ih =>
    cases keys with
    | nil => exact List.pairwise_singleton ..
    | cons next keys =>
      obtain ⟨hk, hrest⟩ := List.pairwise_cons.1 hle
      obtain ⟨hkn, hne⟩ := List.isChain_cons_cons.1 hne
      have hlt : k < next := lt_of_le_of_ne (hk next (List.mem_cons_self ..)) hkn
      refine List.pairwise_cons.2 ⟨fun x hx => ?_, ih hrest hne⟩
      rcases List.mem_cons.1 hx with rfl | hx
      · exact hlt
      · exact hlt.trans_le ((List.pairwise_cons.1 hrest).1 x hx)

/-! ## Times since the epoch -/

/-- Of two neighbours in one hour, the later is no further into it than a window reaches. -/
def Close (windowMs : Int) (b c : Call) : Prop := floorHour b.1 = floorHour c.1 → c.1 - floorHour c.1 ≤ windowMs

theorem floorHour_of_nonneg {ts : Int} (h : 0 ≤ ts) : floorHour ts = ts - ts % 3600000 := by
  rw [floorHour, hourMs, Int.tdiv_eq_ediv_of_nonneg h]
  omega

/-- From inside a window that starts at `start` and has come to the call `b`. -/
theorem noReopenFrom_close {windowMs : Int} (cs : List Call) : ∀ (start : Int) (b : Call), 0 ≤ b.1 → 3600000 ∣ start →
    start ≤ floorHour b.1 → (start < floorHour b.1 → b.1 - start ≤ windowMs) →
    ((b :: cs).Pairwise fun a b => a.1 ≤ b.1) →
      (NoReopenFrom windowMs (start, b.1) cs ↔ (b :: cs).IsChain (Close windowMs)) := by
  induction cs with
  | nil => exact fun _ _ _ _ _ _ _ => iff_of_true trivial (List.isChain_singleton _)
  | cons c cs ih =>
    intro start b hb hdvd hle hin hsorted
    obtain ⟨hfirst, hrest⟩ := List.pairwise_cons.1 hsorted
    have hbc : b.1 ≤ c.1 := hfirst c (List.mem_cons_self ..)
    have hc : 0 ≤ c.1 := hb.trans hbc
    have hmono := floorHour_mono hbc
    have hfloorb := floorHour_of_nonneg hb
    have hfloorc := floorHour_of_nonneg hc
    unfold NoReopenFrom
    rw [List.isChain_cons_cons]
    by_cases hopens : opens windowMs (start, b.1) c = true
    · have hcut : c.1 - start > windowMs ∨ c.1 - b.1 > windowMs := by simpa [opens] using hopens
      have hnew : NoReopenFrom windowMs (enterWindow c) cs ↔ (c :: cs).IsChain (Close windowMs) :=
        ih (floorHour c.1) c hc (by rw [hfloorc]; omega) le_rfl (fun h => absurd h (lt_irrefl _)) hrest
      have hthis : floorHour c.1 ≠ start ↔ Close windowMs b c := by
        unfold Close
        constructor
        · intro hne hsame
          by_contra hfar
          have hlt : start < floorHour b.1 := lt_of_le_of_ne hle fun h => hne (hsame.symm.trans h.symm)
          have := hin hlt
          omega
        · rintro hclose rfl
          have := hclose (le_antisymm hmono hle)
          omega
      rw [if_pos hopens, hnew, hthis]
    · have hstay : c.1 - start ≤ windowMs ∧ c.1 - b.1 ≤ windowMs := by simpa [opens] using hopens
      have hthis : Close windowMs b c := by
        intro hsame
        have : start ≤ floorHour c.1 := hle.trans hmono
        omega
      have hnew : NoReopenFrom windowMs (stayInWindow (start, b.1) c) cs ↔ (c :: cs).IsChain (Close windowMs) :=
        ih start c hc hdvd (hle.trans hmono) (fun _ => hstay.1) hrest
      rw [if_neg hopens, hnew]
      exact (and_iff_right hthis).symm

theorem noReopen_close {windowMs : Int} {timeline : List Call} (hsorted : timeline.Pairwise fun a b => a.1 ≤ b.1)
    (hnonneg : ∀ c ∈ timeline, 0 ≤ c.1) : NoReopen windowMs timeline ↔ timeline.IsChain (Close windowMs) := by
  cases timeline with
  | nil => exact iff_of_true trivial List.isChain_nil
  | cons c cs =>
    have hc := hnonneg c (List.mem_cons_self ..)
    have hdvd : (3600000 : Int) ∣ floorHour c.1 := by
      rw [floorHour_of_nonneg hc]
      omega
    exact noReopenFrom_close cs (floorHour c.1) c hc hdvd le_rfl (fun h => absurd h (lt_irrefl _)) hsorted

/-! ## Agreement -/

/-- The fold and the query return the same windows, and these are the timeline cut by the rule. -/
structure WindowsAgree (timeline : List Call) (windowMs : Int) : Prop where
  rows   : foldWindows timeline windowMs = planWindows windowMs timeline
  each   : (usageWindows windowMs timeline).flatMap Greedy.members = timeline
  blocks : real (foldBlocks timeline windowMs) = (usageWindows windowMs timeline).map blockOf
  calls  : ((real (foldBlocks timeline windowMs)).map Block.calls).sum = timeline.length
  tokens : ((real (foldBlocks timeline windowMs)).map Block.totalTokens).sum = tokensOf timeline

theorem totals_flatMap (ws : List (Call × List Call)) :
    ((ws.map blockOf).map Block.calls).sum = (ws.flatMap Greedy.members).length ∧
    ((ws.map blockOf).map Block.totalTokens).sum = tokensOf (ws.flatMap Greedy.members) := by
  induction ws with
  | nil => exact ⟨rfl, rfl⟩
  | cons w ws ih =>
    simp only [List.map_cons, List.sum_cons, List.flatMap_cons, List.length_append, tokensOf, List.map_append,
      List.sum_append]
    rw [ih.1, ih.2]
    exact ⟨by push_cast; rfl, rfl⟩

/-- **The fold against the query**: they agree when, and only when, no window is opened in the hour that
    the window before it starts at. For times since the epoch this is said of neighbours alone. -/
theorem windows_agree {timeline : List Call} (hsorted : timeline.Pairwise fun a b => a.1 ≤ b.1) (windowMs : Int) :
    (WindowsAgree timeline windowMs ↔ NoReopen windowMs timeline) ∧
    ((∀ c ∈ timeline, 0 ≤ c.1) → (NoReopen windowMs timeline ↔ timeline.IsChain (Close windowMs))) := by
  refine ⟨⟨fun h => ?_, fun h => ?_⟩, noReopen_close hsorted⟩
  · exact (noReopen_iff timeline).2 (nodup_of_planWindows h.rows).isChain
  · have hlt := pairwise_lt_of_chain (starts_le hsorted) ((noReopen_iff timeline).1 h)
    have hflatten : (usageWindows windowMs timeline).flatMap Greedy.members = timeline :=
      Greedy.windows_flatten timeline
    have hblocks := foldBlocks_eq timeline windowMs
    obtain ⟨hcalls, htokens⟩ := totals_flatMap (usageWindows windowMs timeline)
    rw [hflatten] at hcalls htokens
    rw [← hblocks] at hcalls htokens
    exact ⟨(planWindows_of_lt hlt).symm, hflatten, hblocks, hcalls, htokens⟩

/-- Two calls at ten to and five to the hour, for windows of half an hour. -/
theorem half_hour_windows : ¬ ∀ (timeline : List Call) (windowMs : Int),
    (timeline.Pairwise fun a b => a.1 ≤ b.1) → 0 < windowMs → WindowsAgree timeline windowMs := by
  intro h
  have hrows := (h [(3000000, 10), (3300000, 20)] 1800000 (by decide) (by decide)).rows
  exact absurd hrows (by decide +kernel)

/-- A gap between two windows of five hours. -/
theorem windows_agree_gap : WindowsAgree [(3600000, 10), (32400000, 20), (32460000, 30)] 18000000 :=
  (windows_agree (by decide) 18000000).1.2 (by simp [NoReopen, NoReopenFrom, opens, enterWindow, floorHour, hourMs])

end BoopStore
