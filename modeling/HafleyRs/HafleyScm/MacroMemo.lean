import HafleyRs.Lib.Machine
import HafleyRs.HafleyScm.MacroFixpoint
import HafleyRs.HafleyScm.MacroRules

/-!
# Failed shapes

A pass does not try a call whose shape has failed. Where the calls of one definition and one shape differ in nothing
that a matcher sees (`Agree`), they match or fail together, and a pass edits the calls that expand on their own, no
more and no fewer (`memo_unchanged`), whatever passes went before. A shape forgets the underscore, and a fragment's
name that a matcher has behind a `:` of its own: these a matcher sees (`underscore_first`).
-/

namespace HafleyScm.Expansion
open Machine

/-! ## The matcher -/

/-- The literal tokens of a definition's matchers, as `invocationShape` collects them. -/
def literalsIn (body : List TokenTree) : List Text := (matchers body).flatMap (matcherLiterals false false)

/-- The words that they name. -/
def wordsIn (body : List TokenTree) : List Text := (matchers body).flatMap (matcherWords 0)

/-- A call of some text. -/
def IsCall (engine : Engine) (call : Text) : Prop :=
  ∃ text, ∃ inv ∈ callsIn engine text none, call = slice text inv.range

/-- The tokens are those of the language, and a call that has none is not the text of a shape. -/
def Lexes (engine : Engine) : Prop :=
  ∃ I L, Lexicon I L ∧ (∀ text ts, engine.tokens text = some ts → Written I L ts) ∧
    ∀ call, IsCall engine call → engine.tokens call = none →
      ∀ other ts literals, engine.tokens other = some ts → appendShape literals ts ≠ call

/-- Whether an attempt failed, and so that its shape is remembered. -/
def ExpansionAttempt.failure : ExpansionAttempt → Option Bool
  | .failed memoizeShape => some memoizeShape
  | .expanded _ => none

/-- Calls that the matchers of a definition cannot tell apart both match, or fail in one way. -/
def MatchesAlike {κ : Type} (engine : Engine) (parsers : Parsers κ) : Prop :=
  ∀ d body call call' ts ts', (engine.tokens d).bind firstGroup = some body → engine.tokens call = some ts →
    engine.tokens call' = some ts' → Indistinct parsers (wordsIn body) ts ts' →
    (engine.expand d call).failure = (engine.expand d call').failure

/-- Where two calls of a definition have the same tokens but for forgotten words, its matchers see those words alike. -/
def Agree {κ : Type} (engine : Engine) (parsers : Parsers κ) (k k' : Key) : Prop :=
  ∀ body ts ts', (engine.tokens k.1).bind firstGroup = some body → engine.tokens k.2 = some ts →
    engine.tokens k'.2 = some ts' →
    Alike (Joined (ForgottenIdent (literalsIn body))) (Joined (ForgottenLiteral (literalsIn body))) ts ts' →
    (forgottenIdents (literalsIn body) ts).map (seenIdent parsers (wordsIn body)) =
      (forgottenIdents (literalsIn body) ts').map (seenIdent parsers (wordsIn body)) ∧
    (forgottenLiterals (literalsIn body) ts).map (seenLiteral parsers (wordsIn body)) =
      (forgottenLiterals (literalsIn body) ts').map (seenLiteral parsers (wordsIn body))

def keyShape (engine : Engine) (k : Key) : Text := invocationShape engine k.1 k.2

section
variable {κ : Type} {engine : Engine} {parsers : Parsers κ}

/-- **Calls of one shape** fail together, where they agree. -/
theorem failure_of_shape (hlex : Lexes engine) (hmatches : MatchesAlike engine parsers) {k k' : Key}
    (hcall : IsCall engine k.2) (hcall' : IsCall engine k'.2) (hdefinition : k.1 = k'.1)
    (hshape : keyShape engine k = keyShape engine k') (hagree : Agree engine parsers k k') :
    (engine.expand k.1 k.2).failure = (engine.expand k'.1 k'.2).failure := by
  obtain ⟨d, call⟩ := k
  obtain ⟨d', call'⟩ := k'
  obtain rfl : d = d' := hdefinition
  obtain ⟨I, L, hlexicon, hwritten, hunread⟩ := hlex
  unfold keyShape invocationShape at hshape
  cases hbody : (engine.tokens d).bind firstGroup with
  | none =>
    simp only [hbody] at hshape
    rw [hshape]
  | some body =>
    simp only [hbody] at hshape
    cases hts : engine.tokens call with
    | none =>
      cases hts' : engine.tokens call' with
      | none =>
        simp only [hts, hts'] at hshape
        rw [hshape]
      | some ts' =>
        simp only [hts, hts'] at hshape
        exact absurd hshape.symm (hunread call hcall hts call' ts' _ hts')
    | some ts =>
      cases hts' : engine.tokens call' with
      | none =>
        simp only [hts, hts'] at hshape
        exact absurd hshape (hunread call' hcall' hts' call ts _ hts)
      | some ts' =>
        simp only [hts, hts'] at hshape
        have hend : appendShape (literalsIn body) ts ++ [] = appendShape (literalsIn body) ts' ++ [] := by
          rw [List.append_nil, List.append_nil]
          exact hshape
        obtain ⟨halike, -⟩ := shape_inj hlexicon (hwritten call ts hts) (hwritten call' ts' hts') (Or.inl rfl)
          (Or.inl rfl) hend
        obtain ⟨hidents, hliterals⟩ := hagree body ts ts' hbody hts hts' halike
        exact hmatches d body call call' ts ts' hbody hts hts' (halike.of_forgotten hidents hliterals)

end

/-! ## A pass, call by call -/

/-- A call that expands on its own. -/
def Expands (engine : Engine) (text : Text) (inv : Invocation) (replacement : Text) : Prop :=
  ∃ d, definition (rulesIn engine text) inv.name = some d ∧
    engine.expand d (slice text inv.range) = .expanded replacement

/-- The edit of a call that expands on its own. -/
def EditOf (engine : Engine) (text : Text) (calls : List Invocation) (e : Edit) : Prop :=
  ∃ inv ∈ calls, ∃ replacement, Expands engine text inv replacement ∧ e = ⟨inv.range, replacement, inv.name⟩

/-- A shape that is remembered was so before, or is that of a call of the pass that failed. -/
def ShapeFrom (engine : Engine) (keys : List Key) (shapes : List Key) (shape : Key) : Prop :=
  shape ∈ shapes ∨ ∃ k ∈ keys, engine.expand k.1 k.2 = .failed true ∧ shape = (k.1, keyShape engine k)

def keysIn (engine : Engine) (text : Text) (scope : Option (List ByteRange)) : List Key :=
  (callsIn engine text scope).filterMap fun inv =>
    (definition (rulesIn engine text) inv.name).map fun d => (d, slice text inv.range)

section
variable {engine : Engine} {text : Text} {all : List Invocation}

theorem sortCall_edits {s : Sorted} (hsound : ∀ k r, (k, r) ∈ s.memo.expanded → engine.expand k.1 k.2 = .expanded r)
    (hedits : ∀ e ∈ s.edits, EditOf engine text all e) {inv : Invocation} (hinv : inv ∈ all) :
    (sortCall engine text (rulesIn engine text) s inv).memo.expanded = s.memo.expanded ∧
      ∀ e ∈ (sortCall engine text (rulesIn engine text) s inv).edits, EditOf engine text all e := by
  rw [sortCall]
  cases hd : definition (rulesIn engine text) inv.name with
  | none => exact ⟨rfl, hedits⟩
  | some d =>
    simp only
    cases hmemo : s.memo.expanded.lookup (d, slice text inv.range) with
    | some replacement =>
      refine ⟨rfl, fun e he => ?_⟩
      rcases List.mem_append.1 he with he | he
      · exact hedits e he
      · rw [List.mem_singleton.1 he]
        exact ⟨inv, hinv, replacement, ⟨d, hd, hsound _ _ (lookup_mem hmemo)⟩, rfl⟩
    | none =>
      by_cases hfailed : (d, slice text inv.range) ∈ s.memo.failed
      · rw [if_pos hfailed]
        exact ⟨rfl, hedits⟩
      · rw [if_neg hfailed]
        split_ifs
        · exact ⟨rfl, hedits⟩
        · exact ⟨rfl, hedits⟩

theorem sortCalls_edits (calls : List Invocation) {s : Sorted}
    (hsound : ∀ k r, (k, r) ∈ s.memo.expanded → engine.expand k.1 k.2 = .expanded r)
    (hedits : ∀ e ∈ s.edits, EditOf engine text all e) (hall : ∀ inv ∈ calls, inv ∈ all) :
    ∀ e ∈ (calls.foldl (sortCall engine text (rulesIn engine text)) s).edits, EditOf engine text all e := by
  induction calls generalizing s with
  | nil => exact hedits
  | cons inv calls ih =>
    obtain ⟨hexpanded, hedits'⟩ := sortCall_edits hsound hedits (hall inv (List.mem_cons_self ..))
    refine ih (fun k r hk => hsound k r ?_) hedits' fun i hi => hall i (List.mem_cons_of_mem _ hi)
    rwa [hexpanded] at hk

/-- What the attempts leave. -/
structure AttemptsOk (engine : Engine) (text : Text) (all : List Invocation) (keys shapes : List Key) (r : Recorded) :
    Prop where
  edits  : ∀ e ∈ r.edits, EditOf engine text all e
  shapes : ∀ shape ∈ r.memo.failedShapes, ShapeFrom engine keys shapes shape

variable {keys shapes : List Key}

theorem recordAttempt_traced {r : Recorded} (h : AttemptsOk engine text all keys shapes r) {p : PendingExpansion}
    (hp : CallOf engine text all p) :
    AttemptsOk engine text all keys shapes (recordAttempt r p (attempt engine p)) := by
  obtain ⟨hmem, d, hd, hkey⟩ := hp
  cases hattempt : attempt engine p with
  | failed m => exact ⟨h.edits, h.shapes⟩
  | expanded t =>
    refine ⟨fun e he => ?_, h.shapes⟩
    rcases List.mem_append.1 he with he | he
    · exact h.edits e he
    · rw [List.mem_singleton.1 he]
      rw [attempt, hkey] at hattempt
      exact ⟨_, hmem, t, ⟨d, hd, hattempt⟩, rfl⟩

theorem settleGroup_traced {s : Recorded × List PendingExpansion} (h : AttemptsOk engine text all keys shapes s.1)
    {group : Key × List PendingExpansion}
    (hgroup : ∀ p ∈ group.2, CallOf engine text all p ∧ p.key ∈ keys ∧ group.1 = (p.key.1, keyShape engine p.key)) :
    AttemptsOk engine text all keys shapes (settleGroup engine s group).1 := by
  rw [settleGroup]
  cases hmembers : group.2 with
  | nil => exact h
  | cons first members =>
    rw [hmembers] at hgroup
    obtain ⟨hcall, hkey, hshape⟩ := hgroup first (List.mem_cons_self ..)
    have hrecorded := recordAttempt_traced h hcall
    simp only
    cases hattempt : attempt engine first with
    | expanded t =>
      rw [hattempt] at hrecorded
      exact hrecorded
    | failed memoizeShape =>
      rw [hattempt] at hrecorded
      cases memoizeShape with
      | false => exact hrecorded
      | true =>
        refine ⟨h.edits, fun shape hmem => ?_⟩
        rcases List.mem_cons.1 hmem with rfl | hmem
        · exact Or.inr ⟨first.key, hkey, hattempt, hshape⟩
        · exact h.shapes shape hmem

theorem settleGroup_pending {s : Recorded × List PendingExpansion} (h : ∀ p ∈ s.2, CallOf engine text all p)
    {group : Key × List PendingExpansion} (hgroup : ∀ p ∈ group.2, CallOf engine text all p) :
    ∀ p ∈ (settleGroup engine s group).2, CallOf engine text all p := by
  have hmore : ∀ first members, group.2 = first :: members → ∀ p ∈ s.2 ++ members, CallOf engine text all p := by
    intro first members hmembers p hp
    rcases List.mem_append.1 hp with hp | hp
    · exact h p hp
    · exact hgroup p (hmembers ▸ List.mem_cons_of_mem _ hp)
  rw [settleGroup]
  cases hmembers : group.2 with
  | nil => exact h
  | cons first members =>
    simp only
    split
    · exact h
    · exact hmore first members hmembers

theorem settleGroups_traced (groups : List (Key × List PendingExpansion)) {s : Recorded × List PendingExpansion}
    (h : AttemptsOk engine text all keys shapes s.1) (hpending : ∀ p ∈ s.2, CallOf engine text all p)
    (hgroups : ∀ g ∈ groups, ∀ p ∈ g.2,
      CallOf engine text all p ∧ p.key ∈ keys ∧ g.1 = (p.key.1, keyShape engine p.key)) :
    AttemptsOk engine text all keys shapes (groups.foldl (settleGroup engine) s).1 ∧
      ∀ p ∈ (groups.foldl (settleGroup engine) s).2, CallOf engine text all p := by
  induction groups generalizing s with
  | nil => exact ⟨h, hpending⟩
  | cons g groups ih =>
    have hhere := hgroups g (List.mem_cons_self ..)
    exact ih (settleGroup_traced h hhere) (settleGroup_pending hpending fun p hp => (hhere p hp).1)
      fun g' hg' => hgroups g' (List.mem_cons_of_mem _ hg')

theorem recordAttempts_traced (remaining : List PendingExpansion) {r : Recorded}
    (h : AttemptsOk engine text all keys shapes r) (hpending : ∀ p ∈ remaining, CallOf engine text all p) :
    AttemptsOk engine text all keys shapes
      (remaining.foldl (fun r pending => recordAttempt r pending (attempt engine pending)) r) := by
  induction remaining generalizing r with
  | nil => exact h
  | cons p remaining ih =>
    exact ih (recordAttempt_traced h (hpending p (List.mem_cons_self ..)))
      fun p' hp' => hpending p' (List.mem_cons_of_mem _ hp')

theorem key_mem {scope : Option (List ByteRange)} {inv : Invocation} (hinv : inv ∈ callsIn engine text scope) {d : Text}
    (hd : definition (rulesIn engine text) inv.name = some d) : (d, slice text inv.range) ∈ keysIn engine text scope :=
  List.mem_filterMap.2 ⟨inv, hinv, by rw [hd, Option.map_some]⟩

/-- **A pass** edits calls that expand on their own, and remembers shapes of calls that failed. -/
theorem expandPass_traced {scope : Option (List ByteRange)} {memo : Memo} (hmemo : MemoSound engine memo)
    (hsafe : ShapeSafe engine text scope memo) :
    (∀ e ∈ (expandPass engine text scope memo).1, EditOf engine text (callsIn engine text scope) e) ∧
      ∀ shape ∈ (expandPass engine text scope memo).2.failedShapes,
        ShapeFrom engine (keysIn engine text scope) memo.failedShapes shape := by
  have hsorted := sorted_ok hmemo hsafe
  have hedits := @sortCalls_edits engine text (callsIn engine text scope) (callsIn engine text scope) ⟨[], [], memo⟩
    hmemo.expanded (fun e he => (List.not_mem_nil he).elim) fun inv hinv => hinv
  set sorted := (callsIn engine text scope).foldl (sortCall engine text (rulesIn engine text)) ⟨[], [], memo⟩
  have hgroups : ∀ g ∈ sorted.groups, ∀ p ∈ g.2, CallOf engine text (callsIn engine text scope) p ∧
      p.key ∈ keysIn engine text scope ∧ g.1 = (p.key.1, keyShape engine p.key) := by
    intro g hg p hp
    obtain ⟨hcall, hshape⟩ := hsorted.groups g hg p hp
    refine ⟨hcall, ?_, ?_⟩
    · obtain ⟨hinv, d, hd, hkey⟩ := hcall
      rw [hkey]
      exact key_mem hinv hd
    · obtain ⟨hinv, d, hd, hkey⟩ := hcall
      rw [hshape, keyShape, shapeOf, hkey]
  have hstart : AttemptsOk engine text (callsIn engine text scope) (keysIn engine text scope) memo.failedShapes
      ⟨sorted.memo, sorted.edits⟩ := ⟨hedits, fun shape hshape => Or.inl (hsorted.shapes ▸ hshape)⟩
  obtain ⟨hsettled, hpending⟩ := settleGroups_traced sorted.groups (s := (⟨sorted.memo, sorted.edits⟩, [])) hstart
    (fun p hp => (List.not_mem_nil hp).elim) hgroups
  have hend := recordAttempts_traced _ hsettled hpending
  exact ⟨hend.edits, hend.shapes⟩

end

/-! ## Passes -/

abbrev Pass := Text × Option (List ByteRange)

/-- The memo between two passes, and the calls so far with their definitions. -/
structure Passes where
  memo : Memo
  seen : List Key

namespace Passes

def start : Passes := ⟨.empty, []⟩

def edits (engine : Engine) (s : Passes) (p : Pass) : List Edit := (expandPass engine p.1 p.2 s.memo).1

def after (engine : Engine) (s : Passes) (p : Pass) : Passes :=
  ⟨(expandPass engine p.1 p.2 s.memo).2, s.seen ++ keysIn engine p.1 p.2⟩

/-- The calls of this pass and those before it. -/
def calls (engine : Engine) (s : Passes) (p : Pass) : List Key := s.seen ++ keysIn engine p.1 p.2

/-- The calls of a definition agree. -/
def Tellable {κ : Type} (engine : Engine) (parsers : Parsers κ) (s : Passes) (p : Pass) : Prop :=
  ∀ k ∈ s.calls engine p, ∀ k' ∈ s.calls engine p, k.1 = k'.1 → Agree engine parsers k k'

/-- The memo changes nothing: the edits are those of the calls that expand on their own, and calls of one definition and
    one shape match, or fail in one way, together. -/
structure Unchanged (engine : Engine) (s : Passes) (p : Pass) : Prop where
  edits    : ∀ e, e ∈ s.edits engine p ↔ EditOf engine p.1 (callsIn engine p.1 p.2) e
  together : ∀ k ∈ s.calls engine p, ∀ k' ∈ s.calls engine p, k.1 = k'.1 → keyShape engine k = keyShape engine k' →
    (engine.expand k.1 k.2).failure = (engine.expand k'.1 k'.2).failure

/-- What the memo remembers is so. -/
structure Traced (engine : Engine) (s : Passes) : Prop where
  sound  : MemoSound engine s.memo
  calls  : ∀ k ∈ s.seen, IsCall engine k.2
  shapes : ∀ shape ∈ s.memo.failedShapes, ShapeFrom engine s.seen [] shape

end Passes

mutual
/-- The calls in scope are calls. -/
theorem collectCalls_subset {rules : List (Text × Text)} {scope : Option (List ByteRange)} {inv : Invocation} :
    ∀ t : Cst, inv ∈ collectCalls rules scope t → inv ∈ collectCalls rules none t
  | .node label children, h => by
    rw [collectCalls] at h ⊢
    split_ifs at h
    · cases h
    · rw [if_neg (by simp [inScope])]
      refine List.mem_append.2 ((List.mem_append.1 h).imp_right fun hbelow => ?_)
      exact collectCallsList_subset children hbelow
theorem collectCallsList_subset {rules : List (Text × Text)} {scope : Option (List ByteRange)} {inv : Invocation} :
    ∀ ts : List Cst, inv ∈ collectCallsList rules scope ts → inv ∈ collectCallsList rules none ts
  | [], h => h
  | t :: ts, h => by
    rw [collectCallsList] at h ⊢
    exact List.mem_append.2 ((List.mem_append.1 h).imp (collectCalls_subset t) (collectCallsList_subset ts))
end

section
variable {κ : Type} {engine : Engine} {parsers : Parsers κ} {s : Passes} {p : Pass}

theorem isCall_of_mem {text : Text} {scope : Option (List ByteRange)} {k : Key} (h : k ∈ keysIn engine text scope) :
    IsCall engine k.2 := by
  obtain ⟨inv, hinv, hkey⟩ := List.mem_filterMap.1 h
  obtain ⟨d, -, rfl⟩ := Option.map_eq_some_iff.1 hkey
  exact ⟨text, inv, collectCalls_subset _ hinv, rfl⟩

theorem traced_start (engine : Engine) : Passes.start.Traced engine :=
  ⟨memoSound_empty engine, fun _ hk => (List.not_mem_nil hk).elim, fun _ hshape => (List.not_mem_nil hshape).elim⟩

/-- Where the calls so far agree, the ones of one shape fail together. -/
theorem together_of_tellable (hlex : Lexes engine) (hmatches : MatchesAlike engine parsers) (hs : s.Traced engine)
    (h : s.Tellable engine parsers p) : ∀ k ∈ s.calls engine p, ∀ k' ∈ s.calls engine p, k.1 = k'.1 →
    keyShape engine k = keyShape engine k' → (engine.expand k.1 k.2).failure = (engine.expand k'.1 k'.2).failure := by
  have hcall : ∀ k ∈ s.calls engine p, IsCall engine k.2 := by
    intro k hk
    rcases List.mem_append.1 hk with hk | hk
    · exact hs.calls k hk
    · exact isCall_of_mem hk
  intro k hk k' hk' hdefinition hshape
  exact failure_of_shape hlex hmatches (hcall k hk) (hcall k' hk') hdefinition hshape (h k hk k' hk' hdefinition)

theorem shapeSafe_of_together (hs : s.Traced engine) (h : ∀ k ∈ s.calls engine p, ∀ k' ∈ s.calls engine p,
      k.1 = k'.1 → keyShape engine k = keyShape engine k' →
      (engine.expand k.1 k.2).failure = (engine.expand k'.1 k'.2).failure) :
    ShapeSafe engine p.1 p.2 s.memo := by
  intro inv hinv d r hd hexpanded
  have hhere : (d, slice p.1 inv.range) ∈ s.calls engine p := List.mem_append_right _ (key_mem hinv hd)
  -- a call of that shape that failed would fail with this one
  have hnone : ∀ k ∈ s.calls engine p, k.1 = d → keyShape engine k = keyShape engine (d, slice p.1 inv.range) →
      engine.expand k.1 k.2 ≠ .failed true := by
    intro k hk hdefinition hshape hfailed
    have hsame := h k hk _ hhere hdefinition hshape
    rw [hfailed, hexpanded] at hsame
    cases hsame
  refine ⟨fun hmem => ?_, fun inv' hinv' d' hd' hshape => ?_⟩
  · rcases hs.shapes _ hmem with hfalse | ⟨k, hk, hfailed, heq⟩
    · cases hfalse
    · obtain ⟨hdefinition, hshape⟩ := Prod.mk.inj heq
      exact hnone k (List.mem_append_left _ hk) hdefinition.symm hshape.symm hfailed
  · obtain ⟨hdefinition, hshape⟩ := Prod.mk.inj hshape
    exact hnone (d', slice p.1 inv'.range) (List.mem_append_right _ (key_mem hinv' hd')) hdefinition hshape

/-- **One pass** over calls that fail together. -/
theorem unchanged_of_together (hs : s.Traced engine) (h : ∀ k ∈ s.calls engine p, ∀ k' ∈ s.calls engine p,
      k.1 = k'.1 → keyShape engine k = keyShape engine k' →
      (engine.expand k.1 k.2).failure = (engine.expand k'.1 k'.2).failure) :
    s.Unchanged engine p ∧ (s.after engine p).Traced engine := by
  have hsafe := shapeSafe_of_together hs h
  obtain ⟨hsound, -, hcalls⟩ := expandPass_ok hs.sound hsafe
  obtain ⟨hedits, hshapes⟩ := expandPass_traced hs.sound hsafe
  refine ⟨⟨fun e => ⟨hedits e, ?_⟩, h⟩, hsound, fun k hk => ?_, fun shape hshape => ?_⟩
  · rintro ⟨inv, hinv, replacement, ⟨d, hd, hexpanded⟩, rfl⟩
    rcases hcalls inv hinv with hfails | ⟨r, hr⟩
    · exact absurd hfails (not_fails_of hd hexpanded)
    · obtain ⟨inv', -, r', ⟨d', hd', hexpanded'⟩, heq⟩ := hedits _ hr
      obtain ⟨hrange, rfl, hname⟩ := Edit.mk.inj heq
      rw [← hname, hd] at hd'
      obtain rfl := Option.some.inj hd'
      rw [← hrange, hexpanded] at hexpanded'
      obtain rfl := ExpansionAttempt.expanded.inj hexpanded'
      exact hr
  · rcases List.mem_append.1 hk with hk | hk
    · exact hs.calls k hk
    · exact isCall_of_mem hk
  · rcases hshapes shape hshape with hbefore | ⟨k, hk, hfailed⟩
    · rcases hs.shapes shape hbefore with hfalse | ⟨k, hk, hfailed⟩
      · cases hfalse
      · exact Or.inr ⟨k, List.mem_append_left _ hk, hfailed⟩
    · exact Or.inr ⟨k, List.mem_append_right _ hk, hfailed⟩

/-- **Every pass** of a run in which the calls of one definition and one shape agree edits the calls that expand on
    their own. -/
theorem memo_unchanged (hlex : Lexes engine) (hmatches : MatchesAlike engine parsers) (passes : List Pass) (s : Passes)
    (hrun : Run (guarded (Passes.Tellable engine parsers) fun s p t => s.after engine p = t) .start passes s) (p : Pass)
    (hp : s.Tellable engine parsers p) : s.Unchanged engine p := by
  have htraced : s.Traced engine := by
    refine hrun.invariant (fun s p t hs hstep => ?_) (traced_start engine)
    obtain ⟨htellable, rfl⟩ := hstep
    exact (unchanged_of_together hs (together_of_tellable hlex hmatches hs htellable)).2
  exact (unchanged_of_together htraced (together_of_tellable hlex hmatches htraced hp)).1

end

/-! ## A matcher of rules -/

/-- No fragment is parsed. -/
def noParsers : Parsers Unit := ⟨fun _ => (), fun _ => ()⟩

/-- Rules that expand to nothing. -/
def expandByRules (tokens : Text → Option (List TokenTree)) (d call : Text) : ExpansionAttempt :=
  match (tokens d).bind firstGroup with
  | none => .failed false
  | some body =>
    match (tokens call).bind firstGroup with
    | none => .failed true
    | some arguments => if (matchers body).any fun m => matchTokens 0 m arguments then .expanded [] else .failed true

section
variable {κ : Type} {parsers : Parsers κ} {words : List Text}

theorem Indistinct.firstGroup {ts ts' : List TokenTree} (h : Indistinct parsers words ts ts') :
    (firstGroup ts = none ∧ firstGroup ts' = none) ∨
      ∃ s s', firstGroup ts = some s ∧ firstGroup ts' = some s' ∧ Indistinct parsers words s s' := by
  induction h with
  | nil => exact Or.inl ⟨rfl, rfl⟩
  | group delimiter inner rest => exact Or.inr ⟨_, _, rfl, rfl, inner⟩
  | ident here rest ih => exact ih
  | literal here rest ih => exact ih
  | punct char joint rest ih => exact ih

/-- **A matcher of rules** follows them. -/
theorem matchesAlike_rules {engine : Engine} (h : engine.expand = expandByRules engine.tokens) :
    MatchesAlike engine parsers := by
  intro d body call call' ts ts' hbody hts hts' hsame
  rw [h]
  simp only [expandByRules, hbody, hts, hts', Option.bind_some]
  rcases hsame.firstGroup with ⟨hnone, hnone'⟩ | ⟨s, s', hs, hs', hinner⟩
  · rw [hnone, hnone']
  · have hmatch : ∀ m ∈ matchers body, matchTokens 0 m s = matchTokens 0 m s' := fun m hm =>
      matchTokens_alike m (fun v hv => List.mem_flatMap.2 ⟨m, hm, hv⟩) hinner
    have hany : (matchers body).any (fun m => matchTokens 0 m s) = (matchers body).any fun m => matchTokens 0 m s' := by
      rw [Bool.eq_iff_iff, List.any_eq_true, List.any_eq_true]
      exact exists_congr fun m => and_congr_right fun hm => by rw [hmatch m hm]
    rw [hs, hs']
    simp only [hany]

end

/-- No word that a matcher without parsed fragments sees though the shape forgets it. -/
def Plain (ts : List TokenTree) : Prop := ∀ v ∈ identsOf ts ++ literalsOf ts, v ≠ underscore ∧ v ∉ fragments

/-- **Calls without an underscore and without the name of a fragment** agree, where no fragment is parsed. -/
theorem agree_plain {engine : Engine} {k k' : Key} (h : ∀ ts, engine.tokens k.2 = some ts → Plain ts)
    (h' : ∀ ts, engine.tokens k'.2 = some ts → Plain ts) : Agree engine noParsers k k' := by
  intro body ts ts' _ hts hts' halike
  have hnamed : ∀ v, v ∉ literalsIn body → v ∉ fragments → v ∉ wordsIn body := by
    intro v hliteral hfragment hword
    obtain ⟨m, hm, hv⟩ := List.mem_flatMap.1 hword
    rcases mem_matcherLiterals m (fun hfalse => absurd hfalse Bool.false_ne_true) hv with hhere | hhere
    · exact hliteral (List.mem_flatMap.2 ⟨m, hm, hhere⟩)
    · exact hfragment hhere
  have hident : ∀ us, Plain us → (forgottenIdents (literalsIn body) us).map (seenIdent noParsers (wordsIn body)) =
      List.replicate (forgottenIdents (literalsIn body) us).length (false, none, ()) := by
    intro us hplain
    refine List.eq_replicate_iff.2 ⟨List.length_map .., fun seen hseen => ?_⟩
    obtain ⟨v, hv, rfl⟩ := List.mem_map.1 hseen
    obtain ⟨hmem, hforgotten⟩ := List.mem_filter.1 hv
    obtain ⟨hunderscore, hfragment⟩ := hplain v (List.mem_append_left _ hmem)
    have hliteral : v ∉ literalsIn body := fun hin => of_decide_eq_true hforgotten (Or.inl hin)
    rw [seenIdent, if_neg (hnamed v hliteral hfragment), decide_eq_false hunderscore]
  have hliterals : ∀ us, Plain us →
      (forgottenLiterals (literalsIn body) us).map (seenLiteral noParsers (wordsIn body)) =
        List.replicate (forgottenLiterals (literalsIn body) us).length (none, ()) := by
    intro us hplain
    refine List.eq_replicate_iff.2 ⟨List.length_map .., fun seen hseen => ?_⟩
    obtain ⟨v, hv, rfl⟩ := List.mem_map.1 hseen
    obtain ⟨hmem, hforgotten⟩ := List.mem_filter.1 hv
    obtain ⟨-, hfragment⟩ := hplain v (List.mem_append_right _ hmem)
    have hliteral : v ∉ literalsIn body := fun hin => of_decide_eq_true hforgotten hin
    rw [seenLiteral, if_neg (hnamed v hliteral hfragment)]
  obtain ⟨hlength, hlength'⟩ := halike.filter_length
  rw [hident ts (h ts hts), hident ts' (h' ts' hts'), hliterals ts (h ts hts), hliterals ts' (h' ts' hts')]
  exact ⟨congrArg (List.replicate · _) hlength, congrArg (List.replicate · _) hlength'⟩

/-! ## Two files -/

/-- One rule, of one identifier. -/
def defineM : Text := ascii "macro_rules! m \x7b ($x:ident) => \x7b\x7d \x7d"

def rulesM : List TokenTree :=
  [.ident (ascii "macro_rules"), .punct 33 false, .ident (ascii "m"),
    .group .brace ([.group .parenthesis [.punct dollar false, .ident (ascii "x"), .punct colon false,
      .ident (ascii "ident")]] ++ arrow ++ [.group .brace []])]

def callM (arguments : List String) : Text := ascii (" m!(" ++ " ".intercalate arguments ++ ")")

def callTokens (arguments : List String) : List TokenTree :=
  [.ident (ascii "m"), .punct 33 false, .group .parenthesis (arguments.map fun v => .ident (ascii v))]

def fileOf (calls : List (List String)) : Text := defineM ++ calls.flatMap callM

def itemsOf (start : Nat) : List (List String) → List SyntaxNode
  | [] => []
  | call :: calls =>
    itemAt start (callM call) (.macroCall (some (ascii "m")) true) :: itemsOf (start + (callM call).length) calls

def itemsM (calls : List (List String)) : List SyntaxNode :=
  ⟨⟨0, defineM.length⟩, .macroRules (some (ascii "m")) true⟩ :: itemsOf defineM.length calls

/-- Two calls that match no rule, and one that does. -/
def plainCalls : List (List String) := [["a", "b"], ["c", "d"], ["e"]]

/-- A call with the underscore, and one with a name. -/
def underscoreCalls : List (List String) := [["_"], ["e"]]

def filesM : List (Text × List SyntaxNode) := [plainCalls, underscoreCalls].map fun calls =>
  (fileOf calls, itemsM calls)

def streamsM : List (Text × List TokenTree) :=
  (defineM, rulesM) :: (plainCalls ++ underscoreCalls).map fun call => ((callM call).tail, callTokens call)

def engineM : Engine := { engineOf filesM streamsM [] with expand := expandByRules fun text => streamsM.lookup text }

def wordsM : List Text := ["macro_rules", "m", "x", "ident", "a", "b", "c", "d", "e", "_"].map ascii

theorem lexicon_wordsM : Lexicon (· ∈ wordsM) fun _ => False := by
  have hsemicolon : ∀ v ∈ wordsM, semicolon ∉ v := by decide +kernel
  have hhead : ∀ v ∈ wordsM, ∃ b ∈ v.head?, b ∉ operators ∧ b ∉ delimiters ∧ b ≠ quote := by
    decide +kernel
  refine ⟨fun v v' rest _ hv' heq => ?_, fun v _ hfalse => hfalse, fun v hv => ?_, fun v rest hv heq => ?_,
    fun v rest hfalse => hfalse.elim⟩
  · refine hsemicolon v' (hv'.resolve_right fun hfalse => hfalse) ?_
    rw [heq]
    simp
  · obtain ⟨b, hb, hoperator, hdelimiter, -⟩ := hhead v (hv.resolve_right fun hfalse => hfalse)
    obtain ⟨rest, rfl⟩ := List.head?_eq_some_iff.1 hb
    exact ⟨b, rest, rfl, hoperator, hdelimiter⟩
  · obtain ⟨b, hb, -, -, hquote⟩ := hhead v hv
    rw [heq] at hb
    exact hquote (Option.some.inj hb).symm

theorem written_callTokens {arguments : List String} (h : ∀ v ∈ arguments, ascii v ∈ wordsM) :
    Written (· ∈ wordsM) (fun _ => False) (callTokens arguments) := by
  have hwords : Written (· ∈ wordsM) (fun _ => False) (arguments.map fun v => .ident (ascii v)) := by
    induction arguments with
    | nil => exact .nil
    | cons v arguments ih =>
      exact .ident (h v (List.mem_cons_self ..)) (ih fun u hu => h u (List.mem_cons_of_mem _ hu))
  exact .ident (by decide) (.punct (by decide) (.group (by decide) hwords .nil))

theorem written_rulesM : Written (· ∈ wordsM) (fun _ => False) rulesM := by
  refine .ident (by decide) (.punct (by decide) (.ident (by decide) (.group (by decide) ?_ .nil)))
  refine .group (by decide) ?_ (.punct (by decide) (.punct (by decide) (.group (by decide) .nil .nil)))
  exact .punct (by decide) (.ident (by decide) (.punct (by decide) (.ident (by decide) .nil)))

theorem lexes_engineM : Lexes engineM := by
  refine ⟨(· ∈ wordsM), fun _ => False, lexicon_wordsM, fun text ts hts => ?_, ?_⟩
  · have hall : ∀ e ∈ streamsM, Written (· ∈ wordsM) (fun _ => False) e.2 := by
      intro e he
      rcases List.mem_cons.1 he with rfl | he
      · exact written_rulesM
      · obtain ⟨call, hcall, rfl⟩ := List.mem_map.1 he
        have hwords : ∀ call ∈ plainCalls ++ underscoreCalls, ∀ v ∈ call, ascii v ∈ wordsM := by decide +kernel
        exact written_callTokens (hwords call hcall)
    obtain ⟨before, after, heq, -⟩ := List.lookup_eq_some_iff.1 hts
    exact hall (text, ts) (heq ▸ List.mem_append_right _ (List.mem_cons_self ..))
  · rintro call ⟨text, inv, hinv, rfl⟩ hnone
    have hread : ∀ calls ∈ [plainCalls, underscoreCalls], ∀ inv ∈ callsIn engineM (fileOf calls) none,
        (engineM.tokens (slice (fileOf calls) inv.range)).isSome = true := by decide +kernel
    cases hfile : filesM.lookup text with
    | none =>
      have hcalls : callsIn engineM text none = [] := by
        show collectCalls _ none (flat text ((filesM.lookup text).getD [])) = []
        rw [hfile]
        rfl
      rw [hcalls] at hinv
      cases hinv
    | some items =>
      obtain ⟨before, after, heq, -⟩ := List.lookup_eq_some_iff.1 hfile
      have hmem : (text, items) ∈ filesM := heq ▸ List.mem_append_right _ (List.mem_cons_self ..)
      obtain ⟨calls, hcalls, hpair⟩ := List.mem_map.1 hmem
      obtain ⟨rfl, -⟩ := Prod.mk.inj hpair
      have hsome := hread calls hcalls inv hinv
      rw [hnone] at hsome
      cases hsome

theorem matchesAlike_engineM {κ : Type} (parsers : Parsers κ) : MatchesAlike engineM parsers := matchesAlike_rules rfl

theorem plain_calls : ∀ k ∈ keysIn engineM (fileOf plainCalls) none, ∀ ts, engineM.tokens k.2 = some ts → Plain ts := by
  have hall : ∀ k ∈ keysIn engineM (fileOf plainCalls) none, ∀ ts ∈ (engineM.tokens k.2).toList,
      ∀ v ∈ identsOf ts ++ literalsOf ts, v ≠ underscore ∧ v ∉ fragments := by decide +kernel
  exact fun k hk ts hts => hall k hk ts (Option.mem_toList.2 hts)

/-- The third call expands behind two that fail, in a second pass too. -/
theorem memo_unchanged_plain :
    (Passes.start.after engineM (fileOf plainCalls, none)).Unchanged engineM (fileOf plainCalls, none) := by
  have htellable : ∀ s : Passes, (∀ k ∈ s.seen, k ∈ keysIn engineM (fileOf plainCalls) none) →
      s.Tellable engineM noParsers (fileOf plainCalls, none) := by
    intro s hseen k hk k' hk' _
    have hmem : ∀ k ∈ s.calls engineM (fileOf plainCalls, none), k ∈ keysIn engineM (fileOf plainCalls) none :=
      fun k hk => (List.mem_append.1 hk).elim (hseen k) id
    exact agree_plain (plain_calls k (hmem k hk)) (plain_calls k' (hmem k' hk'))
  have hrun : Run (guarded (Passes.Tellable engineM noParsers) fun s p t => s.after engineM p = t) .start
      [(fileOf plainCalls, none)] (Passes.start.after engineM (fileOf plainCalls, none)) :=
    .cons ⟨htellable .start fun k hk => (List.not_mem_nil hk).elim, rfl⟩ (.nil _)
  exact memo_unchanged lexes_engineM (matchesAlike_engineM noParsers) _ _ hrun _ (htellable _ fun k hk => hk)

/-- **The underscore first**: the name behind it is not tried. -/
theorem underscore_first : ¬ ∀ (engine : Engine) (parsers : Parsers Unit), Lexes engine → MatchesAlike engine parsers →
    ∀ (passes : List Pass) (s : Passes), Run (fun s p t => s.after engine p = t) .start passes s →
    ∀ p, s.Unchanged engine p := by
  intro h
  have hunchanged := h engineM noParsers lexes_engineM (matchesAlike_engineM noParsers) [] .start (.nil _)
    (fileOf underscoreCalls, none)
  have hnone : Passes.start.edits engineM (fileOf underscoreCalls, none) = [] := by decide +kernel
  have hexpands : ∃ inv ∈ callsIn engineM (fileOf underscoreCalls) none,
      definition (rulesIn engineM (fileOf underscoreCalls)) inv.name = some defineM ∧
      engineM.expand defineM (slice (fileOf underscoreCalls) inv.range) = .expanded [] := by decide +kernel
  obtain ⟨inv, hinv, hd, hexpanded⟩ := hexpands
  have hmem := (hunchanged.edits _).2 ⟨inv, hinv, [], ⟨defineM, hd, hexpanded⟩, rfl⟩
  rw [hnone] at hmem
  cases hmem

end HafleyScm.Expansion
