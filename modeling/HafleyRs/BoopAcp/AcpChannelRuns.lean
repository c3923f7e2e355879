import HafleyRs.BoopAcp.AcpChannel

/-!
# Runs of the ACP channel

Hails: `places` counts where the text of a hail is on its way to a prompt, or that its steer answered mid-turn,
and `HailInv` says that it is in one place and that a steering request for it is asked for once, by a steer that
is waiting, ended in an error or answered mid-turn.

Turns: `pendingTurns` is where the verdict of a turn is still to come from. `TurnInv` says that there is one at
most, that of the turn that runs.
-/

namespace BoopAcp
open AcpWorld

variable {H : Type}

@[simp] theorem steersIn_append (as bs : List (Command H)) : steersIn (as ++ bs) = steersIn as ++ steersIn bs :=
  List.filterMap_append ..

@[simp] theorem promptsIn_append (as bs : List (Command H)) : promptsIn (as ++ bs) = promptsIn as ++ promptsIn bs :=
  List.flatMap_append ..

@[simp] theorem turnsIn_append (as bs : List (Command H)) : turnsIn (as ++ bs) = turnsIn as ++ turnsIn bs :=
  List.filterMap_append ..

/-! ## Hails -/

section hails
variable [DecidableEq H] {w w' : AcpWorld H} {hail : H}

def waiting (w : AcpWorld H) : List H :=
  match w.caller with
  | .steering hail => [hail]
  | _ => []

def midTurned (outcomes : List (H × Option Delivery)) : List H :=
  outcomes.filterMap fun o => if o.2 = some .midTurn then some o.1 else none

def places (w : AcpWorld H) (hail : H) : Nat :=
  (waiting w).count hail + w.held.count hail + (promptsIn w.commands).count hail + timesPrompted w hail +
    (midTurned w.outcomes).count hail

def requests (w : AcpWorld H) (hail : H) : Nat := (steersIn w.commands).count hail + timesSteered w hail

/-- Why a steering request may be under way or made. -/
def Issued (w : AcpWorld H) (hail : H) : Prop :=
  hail ∈ waiting w ∨ (hail, none) ∈ w.outcomes ∨ (hail, some .midTurn) ∈ w.outcomes

structure HailInv (w : AcpWorld H) : Prop where
  place     : ∀ hail, places w hail ≤ 1
  request   : ∀ hail, requests w hail ≤ 1
  known     : ∀ hail, hail ∉ w.seen → places w hail = 0 ∧ requests w hail = 0
  issued    : ∀ hail, 0 < requests w hail → Issued w hail
  inFlight  : ∀ n hail, w.driver = .steering n hail → 0 < timesSteered w hail
  mid       : ∀ hail, (hail, some .midTurn) ∈ w.outcomes → 0 < timesSteered w hail
  replyMid  : ∀ hail, (hail, .ok .midTurn) ∈ w.replies → 0 < timesSteered w hail
  replyNext : ∀ hail, (hail, .ok .nextTurn) ∈ w.replies → requests w hail = 0
  replyOf   : ∀ r ∈ w.replies, r.1 ∈ w.seen

theorem count_midTurned {outcomes : List (H × Option Delivery)} (h : (hail, some .midTurn) ∈ outcomes) :
    0 < (midTurned outcomes).count hail :=
  List.count_pos_iff.2 (List.mem_filterMap.2 ⟨_, h, by simp⟩)

theorem count_waiting (h : hail ∈ waiting w) : 0 < (waiting w).count hail := List.count_pos_iff.2 h

theorem HailInv.sentOnce (hi : HailInv w) : SentOnce w := by
  have hsteered : ∀ hail, timesSteered w hail ≤ 1 := fun hail => (Nat.le_add_left ..).trans (hi.request hail)
  have hturns : ∀ hail, timesPrompted w hail ≤ 1 := by
    intro hail
    have := hi.place hail
    unfold places at this
    omega
  have hmid : ∀ hail, (hail, some .midTurn) ∈ w.outcomes → timesPrompted w hail = 0 := by
    intro hail hout
    have hplace := hi.place hail
    have hcount := count_midTurned hout
    unfold places at hplace
    omega
  refine ⟨fun hail hnone => ?_, fun hail hout => ?_, hsteered, hturns⟩
  · by_cases hsent : timesSteered w hail = 0
    · rw [hsent, Nat.zero_add]
      exact hturns hail
    · have hrequest : 0 < requests w hail := by
        unfold requests
        omega
      have hprompt : timesPrompted w hail = 0 := by
        rcases hi.issued hail hrequest with hwait | herror | hout
        · have hplace := hi.place hail
          have hcount := count_waiting hwait
          unfold places at hplace
          omega
        · exact absurd herror hnone
        · exact hmid hail hout
      rw [hprompt]
      exact hsteered hail
  · have hle := hsteered hail
    have hpos := hi.mid hail hout
    exact ⟨by omega, hmid hail hout⟩

theorem hailInv_opened (codexSteering : Bool) : HailInv (opened codexSteering : AcpWorld H) := by
  have hplace : ∀ hail : H, places (opened codexSteering) hail = 0 := fun hail => rfl
  have hrequest : ∀ hail : H, requests (opened codexSteering) hail = 0 := fun hail => rfl
  exact ⟨fun hail => by simp [hplace], fun hail => by simp [hrequest], fun hail _ => ⟨hplace hail, hrequest hail⟩,
    fun hail h => absurd h (by simp [hrequest]), fun n hail h => by simp [opened] at h,
    fun hail h => by simp [opened] at h, fun hail h => by simp [opened] at h, fun hail h => by simp [opened] at h,
    fun r h => by simp [opened] at h⟩

/-- A step that puts no hail in a new place and asks for no new steering request. -/
theorem HailInv.keep (hi : HailInv w) (hplace : ∀ x, places w' x ≤ places w x)
    (hrequest : ∀ x, requests w' x ≤ requests w x) (hseen : w'.seen = w.seen)
    (hissued : ∀ x, Issued w x → Issued w' x) (hsteered : ∀ x, timesSteered w x ≤ timesSteered w' x)
    (hflight : ∀ n x, w'.driver = .steering n x → 0 < timesSteered w' x)
    (hmid : ∀ x, (x, some .midTurn) ∈ w'.outcomes → 0 < timesSteered w' x)
    (hreply : ∀ r ∈ w'.replies, r ∈ w.replies ∨ (r.1 ∈ w.seen ∧ (r.2 = .ok .midTurn → 0 < timesSteered w' r.1) ∧
      (r.2 = .ok .nextTurn → requests w' r.1 = 0))) : HailInv w' where
  place x := (hplace x).trans (hi.place x)
  request x := (hrequest x).trans (hi.request x)
  known x hx := by
    obtain ⟨hp, hr⟩ := hi.known x (hseen ▸ hx)
    exact ⟨Nat.le_zero.1 (hp ▸ hplace x), Nat.le_zero.1 (hr ▸ hrequest x)⟩
  issued x hx := hissued x (hi.issued x (hx.trans_le (hrequest x)))
  inFlight := hflight
  mid := hmid
  replyMid x hx := by
    rcases hreply _ hx with hold | ⟨-, hnew, -⟩
    · exact (hi.replyMid x hold).trans_le (hsteered x)
    · exact hnew rfl
  replyNext x hx := by
    rcases hreply _ hx with hold | ⟨-, -, hnew⟩
    · exact Nat.le_zero.1 (hi.replyNext x hold ▸ hrequest x)
    · exact hnew rfl
  replyOf r hr := by
    rw [hseen]
    rcases hreply r hr with hold | ⟨hin, -⟩
    · exact hi.replyOf r hold
    · exact hin

/-! ### The supervisor -/

theorem places_hold (x : H) : places (w.hold hail) x = places w x + [hail].count x := by
  simp only [places, AcpWorld.hold, waiting, timesPrompted, List.count_append]
  omega

theorem count_le_of_free (hi : HailInv w) (hfree : places w hail = 0) (x : H) : places w x + [hail].count x ≤ 1 := by
  by_cases hx : x = hail
  · subst hx
    simp [hfree]
  · rw [List.count_eq_zero.2 (by simpa using hx)]
    exact hi.place x

theorem hold_inv (hi : HailInv w) (hseen : hail ∈ w.seen) (hfree : places w hail = 0) : HailInv (w.hold hail) where
  place x := by
    rw [places_hold]
    exact count_le_of_free hi hfree x
  request := hi.request
  known x hx := by
    obtain ⟨hp, hr⟩ := hi.known x hx
    refine ⟨?_, hr⟩
    rw [places_hold, hp, List.count_eq_zero.2]
    rintro hmem
    exact hx (List.mem_singleton.1 hmem ▸ hseen)
  issued := hi.issued
  inFlight := hi.inFlight
  mid := hi.mid
  replyMid := hi.replyMid
  replyNext := hi.replyNext
  replyOf := hi.replyOf

/-- The supervisor has a new id among those it has seen. -/
theorem seen_inv (hi : HailInv w) : HailInv { w with seen := w.seen ++ [hail] } :=
  ⟨hi.place, hi.request, fun x hx => hi.known x fun h => hx (List.mem_append_left _ h), hi.issued, hi.inFlight, hi.mid,
    hi.replyMid, hi.replyNext, fun r hr => List.mem_append_left _ (hi.replyOf r hr)⟩

omit [DecidableEq H] in
theorem midTurned_other {outcomes : List (H × Option Delivery)} {outcome : Option Delivery}
    (h : outcome ≠ some .midTurn) :
    midTurned (outcomes ++ [(hail, outcome)]) = midTurned outcomes := by
  simp [midTurned, List.filterMap_append, h]

/-- An outcome other than mid-turn counts for nothing but the reason of a request. -/
theorem outcome_inv (hi : HailInv w) {outcome : Option Delivery} (h : outcome ≠ some .midTurn) :
    HailInv { w with outcomes := w.outcomes ++ [(hail, outcome)] } := by
  have hplace : ∀ x, places { w with outcomes := w.outcomes ++ [(hail, outcome)] } x = places w x := by
    intro x
    simp only [places, waiting, timesPrompted, midTurned_other h]
  refine hi.keep (fun x => (hplace x).le) (fun _ => le_rfl) rfl (fun x hx => ?_) (fun _ => le_rfl) hi.inFlight
    (fun x hx => ?_) fun r hr => Or.inl hr
  · rcases hx with hwait | herror | hout
    · exact Or.inl hwait
    · exact Or.inr (Or.inl (List.mem_append_left _ herror))
    · exact Or.inr (Or.inr (List.mem_append_left _ hout))
  · rcases List.mem_append.1 hx with hout | hnew
    · exact hi.mid x hout
    · simp only [List.mem_singleton, Prod.mk.injEq] at hnew
      exact absurd hnew.2.symm h

/-- The caller stops waiting for a hail and holds it: it may only have been asked for if its outcome says so. -/
theorem stop_inv (hi : HailInv w) (hcaller : w.caller = .steering hail) {outcome : Option Delivery}
    (h : outcome ≠ some .midTurn) (hrequest : 0 < requests w hail → outcome = none) :
    HailInv (w.record hail outcome) := by
  have hrecord : w.record hail outcome =
      { w.hold hail with caller := .idle, outcomes := w.outcomes ++ [(hail, outcome)] } := by
    unfold record
    split
    · exact absurd rfl h
    · rfl
  have hplace : ∀ x, places (w.record hail outcome) x = places w x := by
    intro x
    rw [hrecord]
    simp only [places, waiting, timesPrompted, AcpWorld.hold, hcaller, midTurned_other h, List.count_append,
      List.count_nil]
    omega
  rw [hrecord] at hplace ⊢
  refine ⟨fun x => (hplace x).le.trans (hi.place x), hi.request, fun x hx => ?_, fun x hx => ?_, hi.inFlight,
    fun x hx => ?_, hi.replyMid, hi.replyNext, hi.replyOf⟩
  · obtain ⟨hp, hr⟩ := hi.known x hx
    exact ⟨(hplace x).trans hp, hr⟩
  · rcases hi.issued x hx with hwait | herror | hout
    · rw [waiting, hcaller, List.mem_singleton] at hwait
      subst hwait
      rw [hrequest hx]
      exact Or.inr (Or.inl (List.mem_append_right _ (List.mem_singleton_self _)))
    · exact Or.inr (Or.inl (List.mem_append_left _ herror))
    · exact Or.inr (Or.inr (List.mem_append_left _ hout))
  · rcases List.mem_append.1 hx with hout | hnew
    · exact hi.mid x hout
    · simp only [List.mem_singleton, Prod.mk.injEq] at hnew
      exact absurd hnew.2.symm h

theorem midTurn_inv (hi : HailInv w) (hcaller : w.caller = .steering hail) (hsent : 0 < timesSteered w hail) :
    HailInv (w.record hail (some .midTurn)) := by
  have hplace : ∀ x, places (w.record hail (some .midTurn)) x = places w x := by
    intro x
    simp only [places, waiting, timesPrompted, record, hcaller, midTurned, List.filterMap_append, List.count_append,
      List.count_nil, List.filterMap_cons, List.filterMap_nil, if_true]
    omega
  refine ⟨fun x => (hplace x).le.trans (hi.place x), hi.request, fun x hx => ?_, fun x hx => ?_, hi.inFlight,
    fun x hx => ?_, hi.replyMid, hi.replyNext, hi.replyOf⟩
  · obtain ⟨hp, hr⟩ := hi.known x hx
    exact ⟨(hplace x).trans hp, hr⟩
  · rcases hi.issued x hx with hwait | herror | hout
    · rw [waiting, hcaller, List.mem_singleton] at hwait
      subst hwait
      exact Or.inr (Or.inr (List.mem_append_right _ (List.mem_singleton_self _)))
    · exact Or.inr (Or.inl (List.mem_append_left _ herror))
    · exact Or.inr (Or.inr (List.mem_append_left _ hout))
  · rcases List.mem_append.1 hx with hout | hnew
    · exact hi.mid x hout
    · simp only [List.mem_singleton, Prod.mk.injEq] at hnew
      rw [hnew.1]
      exact hsent

/-- A steering request is put in the queue, for a hail that has none. -/
theorem ask_inv (hi : HailInv w) (hcaller : w.caller = .idle) (hseen : hail ∈ w.seen) (hfree : places w hail = 0)
    (hnone : requests w hail = 0) (hreplies : ∀ r ∈ w.replies, r.1 ≠ hail) :
    HailInv { w with commands := w.commands ++ [.steer hail], caller := .steering hail } := by
  have hwaiting : waiting w = [] := by rw [waiting, hcaller]
  have hplace : ∀ x, places { w with commands := w.commands ++ [.steer hail], caller := .steering hail } x =
      places w x + [hail].count x := by
    intro x
    have hprompts : promptsIn (w.commands ++ [.steer hail]) = promptsIn w.commands := by simp [promptsIn]
    change [hail].count x + w.held.count x + (promptsIn (w.commands ++ [.steer hail])).count x + timesPrompted w x +
      (midTurned w.outcomes).count x = _
    rw [places, hwaiting, hprompts, List.count_nil]
    omega
  have hrequest : ∀ x, requests { w with commands := w.commands ++ [.steer hail], caller := .steering hail } x =
      requests w x + [hail].count x := by
    intro x
    simp only [requests, timesSteered, steersIn_append, List.count_append]
    simp only [steersIn, List.filterMap_cons, List.filterMap_nil]
    omega
  have hother : ∀ {x}, x ∉ w.seen → [hail].count x = 0 := by
    intro x hx
    refine List.count_eq_zero.2 fun hmem => hx ?_
    rw [List.mem_singleton.1 hmem]
    exact hseen
  refine ⟨fun x => (hplace x).le.trans (count_le_of_free hi hfree x), fun x => (hrequest x).le.trans ?_, fun x hx => ?_,
    fun x hx => ?_, hi.inFlight, hi.mid, hi.replyMid, fun x hx => ?_, hi.replyOf⟩
  · by_cases hx : x = hail
    · subst hx
      simp [hnone]
    · rw [List.count_eq_zero.2 (by simpa using hx)]
      exact hi.request x
  · obtain ⟨hp, hr⟩ := hi.known x hx
    exact ⟨by rw [hplace, hp, hother hx], by rw [hrequest, hr, hother hx]⟩
  · by_cases hx' : x = hail
    · subst hx'
      exact Or.inl (List.mem_singleton_self _)
    · rw [hrequest, List.count_eq_zero.2 (by simpa using hx'), Nat.add_zero] at hx
      rcases hi.issued x hx with hwait | hout
      · rw [hwaiting] at hwait
        exact absurd hwait List.not_mem_nil
      · exact Or.inr hout
  · rw [hrequest, hi.replyNext x hx, Nat.zero_add]
    refine List.count_eq_zero.2 fun hmem => ?_
    exact hreplies _ hx (List.mem_singleton.1 hmem)

omit [DecidableEq H] in
theorem issued_idle (hcaller : w.caller = .idle) {x : H} (h : Issued w x) :
    (x, none) ∈ w.outcomes ∨ (x, some .midTurn) ∈ w.outcomes := by
  rcases h with hwait | hout
  · rw [waiting, hcaller] at hwait
    exact absurd hwait List.not_mem_nil
  · exact hout

theorem closed_inv (hi : HailInv w) (hcaller : w.caller = .idle) : HailInv { w with caller := .closed } := by
  refine hi.keep (fun x => ?_) (fun _ => le_rfl) rfl (fun x hx => Or.inr (issued_idle hcaller hx)) (fun _ => le_rfl)
    hi.inFlight hi.mid fun r hr => Or.inl hr
  rw [places, places, waiting, waiting, hcaller]
  exact le_rfl

/-- The notes, the verdicts and the running turn are no hail's. -/
theorem HailInv.turns (hi : HailInv w) (notes : List Note) (turnRunning : Bool) (verdicts : List (Nat × Option Nat)) :
    HailInv { w with notes, turnRunning, verdicts } :=
  ⟨hi.place, hi.request, hi.known, hi.issued, hi.inFlight, hi.mid, hi.replyMid, hi.replyNext, hi.replyOf⟩

theorem startTurn_inv (hi : HailInv w) (hcaller : w.caller = .idle) (resume : Bool) :
    HailInv (w.startTurn resume) := by
  unfold AcpWorld.startTurn
  split
  · exact closed_inv hi hcaller
  · cases resume with
    | true =>
      refine hi.keep (fun x => ?_) (fun x => ?_) rfl (fun x hx => ?_) (fun _ => le_rfl) hi.inFlight hi.mid
        fun r hr => Or.inl hr
      · simp [places, waiting, timesPrompted, promptsIn]
      · simp [requests, timesSteered, steersIn]
      · exact hx
    | false =>
      refine hi.keep (fun x => ?_) (fun x => ?_) rfl (fun x hx => ?_) (fun _ => le_rfl) hi.inFlight hi.mid
        fun r hr => Or.inl hr
      · have hprompts : promptsIn (w.commands ++ [.prompt (w.turn + 1) w.held]) = promptsIn w.commands ++ w.held := by
          simp [promptsIn]
        simp only [places, waiting, timesPrompted, hprompts, List.count_append, List.count_nil, if_false,
          Bool.false_eq_true]
        omega
      · simp [requests, timesSteered, steersIn]
      · exact hx

theorem interrupt_inv (hi : HailInv w) (hcaller : w.caller = .idle) (hseen : hail ∈ w.seen)
    (hfree : places w hail = 0) : HailInv (w.interrupt hail) := by
  unfold interrupt
  split
  · exact closed_inv hi hcaller
  · refine (hold_inv hi hseen hfree).keep (fun x => ?_) (fun x => ?_) rfl (fun x hx => hx) (fun _ => le_rfl)
      hi.inFlight hi.mid fun r hr => Or.inl hr
    · simp [places, waiting, timesPrompted, AcpWorld.hold, promptsIn]
    · simp [requests, timesSteered, AcpWorld.hold, steersIn]

theorem steer_inv (hi : HailInv w) (hcaller : w.caller = .idle) (hseen : hail ∈ w.seen) (hfree : places w hail = 0)
    (hnone : requests w hail = 0) (hreplies : ∀ r ∈ w.replies, r.1 ≠ hail) : HailInv (w.steer hail) := by
  unfold AcpWorld.steer
  split
  · split
    · exact outcome_inv (hold_inv hi hseen hfree) (by simp)
    · exact ask_inv hi hcaller hseen hfree hnone hreplies
  · exact outcome_inv (hold_inv hi hseen hfree) (by simp)

theorem claim_inv (hi : HailInv w) (hcaller : w.caller = .idle) {as' : Claim} (h : w.claim hail as' = some w') :
    HailInv w' := by
  unfold claim at h
  split at h
  · cases h
  · rename_i hnew
    obtain ⟨hfree, hnone⟩ := hi.known hail hnew
    have hreplies : ∀ r ∈ w.replies, r.1 ≠ hail := fun r hr heq => hnew (heq ▸ hi.replyOf r hr)
    have hseen : hail ∈ w.seen ++ [hail] := List.mem_append_right _ (List.mem_singleton_self _)
    cases as' with
    | hold =>
      obtain rfl := Option.some.inj h
      exact hold_inv (seen_inv hi) hseen hfree
    | cancel =>
      obtain rfl := Option.some.inj h
      exact interrupt_inv (seen_inv hi) hcaller hseen hfree
    | steer =>
      simp only at h
      split at h
      · obtain rfl := Option.some.inj h
        exact steer_inv (seen_inv hi) hcaller hseen hfree hnone hreplies
      · cases h

/-- The reply to the steer that the caller waits for. -/
theorem answered_inv (hi : HailInv w) (hcaller : w.caller = .steering hail) {reply : Reply}
    (hreply : (hail, reply) ∈ w.replies) : HailInv (w.record hail reply.toOption) := by
  match reply, hreply with
  | .ok .midTurn, hreply => exact midTurn_inv hi hcaller (hi.replyMid hail hreply)
  | .ok .nextTurn, hreply =>
    refine stop_inv hi hcaller (by simp [Except.toOption]) fun hpos => ?_
    rw [hi.replyNext hail hreply] at hpos
    exact absurd hpos (lt_irrefl _)
  | .error message, hreply => exact stop_inv hi hcaller (by simp [Except.toOption]) fun _ => rfl

/-! ### The connection thread -/

theorem codexSteer_ne (response : Except String (Option String)) : codexSteer response ≠ .ok .nextTurn := by
  unfold codexSteer
  split <;> simp

/-- The thread ends: what is in its queue is not sent. -/
theorem exit_inv (hi : HailInv w) : HailInv w.exit := by
  refine hi.keep (fun x => ?_) (fun x => ?_) rfl (fun x hx => hx) (fun _ => le_rfl) (fun n x hx => ?_) hi.mid
    fun r hr => Or.inl hr
  · simp only [places, exit, waiting, timesPrompted, promptsIn, List.flatMap_nil, List.count_nil]
    omega
  · simp only [requests, exit, timesSteered, steersIn, List.filterMap_nil, List.count_nil]
    omega
  · cases hx

theorem steered_inv (hi : HailInv w) {n : Nat} (hdriver : w.driver = .steering n hail)
    (response : Except String (Option String)) :
    HailInv { w with driver := .prompting n, replies := w.replies ++ [(hail, codexSteer response)] } := by
  have hsent := hi.inFlight n hail hdriver
  have hseen : hail ∈ w.seen := by
    by_contra hnew
    have hnone := (hi.known hail hnew).2
    unfold requests at hnone
    omega
  refine hi.keep (fun _ => le_rfl) (fun _ => le_rfl) rfl (fun x hx => hx) (fun _ => le_rfl) (fun n x hx => by cases hx)
    hi.mid fun r hr => ?_
  rcases List.mem_append.1 hr with hold | hnew
  · exact Or.inl hold
  · obtain rfl := List.mem_singleton.1 hnew
    exact Or.inr ⟨hseen, fun _ => hsent, fun hnext => absurd hnext (codexSteer_ne response)⟩

section
variable {commands : List (Command H)}

theorem drop_inv (hi : HailInv w) {command : Command H} (hcommands : w.commands = command :: commands) :
    HailInv { w with commands } := by
  refine hi.keep (fun x => ?_) (fun x => ?_) rfl (fun x hx => hx) (fun _ => le_rfl) hi.inFlight hi.mid
    fun r hr => Or.inl hr
  · have hle : (promptsIn commands).count x ≤ (promptsIn w.commands).count x := by
      rw [hcommands, ← List.singleton_append, promptsIn_append, List.count_append]
      exact Nat.le_add_left ..
    simp only [places, waiting, timesPrompted]
    omega
  · have hle : (steersIn commands).count x ≤ (steersIn w.commands).count x := by
      rw [hcommands, ← List.singleton_append, steersIn_append, List.count_append]
      exact Nat.le_add_left ..
    simp only [requests, timesSteered]
    omega

/-- A command is sent as it stands in the queue. -/
theorem send_inv (hi : HailInv w) {command : Command H} (hcommands : w.commands = command :: commands)
    {driver : Driver H} (hdriver : ∀ n x, driver = .steering n x → command = .steer x) :
    HailInv { w with commands, driver, sent := w.sent ++ [command] } := by
  have hprompts : ∀ x, (promptsIn w.commands).count x =
      (promptsIn [command]).count x + (promptsIn commands).count x := by
    intro x
    rw [hcommands, ← List.singleton_append, promptsIn_append, List.count_append]
  have hsteers : ∀ x, (steersIn w.commands).count x = (steersIn [command]).count x + (steersIn commands).count x := by
    intro x
    rw [hcommands, ← List.singleton_append, steersIn_append, List.count_append]
  have hmore : ∀ x, timesSteered w x ≤ timesSteered { w with commands, driver, sent := w.sent ++ [command] } x := by
    intro x
    simp only [timesSteered, steersIn_append, List.count_append]
    exact Nat.le_add_right ..
  refine hi.keep (fun x => ?_) (fun x => ?_) rfl (fun x hx => hx) hmore (fun n x hx => ?_)
    (fun x hx => (hi.mid x hx).trans_le (hmore x)) fun r hr => Or.inl hr
  · have := hprompts x
    simp only [places, waiting, timesPrompted, promptsIn_append, List.count_append]
    omega
  · have := hsteers x
    simp only [requests, timesSteered, steersIn_append, List.count_append]
    omega
  · rw [hdriver n x hx]
    simp only [timesSteered, steersIn_append, List.count_append]
    simp [steersIn]

/-- A steer that is not sent on is answered with the next turn. -/
theorem refuse_inv (hi : HailInv w) (hcommands : w.commands = .steer hail :: commands) :
    HailInv { w with commands, replies := w.replies ++ [(hail, .ok .nextTurn)] } := by
  have hcount : requests w hail = 1 + requests { w with commands } hail := by
    simp only [requests, hcommands, timesSteered]
    simp only [steersIn, List.filterMap_cons, List.count_cons_self]
    omega
  have hle := hi.request hail
  have hseen : hail ∈ w.seen := by
    by_contra hnew
    have hnone := (hi.known hail hnew).2
    omega
  refine (drop_inv hi hcommands).keep (fun _ => le_rfl) (fun _ => le_rfl) rfl (fun x hx => hx) (fun _ => le_rfl)
    hi.inFlight hi.mid fun r hr => ?_
  rcases List.mem_append.1 hr with hold | hnew
  · exact Or.inl hold
  · obtain rfl := List.mem_singleton.1 hnew
    refine Or.inr ⟨hseen, fun hmid => by simp at hmid, fun _ => ?_⟩
    change requests { w with commands } hail = 0
    omega

theorem receive_inv (hi : HailInv w) (h : w.receive = some w') : HailInv w' := by
  unfold receive at h
  cases hcommands : w.commands with
  | nil => simp [hcommands] at h
  | cons command commands =>
    simp only [hcommands] at h
    cases hdriver : w.driver with
    | ready =>
      cases command <;> simp only [hdriver] at h <;> obtain rfl := Option.some.inj h
      · exact send_inv hi hcommands (by simp)
      · exact hdriver ▸ refuse_inv hi hcommands
      · exact send_inv hi hcommands (by simp)
      · exact exit_inv (hdriver ▸ drop_inv hi hcommands)
    | prompting n =>
      cases command with
      | prompt turn hails =>
        simp only [hdriver] at h
        obtain rfl := Option.some.inj h
        exact hdriver ▸ drop_inv hi hcommands
      | steer hail =>
        simp only [hdriver] at h
        split at h
        · obtain rfl := Option.some.inj h
          exact send_inv hi hcommands fun _ _ heq => by cases heq; rfl
        · obtain rfl := Option.some.inj h
          exact hdriver ▸ refuse_inv hi hcommands
      | cancel =>
        simp only [hdriver] at h
        obtain rfl := Option.some.inj h
        exact send_inv hi hcommands (by simp)
      | close =>
        simp only [hdriver] at h
        obtain rfl := Option.some.inj h
        exact exit_inv (hdriver ▸ drop_inv hi hcommands)
    | steering n hail => cases command <;> simp [hdriver] at h
    | exited => cases command <;> simp [hdriver] at h

end

theorem acpStep_hailInv {a : AcpAct H} (hi : HailInv w) (h : acpStep w a = some w') : HailInv w' := by
  cases a with
  | startTurn resume =>
    simp only [acpStep] at h
    split at h
    · rename_i hguard
      obtain rfl := Option.some.inj h
      exact startTurn_inv hi hguard.1 resume
    · cases h
  | claim hail as' =>
    simp only [acpStep] at h
    split at h
    · rename_i hcaller
      exact claim_inv hi hcaller h
    · cases h
  | answered =>
    simp only [acpStep] at h
    split at h
    · rename_i hail hcaller
      obtain ⟨⟨of, reply⟩, hfind, rfl⟩ := Option.map_eq_some_iff.1 h
      have hof := List.find?_some hfind
      obtain rfl : of = hail := of_decide_eq_true hof
      exact answered_inv hi hcaller (List.mem_of_find?_eq_some hfind)
    · cases h
  | gaveUp =>
    simp only [acpStep] at h
    split at h
    · rename_i hail hcaller
      obtain rfl := Option.some.inj h
      exact stop_inv hi hcaller (by simp) fun _ => rfl
    · cases h
  | nextEvent =>
    simp only [acpStep] at h
    split at h
    · obtain rfl := Option.some.inj h
      unfold AcpWorld.nextEvent
      split
      · split
        · exact hi.turns _ _ _
        · exact hi.turns _ _ _
        · split
          · exact hi.turns _ _ _
          · exact hi
      · exact hi
    · cases h
  | close =>
    simp only [acpStep] at h
    split at h
    · rename_i hcaller
      obtain rfl := Option.some.inj h
      have hclosed := (closed_inv hi hcaller).turns w.notes false w.verdicts
      refine hclosed.keep (fun x => ?_) (fun x => ?_) rfl (fun x hx => hx) (fun _ => le_rfl) hi.inFlight hi.mid
        fun r hr => Or.inl hr
      · split <;> simp [places, waiting, timesPrompted, promptsIn]
      · split <;> simp [requests, timesSteered, steersIn]
    · cases h
  | receive => exact receive_inv hi h
  | verdict event =>
    simp only [acpStep] at h
    split at h
    · obtain rfl := Option.some.inj h
      exact ⟨hi.place, hi.request, hi.known, hi.issued, (fun n x hx => by cases hx), hi.mid, hi.replyMid, hi.replyNext,
        hi.replyOf⟩
    · cases h
  | steered response =>
    simp only [acpStep] at h
    split at h
    · rename_i n hail hdriver
      obtain rfl := Option.some.inj h
      exact steered_inv hi hdriver response
    · cases h
  | fail detail =>
    simp only [acpStep] at h
    split at h
    · cases h
    · obtain rfl := Option.some.inj h
      exact (exit_inv hi).turns _ _ _

end hails

/-! ## Turns -/

section turns
variable {w w' : AcpWorld H}

def turnsOf (notes : List Note) : List Nat :=
  notes.filterMap fun
    | .turn n _ => some n
    | .openFailed _ => none

def driverTurns (driver : Driver H) : List Nat :=
  match driver with
  | .prompting n => [n]
  | .steering n _ => [n]
  | _ => []

def pendingTurns (w : AcpWorld H) : List Nat := turnsOf w.notes ++ driverTurns w.driver ++ turnsIn w.commands

structure TurnInv (w : AcpWorld H) : Prop where
  own     : ∀ v ∈ w.verdicts, ∀ n, v.2 = some n → n = v.1
  once    : (w.verdicts.map Prod.fst).Nodup
  started : ∀ v ∈ w.verdicts, 1 ≤ v.1 ∧ v.1 ≤ w.turn
  fresh   : w.turnRunning = true → 1 ≤ w.turn ∧ ∀ v ∈ w.verdicts, v.1 < w.turn
  pending : w.caller ≠ .closed → pendingTurns w = [] ∨ (w.turnRunning = true ∧ pendingTurns w = [w.turn])
  gone    : w.driver = .exited → w.commands = []
  failed  : ∀ detail, .openFailed detail ∈ w.notes → w.driver = .exited
  last    : ∀ note ∈ w.notes.dropLast, ∀ detail, note ≠ .openFailed detail

theorem TurnInv.ownVerdicts (hi : TurnInv w) : OwnVerdicts w := ⟨hi.own, hi.once, hi.started⟩

theorem turnInv_opened (codexSteering : Bool) : TurnInv (opened codexSteering : AcpWorld H) where
  own := by simp [opened]
  once := by simp [opened]
  started := by simp [opened]
  fresh := by simp [opened]
  pending := fun _ => Or.inl rfl
  gone := fun _ => rfl
  failed := by simp [opened]
  last := by simp [opened]

/-- A step that returns no verdict, and leaves pending at most what was. -/
theorem TurnInv.keep (hi : TurnInv w) (hverdicts : w'.verdicts = w.verdicts) (hturn : w'.turn = w.turn)
    (hrunning : w'.turnRunning = w.turnRunning) (hcaller : w'.caller ≠ .closed → w.caller ≠ .closed)
    (hpending : (pendingTurns w').Sublist (pendingTurns w)) (hgone : w'.driver = .exited → w'.commands = [])
    (hfailed : ∀ detail, .openFailed detail ∈ w'.notes → w'.driver = .exited)
    (hlast : ∀ note ∈ w'.notes.dropLast, ∀ detail, note ≠ .openFailed detail) : TurnInv w' where
  own := hverdicts ▸ hi.own
  once := hverdicts ▸ hi.once
  started := hverdicts ▸ hturn ▸ hi.started
  fresh := by
    rw [hrunning, hverdicts, hturn]
    exact hi.fresh
  pending h := by
    rw [hrunning, hturn]
    rcases hi.pending (hcaller h) with hnone | ⟨hrun, hone⟩
    · rw [hnone] at hpending
      exact Or.inl (List.sublist_nil.1 hpending)
    · rw [hone] at hpending
      rcases List.sublist_singleton.1 hpending with hnone | hsame
      · exact Or.inl hnone
      · exact Or.inr ⟨hrun, hsame⟩
  gone := hgone
  failed := hfailed
  last := hlast

/-- No thread, no failure among the notes of one that runs. -/
theorem TurnInv.no_failure (hi : TurnInv w) (hdriver : w.driver ≠ .exited) : ∀ note ∈ w.notes, ∀ detail,
    note ≠ .openFailed detail := by
  rintro note hnote detail rfl
  exact hdriver (hi.failed detail hnote)

/-- The caller takes the verdict of the turn that runs. -/
theorem ended_inv (hi : TurnInv w) (hrunning : w.turnRunning = true) {notes : List Note} {note : Option Nat}
    (hown : ∀ n, note = some n → n = w.turn) (hpending : w.caller ≠ .closed → pendingTurns { w with notes } = [])
    (hfailed : ∀ detail, .openFailed detail ∈ notes → w.driver = .exited)
    (hlast : ∀ note ∈ notes.dropLast, ∀ detail, note ≠ .openFailed detail) :
    TurnInv (({ w with notes } : AcpWorld H).ended note) := by
  obtain ⟨hpos, hlt⟩ := hi.fresh hrunning
  have hmem : ∀ {v}, v ∈ w.verdicts ++ [(w.turn, note)] → v ∈ w.verdicts ∨ v = (w.turn, note) := fun hv =>
    (List.mem_append.1 hv).imp_right List.mem_singleton.1
  refine ⟨fun v hv n hn => ?_, ?_, fun v hv => ?_, fun h => by simp [ended] at h, fun h => Or.inl (hpending h),
    hi.gone, hfailed, hlast⟩
  · rcases hmem hv with hold | rfl
    · exact hi.own v hold n hn
    · exact hown n hn
  · change ((w.verdicts ++ [(w.turn, note)]).map Prod.fst).Nodup
    rw [List.map_append, List.map_singleton, ← List.concat_eq_append, List.nodup_concat]
    refine ⟨fun hin => ?_, hi.once⟩
    obtain ⟨v, hv, heq⟩ := List.mem_map.1 hin
    exact absurd heq (hlt v hv).ne
  · rcases hmem hv with hold | rfl
    · exact hi.started v hold
    · exact ⟨hpos, le_rfl⟩

/-- The hails are no turn's. -/
theorem TurnInv.hails (hi : TurnInv w) {replies : List (H × Reply)} {caller : Caller H} {seen held : List H}
    {outcomes : List (H × Option Delivery)} (hcaller : caller ≠ .closed → w.caller ≠ .closed) :
    TurnInv { w with replies, caller, seen, held, outcomes } :=
  hi.keep rfl rfl rfl hcaller (List.Sublist.refl _) hi.gone hi.failed hi.last

/-- A command that is no prompt is put in the queue of a thread that runs. -/
theorem queue_turnInv (hi : TurnInv w) (hdriver : w.driver ≠ .exited) {command : Command H}
    (hcommand : turnsIn [command] = []) : TurnInv { w with commands := w.commands ++ [command] } := by
  refine hi.keep rfl rfl rfl id ?_ (fun h => absurd h hdriver) hi.failed hi.last
  simp only [pendingTurns, turnsIn_append, hcommand, List.append_nil]
  exact List.Sublist.refl _

theorem exit_turnInv (hi : TurnInv w) : TurnInv w.exit := by
  refine hi.keep rfl rfl rfl id ?_ (fun _ => rfl) (fun detail h => rfl) hi.last
  have hnone : pendingTurns w.exit = turnsOf w.notes := by
    simp [pendingTurns, exit, driverTurns, turnsIn]
  rw [hnone, pendingTurns, List.append_assoc]
  exact List.sublist_append_left ..

theorem record_turnInv (hi : TurnInv w) (hcaller : w.caller ≠ .closed) (hail : H) (outcome : Option Delivery) :
    TurnInv (w.record hail outcome) := by
  unfold record
  split
  · exact hi.hails fun _ => hcaller
  · exact hi.hails fun _ => hcaller

/-- The thread takes the next command: no turn is pending that was not. -/
theorem receive_turnInv (hi : TurnInv w) (h : w.receive = some w') : TurnInv w' := by
  unfold receive at h
  cases hcommands : w.commands with
  | nil => simp [hcommands] at h
  | cons command commands =>
    have htake : ∀ driver : Driver H, driver ≠ .exited → (driverTurns driver ++ turnsIn commands).Sublist
        (driverTurns w.driver ++ turnsIn (command :: commands)) → ∀ (sent : List (Command H))
        (replies : List (H × Reply)), w.driver ≠ .exited → TurnInv { w with commands, driver, sent, replies } := by
      intro driver hdriver hsub sent replies hruns
      refine hi.keep rfl rfl rfl id ?_ (fun h => absurd h hdriver)
        (fun detail hin => absurd (hi.failed detail hin) hruns) hi.last
      simp only [pendingTurns, hcommands, List.append_assoc]
      exact (List.Sublist.refl _).append hsub
    have hskip : (turnsIn commands).Sublist (turnsIn (command :: commands)) :=
      (List.sublist_cons_self command commands).filterMap _
    simp only [hcommands] at h
    cases hdriver : w.driver with
    | ready =>
      rw [hdriver] at htake
      cases command with
      | prompt n hails =>
        simp only [hdriver] at h
        obtain rfl := Option.some.inj h
        exact htake (.prompting n) (by simp) (List.Sublist.refl _) _ _ (by simp)
      | steer hail =>
        simp only [hdriver] at h
        obtain rfl := Option.some.inj h
        exact htake .ready (by simp) hskip _ _ (by simp)
      | cancel =>
        simp only [hdriver] at h
        obtain rfl := Option.some.inj h
        exact htake .ready (by simp) hskip _ _ (by simp)
      | close =>
        simp only [hdriver] at h
        obtain rfl := Option.some.inj h
        exact exit_turnInv (htake .ready (by simp) hskip w.sent w.replies (by simp))
    | prompting n =>
      have hskip' : (driverTurns (.prompting n : Driver H) ++ turnsIn commands).Sublist
          (driverTurns (.prompting n : Driver H) ++ turnsIn (command :: commands)) := (List.Sublist.refl _).append hskip
      rw [hdriver] at htake
      cases command with
      | prompt m hails =>
        simp only [hdriver] at h
        obtain rfl := Option.some.inj h
        exact htake (.prompting n) (by simp) hskip' w.sent w.replies (by simp)
      | steer hail =>
        simp only [hdriver] at h
        split at h
        · obtain rfl := Option.some.inj h
          exact htake (.steering n hail) (by simp) hskip' _ _ (by simp)
        · obtain rfl := Option.some.inj h
          exact htake (.prompting n) (by simp) hskip' _ _ (by simp)
      | cancel =>
        simp only [hdriver] at h
        obtain rfl := Option.some.inj h
        exact htake (.prompting n) (by simp) hskip' _ _ (by simp)
      | close =>
        simp only [hdriver] at h
        obtain rfl := Option.some.inj h
        exact exit_turnInv (htake (.prompting n) (by simp) hskip' w.sent w.replies (by simp))
    | steering n hail => cases command <;> simp [hdriver] at h
    | exited => cases command <;> simp [hdriver] at h

variable [DecidableEq H]

theorem nextEvent_turnInv (hi : TurnInv w) (hcaller : w.caller = .idle) : TurnInv w.nextEvent := by
  have hopen : w.caller ≠ .closed := by simp [hcaller]
  unfold AcpWorld.nextEvent
  by_cases hrunning : w.turnRunning = true
  · rw [if_pos hrunning]
    have hpending := hi.pending hopen
    cases hnotes : w.notes with
    | nil =>
      simp only
      split
      · rename_i hdriver
        have hnone : pendingTurns { w with notes := [] } = [] := by
          simp [pendingTurns, turnsOf, driverTurns, turnsIn, hdriver, hi.gone hdriver]
        have hended : TurnInv (({ w with notes := [] } : AcpWorld H).ended none) :=
          ended_inv hi hrunning (by simp) (fun _ => hnone) (by simp) (by simp)
        rw [← hnotes] at hended
        exact hended
      · exact hi
    | cons note notes =>
      have hdrop : ∀ note ∈ notes.dropLast, ∀ detail, note ≠ .openFailed detail := by
        intro note' hnote'
        refine hi.last note' ?_
        rw [hnotes]
        cases notes with
        | nil => cases hnote'
        | cons head rest => exact List.mem_cons_of_mem _ hnote'
      have hfailed : ∀ detail, .openFailed detail ∈ notes → w.driver = .exited := by
        intro detail hin
        exact hi.failed detail (hnotes ▸ List.mem_cons_of_mem _ hin)
      cases note with
      | turn n event =>
        -- the pending turns are this one alone
        have hsplit : pendingTurns w = n :: pendingTurns { w with notes } := by
          simp [pendingTurns, hnotes, turnsOf]
        rw [hsplit] at hpending
        rcases hpending with hnone | ⟨-, hone⟩
        · cases hnone
        · obtain ⟨rfl, hrest⟩ := List.cons.inj hone
          exact ended_inv hi hrunning (fun m hm => (Option.some.inj hm).symm) (fun _ => hrest) hfailed hdrop
      | openFailed detail =>
        have hdriver := hi.failed detail (hnotes ▸ List.mem_cons_self ..)
        have hnil : notes = [] := by
          cases notes with
          | nil => rfl
          | cons head rest =>
            refine absurd rfl (hi.last (.openFailed detail) ?_ detail)
            rw [hnotes]
            exact List.mem_cons_self ..
        subst hnil
        have hnone : pendingTurns { w with notes := [] } = [] := by
          simp [pendingTurns, turnsOf, driverTurns, turnsIn, hdriver, hi.gone hdriver]
        exact ended_inv hi hrunning (by simp) (fun _ => hnone) (by simp) (by simp)
  · rw [if_neg hrunning]
    exact hi

theorem startTurn_turnInv (hi : TurnInv w) (hcaller : w.caller = .idle) (hidle : w.turnRunning = false)
    (resume : Bool) : TurnInv (w.startTurn resume) := by
  have hopen : w.caller ≠ .closed := by simp [hcaller]
  unfold AcpWorld.startTurn
  split
  · exact hi.keep rfl rfl rfl (fun h => absurd rfl h) (List.Sublist.refl _) hi.gone hi.failed hi.last
  · rename_i hdriver
    have hnone : pendingTurns w = [] := by
      rcases hi.pending hopen with hnone | ⟨hrun, -⟩
      · exact hnone
      · rw [hidle] at hrun
        cases hrun
    refine ⟨hi.own, hi.once, fun v hv => ?_, fun _ => ⟨Nat.le_add_left .., fun v hv => ?_⟩, fun _ => Or.inr ⟨rfl, ?_⟩,
      fun h => absurd h hdriver, hi.failed, hi.last⟩
    · exact ⟨(hi.started v hv).1, (hi.started v hv).2.trans (Nat.le_succ _)⟩
    · exact Nat.lt_succ_of_le (hi.started v hv).2
    · unfold pendingTurns at hnone
      simp only [pendingTurns, turnsIn_append, ← List.append_assoc, hnone]
      rfl

theorem claim_turnInv (hi : TurnInv w) (hcaller : w.caller = .idle) {hail : H} {as' : Claim}
    (h : w.claim hail as' = some w') : TurnInv w' := by
  have hopen : w.caller ≠ .closed := by simp [hcaller]
  unfold claim at h
  split at h
  · cases h
  · cases as' with
    | hold =>
      obtain rfl := Option.some.inj h
      exact hi.hails fun _ => hopen
    | cancel =>
      obtain rfl := Option.some.inj h
      unfold interrupt
      split
      · exact hi.hails fun h => absurd rfl h
      · rename_i hdriver
        exact (queue_turnInv hi hdriver rfl).hails fun _ => hopen
    | steer =>
      simp only at h
      split at h
      · obtain rfl := Option.some.inj h
        unfold AcpWorld.steer
        split
        · split
          · exact hi.hails fun _ => hopen
          · rename_i hdriver
            exact (queue_turnInv hi hdriver rfl).hails fun _ => hopen
        · exact hi.hails fun _ => hopen
      · cases h

theorem acpStep_turnInv {a : AcpAct H} (hi : TurnInv w) (h : acpStep w a = some w') : TurnInv w' := by
  cases a with
  | startTurn resume =>
    simp only [acpStep] at h
    split at h
    · rename_i hguard
      obtain rfl := Option.some.inj h
      exact startTurn_turnInv hi hguard.1 hguard.2 resume
    · cases h
  | claim hail as' =>
    simp only [acpStep] at h
    split at h
    · rename_i hcaller
      exact claim_turnInv hi hcaller h
    · cases h
  | answered =>
    simp only [acpStep] at h
    split at h
    · rename_i hail hcaller
      obtain ⟨r, -, rfl⟩ := Option.map_eq_some_iff.1 h
      exact record_turnInv hi (by simp [hcaller]) hail _
    · cases h
  | gaveUp =>
    simp only [acpStep] at h
    split at h
    · rename_i hail hcaller
      obtain rfl := Option.some.inj h
      exact record_turnInv hi (by simp [hcaller]) hail none
    · cases h
  | nextEvent =>
    simp only [acpStep] at h
    split at h
    · rename_i hcaller
      obtain rfl := Option.some.inj h
      exact nextEvent_turnInv hi hcaller
    · cases h
  | close =>
    simp only [acpStep] at h
    split at h
    · obtain rfl := Option.some.inj h
      refine ⟨hi.own, hi.once, hi.started, fun h => by simp at h, fun h => absurd rfl h, fun hdriver => ?_, hi.failed,
        hi.last⟩
      rw [if_pos hdriver]
      exact hi.gone hdriver
    · cases h
  | receive => exact receive_turnInv hi h
  | verdict event =>
    simp only [acpStep] at h
    split at h
    · rename_i n hdriver
      obtain rfl := Option.some.inj h
      have hnone := hi.no_failure (by simp [hdriver])
      refine hi.keep rfl rfl rfl id ?_ (fun h => by cases h) (fun detail hin => ?_) fun note hnote => ?_
      · simp [pendingTurns, turnsOf, driverTurns, hdriver]
      · rcases List.mem_append.1 hin with hold | hnew
        · exact absurd rfl (hnone _ hold detail)
        · simp at hnew
      · rw [List.dropLast_concat] at hnote
        exact hnone note hnote
    · cases h
  | steered response =>
    simp only [acpStep] at h
    split at h
    · rename_i n hail hdriver
      obtain rfl := Option.some.inj h
      have hnone := hi.no_failure (by simp [hdriver])
      refine hi.keep rfl rfl rfl id ?_ (fun h => by cases h) (fun detail hin => absurd rfl (hnone _ hin detail)) hi.last
      simp [pendingTurns, driverTurns, hdriver]
    · cases h
  | fail detail =>
    simp only [acpStep] at h
    split at h
    · cases h
    · rename_i hdriver
      obtain rfl := Option.some.inj h
      have hnone := hi.no_failure fun heq => hdriver heq
      have hexit := exit_turnInv hi
      refine hexit.keep rfl rfl rfl id ?_ (fun _ => rfl) (fun _ _ => rfl) fun note hnote => ?_
      · simp [pendingTurns, turnsOf, exit]
      · rw [List.dropLast_concat] at hnote
        exact hnone note hnote

end turns

/-! ## Every run of a channel -/

/-- **Steering**: the text of a hail is sent once, unless its steer ended in an error, and a turn has one
    verdict at most, its own. -/
theorem steering [DecidableEq H] {codexSteering : Bool} {acts : List (AcpAct H)} {w : AcpWorld H}
    (h : Machine.Run (fun s a t => acpStep s a = some t) (opened codexSteering) acts w) :
    SentOnce w ∧ OwnVerdicts w := by
  have hhails : HailInv w := h.invariant (fun _ _ _ hi hstep => acpStep_hailInv hi hstep) (hailInv_opened codexSteering)
  have hturns : TurnInv w := h.invariant (fun _ _ _ hi hstep => acpStep_turnInv hi hstep) (turnInv_opened codexSteering)
  exact ⟨hhails.sentOnce, hturns.ownVerdicts⟩

section runs

/-- A hail is steered into a turn, and the agent takes it after the ten seconds. -/
def lateActs : List (AcpAct Nat) :=
  [.startTurn false, .receive, .claim 7 .steer, .receive, .gaveUp, .steered (.ok (some "injected")),
    .verdict (.done "end_turn"), .nextEvent, .startTurn false, .receive]

def lateWorld : AcpWorld Nat :=
  ⟨true, [], [], [(7, .ok .midTurn)], .prompting 2, .idle, true, 2, [7], [], [(7, none)],
    [.prompt 1 [], .steer 7, .prompt 2 [7]], [(1, some 1)]⟩

theorem late_run : Machine.Run (fun s a t => acpStep s a = some t) (opened true) lateActs lateWorld :=
  Machine.run_of_exec (fun _ _ _ hstep => hstep) rfl

theorem steering_late : SentOnce lateWorld ∧ OwnVerdicts lateWorld := steering late_run

theorem sent_twice : ¬ ∀ (codexSteering : Bool) (acts : List (AcpAct Nat)) (w : AcpWorld Nat),
    Machine.Run (fun s a t => acpStep s a = some t) (opened codexSteering) acts w →
    ∀ hail, timesSteered w hail + timesPrompted w hail ≤ 1 := by
  intro h
  exact absurd (h true lateActs lateWorld late_run 7) (by decide)

end runs

end BoopAcp
