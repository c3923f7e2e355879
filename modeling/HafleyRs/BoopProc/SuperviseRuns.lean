import HafleyRs.BoopProc.Supervise

/-!
# What a supervisor claims, it keeps, unless the turn that carries it flakes

Every row that `pending` returned stands in the mailbox unacknowledged until the harness has it: accepted mid-turn, or
in the text of a turn (`Inv.kept`). The supervisor acknowledges a row when the turn that opens with it has started, and
after a flake the next turn's text is the brief or the nudge alone. So a row is lost exactly where a turn that opened
with rows ends as a flake.
-/

namespace BoopProc.Supervise
open BoopStore

/-! ## The mailbox -/

theorem unacknowledged_iff {mail : Mail} {h : Hail} :
    Unacknowledged mail h ↔ ∃ m, mail.get h.id = some m ∧ m.toTimestamp = none := by
  constructor
  · rintro ⟨m, hm, hid, hopen⟩
    exact ⟨m, hid ▸ mail.mem_rows_iff.1 hm, hopen⟩
  · rintro ⟨m, hm, hopen⟩
    exact ⟨m, List.mem_of_find?_eq_some hm, Table.key_of_get hm, hopen⟩

theorem Unacknowledged.ack {mail : Mail} {h : Hail} (hopen : Unacknowledged mail h) {id : String} (hid : h.id ≠ id)
    (stamp : String) : Unacknowledged (ack mail id stamp) h := by
  obtain ⟨m, hm, hnone⟩ := unacknowledged_iff.1 hopen
  refine unacknowledged_iff.2 ⟨m, ?_, hnone⟩
  have hother : m.id ≠ id := (Table.key_of_get hm).symm ▸ hid
  rw [Supervise.ack, Table.get_update, hm, Option.map_some, ackRow, if_neg fun h => hother h.1]

theorem Unacknowledged.acks {mail : Mail} {h : Hail} (hopen : Unacknowledged mail h) {hails : List Hail}
    (hid : ∀ h' ∈ hails, h.id ≠ h'.id) (stamp : String) :
    Unacknowledged (hails.foldl (fun mail h' => Supervise.ack mail h'.id stamp) mail) h := by
  induction hails generalizing mail with
  | nil => exact hopen
  | cons h' hails ih =>
    exact ih (hopen.ack (hid h' (List.mem_cons_self ..)) stamp) fun x hx => hid x (List.mem_cons_of_mem _ hx)

theorem Unacknowledged.arrive {mail : Mail} {h : Hail} (hopen : Unacknowledged mail h) {m : Message}
    (hm : m.toTimestamp = none ∨ h.id ≠ m.id) : Unacknowledged (mail.upsert arriveMerge m) h := by
  obtain ⟨old, hold, hnone⟩ := unacknowledged_iff.1 hopen
  rw [unacknowledged_iff, Table.get_upsert]
  by_cases hid : m.id = h.id
  · have hm : m.toTimestamp = none := hm.resolve_right fun hne => hne hid.symm
    rw [if_pos hid, hold]
    exact ⟨_, rfl, by simp [arriveMerge, hm, hnone]⟩
  · rw [if_neg hid]
    exact ⟨old, hold, hnone⟩

theorem unacked_of_nodup {rows : List Message} (h : (rows.map Message.id).Nodup) :
    unacked rows = rows.filter fun m => m.toTimestamp.isNone := by
  rw [unacked, fold_eq_rows, foldTable, Table.rows_foldl_upsert _ h]

theorem messagesForRoute_nodup (mail : Mail) (route : String) : ((messagesForRoute mail route).map Message.id).Nodup :=
  mail.unique.sublist (List.filter_sublist.map _)

theorem mem_pending {mail : Mail} {lane : String} {seen : List String} {h : Hail} (hmem : h ∈ pending mail lane seen) :
    Unacknowledged mail h ∧ h.id ∉ seen := by
  unfold pending at hmem
  rw [unacked_of_nodup (messagesForRoute_nodup mail lane)] at hmem
  simp only [messagesForRoute, List.mem_map, List.mem_filter, Option.isNone_iff_eq_none, decide_eq_true_eq] at hmem
  obtain ⟨m, ⟨⟨⟨⟨⟨hrow, -⟩, hopen⟩, -⟩, hseen⟩, -⟩, rfl⟩ := hmem
  exact ⟨⟨m, hrow, rfl, hopen⟩, hseen⟩

theorem pending_nodup (mail : Mail) (lane : String) (seen : List String) :
    ((pending mail lane seen).map Hail.id).Nodup := by
  unfold pending
  rw [unacked_of_nodup (messagesForRoute_nodup mail lane), List.map_map]
  refine (messagesForRoute_nodup mail lane).sublist ?_
  exact (List.filter_sublist.trans (List.filter_sublist.trans (List.filter_sublist.trans List.filter_sublist))).map _

theorem retainActiveReminders_subset (mail : Mail) (held : List Hail) : retainActiveReminders mail held ⊆ held :=
  fun _ h => (List.mem_filter.1 h).1

/-! ## Texts -/

theorem infix_joinParagraphs {parts : List String} {s : String} (h : s ∈ parts) :
    s.toList <:+: (joinParagraphs parts).toList := by
  induction parts with
  | nil => cases h
  | cons p parts ih =>
    cases parts with
    | nil =>
      obtain rfl := List.mem_singleton.1 h
      exact List.infix_rfl
    | cons q parts =>
      have hjoin : joinParagraphs (p :: q :: parts) = p ++ "\n\n" ++ joinParagraphs (q :: parts) := rfl
      rw [hjoin, String.toList_append, String.toList_append]
      rcases List.mem_cons.1 h with rfl | h
      · rw [List.append_assoc]
        exact (List.prefix_append _ _).isInfix
      · exact (ih h).trans (List.suffix_append _ _).isInfix

/-! ## The invariant -/

/-- A turn that opened with rows does not end as a flake, and no other process acknowledges a row that `pending`
    has returned. -/
def Unflaked (w : World) : Act → Prop
  | .finish e => e.retryable = true → ∀ t ∈ w.turns.head?, t.hails = []
  | .arrive m => m.toTimestamp = none ∨ ∀ h ∈ w.returned, h.id ≠ m.id
  | .acknowledge id _ => ∀ h ∈ w.returned, h.id ≠ id
  | _ => True

instance (w : World) (a : Act) : Decidable (Unflaked w a) := by
  cases a <;> unfold Unflaked <;> infer_instance

structure Inv (lane : LaneRun) (w : World) : Prop where
  unique  : (w.returned.map Hail.id).Nodup
  claimed : ∀ h ∈ w.returned, h.id ∈ w.seen ∨ h ∈ w.inbox
  waiting : ∀ h, h ∈ w.openingHails ∨ h ∈ w.held ∨ h ∈ w.inbox → h ∈ w.returned
  drained : w.phase ≠ .over → w.phase ≠ .running → w.inbox = []
  opened  : w.phase ≠ .over → w.phase ≠ .starting → w.openingHails = []
  text    : ∀ h ∈ w.openingHails, (hailText h lane.mood).toList <:+: w.turn.toList
  carried : ∀ t ∈ w.turns, ∀ h ∈ t.hails, CarriedBy lane t h
  kept    : ∀ h ∈ w.returned, h ∈ w.midTurn ∨ (∃ t ∈ w.turns, t.flaked = false ∧ h ∈ t.hails) ∨
              Unacknowledged w.mail h

variable {lane : LaneRun} {w : World}

theorem Inv.all_kept (hw : Inv lane w) {h : Hail} (hmem : h ∈ w.returned) : Kept lane w h := by
  rcases hw.kept h hmem with hmid | ⟨t, ht, hflaked, hin⟩ | hopen
  · exact .inl hmid
  · exact .inr (.inl ⟨t, ht, hflaked, hw.carried t ht h hin⟩)
  · exact .inr (.inr hopen)

/-- Rows of one id that were returned are one row. -/
theorem Inv.same (hw : Inv lane w) {h h' : Hail} (hmem : h ∈ w.returned) (hmem' : h' ∈ w.returned)
    (hid : h.id = h'.id) : h = h' := List.inj_on_of_nodup_map hw.unique hmem hmem' hid

/-- What the mailbox returns when the inbox is empty has not been returned before. -/
theorem Inv.fresh (hw : Inv lane w) (hinbox : w.inbox = []) :
    ((w.returned ++ pending w.mail lane.lane w.seen).map Hail.id).Nodup := by
  rw [List.map_append, List.nodup_append]
  refine ⟨hw.unique, pending_nodup _ _ _, ?_⟩
  intro a ha b hb
  obtain ⟨h, hh, rfl⟩ := List.mem_map.1 ha
  obtain ⟨h', hh', rfl⟩ := List.mem_map.1 hb
  intro hid
  have hseen : h.id ∈ w.seen := by simpa [hinbox] using hw.claimed h hh
  exact (mem_pending hh').2 (hid ▸ hseen)

theorem inv_opening (lane : LaneRun) (resume : Option String) (revived : Bool) (mail : Mail) :
    Inv lane (.opening lane resume revived mail) := by
  have harrived : ∀ h ∈ (World.opening lane resume revived mail).returned, h ∈ pending mail lane.lane [] := by
    intro h hmem
    simp only [World.opening] at hmem
    split at hmem
    · exact hmem
    · cases hmem
  constructor
  case unique =>
    simp only [World.opening]
    split
    · exact pending_nodup _ _ _
    · exact List.nodup_nil
  case claimed => exact fun h hmem => .inl (List.mem_map_of_mem hmem)
  case waiting => simp [World.opening]
  case drained => exact fun _ _ => rfl
  case opened => exact fun _ hphase => absurd rfl hphase
  case text =>
    intro h hmem
    cases resume with
    | none => simp [World.opening] at hmem
    | some conversation =>
      cases revived with
      | false => simp [World.opening] at hmem
      | true =>
        have hne : (pending mail lane.lane []).isEmpty = false := by
          have hmem : h ∈ pending mail lane.lane [] := hmem
          cases hp : pending mail lane.lane [] with
          | nil => simp [hp] at hmem
          | cons _ _ => rfl
        simp only [World.opening, Option.isSome_some, Bool.and_self, if_true, hne]
        exact infix_joinParagraphs (List.mem_map_of_mem hmem)
  case carried => simp [World.opening]
  case kept => exact fun h hmem => .inr (.inr (mem_pending (harrived h hmem)).1)

/-! ## One step -/

theorem Inv.startTurn (hw : Inv lane w) (stamp : String) : Inv lane (w.startTurn stamp) := by
  obtain ⟨unique, claimed, waiting, -, -, text, carried, kept⟩ := hw
  constructor
  case unique => exact unique
  case claimed => exact claimed
  case waiting =>
    rintro h (hmem | hmem)
    · cases hmem
    · exact waiting h (.inr hmem)
  case drained => exact fun _ hrun => absurd rfl hrun
  case opened => exact fun _ _ => rfl
  case text => simp [World.startTurn]
  case carried =>
    intro t ht
    rcases List.mem_cons.1 ht with rfl | ht
    · exact text
    · exact carried t ht
  case kept =>
    intro h hmem
    by_cases hopen : h ∈ w.openingHails
    · exact .inr (.inl ⟨_, List.mem_cons_self .., rfl, hopen⟩)
    rcases kept h hmem with hmid | ⟨t, ht, hflaked, hin⟩ | hun
    · exact .inl hmid
    · exact .inr (.inl ⟨t, List.mem_cons_of_mem _ ht, hflaked, hin⟩)
    · refine .inr (.inr (hun.acks (fun h' hmem' hid => hopen ?_) stamp))
      rwa [List.inj_on_of_nodup_map unique hmem (waiting h' (.inl hmem')) hid]

theorem Inv.poll (hw : Inv lane w) (hphase : w.phase = .running) (hinbox : w.inbox = []) : Inv lane (w.poll lane) := by
  have hfresh := hw.fresh hinbox
  obtain ⟨-, claimed, waiting, -, opened, text, carried, kept⟩ := hw
  constructor
  case unique => exact hfresh
  case claimed =>
    intro h hmem
    rcases List.mem_append.1 hmem with hmem | hmem
    · have hseen : h.id ∈ w.seen := by simpa [hinbox] using claimed h hmem
      exact .inl hseen
    · exact .inr hmem
  case waiting =>
    rintro h (hmem | hmem | hmem)
    · exact List.mem_append_left _ (waiting h (.inl hmem))
    · exact List.mem_append_left _ (waiting h (.inr (.inl hmem)))
    · exact List.mem_append_right _ hmem
  case drained => exact fun _ hrun => absurd hphase hrun
  case opened => exact opened
  case text => exact text
  case carried => exact carried
  case kept =>
    intro h hmem
    rcases List.mem_append.1 hmem with hmem | hmem
    · exact kept h hmem
    · exact .inr (.inr (mem_pending hmem).1)

theorem Inv.leave (hw : Inv lane w) : Inv lane { w with phase := .over } := by
  obtain ⟨unique, claimed, waiting, -, -, text, carried, kept⟩ := hw
  exact ⟨unique, claimed, waiting, fun h => absurd rfl h, fun h => absurd rfl h, text, carried, kept⟩

/-- The head of the inbox is claimed. -/
theorem Inv.taken (hw : Inv lane w) {hail : Hail} {rest : List Hail} (hinbox : w.inbox = hail :: rest) :
    Inv lane { w with inbox := rest, seen := w.seen ++ [hail.id] } := by
  obtain ⟨unique, claimed, waiting, drained, opened, text, carried, kept⟩ := hw
  refine ⟨unique, ?_, ?_, ?_, opened, text, carried, kept⟩
  · intro h hmem
    rcases claimed h hmem with hseen | hin
    · exact .inl (List.mem_append_left _ hseen)
    · rw [hinbox] at hin
      rcases List.mem_cons.1 hin with rfl | hin
      · exact .inl (List.mem_append_right _ (List.mem_singleton_self _))
      · exact .inr hin
  · rintro h (hmem | hmem | hmem)
    · exact waiting h (.inl hmem)
    · exact waiting h (.inr (.inl hmem))
    · exact waiting h (.inr (.inr (hinbox ▸ List.mem_cons_of_mem _ hmem)))
  · intro hover hrun
    have hnil := drained hover hrun
    rw [hinbox] at hnil
    cases hnil

theorem Inv.hold (hw : Inv lane w) {hail : Hail} (hmem : hail ∈ w.returned) :
    Inv lane { w with held := w.held ++ [hail] } := by
  obtain ⟨unique, claimed, waiting, drained, opened, text, carried, kept⟩ := hw
  refine ⟨unique, claimed, ?_, drained, opened, text, carried, kept⟩
  rintro h (ho | hh | hi)
  · exact waiting h (.inl ho)
  · rcases List.mem_append.1 hh with hh | hh
    · exact waiting h (.inr (.inl hh))
    · obtain rfl := List.mem_singleton.1 hh
      exact hmem
  · exact waiting h (.inr (.inr hi))

theorem Inv.accept (hw : Inv lane w) {hail : Hail} (hmem : hail ∈ w.returned) (stamp : String) :
    Inv lane { w with midTurn := w.midTurn ++ [hail], mail := ack w.mail hail.id stamp } := by
  have hsame := @hw.same
  obtain ⟨unique, claimed, waiting, drained, opened, text, carried, kept⟩ := hw
  refine ⟨unique, claimed, waiting, drained, opened, text, carried, fun h hin => ?_⟩
  by_cases heq : h = hail
  · exact .inl (List.mem_append_right _ (List.mem_singleton.2 heq))
  rcases kept h hin with hmid | hturn | hopen
  · exact .inl (List.mem_append_left _ hmid)
  · exact .inr (.inl hturn)
  · exact .inr (.inr (hopen.ack (fun hid => heq (hsame hin hmem hid)) stamp))

theorem Inv.take (hw : Inv lane w) {hail : Hail} {rest : List Hail} (hinbox : w.inbox = hail :: rest)
    (interrupted : Bool) (steered : Option Delivery) (stamp : String) :
    Inv lane (w.take hail rest interrupted steered stamp) := by
  have hmem : hail ∈ w.returned := hw.waiting hail (.inr (.inr (hinbox ▸ List.mem_cons_self ..)))
  have htaken := hw.taken hinbox
  unfold World.take
  dsimp only
  split
  · exact htaken.hold hmem
  split
  · split
    · exact htaken.hold hmem
    · exact htaken.leave
  split
  · exact htaken
  split
  · exact htaken.accept hmem stamp
  · exact htaken.hold hmem

theorem Inv.endTurn (hw : Inv lane w) (hphase : w.phase = .running) (hinbox : w.inbox = []) {e : TurnEnd}
    (he : e.retryable = true → ∀ t ∈ w.turns.head?, t.hails = []) : Inv lane (w.endTurn e) := by
  obtain ⟨unique, claimed, waiting, -, opened, text, carried, kept⟩ := hw
  have hopen := opened (by simp [hphase]) (by simp [hphase])
  refine ⟨unique, claimed, waiting, fun _ _ => hinbox, fun _ _ => hopen, text, ?_, ?_⟩
  · intro t ht h hh
    unfold World.endTurn at ht
    cases hturns : w.turns with
    | nil => simp [hturns] at ht
    | cons t0 turns =>
      rw [hturns] at ht carried
      rcases List.mem_cons.1 ht with rfl | ht
      · exact carried t0 (List.mem_cons_self ..) h hh
      · exact carried t (List.mem_cons_of_mem _ ht) h hh
  · intro h hmem
    rcases kept h hmem with hmid | ⟨t, ht, hflaked, hh⟩ | hun
    · exact .inl hmid
    · refine .inr (.inl ?_)
      unfold World.endTurn
      cases hturns : w.turns with
      | nil => simp [hturns] at ht
      | cons t0 turns =>
        rw [hturns] at ht he
        rcases List.mem_cons.1 ht with rfl | ht
        · refine ⟨_, List.mem_cons_self .., ?_, hh⟩
          -- the turn that just ended carried the hail, so it is no flake
          by_contra hretry
          rw [he (eq_true_of_ne_false hretry) t rfl] at hh
          cases hh
        · exact ⟨t, List.mem_cons_of_mem _ ht, hflaked, hh⟩
    · exact .inr (.inr hun)

/-! ## The turn boundary -/

theorem Inv.claim (hw : Inv lane w) (hinbox : w.inbox = []) : Inv lane (w.claim lane) := by
  have hfresh := hw.fresh hinbox
  obtain ⟨-, claimed, waiting, -, opened, text, carried, kept⟩ := hw
  constructor
  case unique => exact hfresh
  case claimed =>
    intro h hmem
    rcases List.mem_append.1 hmem with hmem | hmem
    · have hseen : h.id ∈ w.seen := by simpa [hinbox] using claimed h hmem
      exact .inl (List.mem_append_left _ hseen)
    · exact .inl (List.mem_append_right _ (List.mem_map_of_mem hmem))
  case waiting =>
    rintro h (hmem | hmem | hmem)
    · exact List.mem_append_left _ (waiting h (.inl hmem))
    · rcases List.mem_append.1 hmem with hmem | hmem
      · exact List.mem_append_left _ (waiting h (.inr (.inl hmem)))
      · exact List.mem_append_right _ hmem
    · exact List.mem_append_left _ (waiting h (.inr (.inr hmem)))
  case drained => exact fun _ _ => hinbox
  case opened => exact opened
  case text => exact text
  case carried => exact carried
  case kept =>
    intro h hmem
    rcases List.mem_append.1 hmem with hmem | hmem
    · exact kept h hmem
    · exact .inr (.inr (mem_pending hmem).1)

/-- A turn opens with some of the held rows, behind other paragraphs or none. -/
theorem Inv.reopen (hw : Inv lane w) (hinbox : w.inbox = []) {hails : List Hail} (hsub : hails ⊆ w.held)
    (before : List String) (pendingAck : Bool) :
    Inv lane { w with
      phase := .starting
      startAckPending := pendingAck
      openingHails := hails
      turn := joinParagraphs (before ++ hails.map fun h => hailText h lane.mood)
      held := [] } := by
  obtain ⟨unique, claimed, waiting, -, -, -, carried, kept⟩ := hw
  refine ⟨unique, claimed, ?_, fun _ _ => hinbox, fun _ h => absurd rfl h, ?_, carried, kept⟩
  · rintro h (hmem | hmem | hmem)
    · exact waiting h (.inr (.inl (hsub hmem)))
    · cases hmem
    · exact waiting h (.inr (.inr hmem))
  · intro h hmem
    exact infix_joinParagraphs (List.mem_append_right _ (List.mem_map_of_mem hmem))

theorem Inv.nextTurn (hw : Inv lane w) (hinbox : w.inbox = []) : Inv lane (w.nextTurn lane) :=
  hw.reopen hinbox (fun _ h => h) [] w.startAckPending

theorem Inv.acknowledged (hw : Inv lane w) (hinbox : w.inbox = []) : Inv lane (w.acknowledged lane) :=
  hw.reopen hinbox (retainActiveReminders_subset w.mail w.held) [lane.brief] false

/-- A turn that opens with no row may say anything. -/
theorem Inv.refeed (hw : Inv lane w) (hinbox : w.inbox = []) (hopen : w.openingHails = []) (turn : String)
    (flakes empties : Nat) :
    Inv lane { w with phase := .starting, flakeResumes := flakes, emptyBriefs := empties, turn := turn } := by
  obtain ⟨unique, claimed, waiting, -, -, -, carried, kept⟩ := hw
  refine ⟨unique, claimed, waiting, fun _ _ => hinbox, fun _ h => absurd rfl h, ?_, carried, kept⟩
  intro h hmem
  have hmem : h ∈ w.openingHails := hmem
  rw [hopen] at hmem
  cases hmem

theorem Inv.boundary (hw : Inv lane w) (hinbox : w.inbox = []) (hopen : w.openingHails = []) (e : TurnEnd) :
    Inv lane (w.boundary lane e) := by
  have hclaim := hw.claim hinbox
  have hretain : Inv lane { w.claim lane with
      held := retainActiveReminders (w.claim lane).mail (w.claim lane).held } := by
    obtain ⟨unique, claimed, waiting, drained, opened, text, carried, kept⟩ := hclaim
    refine ⟨unique, claimed, ?_, drained, opened, text, carried, kept⟩
    rintro h (hmem | hmem | hmem)
    · exact waiting h (.inl hmem)
    · exact waiting h (.inr (.inl (retainActiveReminders_subset _ _ hmem)))
    · exact waiting h (.inr (.inr hmem))
  unfold World.boundary
  dsimp only
  split
  · split
    · obtain ⟨unique, claimed, waiting, -, -, text, carried, kept⟩ := hretain
      exact ⟨unique, claimed, waiting, fun _ _ => hinbox, fun _ _ => hopen, text, carried, kept⟩
    · exact hretain.leave
  · exact hretain.nextTurn hinbox

theorem Inv.settle (hw : Inv lane w) {e : TurnEnd} (hphase : w.phase = .ended e) (conversation : Option String)
    (nothing : Bool) : Inv lane (w.settle lane e conversation nothing) := by
  have hinbox := hw.drained (by simp [hphase]) (by simp [hphase])
  have hopen := hw.opened (by simp [hphase]) (by simp [hphase])
  unfold World.settle
  split
  · split
    · exact hw.leave
    · exact hw.acknowledged hinbox
  split
  · split
    · exact hw.refeed hinbox hopen _ _ _
    · exact hw.leave
  -- what follows reads the brief's flags, whichever they are by now
  have hrest : ∀ w' : World, Inv lane w' → w'.inbox = [] → w'.openingHails = [] →
      Inv lane (if e.retryable ∧ w'.flakeResumes < flakeResumeCap then
        { w' with
          phase := .starting
          flakeResumes := w'.flakeResumes + 1
          turn := resumeText w'.briefCompleted conversation lane.brief }
      else w'.boundary lane e) := by
    intro w' hw' hinbox' hopen'
    split
    · exact hw'.refeed hinbox' hopen' _ _ w'.emptyBriefs
    · exact hw'.boundary hinbox' hopen' e
  dsimp only
  by_cases hdone : w.briefTurnPending ∧ e.isDone
  · rw [if_pos hdone]
    obtain ⟨unique, claimed, waiting, drained, opened, text, carried, kept⟩ := hw
    exact hrest _ ⟨unique, claimed, waiting, drained, opened, text, carried, kept⟩ hinbox hopen
  · rw [if_neg hdone]
    exact hrest w hw hinbox hopen

theorem Inv.park (hw : Inv lane w) {e : TurnEnd} (hphase : w.phase = .parked e) (deadline : Bool) :
    Inv lane (w.park lane deadline) := by
  have hinbox := hw.drained (by simp [hphase]) (by simp [hphase])
  unfold World.park
  split
  · split
    · exact hw.leave
    · exact hw
  · exact (hw.claim hinbox).nextTurn hinbox

theorem Inv.mailbox (hw : Inv lane w) {mail : Mail}
    (hmail : ∀ h ∈ w.returned, Unacknowledged w.mail h → Unacknowledged mail h) : Inv lane { w with mail := mail } := by
  obtain ⟨unique, claimed, waiting, drained, opened, text, carried, kept⟩ := hw
  exact ⟨unique, claimed, waiting, drained, opened, text, carried,
    fun h hmem => (kept h hmem).imp_right (.imp_right (hmail h hmem))⟩

theorem Inv.step {w' : World} {a : Act} (hw : Inv lane w) (ha : Unflaked w a) (h : step lane w a = some w') :
    Inv lane w' := by
  cases a with
  | arrive m =>
    cases h
    exact hw.mailbox fun h hmem hopen => hopen.arrive (ha.imp_right fun hne => hne h hmem)
  | acknowledge id stamp =>
    cases h
    exact hw.mailbox fun h hmem hopen => hopen.ack (ha h hmem) stamp
  | startTurn stamp =>
    simp only [Supervise.step, Option.ite_none_right_eq_some, Option.some.injEq] at h
    obtain ⟨-, rfl⟩ := h
    exact hw.startTurn stamp
  | poll =>
    simp only [Supervise.step, Option.ite_none_right_eq_some, Option.some.injEq] at h
    obtain ⟨⟨hrun, hinbox⟩, rfl⟩ := h
    exact hw.poll hrun hinbox
  | take interrupted steered stamp =>
    cases hinbox : w.inbox with
    | nil => simp [Supervise.step, hinbox] at h
    | cons hail rest =>
      simp only [Supervise.step, hinbox, Option.ite_none_right_eq_some, Option.some.injEq] at h
      obtain ⟨-, rfl⟩ := h
      exact hw.take hinbox interrupted steered stamp
  | finish e =>
    simp only [Supervise.step, Option.ite_none_right_eq_some, Option.some.injEq] at h
    obtain ⟨⟨hrun, hinbox⟩, rfl⟩ := h
    exact hw.endTurn hrun hinbox ha
  | settle conversation nothing =>
    cases hphase : w.phase with
    | ended e =>
      simp only [Supervise.step, hphase, Option.some.injEq] at h
      exact h ▸ hw.settle hphase conversation nothing
    | _ => simp [Supervise.step, hphase] at h
  | park deadline =>
    cases hphase : w.phase with
    | parked e =>
      simp only [Supervise.step, hphase, Option.some.injEq] at h
      exact h ▸ hw.park hphase deadline
    | _ => simp [Supervise.step, hphase] at h
  | leave =>
    simp only [Supervise.step, Option.ite_none_left_eq_some, Option.some.injEq] at h
    obtain ⟨-, rfl⟩ := h
    exact hw.leave

/-- **Every row that `pending` has returned is accepted mid-turn, or in the text of a turn that did not flake, or still
    unacknowledged**, in every state of a run whose steps meet `Unflaked`, and so at its end. -/
theorem claimed_mail_kept {resume : Option String} {revived : Bool} {mail : Mail} {acts : List Act}
    (h : Machine.Run (Machine.guarded Unflaked fun s a t => step lane s a = some t)
      (.opening lane resume revived mail) acts w) : ∀ hail ∈ w.returned, Kept lane w hail :=
  fun _ hmem => (h.invariant (fun _ _ _ hs hstep => hs.step hstep.1 hstep.2)
    (inv_opening lane resume revived mail)).all_kept hmem

/-! ## A lane with one row -/

def probeLane : LaneRun := ⟨"mine", "do the work", "[boop \x7bid\x7d from \x7bfrom\x7d] \x7bbody\x7d"⟩

def probeMail : Message :=
  ⟨"m1", "coordinator", "mine", "t0", none, .hail, none, "also fix the tests", none, none, none⟩

/-- A row arrives during the readiness probe and rides on the brief turn. -/
def probeActs : List Act :=
  [.startTurn "t1", .arrive probeMail, .poll, .take true none "t2", .finish (.done "ok" (some ⟨"boop", 0⟩)),
    .settle (some "thread") false, .startTurn "t3"]

def workingTurn : TurnEnd := .done "completed" (some ⟨"read the brief, edited the file and committed it", 2⟩)

/-- The brief turn is done, and the lane retires. -/
theorem claimed_mail_kept_done : ∃ w : World, w.phase = .over ∧ w.returned = [.ofMessage probeMail] ∧
    ∀ hail ∈ w.returned, Kept probeLane w hail := by
  have hend : ((Machine.exec (fun s a => if Unflaked s a then step probeLane s a else none)
      (.opening probeLane none false .empty)
      (probeActs ++ [.finish workingTurn, .settle (some "thread") false, .park true])).any fun w =>
        w.phase = .over ∧ w.returned = [.ofMessage probeMail]) = true := by decide +kernel
  obtain ⟨w, hexec, hw⟩ := (Option.any_eq_true _ _).1 hend
  obtain ⟨hover, hreturned⟩ := of_decide_eq_true hw
  exact ⟨w, hover, hreturned, claimed_mail_kept (Machine.run_of_exec_guarded hexec)⟩

/-- The brief turn flakes: the next turn is the brief alone, and the row, acknowledged when the brief turn had
    started, is nowhere. -/
theorem flaked_mail_lost : ∃ (acts : List Act) (w : World),
    Machine.Run (fun s a t => step probeLane s a = some t) (.opening probeLane none false .empty) acts w ∧
    w.phase = .over ∧ Hail.ofMessage probeMail ∈ w.returned ∧ ¬ Kept probeLane w (.ofMessage probeMail) := by
  have hend : ((Machine.exec (step probeLane) (.opening probeLane none false .empty)
      (probeActs ++ [.finish (.flaked "aborted stream"), .settle (some "thread") false, .startTurn "t4",
        .finish workingTurn, .settle (some "thread") false, .park true])).any fun w =>
      w.phase = .over ∧ Hail.ofMessage probeMail ∈ w.returned ∧ ¬ Kept probeLane w (.ofMessage probeMail)) = true := by
    decide +kernel
  obtain ⟨w, hexec, hw⟩ := (Option.any_eq_true _ _).1 hend
  exact ⟨_, w, Machine.run_of_exec (fun _ _ _ h => h) hexec, of_decide_eq_true hw⟩

end BoopProc.Supervise
