import HafleyRs.BoopHarness.OpencodeSync

/-!
# What a sync of OpenCode has projected

`Inv.log`: what was written for a session is, in rowid order, each message with parts up to the cursor once, with the
parts it has. That holds in every run: what is read is complete and stays as it is.
-/

namespace BoopHarness.Opencode
open BoopStore

/-! ## The calls of an ingest -/

section
variable {messages : List MessageRow} {parts : MessageRow → List Json}

/-- A message with its parts. -/
def wholeCalls (parts : MessageRow → List Json) (m : MessageRow) : List Call :=
  (parts m).map (.writePart m) ++ [.finishMessage m]

/-- The calls once the messages before `k` are finished. -/
def Visited.closed (messages : List MessageRow) (v : Visited) (k : Nat) : List Call :=
  if v.active then
    v.calls ++ finishAll (messages[v.current]?).toList ++ finishAll ((messages.take k).drop (v.current + 1))
  else v.calls ++ finishAll (messages.take k)

/-- The messages before `k` are visited. -/
structure VisitedOk (messages : List MessageRow) (parts : MessageRow → List Json) (v : Visited) (k : Nat) : Prop where
  active   : v.active = true → v.current < k
  inactive : v.active = false → v.current = 0
  closed   : v.closed messages k = (messages.take k).flatMap (wholeCalls parts)

theorem visit_same {v : Visited} {k : Nat} (hactive : v.active = true) (hcurrent : v.current = k) (ps : List Json) :
    (ps.map fun p => (k, p)).foldl (visit messages) v =
      { v with calls := v.calls ++ ps.flatMap fun p => (messages[k]?).toList.map fun m => .writePart m p } := by
  induction ps generalizing v with
  | nil => simp
  | cons p ps ih =>
    have hstep : visit messages v (k, p) =
        { v with calls := v.calls ++ (messages[k]?).toList.map fun m => .writePart m p } := by
      simp [visit, hactive, hcurrent]
    rw [List.map_cons, List.foldl_cons, hstep]
    refine (ih (v := { v with calls := v.calls ++ (messages[k]?).toList.map fun m => .writePart m p }) hactive
      hcurrent).trans ?_
    simp

theorem visit_first {v : Visited} {k : Nat} (h : VisitedOk messages parts v k) (p : Json) :
    visit messages v (k, p) = ⟨k, true, v.closed messages k ++ (messages[k]?).toList.map fun m => .writePart m p⟩ := by
  by_cases hactive : v.active = true
  · have hne : k ≠ v.current := (h.active hactive).ne'
    simp [visit, hactive, hne, Visited.closed]
  · simp [visit, hactive, Visited.closed]

/-- One message is visited. -/
theorem VisitedOk.message {v : Visited} {k : Nat} (h : VisitedOk messages parts v k) {m : MessageRow}
    (hm : messages[k]? = some m) :
    VisitedOk messages parts (((parts m).map fun p => (k, p)).foldl (visit messages) v) (k + 1) := by
  have htake : messages.take (k + 1) = messages.take k ++ [m] := by rw [List.take_add_one, hm]; rfl
  have hlength : (messages.take k).length = k := by
    rw [List.length_take]
    have hlt := (List.getElem?_eq_some_iff.1 hm).1
    omega
  cases hparts : parts m with
  | nil =>
    -- a message without parts is finished when the next is visited, or at the end
    refine ⟨fun hactive => Nat.lt_succ_of_lt (h.active hactive), h.inactive, ?_⟩
    have hclosed : v.closed messages (k + 1) = v.closed messages k ++ [.finishMessage m] := by
      by_cases hactive : v.active = true
      · have hlt := h.active hactive
        simp [Visited.closed, hactive, htake, List.drop_append_of_le_length, hlength, Nat.succ_le_of_lt hlt, finishAll]
      · simp [Visited.closed, hactive, htake, finishAll]
    simp [hclosed, h.closed, htake, wholeCalls, hparts]
  | cons p ps =>
    rw [List.map_cons, List.foldl_cons, visit_first h p, h.closed, visit_same rfl rfl]
    refine ⟨fun _ => Nat.lt_succ_self k, (fun hinactive => nomatch hinactive), ?_⟩
    have hdrop : (messages.take (k + 1)).drop (k + 1) = [] :=
      List.drop_eq_nil_of_le (by rw [List.length_take]; omega)
    have hwrites : (ps.flatMap fun p => [Call.writePart m p]) = ps.map (.writePart m) := List.map_eq_flatMap.symm
    simp only [Visited.closed, if_true, hdrop]
    simp [hm, finishAll, htake, wholeCalls, hparts, hwrites]

theorem visits_ok {suffix : List MessageRow} {v : Visited} {k : Nat} (h : VisitedOk messages parts v k)
    (hsuffix : messages.drop k = suffix) (hk : k ≤ messages.length) :
    VisitedOk messages parts
      (((suffix.zipIdx k).flatMap fun m => (parts m.1).map fun p => (m.2, p)).foldl (visit messages) v)
      messages.length := by
  induction suffix generalizing v k with
  | nil =>
    have hlength : messages.length ≤ k := List.drop_eq_nil_iff.1 hsuffix
    rw [le_antisymm hlength hk]
    exact h
  | cons m suffix ih =>
    have hm : messages[k]? = some m := by
      rw [← List.head?_drop, hsuffix]
      rfl
    have hlt := (List.getElem?_eq_some_iff.1 hm).1
    rw [List.zipIdx_cons, List.flatMap_cons, List.foldl_append]
    refine ih (h.message hm) ?_ hlt
    rw [← List.drop_drop, hsuffix]
    rfl

/-- **An ingest writes each message with its parts, and finishes it.** -/
theorem ingestCalls_eq (messages : List MessageRow) (parts : MessageRow → List Json) :
    ingestCalls messages (messages.zipIdx.flatMap fun m => (parts m.1).map fun p => (m.2, p)) =
      messages.flatMap (wholeCalls parts) := by
  have hstart : VisitedOk messages parts ⟨0, false, []⟩ 0 :=
    ⟨(fun h => nomatch h), fun _ => rfl, by simp [Visited.closed, finishAll]⟩
  have hend := visits_ok hstart (List.drop_zero (l := messages)) (Nat.zero_le _)
  rw [ingestCalls]
  generalize ((messages.zipIdx.flatMap fun m => (parts m.1).map fun p => (m.2, p)).foldl (visit messages)
    ⟨0, false, []⟩) = v at hend ⊢
  have hclosed := hend.closed
  rw [List.take_length] at hclosed
  rw [← hclosed, Visited.closed, List.take_length]
  split
  · rfl
  · rename_i hinactive
    rw [hend.inactive (by simpa using hinactive), List.drop_zero]

end

/-! ## The walk over the messages of a session -/

/-- The message that ends a walk. -/
def Blocks (codec : Codec) (db : Db) (row : MessageRow) : Prop :=
  ¬ (role codec row = "assistant" ∧ assistantComplete codec row ∧ ¬ db.hasParts row) ∧
    (¬ db.hasParts row ∨ (db.tracksUpdates ∧ role codec row = "assistant" ∧ ¬ assistantComplete codec row))

instance (codec : Codec) (db : Db) (row : MessageRow) : Decidable (Blocks codec db row) :=
  inferInstanceAs (Decidable (¬ (_ ∧ _ ∧ _) ∧ (_ ∨ (_ ∧ _ ∧ _))))

theorem projectable_cons (codec : Codec) (db : Db) (row : MessageRow) (rows : List MessageRow) :
    projectable codec db (row :: rows) =
      if Blocks codec db row then []
      else if db.hasParts row then row :: projectable codec db rows else projectable codec db rows := by
  rw [projectable]
  by_cases hparts : db.hasParts row
  · simp [Blocks, hparts]
  · by_cases hdone : role codec row = "assistant" ∧ assistantComplete codec row
    · simp [Blocks, hparts, hdone]
    · simp [Blocks, hparts, hdone]

theorem not_incomplete_of_not_blocks {codec : Codec} {db : Db} {row : MessageRow} (htracks : db.tracksUpdates = true)
    (h : ¬ Blocks codec db row) : ¬ Incomplete codec row := by
  rintro ⟨hrole, hcomplete⟩
  exact h ⟨fun hskip => by simp [hcomplete] at hskip, .inr ⟨htracks, hrole, by simp [hcomplete]⟩⟩

abbrev Rising (rows : List MessageRow) : Prop := rows.Pairwise fun a b => a.rowid < b.rowid

/-- Two lists in rowid order with the same rows. -/
theorem rising_ext {l l' : List MessageRow} (h : Rising l) (h' : Rising l') (hmem : ∀ m, m ∈ l ↔ m ∈ l') : l = l' := by
  have hnodup : ∀ {l : List MessageRow}, Rising l → l.Nodup := fun h => h.imp fun hlt heq => by
    rw [heq] at hlt
    exact lt_irrefl _ hlt
  refine List.Perm.eq_of_pairwise (fun a b _ _ hab hba => ?_) h h'
    ((List.perm_ext_iff_of_nodup (hnodup h) (hnodup h')).2
    hmem)
  exact absurd hab (lt_asymm hba)

/-- What the walk takes stands behind nothing that ends it, and leaves out nothing with parts before its last. -/
theorem mem_projectable {codec : Codec} {db : Db} {rows : List MessageRow} (hrising : Rising rows) {x : MessageRow}
    (hx : x ∈ projectable codec db rows) :
    (x ∈ rows ∧ db.hasParts x) ∧ ∀ m ∈ rows, m.rowid ≤ x.rowid →
      ¬ Blocks codec db m ∧ (db.hasParts m → m ∈ projectable codec db rows) := by
  induction rows with
  | nil => cases hx
  | cons row rows ih =>
    obtain ⟨hfirst, hrest⟩ := List.pairwise_cons.1 hrising
    rw [projectable_cons] at hx ⊢
    by_cases hblocks : Blocks codec db row
    · rw [if_pos hblocks] at hx
      cases hx
    rw [if_neg hblocks] at hx ⊢
    by_cases hparts : db.hasParts row
    · rw [if_pos hparts] at hx ⊢
      rcases List.mem_cons.1 hx with rfl | hx
      · refine ⟨⟨List.mem_cons_self .., hparts⟩, fun m hm hle => ?_⟩
        rcases List.mem_cons.1 hm with rfl | hm
        · exact ⟨hblocks, fun _ => List.mem_cons_self ..⟩
        · exact absurd (hfirst m hm) (not_lt.2 hle)
      · obtain ⟨⟨hin, hhas⟩, hbefore⟩ := ih hrest hx
        refine ⟨⟨List.mem_cons_of_mem _ hin, hhas⟩, fun m hm hle => ?_⟩
        rcases List.mem_cons.1 hm with rfl | hm
        · exact ⟨hblocks, fun _ => List.mem_cons_self ..⟩
        · exact ⟨(hbefore m hm hle).1, fun h => List.mem_cons_of_mem _ ((hbefore m hm hle).2 h)⟩
    · rw [if_neg hparts] at hx ⊢
      obtain ⟨⟨hin, hhas⟩, hbefore⟩ := ih hrest hx
      refine ⟨⟨List.mem_cons_of_mem _ hin, hhas⟩, fun m hm hle => ?_⟩
      rcases List.mem_cons.1 hm with rfl | hm
      · exact ⟨hblocks, fun h => absurd h hparts⟩
      · exact hbefore m hm hle

theorem projectable_sublist (codec : Codec) (db : Db) (rows : List MessageRow) :
    (projectable codec db rows).Sublist rows := by
  induction rows with
  | nil => exact .refl _
  | cons row rows ih =>
    rw [projectable_cons]
    split_ifs
    · exact List.nil_sublist _
    · exact ih.cons_cons _
    · exact ih.cons _

/-- Behind what it took the walk takes nothing. -/
theorem projectable_behind {codec : Codec} {db : Db} {rows : List MessageRow} {b : Nat}
    (hlast : ∀ x ∈ projectable codec db rows, x.rowid ≤ b)
    (hbefore : ∀ m ∈ rows, m.rowid ≤ b → ¬ Blocks codec db m) :
    projectable codec db (rows.filter fun m => b < m.rowid) = [] := by
  induction rows with
  | nil => rfl
  | cons row rows ih =>
    have htail : ∀ m ∈ rows, m.rowid ≤ b → ¬ Blocks codec db m :=
      fun m hm => hbefore m (List.mem_cons_of_mem _ hm)
    rw [projectable_cons] at hlast
    rw [List.filter_cons]
    by_cases hblocks : Blocks codec db row
    · have hlt : b < row.rowid := by
        by_contra hle
        exact hbefore row (List.mem_cons_self ..) (not_lt.1 hle) hblocks
      rw [if_pos (by simpa using hlt), projectable_cons, if_pos hblocks]
    rw [if_neg hblocks] at hlast
    by_cases hparts : db.hasParts row
    · rw [if_pos hparts] at hlast
      have hle := hlast row (List.mem_cons_self ..)
      rw [if_neg (by simpa using hle)]
      exact ih (fun x hx => hlast x (List.mem_cons_of_mem _ hx)) htail
    · rw [if_neg hparts] at hlast
      split_ifs
      · rw [projectable_cons, if_neg hblocks, if_neg hparts]
        exact ih hlast htail
      · exact ih hlast htail

/-- A walk that takes nothing has an end before every message with parts. -/
theorem projectable_nil {codec : Codec} {db : Db} {rows : List MessageRow} (h : projectable codec db rows = [])
    {m : MessageRow} (hm : m ∈ rows) (hrising : Rising rows) (hparts : db.hasParts m) :
    ∃ m' ∈ rows, m'.rowid ≤ m.rowid ∧ Blocks codec db m' := by
  induction rows with
  | nil => cases hm
  | cons row rows ih =>
    obtain ⟨hfirst, hrest⟩ := List.pairwise_cons.1 hrising
    rw [projectable_cons] at h
    by_cases hblocks : Blocks codec db row
    · refine ⟨row, List.mem_cons_self .., ?_, hblocks⟩
      rcases List.mem_cons.1 hm with rfl | hm
      · exact le_rfl
      · exact (hfirst m hm).le
    rw [if_neg hblocks] at h
    by_cases hhas : db.hasParts row
    · rw [if_pos hhas] at h
      cases h
    rw [if_neg hhas] at h
    rcases List.mem_cons.1 hm with rfl | hm
    · exact absurd hparts hhas
    · obtain ⟨m', hm', hle, hb⟩ := ih h hm hrest
      exact ⟨m', List.mem_cons_of_mem _ hm', hle, hb⟩

theorem projectable_congr {codec : Codec} {db db' : Db} {rows : List MessageRow}
    (htracks : db'.tracksUpdates = db.tracksUpdates) (hparts : ∀ m ∈ rows, db'.hasParts m = db.hasParts m) :
    projectable codec db' rows = projectable codec db rows := by
  induction rows with
  | nil => rfl
  | cons row rows ih =>
    have hhere := hparts row (List.mem_cons_self ..)
    rw [projectable, projectable, htracks, hhere, ih fun m hm => hparts m (List.mem_cons_of_mem _ hm)]

/-! ## A session's messages up to a cursor -/

structure DbOk (codec : Codec) (db : Db) : Prop where
  rising   : Rising db.messages
  ids      : (db.messages.map MessageRow.id).Nodup
  positive : ∀ m ∈ db.messages, 0 < m.rowid
  tracks   : db.tracksUpdates = true
  sessions : ∀ m ∈ db.messages, m.session ∈ db.sessions.map SessionRow.id

/-- The messages with parts of a session behind a rowid and up to another. -/
def Db.projected (db : Db) (session : String) (after last : Nat) : List MessageRow :=
  db.messages.filter fun m => m.session = session ∧ after < m.rowid ∧ m.rowid ≤ last ∧ db.hasParts m

theorem mem_projected {db : Db} {session : String} {after last : Nat} {m : MessageRow} :
    m ∈ db.projected session after last ↔
      m ∈ db.messages ∧ m.session = session ∧ after < m.rowid ∧ m.rowid ≤ last ∧ db.hasParts m := by
  rw [Db.projected, List.mem_filter, decide_eq_true_eq]

/-- No message of the session in that range may still change. -/
def SettledIn (codec : Codec) (db : Db) (session : String) (after last : Nat) : Prop :=
  ∀ m ∈ db.messages, m.session = session → after < m.rowid → m.rowid ≤ last → ¬ Incomplete codec m

/-- A cursor is at the beginning or at a message. -/
def AtRow (db : Db) (last : Nat) : Prop := last = 0 ∨ ∃ m ∈ db.messages, m.rowid = last

theorem DbOk.rowsAfter {codec : Codec} {db : Db} (h : DbOk codec db) (session : String) (after : Nat) :
    db.rowsAfter session after = db.messages.filter fun m => m.session = session ∧ after < m.rowid :=
  List.Pairwise.insertionSort_eq ((h.rising.filter _).imp fun hlt => hlt.le)

theorem DbOk.mem_rowsAfter {codec : Codec} {db : Db} (h : DbOk codec db) {session : String} {after : Nat}
    {m : MessageRow} : m ∈ db.rowsAfter session after ↔ m ∈ db.messages ∧ m.session = session ∧ after < m.rowid := by
  rw [h.rowsAfter, List.mem_filter, decide_eq_true_eq]

theorem DbOk.rowsAfter_rising {codec : Codec} {db : Db} (h : DbOk codec db) (session : String) (after : Nat) :
    Rising (db.rowsAfter session after) := by
  rw [h.rowsAfter]
  exact h.rising.filter _

/-- The last message of a list in rowid order, and where there is none the cursor before it. -/
def lastOf (messages : List MessageRow) (after : Nat) : Nat := (messages.getLast?.map MessageRow.rowid).getD after

theorem le_lastOf {messages : List MessageRow} (h : Rising messages) (after : Nat) {m : MessageRow}
    (hm : m ∈ messages) : m.rowid ≤ lastOf messages after := by
  rcases List.eq_nil_or_concat messages with rfl | ⟨init, last, rfl⟩
  · cases hm
  · rw [List.concat_eq_append] at h hm ⊢
    have hlast : lastOf (init ++ [last]) after = last.rowid := by simp [lastOf]
    rw [hlast]
    rcases List.mem_append.1 hm with hm | hm
    · exact ((List.pairwise_append.1 h).2.2 m hm last (List.mem_singleton_self last)).le
    · rw [List.mem_singleton.1 hm]

theorem lastOf_mem (messages : List MessageRow) (after : Nat) :
    (messages = [] ∧ lastOf messages after = after) ∨ ∃ m ∈ messages, m.rowid = lastOf messages after := by
  rcases List.eq_nil_or_concat messages with rfl | ⟨init, last, rfl⟩
  · exact .inl ⟨rfl, rfl⟩
  · exact .inr ⟨last, by simp, by simp [lastOf]⟩

/-- What a read takes is all with parts up to its last, and nothing up to there may still change. -/
theorem messagesAfter_spec {codec : Codec} {db : Db} (h : DbOk codec db) (session : String) (after : Nat) :
    let last := lastOf (messagesAfter codec db session after) after
    messagesAfter codec db session after = db.projected session after last ∧ SettledIn codec db session after last ∧
      after ≤ last ∧ (AtRow db after → AtRow db last) ∧
      ∀ m ∈ db.rowsAfter session after, m.rowid ≤ last → ¬ Blocks codec db m := by
  intro last
  have hrising := h.rowsAfter_rising session after
  have htaken : Rising (messagesAfter codec db session after) :=
    hrising.sublist (projectable_sublist codec db _)
  have hbefore : ∀ m ∈ db.rowsAfter session after, m.rowid ≤ last →
      ¬ Blocks codec db m ∧ (db.hasParts m → m ∈ messagesAfter codec db session after) := by
    intro m hm hle
    rcases lastOf_mem (messagesAfter codec db session after) after with ⟨-, heq⟩ | ⟨x, hx, heq⟩
    · have hlast : last = after := heq
      exact absurd (h.mem_rowsAfter.1 hm).2.2 (by omega)
    · have hlast : x.rowid = last := heq
      exact (mem_projectable hrising hx).2 m hm (by omega)
  refine ⟨rising_ext htaken (h.rising.filter _) fun m => ?_, fun m hm hsession hafter hle => ?_, ?_, fun hat => ?_,
    fun m hm hle => (hbefore m hm hle).1⟩
  · rw [mem_projected]
    constructor
    · intro hm
      obtain ⟨hin, hparts⟩ := (mem_projectable hrising hm).1
      obtain ⟨hrow, hsession, hafter⟩ := h.mem_rowsAfter.1 hin
      exact ⟨hrow, hsession, hafter, le_lastOf htaken after hm, hparts⟩
    · rintro ⟨hrow, hsession, hafter, hle, hparts⟩
      exact (hbefore m (h.mem_rowsAfter.2 ⟨hrow, hsession, hafter⟩) hle).2 hparts
  · exact not_incomplete_of_not_blocks h.tracks (hbefore m (h.mem_rowsAfter.2 ⟨hm, hsession, hafter⟩) hle).1
  · rcases lastOf_mem (messagesAfter codec db session after) after with ⟨-, heq⟩ | ⟨x, hx, heq⟩
    · exact heq.ge
    · have hafter := (h.mem_rowsAfter.1 (mem_projectable hrising hx).1.1).2.2
      have hlast : x.rowid = last := heq
      omega
  · rcases lastOf_mem (messagesAfter codec db session after) after with ⟨-, heq⟩ | ⟨x, hx, heq⟩
    · have hlast : last = after := heq
      rw [hlast]
      exact hat
    · exact .inr ⟨x, (h.mem_rowsAfter.1 (mem_projectable hrising hx).1.1).1, heq⟩

/-- A read behind what a read took takes nothing. -/
theorem messagesAfter_behind {codec : Codec} {db : Db} (h : DbOk codec db) (session : String) (after : Nat) :
    messagesAfter codec db session (lastOf (messagesAfter codec db session after) after) = [] := by
  obtain ⟨-, -, hle, -, hblocks⟩ := messagesAfter_spec h session after
  generalize hlast : lastOf (messagesAfter codec db session after) after = last at hle hblocks ⊢
  have hrows : db.rowsAfter session last = (db.rowsAfter session after).filter fun m => last < m.rowid := by
    rw [h.rowsAfter, h.rowsAfter, List.filter_filter]
    refine List.filter_congr fun m _ => ?_
    by_cases hm : last < m.rowid
    · have hafter : after < m.rowid := by omega
      simp [hm, hafter]
    · simp [hm]
  rw [messagesAfter, hrows]
  refine projectable_behind (fun x hx => ?_) hblocks
  rw [← hlast]
  exact le_lastOf ((h.rowsAfter_rising session after).sublist (projectable_sublist codec db _)) after hx

theorem projected_append {codec : Codec} {db : Db} (h : DbOk codec db) (session : String) {a b c : Nat} (hab : a ≤ b)
    (hbc : b ≤ c) : db.projected session a c = db.projected session a b ++ db.projected session b c := by
  refine rising_ext (h.rising.filter _) ?_ fun m => ?_
  · refine List.pairwise_append.2 ⟨h.rising.filter _, h.rising.filter _, fun x hx y hy => ?_⟩
    have hle := (mem_projected.1 hx).2.2.2.1
    have hlt := (mem_projected.1 hy).2.2.1
    omega
  · rw [List.mem_append, mem_projected, mem_projected, mem_projected]
    constructor
    · rintro ⟨hm, hsession, hlt, hle, hparts⟩
      by_cases hb : m.rowid ≤ b
      · exact .inl ⟨hm, hsession, hlt, hb, hparts⟩
      · exact .inr ⟨hm, hsession, not_le.1 hb, hle, hparts⟩
    · rintro (⟨hm, hsession, hlt, hle, hparts⟩ | ⟨hm, hsession, hlt, hle, hparts⟩)
      · exact ⟨hm, hsession, hlt, hle.trans hbc, hparts⟩
      · exact ⟨hm, hsession, hab.trans_lt hlt, hle, hparts⟩

/-! ## What OpenCode may do -/

/-- A write keeps the messages that are settled, with their parts, and puts new ones behind all. `touched` is the
    session it is in. -/
structure Grown (codec : Codec) (now : Nat) (db db' : Db) (touched : Option String) : Prop where
  tracks   : db'.tracksUpdates = db.tracksUpdates
  messages : ∃ (f : MessageRow → MessageRow) (new : List MessageRow), db'.messages = db.messages.map f ++ new ∧
    (∀ m, (f m).rowid = m.rowid ∧ (f m).session = m.session ∧ (f m).id = m.id) ∧
    (∀ m ∈ db.messages, f m ≠ m → Incomplete codec m ∧ touched = some m.session ∧ role codec (f m) = role codec m) ∧
    Rising new ∧ (new.map MessageRow.id).Nodup ∧
    ∀ n ∈ new, 0 < n.rowid ∧ touched = some n.session ∧ n.session ∈ db.sessions.map SessionRow.id ∧
      ∀ m ∈ db.messages, m.rowid < n.rowid ∧ m.id ≠ n.id
  parts    : ∃ new, db'.parts = db.parts ++ new ∧ ∀ p ∈ new, ∀ m ∈ db.messages, m.id = p.messageId →
    Incomplete codec m ∧ touched = some m.session
  sessions : ∀ row' ∈ db'.sessions, (∃ row ∈ db.sessions, row.id = row'.id ∧
      (touched ≠ some row.id → row'.timeUpdated = row.timeUpdated) ∧ (touched = some row.id → row'.timeUpdated = now)) ∨
    row'.id ∉ db.sessions.map SessionRow.id
  kept     : ∀ id ∈ db.sessions.map SessionRow.id, id ∈ db'.sessions.map SessionRow.id

theorem touch_sessions (db : Db) (session : String) (now : Nat) :
    (∀ row' ∈ (db.touch session now).sessions, ∃ row ∈ db.sessions, row.id = row'.id ∧
      (some session ≠ some row.id → row'.timeUpdated = row.timeUpdated) ∧
      (some session = some row.id → row'.timeUpdated = now)) ∧
    ∀ id ∈ db.sessions.map SessionRow.id, id ∈ (db.touch session now).sessions.map SessionRow.id := by
  constructor
  · intro row' hrow'
    obtain ⟨row, hrow, rfl⟩ := List.mem_map.1 hrow'
    refine ⟨row, hrow, ?_⟩
    by_cases heq : row.id = session
    · simp [heq]
    · simp [heq, Ne.symm heq]
  · intro id hid
    obtain ⟨row, hrow, rfl⟩ := List.mem_map.1 hid
    refine List.mem_map.2 ⟨_, List.mem_map_of_mem hrow, ?_⟩
    split_ifs <;> rfl

def writeTouches (db : Db) : Write → Option String
  | .session _ => none
  | .message row _ => some row.session
  | .part part => (db.messages.find? fun m => m.id = part.messageId).map MessageRow.session
  | .update id _ => (db.messages.find? fun m => m.id = id).map MessageRow.session

theorem write_grown {codec : Codec} {now : Nat} {db db' : Db} {w : Write} (hdb : DbOk codec db)
    (h : write codec now db w = some db') : Grown codec now db db' (writeTouches db w) := by
  have hfound : ∀ {id : String} {m : MessageRow}, (db.messages.find? fun m => m.id = id) = some m →
      m ∈ db.messages ∧ m.id = id :=
    fun hm => ⟨List.mem_of_find?_eq_some hm, by simpa using List.find?_some hm⟩
  have hsame : ∀ {id : String} {m m' : MessageRow}, (db.messages.find? fun m => m.id = id) = some m →
      m' ∈ db.messages → m'.id = id → m' = m := fun hm hm' hid =>
    List.inj_on_of_nodup_map hdb.ids hm' (hfound hm).1 (hid.trans (hfound hm).2.symm)
  cases w with
  | session name =>
    simp only [write] at h
    split_ifs at h with hid
    cases h
    refine ⟨rfl, ⟨id, [], by simp, fun m => ⟨rfl, rfl, rfl⟩, fun m _ hne => absurd rfl hne, .nil, List.nodup_nil,
      fun n hn => (List.not_mem_nil hn).elim⟩, ⟨[], by simp, fun p hp => (List.not_mem_nil hp).elim⟩, ?_, ?_⟩
    · intro row' hrow'
      rcases List.mem_append.1 hrow' with hrow' | hrow'
      · exact .inl ⟨row', hrow', rfl, fun _ => rfl, fun hcon => by cases hcon⟩
      · rw [List.mem_singleton.1 hrow']
        exact .inr hid
    · intro id' hid'
      simp only [List.map_append, List.mem_append]
      exact .inl hid'
  | message row parts =>
    simp only [write] at h
    split_ifs at h with hfresh
    cases h
    obtain ⟨hsession, hpos, hnew, hold, hparts⟩ := hfresh
    refine ⟨rfl, ⟨id, [row], by simp [Db.touch], fun m => ⟨rfl, rfl, rfl⟩, fun m _ hne => absurd rfl hne,
      List.pairwise_singleton _ _, List.nodup_singleton _, fun n hn => ?_⟩, ⟨parts, rfl, fun p hp m hm hid => ?_⟩,
      fun row' hrow' => .inl ((touch_sessions _ _ _).1 row' hrow'), (touch_sessions _ _ _).2⟩
    · rw [List.mem_singleton.1 hn]
      exact ⟨hpos, rfl, hsession, hnew⟩
    · exact absurd (hid.trans (hparts p hp)) (hnew m hm).2
  | part part =>
    simp only [write] at h
    cases hm : db.messages.find? fun m => m.id = part.messageId with
    | none => rw [hm] at h; cases h
    | some m =>
      simp only [hm] at h
      split_ifs at h with hopen
      cases h
      refine ⟨rfl, ⟨id, [], by simp [Db.touch], fun m => ⟨rfl, rfl, rfl⟩, fun m _ hne => absurd rfl hne, .nil,
        List.nodup_nil, fun n hn => (List.not_mem_nil hn).elim⟩, ⟨[part], rfl, fun p hp m' hm' hid => ?_⟩,
        fun row' hrow' => ?_, (touch_sessions _ _ _).2⟩
      · rw [List.mem_singleton.1 hp] at hid
        rw [hsame hm hm' hid]
        exact ⟨hopen, by simp [writeTouches, hm]⟩
      · simp only [writeTouches, hm, Option.map_some]
        exact .inl ((touch_sessions _ _ _).1 row' hrow')
  | update id raw =>
    simp only [write] at h
    cases hm : db.messages.find? fun m => m.id = id with
    | none => rw [hm] at h; cases h
    | some m =>
      simp only [hm] at h
      split_ifs at h with hopen
      cases h
      refine ⟨rfl, ⟨fun m => if m.id = id then { m with raw } else m, [], by simp [Db.touch, Db.setRaw], fun m => ?_,
        fun m' hm' hne => ?_, .nil, List.nodup_nil, fun n hn => (List.not_mem_nil hn).elim⟩,
        ⟨[], by simp [Db.touch, Db.setRaw], fun p hp => (List.not_mem_nil hp).elim⟩, fun row' hrow' => ?_,
        (touch_sessions _ _ _).2⟩
      · dsimp only
        split_ifs <;> exact ⟨rfl, rfl, rfl⟩
      · have hid : m'.id = id := by
          by_contra hne'
          exact hne (if_neg hne')
        obtain rfl := hsame hm hm' hid
        refine ⟨hopen.1, by simp [writeTouches, hm], ?_⟩
        dsimp only
        rw [if_pos hid]
        exact hopen.2.trans hopen.1.1.symm
      · simp only [writeTouches, hm, Option.map_some]
        exact .inl ((touch_sessions _ _ _).1 row' hrow')

namespace Grown
variable {codec : Codec} {now : Nat} {db db' : Db} {touched : Option String}

/-- A settled message is still there as it was; every other is one that may still change, or new. -/
theorem settled (h : Grown codec now db db' touched) {m : MessageRow} (hm : m ∈ db.messages)
    (hsettled : ¬ Incomplete codec m) : m ∈ db'.messages := by
  obtain ⟨f, new, heq, -, hf, -⟩ := h.messages
  have hsame : f m = m := by
    by_contra hne
    exact hsettled (hf m hm hne).1
  rw [heq]
  exact List.mem_append_left _ (List.mem_map.2 ⟨m, hm, hsame⟩)

theorem dbOk (h : Grown codec now db db' touched) (hdb : DbOk codec db) : DbOk codec db' := by
  obtain ⟨f, new, heq, hkeeps, -, hrising, hids, hnew⟩ := h.messages
  refine ⟨?_, ?_, fun m hm => ?_, h.tracks.trans hdb.tracks, fun m hm => h.kept _ ?_⟩
  · rw [heq]
    refine List.pairwise_append.2 ⟨List.pairwise_map.2 (hdb.rising.imp fun {a b} hlt => ?_), hrising, ?_⟩
    · rw [(hkeeps a).1, (hkeeps b).1]
      exact hlt
    · intro x hx n hn
      obtain ⟨m, hm, rfl⟩ := List.mem_map.1 hx
      rw [(hkeeps m).1]
      exact ((hnew n hn).2.2.2 m hm).1
  · have hmap : (db.messages.map f).map MessageRow.id = db.messages.map MessageRow.id := by
      rw [List.map_map]
      exact List.map_congr_left fun m _ => (hkeeps m).2.2
    rw [heq, List.map_append, hmap]
    refine List.nodup_append.2 ⟨hdb.ids, hids, fun a ha b hb hab => ?_⟩
    obtain ⟨m, hm, rfl⟩ := List.mem_map.1 ha
    obtain ⟨n, hn, rfl⟩ := List.mem_map.1 hb
    exact ((hnew n hn).2.2.2 m hm).2 hab
  · rw [heq] at hm
    rcases List.mem_append.1 hm with hm | hm
    · obtain ⟨m₀, hm₀, rfl⟩ := List.mem_map.1 hm
      rw [(hkeeps m₀).1]
      exact hdb.positive m₀ hm₀
    · exact (hnew m hm).1
  · rw [heq] at hm
    rcases List.mem_append.1 hm with hm | hm
    · obtain ⟨m₀, hm₀, rfl⟩ := List.mem_map.1 hm
      rw [(hkeeps m₀).2.1]
      exact hdb.sessions m₀ hm₀
    · exact (hnew m hm).2.2.1

/-- The parts of a message that gains none. -/
theorem filter_parts (h : Grown codec now db db' touched) {m : MessageRow} (hm : m ∈ db.messages)
    (hkept : ¬ Incomplete codec m ∨ touched ≠ some m.session) :
    (db'.parts.filter fun p => p.messageId = m.id) = db.parts.filter fun p => p.messageId = m.id := by
  obtain ⟨new, heq, hnew⟩ := h.parts
  rw [heq, List.filter_append, List.append_right_eq_self, List.filter_eq_nil_iff]
  intro p hp hid
  obtain ⟨hopen, htouched⟩ := hnew p hp m hm (by simpa using (of_decide_eq_true hid).symm)
  exact hkept.elim (fun hsettled => hsettled hopen) fun hother => hother htouched

theorem hasParts (h : Grown codec now db db' touched) {m : MessageRow} (hm : m ∈ db.messages)
    (hkept : ¬ Incomplete codec m ∨ touched ≠ some m.session) : db'.hasParts m = db.hasParts m := by
  have hany : ∀ db : Db, db.hasParts m = !(db.parts.filter fun p => p.messageId = m.id).isEmpty := by
    intro db
    rw [Db.hasParts, Bool.eq_iff_iff]
    simp [List.any_eq_true]
  rw [hany, hany, h.filter_parts hm hkept]

theorem partsOf (h : Grown codec now db db' touched) {m : MessageRow} (hm : m ∈ db.messages)
    (hsettled : ¬ Incomplete codec m) : partsOf codec db' m = partsOf codec db m := by
  rw [Opencode.partsOf, Opencode.partsOf, h.filter_parts hm (.inl hsettled)]

/-- A settled range stays as it is. -/
theorem range (h : Grown codec now db db' touched) (hdb : DbOk codec db) {session : String} {after last : Nat}
    (hsettled : SettledIn codec db session after last) (hat : AtRow db last) :
    db'.projected session after last = db.projected session after last ∧
      SettledIn codec db' session after last ∧ AtRow db' last := by
  obtain ⟨f, new, heq, hkeeps, hf, -, -, hnew⟩ := h.messages
  have hold : ∀ m ∈ db'.messages, m.session = session → after < m.rowid → m.rowid ≤ last → m ∈ db.messages := by
    intro m hm hsession hafter hle
    rw [heq] at hm
    rcases List.mem_append.1 hm with hm | hm
    · obtain ⟨m₀, hm₀, rfl⟩ := List.mem_map.1 hm
      rw [(hkeeps m₀).1] at hafter hle
      rw [(hkeeps m₀).2.1] at hsession
      have hsame : f m₀ = m₀ := by
        by_contra hne
        exact hsettled m₀ hm₀ hsession hafter hle (hf m₀ hm₀ hne).1
      rw [hsame]
      exact hm₀
    · have hlt : last < m.rowid := by
        rcases hat with rfl | ⟨m', hm', rfl⟩
        · exact (hnew m hm).1
        · exact ((hnew m hm).2.2.2 m' hm').1
      omega
  refine ⟨rising_ext ((h.dbOk hdb).rising.filter _) (hdb.rising.filter _) fun m => ?_,
    fun m hm hsession hafter hle => hsettled m (hold m hm hsession hafter hle) hsession hafter hle, ?_⟩
  · rw [mem_projected, mem_projected]
    constructor
    · rintro ⟨hm, hsession, hafter, hle, hparts⟩
      have hin := hold m hm hsession hafter hle
      rw [h.hasParts hin (.inl (hsettled m hin hsession hafter hle))] at hparts
      exact ⟨hin, hsession, hafter, hle, hparts⟩
    · rintro ⟨hm, hsession, hafter, hle, hparts⟩
      have hdone := hsettled m hm hsession hafter hle
      refine ⟨h.settled hm hdone, hsession, hafter, hle, ?_⟩
      rw [h.hasParts hm (.inl hdone)]
      exact hparts
  · rcases hat with rfl | ⟨m, hm, rfl⟩
    · exact .inl rfl
    · refine .inr ⟨f m, ?_, (hkeeps m).1⟩
      rw [heq]
      exact List.mem_append_left _ (List.mem_map_of_mem hm)

/-- A session that is not touched reads as before. -/
theorem messagesAfter_eq (h : Grown codec now db db' touched) (hdb : DbOk codec db) {session : String}
    (hother : touched ≠ some session) (after : Nat) :
    messagesAfter codec db' session after = messagesAfter codec db session after := by
  obtain ⟨f, new, heq, hkeeps, hf, -, -, hnew⟩ := h.messages
  have hsame : ∀ m ∈ db.messages, m.session = session → f m = m := by
    intro m hm hsession
    by_contra hne
    exact hother (hsession ▸ (hf m hm hne).2.1)
  have hrows : db'.rowsAfter session after = db.rowsAfter session after := by
    refine rising_ext ((h.dbOk hdb).rowsAfter_rising _ _) (hdb.rowsAfter_rising _ _) fun m => ?_
    rw [(h.dbOk hdb).mem_rowsAfter, hdb.mem_rowsAfter, heq]
    constructor
    · rintro ⟨hm, hsession, hafter⟩
      rcases List.mem_append.1 hm with hm | hm
      · obtain ⟨m₀, hm₀, rfl⟩ := List.mem_map.1 hm
        have hsession' : m₀.session = session := (hkeeps m₀).2.1.symm.trans hsession
        rw [hsame m₀ hm₀ hsession'] at hafter ⊢
        exact ⟨hm₀, hsession', hafter⟩
      · exact absurd (hsession ▸ (hnew m hm).2.1) hother
    · rintro ⟨hm, hsession, hafter⟩
      exact ⟨List.mem_append_left _ (List.mem_map.2 ⟨m, hm, hsame m hm hsession⟩), hsession, hafter⟩
  rw [messagesAfter, messagesAfter, hrows]
  refine projectable_congr h.tracks fun m hm => ?_
  obtain ⟨hm, hsession, -⟩ := hdb.mem_rowsAfter.1 hm
  exact h.hasParts hm (.inr (hsession ▸ hother))

end Grown

/-! ## What holds in every run -/

def offsetOf (s : State) (session : String) : Nat := ((s.cursors session).map Cursor.offset).getD 0

/-- A session that is being read: its messages are all up to the last of them, and stay so. -/
structure ReadingOk (codec : Codec) (s : State) (r : Reading) : Prop where
  offset   : r.offset = offsetOf s r.row.id
  messages : r.messages = s.db.projected r.row.id r.offset r.nextCursor
  settled  : SettledIn codec s.db r.row.id r.offset r.nextCursor
  last     : AtRow s.db r.nextCursor
  le       : r.offset ≤ r.nextCursor
  todo     : ∀ x ∈ r.todo, x.1 ∈ r.messages
  visits   : r.visits ++ visitsOf codec s.db r.todo = visitsOf codec s.db r.messages.zipIdx

structure Inv (codec : Codec) (s : State) : Prop where
  db      : DbOk codec s.db
  cursor  : ∀ session, AtRow s.db (offsetOf s session)
  settled : ∀ session, SettledIn codec s.db session 0 (offsetOf s session)
  log     : ∀ session, s.log session =
    (s.db.projected session 0 (offsetOf s session)).flatMap (wholeCalls (partsOf codec s.db))
  reading : ∀ r pending, s.phase = .reading r pending → ReadingOk codec s r

theorem inv_start (codec : Codec) (now : Nat) : Inv codec (start now) :=
  ⟨⟨.nil, List.nodup_nil, fun _ hm => (List.not_mem_nil hm).elim, rfl, fun _ hm => (List.not_mem_nil hm).elim⟩,
    fun _ => .inl rfl, fun _ _ hm => (List.not_mem_nil hm).elim, fun _ => rfl, fun _ _ h => nomatch h⟩

theorem visitsOf_congr {codec : Codec} {db db' : Db} {batch : List (MessageRow × Nat)}
    (h : ∀ x ∈ batch, partsOf codec db' x.1 = partsOf codec db x.1) :
    visitsOf codec db' batch = visitsOf codec db batch :=
  List.flatMap_congr fun x hx => by rw [h x hx]

/-- A write leaves what is being read. -/
theorem ReadingOk.grown {codec : Codec} {s : State} {r : Reading} {db' : Db} {touched : Option String}
    (h : ReadingOk codec s r) (hdb : DbOk codec s.db) (hgrown : Grown codec s.now s.db db' touched) :
    ReadingOk codec { s with db := db' } r := by
  obtain ⟨hprojected, hsettled, hat⟩ := hgrown.range hdb h.settled h.last
  have hparts : ∀ m ∈ r.messages, partsOf codec db' m = partsOf codec s.db m := by
    intro m hm
    rw [h.messages] at hm
    obtain ⟨hrow, hsession, hafter, hle, -⟩ := mem_projected.1 hm
    exact hgrown.partsOf hrow (h.settled m hrow hsession hafter hle)
  refine ⟨h.offset, h.messages.trans hprojected.symm, hsettled, hat, h.le, h.todo, ?_⟩
  rw [visitsOf_congr fun x hx => hparts x.1 (h.todo x hx), h.visits]
  exact (visitsOf_congr fun x hx => hparts x.1 (List.fst_mem_of_mem_zipIdx hx)).symm

theorem Inv.write {codec : Codec} {s : State} {db' : Db} {touched : Option String} (h : Inv codec s)
    (hgrown : Grown codec s.now s.db db' touched) : Inv codec { s with db := db' } := by
  have hrange := fun session => hgrown.range h.db (h.settled session) (h.cursor session)
  refine ⟨hgrown.dbOk h.db, fun session => (hrange session).2.2, fun session => (hrange session).2.1,
    fun session => ?_, fun r pending hphase => (h.reading r pending hphase).grown h.db hgrown⟩
  have hlog := h.log session
  rw [← (hrange session).1] at hlog
  refine hlog.trans (List.flatMap_congr fun m hm => ?_)
  rw [(hrange session).1] at hm
  obtain ⟨hrow, hsession, hafter, hle, -⟩ := mem_projected.1 hm
  rw [wholeCalls, wholeCalls, hgrown.partsOf hrow (h.settled session m hrow hsession hafter hle)]

/-- A phase without a session that is being read. -/
theorem Inv.phase {codec : Codec} {s : State} {phase : Phase} (h : Inv codec s)
    (hphase : ∀ r pending, phase ≠ .reading r pending) : Inv codec { s with phase } :=
  ⟨h.db, h.cursor, h.settled, h.log, fun r pending heq => absurd heq (hphase r pending)⟩

theorem Inv.openNext {codec : Codec} {s : State} (h : Inv codec s) (row : SessionRow) (pending : List SessionRow) :
    Inv codec { s with phase := .reading (openSession codec s row) pending } := by
  refine ⟨h.db, h.cursor, h.settled, h.log, fun r pending' heq => ?_⟩
  cases heq
  obtain ⟨hmessages, hsettled, hle, hat, -⟩ := messagesAfter_spec h.db row.id (offsetOf s row.id)
  exact ⟨rfl, hmessages, hsettled, hat (h.cursor row.id), hle, fun x hx => List.fst_mem_of_mem_zipIdx hx, rfl⟩

theorem Inv.batch {codec : Codec} {s : State} {r : Reading} {pending : List SessionRow} (h : Inv codec s)
    (hphase : s.phase = .reading r pending) :
    Inv codec { s with phase := .reading (r.visitBatch codec s.db) pending } := by
  refine ⟨h.db, h.cursor, h.settled, h.log, fun r' pending' heq => ?_⟩
  cases heq
  have hr := h.reading r pending hphase
  refine ⟨hr.offset, hr.messages, hr.settled, hr.last, hr.le, fun x hx => hr.todo x (List.mem_of_mem_drop hx), ?_⟩
  have hsplit : visitsOf codec s.db (r.todo.take idBatch) ++ visitsOf codec s.db (r.todo.drop idBatch) =
      visitsOf codec s.db r.todo := by
    rw [visitsOf, visitsOf, ← List.flatMap_append, List.take_append_drop]
    rfl
  simp only [Reading.visitBatch, List.append_assoc, hsplit]
  exact hr.visits

/-- What a session's reading writes. -/
theorem ReadingOk.calls {codec : Codec} {s : State} {r : Reading} (h : ReadingOk codec s r) (htodo : r.todo = []) :
    r.calls = r.messages.flatMap (wholeCalls (partsOf codec s.db)) := by
  have hvisits := h.visits
  rw [htodo, show visitsOf codec s.db [] = [] from rfl, List.append_nil] at hvisits
  rw [Reading.calls]
  by_cases hempty : r.messages = []
  · simp [hempty]
  · rw [if_neg (by simpa using hempty), hvisits]
    exact ingestCalls_eq r.messages (Opencode.partsOf codec s.db)

theorem offsetOf_commit (s : State) (r : Reading) (session : String) :
    offsetOf (commitSession s r) session = if session = r.row.id then r.nextCursor else offsetOf s session := by
  by_cases heq : session = r.row.id
  · subst heq
    simp [offsetOf, commitSession]
  · simp [offsetOf, commitSession, heq]

theorem Inv.commit {codec : Codec} {s : State} {r : Reading} {pending : List SessionRow} (h : Inv codec s)
    (hphase : s.phase = .reading r pending) (htodo : r.todo = []) :
    Inv codec { commitSession s r with phase := .working pending } := by
  have hr := h.reading r pending hphase
  have hoffset : ∀ session, offsetOf { commitSession s r with phase := .working pending } session =
      if session = r.row.id then r.nextCursor else offsetOf s session := offsetOf_commit s r
  refine ⟨h.db, fun session => ?_, fun session => ?_, fun session => ?_, fun r' pending' heq => nomatch heq⟩
  · rw [hoffset]
    split_ifs
    · exact hr.last
    · exact h.cursor session
  · rw [hoffset]
    split_ifs with heq
    · intro m hm hsession hafter hle
      by_cases hbefore : m.rowid ≤ r.offset
      · exact h.settled r.row.id m hm (hsession.trans heq) hafter (hr.offset ▸ hbefore)
      · exact hr.settled m hm (hsession.trans heq) (not_le.1 hbefore) hle
    · exact h.settled session
  · rw [hoffset]
    show Function.update s.log r.row.id (s.log r.row.id ++ r.calls) session =
      (s.db.projected session 0 _).flatMap (wholeCalls (partsOf codec s.db))
    split_ifs with heq
    · subst heq
      rw [Function.update_self, h.log, hr.calls htodo, ← hr.offset,
        projected_append h.db r.row.id (Nat.zero_le _) hr.le, List.flatMap_append, ← hr.messages]
    · rw [Function.update_of_ne heq, h.log]

/-- What a step of a pass can do. -/
inductive PassStep (codec : Codec) (s : State) : PassEvent → State → Prop
  | select (h : s.phase = .idle) : PassStep codec s .select
      { s with phase := .selected s.cursors (s.db.sessions.filter (needsSync s.cursors)) }
  | sizes {known : Cursors} {changed : List SessionRow} (h : s.phase = .selected known changed) :
    PassStep codec s .sizes
      { s with phase := .working (changed.filter fun row => (decideSync known row (s.db.lastRowid row.id)).needed) }
  | openNext {row : SessionRow} {pending : List SessionRow} (h : s.phase = .working (row :: pending)) :
      PassStep codec s .openNext { s with phase := .reading (openSession codec s row) pending }
  | batch {r : Reading} {pending : List SessionRow} (h : s.phase = .reading r pending) :
      PassStep codec s .batch { s with phase := .reading (r.visitBatch codec s.db) pending }
  | commit {r : Reading} {pending : List SessionRow} (h : s.phase = .reading r pending) (htodo : r.todo = []) :
      PassStep codec s .commit { commitSession s r with phase := .working pending }
  | finish (h : s.phase = .working []) : PassStep codec s .finish { s with phase := .idle }
  | stop : PassStep codec s .stop { s with phase := .idle }

theorem passStep_cases {codec : Codec} {s s' : State} {e : PassEvent} (hstep : passStep codec s e = some s') :
    PassStep codec s e s' := by
  cases e with
  | select =>
    simp only [passStep] at hstep
    split at hstep <;> cases hstep
    exact .select ‹_›
  | sizes =>
    simp only [passStep] at hstep
    split at hstep <;> cases hstep
    exact .sizes ‹_›
  | openNext =>
    simp only [passStep] at hstep
    split at hstep <;> cases hstep
    exact .openNext ‹_›
  | batch =>
    simp only [passStep] at hstep
    split at hstep
    · split_ifs at hstep
      cases hstep
      exact .batch ‹_›
    · cases hstep
  | commit =>
    simp only [passStep] at hstep
    split at hstep
    · split_ifs at hstep with htodo
      cases hstep
      exact .commit ‹_› (List.isEmpty_iff.1 htodo)
    · cases hstep
  | finish =>
    simp only [passStep] at hstep
    split at hstep <;> cases hstep
    exact .finish ‹_›
  | stop =>
    cases hstep
    exact .stop

theorem Inv.pass {codec : Codec} {s s' : State} {e : PassEvent} (h : Inv codec s) (hstep : PassStep codec s e s') :
    Inv codec s' := by
  cases hstep with
  | select hphase => exact h.phase fun r pending heq => nomatch heq
  | sizes hphase => exact h.phase fun r pending heq => nomatch heq
  | openNext hphase => exact h.openNext _ _
  | batch hphase => exact h.batch hphase
  | commit hphase htodo => exact h.commit hphase htodo
  | finish hphase => exact h.phase fun r pending heq => nomatch heq
  | stop => exact h.phase fun r pending heq => nomatch heq

theorem inv_step (codec : Codec) (s : State) (e : Event) (s' : State) (h : Inv codec s)
    (hstep : step codec s e = some s') : Inv codec s' := by
  cases e with
  | tick ms =>
    cases hstep
    refine ⟨h.db, h.cursor, h.settled, h.log, fun r pending hphase => ?_⟩
    have hr := h.reading r pending hphase
    exact ⟨hr.offset, hr.messages, hr.settled, hr.last, hr.le, hr.todo, hr.visits⟩
  | write w =>
    obtain ⟨db', hdb', rfl⟩ := Option.map_eq_some_iff.1 hstep
    exact h.write (write_grown h.db hdb')
  | pass e => exact h.pass (passStep_cases hstep)

end BoopHarness.Opencode
