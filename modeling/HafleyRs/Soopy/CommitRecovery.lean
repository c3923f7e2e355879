import HafleyRs.Soopy.CommitChanges

/-!
# Commits that are cut, and their recovery (`crates/soopy/src/_7f_commit.rs`)

A commit whose stage passed the checks leaves the tree midway through the changes of the stage, wherever it ends
(`applyFrom_midway`), with its journal and payloads beside it (`Underway`). What `recover` (447) makes of such a
state is one of that kind again if it is cut too, and otherwise the outcome of the stage (`recoverUntil_underway`).
-/

namespace Soopy
open FileTree Checks

variable {D : Type} {engine : CommitEngine D} {t : Files Bytes} {file : StagedFile D} {operation : JournalOperation D}
  {payload : Option Bytes} {c : Change Bytes} {blobs : Blobs D} {stage : StagedSourceTransaction D}
  {journal : CommitJournal D} {payloads : List (Option Bytes)} {w₀ w w' : World D}

/-! ## Payloads -/

section
variable [DecidableEq D]

theorem materializePayload_ok (hdigests : Digests engine) {blobs' : Blobs D}
    (h : materializePayload engine blobs file operation = .ok blobs') {blob : D}
    (hblob : operation.afterBlob = some blob) :
    ∃ bytes, file.bytesAfter = some bytes ∧ engine.hash bytes = blob ∧ blobs' blob = some bytes := by
  unfold materializePayload at h
  cases ha : file.bytesAfter with
  | none => simp [hblob, ha] at h
  | some bytes =>
    simp only [hblob, ha] at h
    split_ifs at h with hhash
    · push Not at hhash
      refine ⟨bytes, rfl, hhash, ?_⟩
      cases hx : blobs blob with
      | some existing =>
        simp only [hx] at h
        split_ifs at h with hex
        cases h
        rw [hx, hdigests.hash ((not_not.1 hex).trans hhash.symm)]
      | none =>
        simp only [hx] at h
        cases h
        rw [Function.update_self]
        cases engine.durability with
        | dryRun => rfl
        | durable =>
          cases hs : engine.stagedBlob blob with
          | none => rfl
          | some linked => simp [hdigests.hash ((hdigests.staged blob linked hs).trans hhash.symm)]

theorem materializePayloads_ok (hdigests : Digests engine) {pairs : List (StagedFile D × JournalOperation D)}
    {blobs' : Blobs D} (h : materializePayloads engine blobs pairs = (blobs', .ok ()))
    {pair : StagedFile D × JournalOperation D} (hpair : pair ∈ pairs) {blob : D} (hblob : pair.2.afterBlob = some blob) :
    ∃ bytes, pair.1.bytesAfter = some bytes ∧ engine.hash bytes = blob ∧ blobs' blob = some bytes := by
  induction pairs generalizing blobs with
  | nil => cases hpair
  | cons first rest ih =>
    obtain ⟨file, operation⟩ := first
    rw [materializePayloads] at h
    cases hm : materializePayload engine blobs file operation with
    | error r => simp [hm] at h
    | ok next =>
      simp only [hm] at h
      rcases List.mem_cons.1 hpair with rfl | hrest
      · obtain ⟨bytes, hbytes, hhash, hthere⟩ := materializePayload_ok hdigests hm hblob
        have hkept := materializePayloads_keeps engine rest hthere
        rw [h] at hkept
        exact ⟨bytes, hbytes, hhash, hkept⟩
      · exact ih h hrest

/-- The payload of an operation: the bytes of its file, if it has an output. -/
def payloadOf (file : StagedFile D) (operation : JournalOperation D) : Option Bytes :=
  operation.afterBlob.bind fun _ => file.bytesAfter

theorem operationBytes_of_materialized (h : ∀ blob, operation.afterBlob = some blob →
      ∃ bytes, file.bytesAfter = some bytes ∧ engine.hash bytes = blob ∧ blobs blob = some bytes) :
    operationBytes engine blobs operation = .ok (payloadOf file operation) := by
  unfold operationBytes payloadOf
  cases hb : operation.afterBlob with
  | none => rfl
  | some blob =>
    obtain ⟨bytes, hbytes, hhash, hthere⟩ := h blob hb
    simp [hthere, hhash, hbytes]

end

/-! ## The stage of a commit -/

/-- No path of one file names, or is above, a path of another. -/
def Separate (files : List (StagedFile D)) : Prop :=
  files.Pairwise fun f g => ∀ p ∈ f.pathBefore.toList ++ f.pathAfter.toList,
    ∀ q ∈ g.pathBefore.toList ++ g.pathAfter.toList,
      ¬ normalNames p <+: normalNames q ∧ ¬ normalNames q <+: normalNames p

/-- A journal of operations that were checked against one view, with their payloads. -/
structure Prepared (engine : CommitEngine D) (V₀ : View Bytes) (journal : CommitJournal D)
    (payloads : List (Option Bytes)) (cs : List (Change Bytes)) : Prop where
  isOpen  : View.Open V₀
  cleared : List.Forall₂ (Cleared engine V₀) (journal.operations.zip payloads) cs
  length  : payloads.length = journal.operations.length
  ready   : ∀ c ∈ cs, Change.Ready V₀ c
  apart   : FileTree.Apart cs
  durable : engine.durability = .durable

namespace Prepared
variable {V₀ : View Bytes} {cs : List (Change Bytes)}

/-- Applying from any state midway ends in one, at the cut or with nothing left to do. -/
theorem applyFrom_midway (h : Prepared engine V₀ journal payloads cs) (cut : Option Cut) (completed : Nat → Bool)
    (es : List (JournalOperation D × Option Bytes)) {index : Nat} {done : Nat → Prop}
    (hes : ∀ j, es[j]? = (journal.operations.zip payloads)[index + j]?) (hmid : Midway V₀ cs done t.look)
    (hcompleted : ∀ i c, index ≤ i → cs[i]? = some c →
      (completed i = true → done i ∨ c.Idle V₀) ∧ (completed i = false → ¬ done i)) :
    ∃ done', Midway V₀ cs done' (applyFrom engine cut completed index t es).1.look ∧ (∀ i, done i → done' i) ∧
      ((∃ point, cut = some (.failpoint point) ∧
          (applyFrom engine cut completed index t es).2 = .error (.cut (.failpoint point))) ∨
        ((applyFrom engine cut completed index t es).2 = .ok () ∧
          ∀ i c, index ≤ i → cs[i]? = some c → done' i ∨ (completed i = true ∧ c.Idle V₀))) := by
  induction es generalizing index t done with
  | nil =>
    refine ⟨done, hmid, fun _ => id, .inr ⟨rfl, fun i c hle hi => ?_⟩⟩
    obtain ⟨e, he, -⟩ := getElem?_of_left h.cleared.flip hi
    have hend := hes (i - index)
    rw [Nat.add_sub_cancel' hle, he] at hend
    cases hend
  | cons e rest ih =>
    obtain ⟨operation, payload⟩ := e
    have hhead : (journal.operations.zip payloads)[index]? = some (operation, payload) := (hes 0).symm
    obtain ⟨c, hc, hcleared⟩ := getElem?_of_left h.cleared hhead
    have hrest : ∀ j, rest[j]? = (journal.operations.zip payloads)[index + 1 + j]? := by
      intro j
      rw [Nat.add_assoc, Nat.add_comm 1 j]
      exact hes (j + 1)
    rw [applyFrom]
    obtain ⟨hyes, hno⟩ := hcompleted index c (Nat.le_refl _) hc
    by_cases hskip : completed index = true
    · rw [if_pos hskip]
      obtain ⟨done', hmid', hmono, hend⟩ := ih hrest hmid fun i c hle hi => hcompleted i c (by omega) hi
      refine ⟨done', hmid', hmono, hend.imp_right fun hok => ⟨hok.1, fun i c' hle hi => ?_⟩⟩
      by_cases hindex : i = index
      · subst hindex
        obtain rfl : c' = c := Option.some.inj (hi.symm.trans hc)
        exact (hyes hskip).imp (hmono i) fun hidle => ⟨hskip, hidle⟩
      · exact hok.2 i c' (by omega) hi
    · rw [if_neg hskip]
      have hdone : ¬ done index := hno (by simpa using hskip)
      by_cases hbefore : cut = some (.failpoint (.beforeOperation index))
      · rw [if_pos hbefore]
        exact ⟨done, hmid, fun _ => id, .inl ⟨_, hbefore, rfl⟩⟩
      · rw [if_neg hbefore]
        obtain ⟨t', happly, hlook⟩ := applyOperation_effect h.durable hcleared (hmid.isOpen h.ready h.isOpen)
          (hmid.ready h.apart h.ready hc hdone)
        have hstep := hmid.step h.apart h.ready hc hdone
        rw [← hlook] at hstep
        simp only [happly]
        by_cases hafter : cut = some (.failpoint (.afterOperation index))
        · rw [if_pos hafter]
          exact ⟨_, hstep, fun i hi => .inr hi, .inl ⟨_, hafter, rfl⟩⟩
        · rw [if_neg hafter]
          obtain ⟨done', hmid', hmono, hend⟩ := ih hrest hstep fun i c' hle hi => by
            obtain ⟨hyes', hno'⟩ := hcompleted i c' (by omega) hi
            refine ⟨fun hi' => (hyes' hi').imp_left .inr, fun hi' => ?_⟩
            rintro (rfl | hd)
            · omega
            · exact hno' hi' hd
          refine ⟨done', hmid', fun i hi => hmono i (.inr hi), hend.imp_right fun hok => ⟨hok.1, ?_⟩⟩
          intro i c' hle hi
          by_cases hindex : i = index
          · exact .inl (hmono i (.inl hindex))
          · exact hok.2 i c' (by omega) hi

/-- Midway, an operation is seen as done when it is, or when it writes what was there. -/
theorem classify_midway (h : Prepared engine V₀ journal payloads cs) {done : Nat → Prop}
    (hmid : Midway V₀ cs done t.look) {i : Nat} (hi : (journal.operations.zip payloads)[i]? = some (operation, payload))
    (hc : cs[i]? = some c) :
    (done i ∨ c.Idle V₀ → classifyOperation engine t operation payload = .ok .after) ∧
      (¬ (done i ∨ c.Idle V₀) → classifyOperation engine t operation payload = .ok .before) := by
  obtain ⟨c', hc', hcleared⟩ := getElem?_of_left h.cleared hi
  obtain rfl : c' = c := Option.some.inj (hc'.symm.trans hc)
  have hmem := List.mem_of_getElem? hc
  have hclear : ∀ q ∈ c'.sites, View.Clear t.look q := fun q hq => hmid.clear h.apart h.ready hmem hq
  by_cases hd : done i
  · have hafter := classify_settled hcleared (h.ready c' hmem) hclear (hmid.settled i c' hc hd)
    exact ⟨fun _ => hafter, fun hnot => absurd (.inl hd) hnot⟩
  · have hsame := hmid.pending i c' hc hd
    obtain ⟨hbefore, hafter⟩ := classify_pending (hcleared.congr hsame) hclear
    have hidle : c'.Idle t.look ↔ c'.Idle V₀ := by
      constructor
      · rintro ⟨dst, bytes, mode, mode', rfl, hthere⟩
        exact ⟨dst, bytes, mode, mode', rfl, by rw [← hsame dst (by simp [Change.sites]), hthere]⟩
      · rintro ⟨dst, bytes, mode, mode', rfl, hthere⟩
        exact ⟨dst, bytes, mode, mode', rfl, by rw [hsame dst (by simp [Change.sites]), hthere]⟩
    exact ⟨fun hor => hafter (hidle.2 (hor.resolve_left hd)), fun hnot => hbefore fun hi' => hnot (.inr (hidle.1 hi'))⟩

end Prepared

/-! ## What the checks of a commit leave -/

theorem preflight_ok (h : preflight engine t stage = .ok journal) :
    journal.version = journalVersion ∧ journal.stageId = stage.id ∧ journal.root = stage.root ∧
      List.Forall₂ (fun file operation => preflightFile engine t file = .ok operation) stage.files
        journal.operations := by
  unfold preflight at h
  obtain ⟨operations, hops, h⟩ := Machine.bind_ok.1 h
  cases h
  exact ⟨rfl, rfl, rfl, mapM_ok.1 hops⟩

/-- What is known of one file of a stage that passed the checks. -/
theorem cleared_of_materialized (hdigests : Digests engine) (hshape : file.Shaped engine)
    (hpre : preflightFile engine t file = .ok operation) (hblobs : ∀ blob, operation.afterBlob = some blob →
      ∃ bytes, file.bytesAfter = some bytes ∧ engine.hash bytes = blob ∧ blobs blob = some bytes) :
    Cleared engine t.look (operation, payloadOf file operation) (fileChange engine file) ∧
      ∀ path ∈ operation.paths,
        validateRelativePath (D := D) path = .ok () ∧ View.Clear t.look (normalNames path) := by
  refine cleared_of_preflight hdigests hshape hpre fun blob hblob => ?_
  obtain ⟨bytes, hbytes, -, -⟩ := hblobs blob hblob
  simp [payloadOf, hblob, hbytes]

theorem preflightFile_paths (h : preflightFile engine t file = .ok operation) :
    operation.paths = file.pathBefore.toList ++ file.pathAfter.toList := by
  rw [(operationFromFile_ok (preflightFile_ok h).1).2]
  rfl

section
variable [DecidableEq D]

/-- A commit that goes on to its operations has passed these checks. -/
structure Admitted (engine : CommitEngine D) (w : World D) (stage : StagedSourceTransaction D)
    (journal : CommitJournal D) : Prop where
  unlocked  : w.locked = false
  root      : verifyRoot engine stage.root = .ok ()
  noJournal : w.journals stage.id = none
  preflight : preflight engine w.tree stage = .ok journal
  valid     : validateJournal journal = .ok ()

theorem replay_some {r : CommitReceipt D} (h : replay engine w stage = .ok (some r)) :
    w.receipts stage.id = some (.valid r) := by
  unfold replay at h
  obtain ⟨found, hread, h⟩ := Machine.bind_ok.1 h
  cases found with
  | none => cases h
  | some found =>
    have hsame : found = r := by
      simp only at h
      split at h
      · cases h
      · split at h
        · exact Option.some.inj (Except.ok.inj h)
        · split at h <;> cases h
        · cases h
    subst hsame
    unfold readReceipt at hread
    cases hr : w.receipts stage.id with
    | none => simp [hr] at hread
    | some stored => cases stored <;> simp_all

/-- The checks end with a receipt that was there, or let the commit go on. -/
theorem admitStage_cases {a : Admission D} (h : admitStage engine w stage = .ok a) :
    (∃ r, a = .replayed r ∧ w.receipts stage.id = some (.valid r)) ∨
      ∃ journal, a = .admitted journal ∧ Admitted engine w stage journal := by
  unfold admitStage at h
  cases hlocked : w.locked with
  | true => simp [hlocked, bind, Except.bind] at h
  | false =>
    simp only [hlocked, Bool.false_eq_true, if_false] at h
    obtain ⟨_, hroot, h⟩ := Machine.bind_ok.1 h
    obtain ⟨found, hreplay, h⟩ := Machine.bind_ok.1 h
    cases found with
    | some r =>
      cases h
      exact .inl ⟨r, rfl, replay_some hreplay⟩
    | none =>
      cases hj : w.journals stage.id with
      | some j => simp [hj, bind, Except.bind] at h
      | none =>
        simp only [hj, Option.isSome_none, Bool.false_eq_true, if_false] at h
        obtain ⟨journal, hpre, h⟩ := Machine.bind_ok.1 h
        obtain ⟨_, hvalid, h⟩ := Machine.bind_ok.1 h
        cases h
        exact .inr ⟨journal, rfl, hlocked, hroot, hj, hpre, hvalid⟩

/-- A commit that got past its checks has its payloads and its journal beside the tree. -/
theorem prepare_ok (h : (prepare engine w stage).2 = .ok (.admitted journal)) :
    Admitted engine w stage journal ∧ ∃ blobs,
      materializePayloads engine w.blobs (stage.files.zip journal.operations) = (blobs, .ok ()) ∧
      (prepare engine w stage).1 =
        { w with blobs, journals := Function.update w.journals stage.id (some (.valid journal)) } := by
  unfold prepare at h ⊢
  cases ha : admitStage engine w stage with
  | error r => simp [ha] at h
  | ok a =>
    cases a with
    | replayed r => simp [ha] at h
    | admitted found =>
      rcases hm : materializePayloads engine w.blobs (stage.files.zip found.operations) with ⟨blobs, result⟩
      cases result with
      | error r => simp [ha, hm] at h
      | ok u =>
        simp only [ha, hm, Except.ok.injEq, Admission.admitted.injEq] at h
        subst h
        rcases admitStage_cases ha with ⟨r, hr, -⟩ | ⟨journal, hj, hadmitted⟩
        · cases hr
        · cases hj
          exact ⟨hadmitted, blobs, hm, by simp [hm]⟩

theorem cleared_lists (hdigests : Digests engine) {files : List (StagedFile D)} {operations : List (JournalOperation D)}
    (hall : List.Forall₂ (fun file operation => preflightFile engine t file = .ok operation) files operations)
    (hshapes : ∀ file ∈ files, file.Shaped engine)
    (hmaterialized : ∀ pair ∈ files.zip operations, ∀ blob, pair.2.afterBlob = some blob →
      ∃ bytes, pair.1.bytesAfter = some bytes ∧ engine.hash bytes = blob ∧ blobs blob = some bytes) :
    ∃ payloads,
      List.Forall₂ (fun operation payload => operationBytes engine blobs operation = .ok payload) operations payloads ∧
      List.Forall₂ (Cleared engine t.look) (operations.zip payloads) (files.map (fileChange engine)) ∧
      ∀ operation ∈ operations, ∀ path ∈ operation.paths,
        validateRelativePath (D := D) path = .ok () ∧ View.Clear t.look (normalNames path) := by
  induction hall with
  | nil => exact ⟨[], .nil, .nil, by simp⟩
  | @cons file operation files operations hfile _ ih =>
    obtain ⟨payloads, hbytes, hcleared, hpaths⟩ := ih (fun f hf => hshapes f (List.mem_cons_of_mem _ hf))
      fun pair hpair => hmaterialized pair (List.mem_cons_of_mem _ hpair)
    have hmat := hmaterialized (file, operation) List.mem_cons_self
    obtain ⟨hc, hp⟩ := cleared_of_materialized hdigests (hshapes file List.mem_cons_self) hfile hmat
    refine ⟨payloadOf file operation :: payloads, .cons (operationBytes_of_materialized hmat) hbytes,
      .cons hc hcleared, ?_⟩
    intro op hop
    rcases List.mem_cons.1 hop with rfl | hop
    · exact hp
    · exact hpaths op hop

/-- A commit that got past its checks is prepared: each file of the stage has become an operation that asks for its
change. -/
theorem prepared_of_admitted (hdurable : engine.durability = .durable) (hdigests : Digests engine)
    (hshapes : ∀ file ∈ stage.files, file.Shaped engine) (hseparate : Separate stage.files)
    (hopen : View.Open w.tree.look) (hpre : preflight engine w.tree stage = .ok journal)
    (hblobs : materializePayloads engine w.blobs (stage.files.zip journal.operations) = (blobs, .ok ())) :
    ∃ payloads, journal.operations.mapM (operationBytes engine blobs) = .ok payloads ∧
      Prepared engine w.tree.look journal payloads (stageChanges engine stage) ∧
      ∀ operation ∈ journal.operations, ∀ path ∈ operation.paths,
        validateRelativePath (D := D) path = .ok () ∧ View.Clear w.tree.look (normalNames path) := by
  obtain ⟨-, -, -, hoperations⟩ := preflight_ok hpre
  have hmaterialized : ∀ pair ∈ stage.files.zip journal.operations, ∀ blob, pair.2.afterBlob = some blob →
      ∃ bytes, pair.1.bytesAfter = some bytes ∧ engine.hash bytes = blob ∧ blobs blob = some bytes :=
    fun pair hpair blob hblob => materializePayloads_ok hdigests hblobs hpair hblob
  obtain ⟨payloads, hbytes, hcleared, hpaths⟩ := cleared_lists hdigests hoperations hshapes hmaterialized
  have hlength := hbytes.length_eq
  refine ⟨payloads, mapM_ok.2 hbytes, ⟨hopen, hcleared, hlength.symm, ?_, ?_, hdurable⟩, hpaths⟩
  · intro c hc
    obtain ⟨i, hi⟩ := List.mem_iff_getElem?.1 hc
    obtain ⟨⟨operation, payload⟩, he, hcleared'⟩ := getElem?_of_left hcleared.flip hi
    have hmem := (List.of_mem_zip (List.mem_of_getElem? he)).1
    exact Cleared.ready hcleared' fun path hpath => (hpaths operation hmem path hpath).2
  · rw [FileTree.Apart, stageChanges, List.pairwise_map]
    refine List.Pairwise.imp_of_mem ?_ hseparate
    have hsites : ∀ file ∈ stage.files, ∀ q ∈ (fileChange engine file).sites,
        ∃ path ∈ file.pathBefore.toList ++ file.pathAfter.toList, normalNames path = q := by
      intro file hfile q hq
      obtain ⟨i, hi⟩ := List.mem_iff_getElem?.1 hfile
      obtain ⟨operation, hop, hpreflight⟩ := getElem?_of_left hoperations hi
      have hmat := hmaterialized (file, operation)
        (List.mem_of_getElem? (List.getElem?_zip_eq_some.2 ⟨hi, hop⟩))
      obtain ⟨hc, -⟩ := cleared_of_materialized hdigests (hshapes file hfile) hpreflight hmat
      rw [← preflightFile_paths hpreflight]
      exact (hc.sites q).1 hq
    intro f g hf hg hfg p hp q hq
    obtain ⟨path, hpath, rfl⟩ := hsites f hf p hp
    obtain ⟨path', hpath', rfl⟩ := hsites g hg q hq
    exact hfg path hpath path' hpath'

/-! ## Underway -/

/-- A commit that was cut: midway through its changes, with the journal and the payloads in place. -/
structure Underway (engine : CommitEngine D) (stage : StagedSourceTransaction D) (journal : CommitJournal D)
    (payloads : List (Option Bytes)) (w₀ w : World D) : Prop where
  mid      : ∃ done, Midway w₀.tree.look (stageChanges engine stage) done w.tree.look
  journals : w.journals = Function.update w₀.journals stage.id (some (.valid journal))
  payloads : journal.operations.mapM (operationBytes engine w.blobs) = .ok payloads
  unlocked : w.locked = false
  receipts : w.receipts = w₀.receipts ∨
    w.receipts = Function.update w₀.receipts stage.id (some (.valid (receipt engine journal)))

/-- A commit that is done: the outcome of the stage, its receipt, and no journal. -/
structure Committed (engine : CommitEngine D) (stage : StagedSourceTransaction D) (journal : CommitJournal D)
    (w₀ w : World D) : Prop where
  alike    : ∀ q, Entry.Alike (w.tree.look q) (View.after w₀.tree.look (stageChanges engine stage) q)
  same     : (∀ c ∈ stageChanges engine stage, c.Idle w₀.tree.look → c.Still w₀.tree.look) →
    w.tree.look = View.after w₀.tree.look (stageChanges engine stage)
  journals : w.journals = w₀.journals
  receipts : w.receipts = Function.update w₀.receipts stage.id (some (.valid (receipt engine journal)))
  unlocked : w.locked = false

theorem complete_underway (hprepared : Prepared engine w₀.tree.look journal payloads (stageChanges engine stage))
    (hid : journal.stageId = stage.id) (hfirst : w₀.journals stage.id = none)
    (h : Underway engine stage journal payloads w₀ w) {done : Nat → Prop}
    (hmid : Midway w₀.tree.look (stageChanges engine stage) done w.tree.look) (cut : Option Cut)
    (completed : Nat → Bool) (hcompleted : ∀ i c, (stageChanges engine stage)[i]? = some c →
      (completed i = true → done i ∨ c.Idle w₀.tree.look) ∧ (completed i = false → ¬ done i)) :
    (∃ point, cut = some point ∧ (complete engine w journal cut completed).2 = .error (.cut point) ∧
        Underway engine stage journal payloads w₀ (complete engine w journal cut completed).1) ∨
      ((complete engine w journal cut completed).2 = .ok (receipt engine journal) ∧
        Committed engine stage journal w₀ (complete engine w journal cut completed).1 ∧
        ((∀ i, completed i = false) → (complete engine w journal cut completed).1.tree.look =
          View.after w₀.tree.look (stageChanges engine stage))) := by
  obtain ⟨done', hmid', -, hend⟩ := hprepared.applyFrom_midway cut completed (journal.operations.zip payloads)
    (fun j => congrArg _ (Nat.zero_add j).symm) hmid fun i c _ hi => hcompleted i c hi
  unfold complete applyJournal
  simp only [h.payloads]
  rcases hrun : applyFrom engine cut completed 0 w.tree (journal.operations.zip payloads) with ⟨t, result⟩
  simp only [hrun] at hmid' hend
  rcases hend with ⟨point, rfl, rfl⟩ | ⟨rfl, hall⟩
  · exact .inl ⟨_, rfl, rfl, ⟨done', hmid'⟩, h.journals, h.payloads, h.unlocked, h.receipts⟩
  · have hreceipts : Function.update w.receipts journal.stageId (some (.valid (receipt engine journal))) =
        Function.update w₀.receipts stage.id (some (.valid (receipt engine journal))) := by
      rw [hid]
      rcases h.receipts with hr | hr
      · rw [hr]
      · rw [hr, Function.update_idem]
    by_cases hcut : cut = some .afterReceipt
    · simp only [hcut, if_true]
      exact .inl ⟨_, rfl, rfl, ⟨done', hmid'⟩, h.journals, h.payloads, h.unlocked, .inr hreceipts⟩
    · simp only [hcut, if_false]
      have hdone : ∀ i c, (stageChanges engine stage)[i]? = some c → done' i ∨ c.Idle w₀.tree.look := fun i c hi =>
        (hall i c (Nat.zero_le _) hi).imp_right And.right
      have hfinished := hmid'.finished hprepared.apart hprepared.ready t.look_rooted hdone
      refine .inr ⟨trivial, ⟨fun q => (hfinished q).1, fun hstill => ?_, ?_, hreceipts, h.unlocked⟩, fun hnone => ?_⟩
      · funext q
        exact (hfinished q).2 fun i c hi => (hdone i c hi).imp_right (hstill c (List.mem_of_getElem? hi))
      · simp only [h.journals, hid, Function.update_idem]
        rw [← hfirst, Function.update_eq_self]
      · funext q
        refine (hfinished q).2 fun i c hi => .inl ((hall i c (Nat.zero_le _) hi).resolve_right ?_)
        simp [hnone i]

/-- The state an operation is found in. -/
def classified (engine : CommitEngine D) (w : World D) (operation : JournalOperation D) : Checked D OperationState := do
  let bytes ← operationBytes engine w.blobs operation
  classifyOperation engine w.tree operation bytes

theorem survey_ok {stageId : D} {states : List OperationState} :
    survey engine w stageId = .ok (journal, states) ↔
      w.locked = false ∧ readJournal w stageId = .ok journal ∧ journal.stageId = stageId ∧
        validateJournal journal = .ok () ∧ verifyRoot engine journal.root = .ok () ∧
        (∀ operation ∈ journal.operations, ∀ path ∈ operation.paths, checkPath (D := D) w.tree path = .ok ()) ∧
        List.Forall₂ (fun operation state => classified engine w operation = .ok state) journal.operations states ∧
        .diverged ∉ states := by
  constructor
  · intro h
    unfold survey at h
    cases hlocked : w.locked with
    | true => simp [hlocked, bind, Except.bind] at h
    | false =>
      simp only [hlocked, Bool.false_eq_true, if_false] at h
      obtain ⟨found, hread, h⟩ := Machine.bind_ok.1 h
      by_cases hid : found.stageId ≠ stageId
      · simp [hid, bind, Except.bind] at h
      · rw [if_neg hid] at h
        obtain ⟨_, hvalid, h⟩ := Machine.bind_ok.1 h
        obtain ⟨_, hroot, h⟩ := Machine.bind_ok.1 h
        obtain ⟨_, hpaths, h⟩ := Machine.bind_ok.1 h
        obtain ⟨found', hstates, h⟩ := Machine.bind_ok.1 h
        by_cases hdiverged : .diverged ∈ found'
        · simp [hdiverged, bind, Except.bind] at h
        · rw [if_neg hdiverged] at h
          cases h
          push Not at hid
          exact ⟨rfl, hread, hid, hvalid, hroot, fun op hop => each_ok.1 (each_ok.1 hpaths op hop),
            mapM_ok.1 hstates, hdiverged⟩
  · rintro ⟨hlocked, hread, hid, hvalid, hroot, hpaths, hstates, hdiverged⟩
    have hchecks : each (fun operation : JournalOperation D => each (checkPath (D := D) w.tree) operation.paths)
        journal.operations = .ok () := each_ok.2 fun op hop => each_ok.2 (hpaths op hop)
    have hmapM : journal.operations.mapM (fun operation => do
        let bytes ← operationBytes engine w.blobs operation
        classifyOperation engine w.tree operation bytes) = .ok states := mapM_ok.2 hstates
    simp only [survey, hlocked, Bool.false_eq_true, if_false, hread, ok_bind, hid, ne_eq, not_true_eq_false, hvalid,
      hroot, hchecks, hmapM, hdiverged]
    rfl

theorem Prepared.classified_underway {cs : List (Change Bytes)} {V₀ : View Bytes}
    (hprepared : Prepared engine V₀ journal payloads cs)
    (hpayloads : journal.operations.mapM (operationBytes engine w.blobs) = .ok payloads) {done : Nat → Prop}
    (hmid : Midway V₀ cs done w.tree.look) {i : Nat} (hi : journal.operations[i]? = some operation) :
    ∃ payload c, cs[i]? = some c ∧ Cleared engine V₀ (operation, payload) c ∧
      (done i ∨ c.Idle V₀ → classified engine w operation = .ok .after) ∧
      (¬ (done i ∨ c.Idle V₀) → classified engine w operation = .ok .before) := by
  obtain ⟨payload, hp, hbytes⟩ := getElem?_of_left (mapM_ok.1 hpayloads) hi
  have hzip : (journal.operations.zip payloads)[i]? = some (operation, payload) :=
    List.getElem?_zip_eq_some.2 ⟨hi, hp⟩
  obtain ⟨c, hc, hcleared⟩ := getElem?_of_left hprepared.cleared hzip
  obtain ⟨hafter, hbefore⟩ := hprepared.classify_midway hmid hzip hc
  refine ⟨payload, c, hc, hcleared, ?_, ?_⟩
  · simpa only [classified, hbytes, bind, Except.bind] using hafter
  · simpa only [classified, hbytes, bind, Except.bind] using hbefore

/-- A commit whose journal is written, with all that its checks have shown. -/
structure Begun (engine : CommitEngine D) (w₀ : World D) (stage : StagedSourceTransaction D)
    (journal : CommitJournal D) (payloads : List (Option Bytes)) : Prop where
  prepare  : (prepare engine w₀ stage).2 = .ok (.admitted journal)
  admitted : Admitted engine w₀ stage journal
  prepared : Prepared engine w₀.tree.look journal payloads (stageChanges engine stage)
  paths    : ∀ operation ∈ journal.operations, ∀ path ∈ operation.paths,
    validateRelativePath (D := D) path = .ok () ∧ View.Clear w₀.tree.look (normalNames path)
  tree     : (Soopy.prepare engine w₀ stage).1.tree = w₀.tree
  underway : Underway engine stage journal payloads w₀ (Soopy.prepare engine w₀ stage).1

/-- What `recover` finds in the middle of a commit: every operation is to be made, or was. -/
theorem survey_underway (hbegun : Begun engine w₀ stage journal payloads)
    (h : Underway engine stage journal payloads w₀ w) {done : Nat → Prop}
    (hmid : Midway w₀.tree.look (stageChanges engine stage) done w.tree.look) :
    ∃ states, survey engine w stage.id = .ok (journal, states) ∧
      ∀ (i : Nat) c, (stageChanges engine stage)[i]? = some c →
        (states[i]? = some .after ↔ done i ∨ c.Idle w₀.tree.look) := by
  obtain ⟨hversion, hstage, hroot, -⟩ := preflight_ok hbegun.admitted.preflight
  have hread : readJournal w stage.id = .ok journal := by
    simp [readJournal, h.journals, hversion]
  have hclassified := fun i operation (hi : journal.operations[i]? = some operation) =>
    hbegun.prepared.classified_underway h.payloads hmid hi
  have hpathsNow : ∀ operation ∈ journal.operations, ∀ path ∈ operation.paths,
      checkPath (D := D) w.tree path = .ok () := by
    intro operation hop path hpath
    obtain ⟨i, hi⟩ := List.mem_iff_getElem?.1 hop
    obtain ⟨payload, c, hc, hcleared, -⟩ := hclassified i operation hi
    exact checkPath_ok.2 ⟨(hbegun.paths operation hop path hpath).1, hmid.clear hbegun.prepared.apart hbegun.prepared.ready
      (List.mem_of_getElem? hc) ((hcleared.sites _).2 ⟨path, hpath, rfl⟩)⟩
  obtain ⟨states, hstates⟩ := forall₂_of_exists (l := journal.operations)
    (R := fun operation state => classified engine w operation = .ok state) fun operation hop => by
      obtain ⟨i, hi⟩ := List.mem_iff_getElem?.1 hop
      obtain ⟨payload, c, -, -, hafter, hbefore⟩ := hclassified i operation hi
      by_cases hd : done i ∨ c.Idle w₀.tree.look
      · exact ⟨_, hafter hd⟩
      · exact ⟨_, hbefore hd⟩
  have hstateAt : ∀ (i : Nat) state, states[i]? = some state → ∃ c, (stageChanges engine stage)[i]? = some c ∧
      (done i ∨ c.Idle w₀.tree.look → state = .after) ∧ (¬ (done i ∨ c.Idle w₀.tree.look) → state = .before) := by
    intro i state hi
    obtain ⟨operation, hop, hstate⟩ := getElem?_of_left hstates.flip hi
    obtain ⟨payload, c, hc, -, hafter, hbefore⟩ := hclassified i operation hop
    refine ⟨c, hc, fun hd => ?_, fun hd => ?_⟩
    · exact Except.ok.inj (hstate.symm.trans (hafter hd))
    · exact Except.ok.inj (hstate.symm.trans (hbefore hd))
  have hfine : .diverged ∉ states := by
    intro hmem
    obtain ⟨i, hi⟩ := List.mem_iff_getElem?.1 hmem
    obtain ⟨c, -, hafter, hbefore⟩ := hstateAt i _ hi
    by_cases hd : done i ∨ c.Idle w₀.tree.look
    · cases hafter hd
    · cases hbefore hd
  refine ⟨states, survey_ok.2 ⟨h.unlocked, hread, hstage, hbegun.admitted.valid, hroot ▸ hbegun.admitted.root, hpathsNow, hstates,
    hfine⟩, fun i c hc => ?_⟩
  constructor
  · intro hi
    obtain ⟨c', hc', -, hbefore⟩ := hstateAt i _ hi
    obtain rfl : c' = c := Option.some.inj (hc'.symm.trans hc)
    by_contra hd
    cases hbefore hd
  · intro hd
    obtain ⟨⟨operation, payload⟩, hzip, -⟩ := getElem?_of_left hbegun.prepared.cleared.flip hc
    obtain ⟨state, hstate, -⟩ := getElem?_of_left hstates (List.getElem?_zip_eq_some.1 hzip).1
    obtain ⟨c', hc', hafter, -⟩ := hstateAt i state hstate
    obtain rfl : c' = c := Option.some.inj (hc'.symm.trans hc)
    rw [hstate, hafter hd]

/-- One recovery of a commit that was cut. -/
theorem recoverUntil_underway (hbegun : Begun engine w₀ stage journal payloads)
    (h : Underway engine stage journal payloads w₀ w) (cut : Option Cut) :
    (∃ point, cut = some point ∧ (recoverUntil engine w stage.id cut).2 = .error (.cut point) ∧
        Underway engine stage journal payloads w₀ (recoverUntil engine w stage.id cut).1) ∨
      ((recoverUntil engine w stage.id cut).2 = .ok (receipt engine journal) ∧
        Committed engine stage journal w₀ (recoverUntil engine w stage.id cut).1) := by
  obtain ⟨-, hid, -, -⟩ := preflight_ok hbegun.admitted.preflight
  obtain ⟨done, hmid⟩ := h.mid
  obtain ⟨states, hsurvey, hstates⟩ := survey_underway hbegun h hmid
  simp only [recoverUntil, hsurvey]
  have hrun := complete_underway hbegun.prepared hid hbegun.admitted.noJournal h hmid cut
    (fun i => decide (states[i]? = some .after)) fun i c hc => by
      simp only [decide_eq_true_eq, decide_eq_false_iff_not, hstates i c hc]
      exact ⟨id, fun hnot hd => hnot (.inl hd)⟩
  exact hrun.imp_right fun hok => ⟨hok.1, hok.2.1⟩

/-! ## Runs that are cut -/

/-- The states a commit leaves that was cut, and whose recoveries were cut, any number of times. -/
inductive Interrupted (engine : CommitEngine D) (w : World D) (stage : StagedSourceTransaction D) : World D → Prop
  | commit {cut : Cut} {w' : World D} :
      commitWithFailpoint engine w stage (some cut) = (w', .error (.cut cut)) → Interrupted engine w stage w'
  | recovery {cut : Cut} {w' w'' : World D} : Interrupted engine w stage w' →
      recoverUntil engine w' stage.id (some cut) = (w'', .error (.cut cut)) → Interrupted engine w stage w''

/-- What a theorem about commits assumes: files that are published, digests that tell contents apart, a stage whose
files have the shape a plan gives them and stay apart, and directories that can be edited. -/
structure Fair (engine : CommitEngine D) (w : World D) (stage : StagedSourceTransaction D) : Prop where
  durable  : engine.durability = .durable
  digests  : Digests engine
  shapes   : ∀ file ∈ stage.files, file.Shaped engine
  separate : Separate stage.files
  isOpen   : View.Open w.tree.look

theorem begun_of_prepare (hfair : Fair engine w stage) (h : (prepare engine w stage).2 = .ok (.admitted journal)) :
    ∃ payloads, Begun engine w stage journal payloads := by
  obtain ⟨hadmitted, blobs, hblobs, hworld⟩ := prepare_ok h
  obtain ⟨payloads, hbytes, hprepared, hpaths⟩ := prepared_of_admitted hfair.durable hfair.digests hfair.shapes
    hfair.separate hfair.isOpen hadmitted.preflight hblobs
  refine ⟨payloads, h, hadmitted, hprepared, hpaths, by rw [hworld], ?_⟩
  rw [hworld]
  exact ⟨⟨_, Midway.start _ _⟩, rfl, hbytes, hadmitted.unlocked, .inl rfl⟩

theorem Begun.commit (hbegun : Begun engine w stage journal payloads) (cut : Option Cut) :
    (∃ point, cut = some point ∧ (commitWithFailpoint engine w stage cut).2 = .error (.cut point) ∧
        Underway engine stage journal payloads w (commitWithFailpoint engine w stage cut).1) ∨
      ((commitWithFailpoint engine w stage cut).2 = .ok (receipt engine journal) ∧
        Committed engine stage journal w (commitWithFailpoint engine w stage cut).1 ∧
        (commitWithFailpoint engine w stage cut).1.tree.look = View.after w.tree.look (stageChanges engine stage)) := by
  obtain ⟨-, hid, -, -⟩ := preflight_ok hbegun.admitted.preflight
  have hprepare := hbegun.prepare
  have htree := hbegun.tree
  have hunderway := hbegun.underway
  rcases hp : Soopy.prepare engine w stage with ⟨w', result⟩
  rw [hp] at hprepare htree hunderway
  simp only at hprepare htree hunderway
  subst hprepare
  simp only [commitWithFailpoint, hp]
  by_cases hcut : cut = some (.failpoint .afterJournal)
  · rw [if_pos hcut]
    exact .inl ⟨_, hcut, rfl, hunderway⟩
  · rw [if_neg hcut]
    have hmid : Midway w.tree.look (stageChanges engine stage) (fun _ => False) w'.tree.look := by
      rw [htree]
      exact Midway.start _ _
    have hrun := complete_underway hbegun.prepared hid hbegun.admitted.noJournal hunderway hmid cut (fun _ => false)
      fun i c _ => ⟨by simp, fun _ => id⟩
    exact hrun.imp_right fun hok => ⟨hok.1, hok.2.1, hok.2.2 fun _ => rfl⟩

theorem Begun.interrupted (hbegun : Begun engine w stage journal payloads) (h : Interrupted engine w stage w') :
    Underway engine stage journal payloads w w' := by
  induction h with
  | @commit cut w' hrun =>
    rcases hbegun.commit (some cut) with ⟨point, -, -, hunder⟩ | ⟨hok, -⟩
    · rwa [hrun] at hunder
    · rw [hrun] at hok
      cases hok
  | @recovery cut w' w'' _ hrun ih =>
    rcases recoverUntil_underway hbegun ih (some cut) with ⟨point, -, -, hunder⟩ | ⟨hok, -⟩
    · rwa [hrun] at hunder
    · rw [hrun] at hok
      cases hok

/-! ## Results -/

theorem prepare_replayed {r : CommitReceipt D} (h : (prepare engine w stage).2 = .ok (.replayed r)) :
    commit engine w stage = (w, .ok r) ∧ w.receipts stage.id = some (.valid r) := by
  have hcommit : commit engine w stage = ((prepare engine w stage).1, .ok r) := by
    rcases hp : prepare engine w stage with ⟨w', result⟩
    rw [hp] at h
    simp only at h
    subst h
    simp [commit, commitWithFailpoint, hp]
  unfold prepare at h hcommit
  cases ha : admitStage engine w stage with
  | error refusal => simp [ha] at h
  | ok a =>
    cases a with
    | admitted journal =>
      rcases hm : materializePayloads engine w.blobs (stage.files.zip journal.operations) with ⟨blobs, result⟩
      cases result <;> simp [ha, hm] at h
    | replayed found =>
      simp only [ha] at h hcommit
      cases h
      rcases admitStage_cases ha with ⟨r, hr, hthere⟩ | ⟨journal, hj, -⟩
      · cases hr
        exact ⟨hcommit, hthere⟩
      · cases hj

/-- **A commit is all or nothing.** It answers with the receipt there is and changes nothing, or it refuses and the
target, the journals and the receipts are as they were, or every change of the stage is made. -/
theorem commit_all_or_nothing (hfair : Fair engine w stage) :
    (∃ r, commit engine w stage = (w, .ok r) ∧ w.receipts stage.id = some (.valid r)) ∨
      (∃ refusal, (commit engine w stage).2 = .error refusal ∧ (commit engine w stage).1.tree = w.tree ∧
        (commit engine w stage).1.journals = w.journals ∧ (commit engine w stage).1.receipts = w.receipts) ∨
      ∃ journal, preflight engine w.tree stage = .ok journal ∧
        (commit engine w stage).2 = .ok (receipt engine journal) ∧
        (commit engine w stage).1.tree.look = View.after w.tree.look (stageChanges engine stage) ∧
        (commit engine w stage).1.journals = w.journals ∧
        (commit engine w stage).1.receipts =
          Function.update w.receipts stage.id (some (.valid (receipt engine journal))) := by
  cases hp : (prepare engine w stage).2 with
  | error refusal =>
    obtain ⟨htree, hreceipts, -⟩ := prepare_tree engine w stage
    refine .inr (.inl ⟨refusal, ?_⟩)
    rw [commit_refused hp]
    exact ⟨rfl, htree, prepare_refused hp, hreceipts⟩
  | ok a =>
    cases a with
    | replayed r => exact .inl ⟨r, prepare_replayed hp⟩
    | admitted journal =>
      obtain ⟨payloads, hbegun⟩ := begun_of_prepare hfair hp
      rcases hbegun.commit none with ⟨point, hcut, -⟩ | ⟨hok, hcommitted, hlook⟩
      · cases hcut
      · exact .inr (.inr ⟨journal, hbegun.admitted.preflight, hok, hlook, hcommitted.journals, hcommitted.receipts⟩)

/-- Recorded modes are the whole modes of regular files, so a replacement that writes what is there keeps its mode. -/
structure Recorded (w : World D) (stage : StagedSourceTransaction D) : Prop where
  regular : ∀ p bytes mode, w.tree.look p = some (.file bytes mode) → mode / 4096 = 8
  unix    : ∀ file ∈ stage.files, ∀ observed, file.modeBefore = some observed → observed.unixMode ≠ none

end

/-! A moved file and a new one beside it, cut between the two. -/

/-- Digests and Git ids that are the bytes. -/
def exactEngine : CommitEngine Bytes := { plainEngine with hashObject := fun _ => .error "" }

def oneFileWorld : World Bytes :=
  { freshWorld with tree := (Files.empty []).create ["a"] [1] 33188 ⟨by decide, rfl, rfl⟩ }

def moveAndCreate : StagedSourceTransaction Bytes :=
  ⟨[0], .directory "d", [
    { kind := .move, source := none, pathBefore := some (.directory "a"), pathAfter := some (.directory "d/b"),
      contentBefore := some (.blake3 [1]), contentAfter := some (.blake3 [1]),
      modeBefore := some ⟨false, some 33188⟩, stagedBytes := some [1], edits := [], bytesAfter := some [1] },
    createFile "c" [2] [2]], []⟩

theorem exactEngine_digests : Digests exactEngine where
  hash _ _ h := h
  content id a b ha hb := by
    cases id with
    | blake3 digest =>
      simp only [contentIdLike, Except.ok.injEq, blake3Id] at ha hb
      exact ContentId.blake3.inj (ha.trans hb.symm)
    | gitBlob object => simp [contentIdLike, exactEngine] at ha
  staged digest bytes h := by simp [exactEngine, plainEngine] at h

theorem oneFileWorld_open : View.Open oneFileWorld.tree.look := by
  intro p w h
  rw [oneFileWorld, Files.look_create] at h
  by_cases hp : p = ["a"]
  · simp [hp] at h
  · rw [if_neg hp, Files.look_eq_dir] at h
    by_cases hroot : p = []
    · simpa [Files.empty, hroot, eq_comm] using h
    · simp [Files.empty, hroot] at h

theorem moveAndCreate_fair : Fair exactEngine oneFileWorld moveAndCreate where
  durable := rfl
  digests := exactEngine_digests
  shapes file hfile := by
    simp only [moveAndCreate, createFile, List.mem_cons, List.not_mem_nil, or_false] at hfile
    rcases hfile with rfl | rfl
    · constructor
      · simp
      · simp
      · rintro - id bytes hid hbytes
        cases hid
        cases hbytes
        rfl
      · simp
      · rintro path hpath
        cases hpath
        decide +kernel
    · constructor
      · simp
      · simp
      · simp
      · simp
      · rintro path hpath
        cases hpath
        decide +kernel
  separate := by
    refine List.pairwise_pair.2 ?_
    decide +kernel
  isOpen := oneFileWorld_open

/-- The file is moved, the new one is not there yet. -/
def halfMoved : World Bytes :=
  (commitWithFailpoint exactEngine oneFileWorld moveAndCreate (some (.failpoint (.afterOperation 0)))).1

theorem commit_all_or_nothing_moveAndCreate : ∃ journal,
    (commit exactEngine oneFileWorld moveAndCreate).2 = .ok (receipt exactEngine journal) := by
  rcases commit_all_or_nothing moveAndCreate_fair with ⟨r, -, h⟩ | ⟨refusal, h, -⟩ | ⟨journal, -, h, -⟩
  · cases h
  · cases h
  · exact ⟨journal, h⟩

end Soopy
