import HafleyRs.Soopy.Commit

/-!
# A commit that is refused (`crates/soopy/src/_7f_commit.rs:263`)

The checks change nothing, the payloads only add blobs, and the journal is written last (`prepare_refused`). What
comes after it fails with errors of the system only (`complete_error`), so any other refusal leaves no trace.
-/

namespace Soopy
open FileTree Checks

variable {D : Type} {engine : CommitEngine D}

section
variable [DecidableEq D]

/-! ## Payloads -/

/-- A payload that is there stays as it is. -/
theorem materializePayload_keeps {blobs blobs' : Blobs D} {file : StagedFile D} {operation : JournalOperation D}
    (h : materializePayload engine blobs file operation = .ok blobs') {d : D} {bytes : Bytes}
    (hd : blobs d = some bytes) : blobs' d = some bytes := by
  unfold materializePayload at h
  cases hb : operation.afterBlob with
  | none =>
    rw [hb] at h
    cases h
    exact hd
  | some blob =>
    cases ha : file.bytesAfter with
    | none =>
      simp only [hb, ha] at h
      cases h
    | some after =>
      simp only [hb, ha] at h
      by_cases hhash : engine.hash after ≠ blob
      · rw [if_pos hhash] at h
        cases h
      · rw [if_neg hhash] at h
        cases hx : blobs blob with
        | some existing =>
          simp only [hx] at h
          by_cases hex : engine.hash existing ≠ blob
          · rw [if_pos hex] at h
            cases h
          · rw [if_neg hex] at h
            cases h
            exact hd
        | none =>
          simp only [hx] at h
          cases h
          have hne : d ≠ blob := by
            rintro rfl
            rw [hx] at hd
            cases hd
          rwa [Function.update_of_ne hne]

variable (engine) in
theorem materializePayloads_keeps (pairs : List (StagedFile D × JournalOperation D)) {blobs : Blobs D} {d : D}
    {bytes : Bytes} (hd : blobs d = some bytes) : (materializePayloads engine blobs pairs).1 d = some bytes := by
  induction pairs generalizing blobs with
  | nil => exact hd
  | cons pair rest ih =>
    obtain ⟨file, operation⟩ := pair
    rw [materializePayloads]
    cases h : materializePayload engine blobs file operation with
    | error r => exact hd
    | ok blobs' => exact ih (materializePayload_keeps h hd)

/-! ## Before the first operation -/

variable (engine) in
theorem prepare_tree (w : World D) (stage : StagedSourceTransaction D) :
    (prepare engine w stage).1.tree = w.tree ∧ (prepare engine w stage).1.receipts = w.receipts ∧
      (prepare engine w stage).1.locked = w.locked := by
  unfold prepare
  cases admitStage engine w stage with
  | error r => exact ⟨rfl, rfl, rfl⟩
  | ok a =>
    cases a with
    | replayed r => exact ⟨rfl, rfl, rfl⟩
    | admitted journal =>
      rcases hm : materializePayloads engine w.blobs (stage.files.zip journal.operations) with ⟨blobs, result⟩
      cases result with
      | error r => simp [hm]
      | ok u => simp [hm]

theorem prepare_blobs (w : World D) (stage : StagedSourceTransaction D) {d : D} {bytes : Bytes}
    (hd : w.blobs d = some bytes) : (prepare engine w stage).1.blobs d = some bytes := by
  unfold prepare
  cases admitStage engine w stage with
  | error r => exact hd
  | ok a =>
    cases a with
    | replayed r => exact hd
    | admitted journal =>
      have hkeeps := materializePayloads_keeps engine (stage.files.zip journal.operations) hd
      rcases hm : materializePayloads engine w.blobs (stage.files.zip journal.operations) with ⟨blobs, result⟩
      rw [hm] at hkeeps
      cases result with
      | error r => simpa [hm] using hkeeps
      | ok u => simpa [hm] using hkeeps

theorem prepare_refused {w : World D} {stage : StagedSourceTransaction D} {r : CommitRefusal D}
    (h : (prepare engine w stage).2 = .error r) : (prepare engine w stage).1.journals = w.journals := by
  unfold prepare at h ⊢
  cases ha : admitStage engine w stage with
  | error r => rfl
  | ok a =>
    cases a with
    | replayed r => rfl
    | admitted journal =>
      rcases hm : materializePayloads engine w.blobs (stage.files.zip journal.operations) with ⟨blobs, result⟩
      cases result with
      | error r => simp [hm]
      | ok u => simp [ha, hm] at h

theorem commit_refused {w : World D} {stage : StagedSourceTransaction D} {r : CommitRefusal D}
    (h : (prepare engine w stage).2 = .error r) : commit engine w stage = ((prepare engine w stage).1, .error r) := by
  rcases hp : prepare engine w stage with ⟨w', result⟩
  rw [hp] at h
  simp only at h
  subst h
  simp [commit, commitWithFailpoint, hp]

end

/-! ## After it -/

/-- A refusal that passes on an error of the system. -/
def IsIo (r : CommitRefusal D) : Prop := ∃ operation detail, r = .io operation detail

theorem operationBytes_error [DecidableEq D] {blobs : Blobs D} {operation : JournalOperation D} {r : CommitRefusal D}
    (h : operationBytes engine blobs operation = .error r) : IsIo r := by
  unfold operationBytes at h
  cases hb : operation.afterBlob with
  | none => simp [hb] at h
  | some blob =>
    cases hx : blobs blob with
    | none =>
      simp only [hb, hx, Except.error.injEq] at h
      exact ⟨_, _, h.symm⟩
    | some bytes =>
      simp only [hb, hx] at h
      by_cases hhash : engine.hash bytes ≠ blob
      · rw [if_pos hhash] at h
        cases h
        exact ⟨_, _, rfl⟩
      · rw [if_neg hhash] at h
        cases h

theorem withParents_error {t : Files Bytes} {names : Path} {next : Files Bytes → Files Bytes × Checked D Unit}
    (hnext : ∀ t r, (next t).2 = .error r → IsIo r) {r : CommitRefusal D}
    (h : (withParents t names next).2 = .error r) : IsIo r := by
  unfold withParents at h
  rcases hm : t.mkdirAll [] names.dropLast with ⟨t', made⟩
  cases made with
  | true =>
    simp only [hm, if_true] at h
    exact hnext t' r h
  | false =>
    simp only [hm, Bool.false_eq_true, if_false, Except.error.injEq] at h
    exact ⟨_, _, h.symm⟩

theorem atomicWrite_error {t : Files Bytes} {pl : Place} {bytes : Bytes} {mode : Option FileModeObservation}
    {r : CommitRefusal D} (h : (atomicWrite engine t pl bytes mode).2 = .error r) : IsIo r := by
  unfold atomicWrite at h
  split at h
  · split at h
    · cases h
    · cases h
      exact ⟨_, _, rfl⟩
  · split at h
    · cases h
      exact ⟨_, _, rfl⟩
    · split at h
      · cases h
      · split at h
        · cases h
        · cases h
          exact ⟨_, _, rfl⟩

variable (engine) in
theorem applyOperation_error (t : Files Bytes) (operation : JournalOperation D) (bytes : Bytes) {r : CommitRefusal D}
    (h : (applyOperation engine t operation bytes).2 = .error r) : IsIo r := by
  have hmissing : ∀ kind, IsIo (missingPath kind : CommitRefusal D) := fun kind => ⟨_, _, rfl⟩
  unfold applyOperation at h
  split at h
  · split at h
    · cases h
      exact hmissing _
    · exact withParents_error (fun t r h => atomicWrite_error h) h
  · split at h
    · cases h
      exact hmissing _
    · exact withParents_error (fun t r h => atomicWrite_error h) h
  · split at h
    · refine withParents_error (fun t r h => ?_) h
      split at h
      · cases h
      · cases h
        exact ⟨_, _, rfl⟩
    · cases h
      exact hmissing _
  · split at h
    · cases h
      exact hmissing _
    · split at h
      · cases h
      · cases h
        exact ⟨_, _, rfl⟩

variable (engine) in
theorem applyFrom_error (completed : Nat → Bool) (index : Nat) (t : Files Bytes)
    (operations : List (JournalOperation D × Option Bytes)) {r : CommitRefusal D}
    (h : (applyFrom engine none completed index t operations).2 = .error r) : IsIo r := by
  induction operations generalizing index t with
  | nil => cases h
  | cons pair rest ih =>
    obtain ⟨operation, payload⟩ := pair
    rw [applyFrom] at h
    by_cases hc : completed index = true
    · rw [if_pos hc] at h
      exact ih _ _ h
    · rw [if_neg hc, if_neg (by simp)] at h
      rcases ha : applyOperation engine t operation (payload.getD []) with ⟨t', result⟩
      cases result with
      | error r' =>
        simp only [ha, Except.error.injEq] at h
        subst h
        exact applyOperation_error engine t operation (payload.getD [])
          (by rw [ha])
      | ok u =>
        simp only [ha] at h
        rw [if_neg (by simp)] at h
        exact ih _ _ h

section
variable [DecidableEq D]

theorem complete_error {w : World D} {journal : CommitJournal D} {completed : Nat → Bool} {r : CommitRefusal D}
    (h : (complete engine w journal none completed).2 = .error r) : IsIo r := by
  unfold complete applyJournal at h
  cases hp : journal.operations.mapM (operationBytes engine w.blobs) with
  | error r' =>
    simp only [hp, Except.error.injEq] at h
    subst h
    obtain ⟨operation, -, herror⟩ := mapM_error hp
    exact operationBytes_error herror
  | ok payloads =>
    rcases ha : applyFrom engine none completed 0 w.tree (journal.operations.zip payloads) with ⟨t', result⟩
    cases result with
    | error r' =>
      simp only [hp, ha, Except.error.injEq] at h
      subst h
      exact applyFrom_error engine completed 0 w.tree (journal.operations.zip payloads) (by rw [ha])
    | ok u => simp [hp, ha] at h

/-- **A refused commit leaves no trace.** A refusal from before the first operation, which is each that is not an
error of the system, leaves the target, the journals and the receipts as they were, and every payload. -/
theorem refusal_untraced {w : World D} {stage : StagedSourceTransaction D} {r : CommitRefusal D}
    (h : (commit engine w stage).2 = .error r)
    (hearly : (prepare engine w stage).2 = .error r ∨ ¬ IsIo r) :
    (commit engine w stage).1.tree = w.tree ∧ (commit engine w stage).1.journals = w.journals ∧
      (commit engine w stage).1.receipts = w.receipts ∧
      ∀ d bytes, w.blobs d = some bytes → (commit engine w stage).1.blobs d = some bytes := by
  have hprepare : (prepare engine w stage).2 = .error r := by
    rcases hearly with hearly | hio
    · exact hearly
    · rcases hp : prepare engine w stage with ⟨w', result⟩
      cases result with
      | error r' =>
        simpa [commit, commitWithFailpoint, hp] using h
      | ok a =>
        cases a with
        | replayed receipt => simp [commit, commitWithFailpoint, hp] at h
        | admitted journal =>
          simp only [commit, commitWithFailpoint, hp] at h
          rw [if_neg (by simp)] at h
          exact absurd (complete_error h) hio
  obtain ⟨htree, hreceipts, -⟩ := prepare_tree engine w stage
  rw [commit_refused hprepare]
  exact ⟨htree, prepare_refused hprepare, hreceipts, fun d bytes hd => prepare_blobs w stage hd⟩

end

/-- Digests that are the bytes. -/
def plainEngine : CommitEngine Bytes where
  durability := .durable
  actualRootId := .ok
  stagedBlob _ := none
  hash := id
  toBytes := id
  hashObject _ := .ok ""
  createMode := 33188
  journalBytes _ := 0

def freshWorld : World Bytes := ⟨Files.empty [], fun _ => none, fun _ => none, fun _ => none, false⟩

def createFile (path : String) (bytes digest : Bytes) : StagedFile Bytes :=
  ⟨.create, none, none, some (.directory path), none, some (.blake3 bytes), none, some digest, [], some bytes⟩

/-- The second payload has not the digest the stage gives, and the first is kept. -/
def badPayload : StagedSourceTransaction Bytes :=
  ⟨[0], .directory "d", [createFile "a" [1] [1], createFile "b" [2] [3]], []⟩

theorem refusal_untraced_badPayload :
    (commit plainEngine freshWorld badPayload).1.tree = freshWorld.tree ∧
      (commit plainEngine freshWorld badPayload).1.journals = freshWorld.journals ∧
      (commit plainEngine freshWorld badPayload).1.receipts = freshWorld.receipts ∧
      ∀ d bytes, freshWorld.blobs d = some bytes →
        (commit plainEngine freshWorld badPayload).1.blobs d = some bytes := by
  have hprepare : (prepare plainEngine freshWorld badPayload).2 =
      .error (.io "materialize commit payload" "stage blob digest mismatch") := by rfl
  refine refusal_untraced ?_ (.inl hprepare)
  rw [commit_refused hprepare]

end Soopy
