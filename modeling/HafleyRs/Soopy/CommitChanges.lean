import HafleyRs.Lib.FileTreeChanges
import HafleyRs.Lib.Machine
import HafleyRs.Soopy.CommitAdmit

/-!
# What the operations of a commit change (`crates/soopy/src/_7f_commit.rs`)

A file of a stage asks for a change of the tree (`fileChange`). An operation that passed `preflight` (854) has one
that can be made (`cleared_of_preflight`). `apply_operation` (926) makes it (`applyOperation_effect`), and
`classify_operation` (984) tells whether it is to be made or was made (`classify_pending`, `classify_settled`).
-/

namespace Soopy
open FileTree Checks

variable {D : Type} {engine : CommitEngine D} {t : Files Bytes} {operation : JournalOperation D} {payload : Option Bytes}
  {path : SourcePath} {bytes : Bytes} {c : Change Bytes} {q : Path}

@[simp] theorem place_names (path : SourcePath) : (place path).names = normalNames path := rfl

/-! ## Paths -/

theorem mem_parents {names dir : Path} : dir ∈ parents names ↔ dir <+: names ∧ dir ≠ names ∧ dir ≠ [] := by
  simp only [parents, List.mem_map, List.mem_range]
  constructor
  · rintro ⟨i, hi, rfl⟩
    have hlen : (names.take (i + 1)).length = i + 1 := by
      rw [List.length_take]
      omega
    refine ⟨List.take_prefix _ _, ?_, ?_⟩
    · intro h
      have := congrArg List.length h
      omega
    · intro h
      rw [h] at hlen
      simp at hlen
  · rintro ⟨hle, hne, hnil⟩
    have hlen := hle.length_le
    have hpos := List.length_pos_iff.2 hnil
    have hlt : dir.length ≠ names.length := fun h => hne (hle.eq_of_length h)
    refine ⟨dir.length - 1, by omega, ?_⟩
    have hsucc : dir.length - 1 + 1 = dir.length := by omega
    rw [hsucc]
    exact (List.prefix_iff_eq_take.1 hle).symm

theorem checkParent_free {dir : Path} (h : checkParent (D := D) t path dir = .ok ()) :
    t.look dir = none ∨ Entry.isDir (t.look dir) = true := by
  unfold checkParent at h
  cases hl : t.look dir with
  | none => exact .inl rfl
  | some e =>
    cases e with
    | dir w => exact .inr rfl
    | _ => simp [Files.stat, hl] at h

/-- The checks of a path: it stays inside, and what is above it are directories. -/
theorem checkPath_ok :
    checkPath (D := D) t path = .ok () ↔
      validateRelativePath (D := D) path = .ok () ∧ View.Clear t.look (normalNames path) := by
  unfold checkPath
  cases hv : validateRelativePath (D := D) path with
  | error r => simp
  | ok u =>
    simp only [true_and, checkParentComponents, each_ok, mem_parents]
    constructor
    · intro h q hq hne
      by_cases hnil : q = []
      · rw [hnil]
        exact .inr t.look_root
      · exact checkParent_free (h q ⟨hq, hne, hnil⟩)
    · rintro h q ⟨hq, hne, -⟩
      rcases h q hq hne with hnone | hdir
      · have hclear : View.Clear t.look q := fun q' hq' hne' => h q' (hq'.trans hq) fun he =>
          hne (hq.eq_of_length (Nat.le_antisymm hq.length_le (he ▸ hq'.length_le)))
        have hstat : t.stat ⟨q, false⟩ = .error .notFound := Files.stat_of_none hclear hnone
        rw [checkParent, hstat]
      · cases hl : t.look q with
        | none =>
          rw [hl] at hdir
          cases hdir
        | some e =>
          rw [hl] at hdir
          cases e with
          | dir w => simp [checkParent, Files.stat, hl]
          | _ => cases hdir

/-! ## Contents -/

theorem readBytes_of_file {mode : Nat} (hslash : (place path).slash = false)
    (h : t.look (normalNames path) = some (.file bytes mode)) :
    readBytes (D := D) t path = .ok bytes := by
  rw [readBytes, Files.read_of_file hslash h]

/-- The content of a file is the one that was expected. -/
def Holds (engine : CommitEngine D) (expected : Option ContentId) (bytes : Bytes) : Prop :=
  ∃ id, expected = some id ∧ contentIdLike engine id bytes = .ok id

theorem contentMatches_of_holds {expected : Option ContentId} {mode : Nat} (hslash : (place path).slash = false)
    (hlook : t.look (normalNames path) = some (.file bytes mode)) (h : Holds engine expected bytes) :
    contentMatches engine t path expected = .ok true := by
  obtain ⟨id, rfl, hid⟩ := h
  simp [contentMatches, readBytes_of_file hslash hlook, hid]

theorem holds_of_contentMatches {expected : Option ContentId} (hread : readBytes (D := D) t path = .ok bytes)
    (h : contentMatches engine t path expected = .ok true) :
    Holds engine expected bytes := by
  cases expected with
  | none => simp [contentMatches] at h
  | some id =>
    simp only [contentMatches, hread] at h
    cases hid : contentIdLike engine id bytes with
    | error r => simp [hid] at h
    | ok observed =>
      simp only [hid, Except.ok.injEq, decide_eq_true_eq] at h
      exact ⟨id, rfl, by rw [hid, h]⟩

/-- What `verify_existing` has seen. -/
theorem verifyExisting_ok {source : SourcePath} {expected : Option ContentId} {mode : Option FileModeObservation}
    (h : verifyExisting engine t source expected mode = .ok ()) :
    (place source).slash = false ∧ ∃ bytes found observed, t.look (normalNames source) = some (.file bytes found) ∧
      Holds engine expected bytes ∧ mode = some observed ∧ modeMatches found observed = true := by
  unfold verifyExisting at h
  cases hs : t.stat (place source) with
  | error e => simp [hs] at h
  | ok s =>
    cases s with
    | file found =>
      obtain ⟨hslash, bytes, hlook⟩ := Files.stat_file hs
      simp only [hs] at h
      cases hm : contentMatches engine t source expected with
      | error r => simp [hm] at h
      | ok same =>
        cases same with
        | false => simp [hm] at h
        | true =>
          simp only [hm] at h
          cases mode with
          | none => simp at h
          | some observed =>
            by_cases hmode : modeMatches found observed = true
            · exact ⟨hslash, bytes, found, observed, hlook,
                holds_of_contentMatches (readBytes_of_file hslash hlook) hm, rfl, hmode⟩
            · simp [hmode] at h
    | _ => simp [hs] at h

theorem absent_ok {reason : String} (hslash : (place path).slash = false) (h : absent (D := D) t path reason = .ok ()) :
    t.look (normalNames path) = none := by
  unfold absent at h
  cases hl : t.look (normalNames path) with
  | none => rfl
  | some e => cases e <;> simp [Files.stat, hl, hslash] at h

/-! ## Changes -/

def namesOf (path : Option SourcePath) : Path := path.elim [] normalNames

/-- The mode of a file that is published. -/
def newMode (engine : CommitEngine D) (mode : Option FileModeObservation) : Nat :=
  mode.elim engine.createMode fun mode => setMode mode engine.createMode

/-- What a file of the stage asks for. -/
def fileChange (engine : CommitEngine D) (file : StagedFile D) : Change Bytes :=
  match file.kind with
  | .create | .replace => .write (namesOf file.pathAfter) (file.bytesAfter.getD []) (newMode engine file.modeBefore)
  | .move => .move (namesOf file.pathBefore) (namesOf file.pathAfter)
  | .delete => .delete (namesOf file.pathBefore)

def stageChanges (engine : CommitEngine D) (stage : StagedSourceTransaction D) : List (Change Bytes) :=
  stage.files.map (fileChange engine)

/-- An operation and its payload ask for a change that can be made: what is at their paths was checked. -/
inductive Cleared (engine : CommitEngine D) (V : View Bytes) :
    JournalOperation D × Option Bytes → Change Bytes → Prop
  | create {operation : JournalOperation D} {path : SourcePath} {bytes : Bytes} (hkind : operation.kind = .create)
      (hbefore : operation.beforePath = none) (hafter : operation.afterPath = some path)
      (hslash : (place path).slash = false) (hexpected : operation.expected = none)
      (hnone : V (normalNames path) = none) :
      Cleared engine V (operation, some bytes) (.write (normalNames path) bytes (newMode engine operation.mode))
  | replace {operation : JournalOperation D} {path : SourcePath} {bytes old : Bytes} {found : Nat}
      {observed : FileModeObservation} (hkind : operation.kind = .replace)
      (hbefore : operation.beforePath = some path) (hafter : operation.afterPath = some path)
      (hslash : (place path).slash = false) (hthere : V (normalNames path) = some (.file old found))
      (hold : Holds engine operation.expected old) (hmode : operation.mode = some observed)
      (hfound : modeMatches found observed = true) :
      Cleared engine V (operation, some bytes) (.write (normalNames path) bytes (newMode engine operation.mode))
  | move {operation : JournalOperation D} {src dst : SourcePath} {bytes : Bytes} {found : Nat}
      (hkind : operation.kind = .move) (hbefore : operation.beforePath = some src)
      (hafter : operation.afterPath = some dst) (hsrc : (place src).slash = false) (hdst : (place dst).slash = false)
      (hthere : V (normalNames src) = some (.file bytes found)) (hold : Holds engine operation.expected bytes)
      (hnone : V (normalNames dst) = none) :
      Cleared engine V (operation, some bytes) (.move (normalNames src) (normalNames dst))
  | delete {operation : JournalOperation D} {src : SourcePath} {payload : Option Bytes} {old : Bytes} {found : Nat}
      (hkind : operation.kind = .delete) (hbefore : operation.beforePath = some src)
      (hafter : operation.afterPath = none) (hslash : (place src).slash = false)
      (hthere : V (normalNames src) = some (.file old found)) (hold : Holds engine operation.expected old) :
      Cleared engine V (operation, payload) (.delete (normalNames src))

theorem Cleared.sites {V : View Bytes} {e : JournalOperation D × Option Bytes} (h : Cleared engine V e c) (q : Path) :
    q ∈ c.sites ↔ ∃ path ∈ e.1.paths, normalNames path = q := by
  cases h with
  | create hkind hbefore hafter | replace hkind hbefore hafter | move hkind hbefore hafter | delete hkind hbefore hafter =>
    simp [Change.sites, JournalOperation.paths, hbefore, hafter, eq_comm]

theorem names_ne_nil {p : Path} (h : t.look p = none ∨ Entry.isFile (t.look p) = true) : p ≠ [] := by
  rintro rfl
  have hroot := t.look_root
  rcases h with h | h
  · rw [h] at hroot
    cases hroot
  · rw [Entry.isDir_of_isFile h] at hroot
    cases hroot

theorem Cleared.ready {e : JournalOperation D × Option Bytes} (h : Cleared engine t.look e c)
    (hclear : ∀ path ∈ e.1.paths, View.Clear t.look (normalNames path)) :
    Change.Ready t.look c := by
  have hclear' : ∀ q ∈ c.sites, View.Clear t.look q := by
    intro q hq
    obtain ⟨path, hpath, rfl⟩ := (h.sites q).1 hq
    exact hclear path hpath
  have hfree : ∀ q ∈ c.sites, t.look q = none ∨ Entry.isFile (t.look q) = true := by
    intro q hq
    cases h with
    | create hkind hbefore hafter hslash hexpected hnone =>
      simp only [Change.sites, List.mem_singleton] at hq
      exact .inl (hq ▸ hnone)
    | replace hkind hbefore hafter hslash hthere =>
      simp only [Change.sites, List.mem_singleton] at hq
      exact .inr (by rw [hq, hthere]; rfl)
    | move hkind hbefore hafter hsrc hdst hthere hold hnone =>
      simp only [Change.sites, List.mem_cons, List.not_mem_nil, or_false] at hq
      rcases hq with rfl | rfl
      · exact .inr (by rw [hthere]; rfl)
      · exact .inl hnone
    | delete hkind hbefore hafter hslash hthere =>
      simp only [Change.sites, List.mem_singleton] at hq
      exact .inr (by rw [hq, hthere]; rfl)
  refine ⟨hclear', fun q hq => names_ne_nil (hfree q hq), ?_, ?_, ?_⟩
  · rintro dst bytes mode rfl
    exact hfree dst (by simp [Change.sites])
  · intro src dst he
    cases h with
    | create => cases he
    | replace => cases he
    | delete => cases he
    | @move operation before after bytes found hkind hbefore hafter hsrc hdst hthere hold hnone =>
      cases he
      refine ⟨by rw [hthere]; rfl, hnone, fun hle => ?_⟩
      by_cases hne : normalNames after = normalNames before
      · rw [hne, hthere] at hnone
        cases hnone
      · have hdir := Files.look_above (t := t) (by simp [hthere]) hle hne
        rw [hnone] at hdir
        cases hdir
  · rintro src rfl
    rcases hfree src (by simp [Change.sites]) with hnone | hfile
    · cases h with
      | delete hkind hbefore hafter hslash hthere =>
        rw [hthere] at hnone
        cases hnone
    · exact hfile

theorem Cleared.congr {V V' : View Bytes} {e : JournalOperation D × Option Bytes} (h : Cleared engine V e c)
    (hsame : ∀ q ∈ c.sites, V' q = V q) : Cleared engine V' e c := by
  cases h with
  | create hkind hbefore hafter hslash hexpected hnone =>
    exact .create hkind hbefore hafter hslash hexpected (by rw [hsame _ (by simp [Change.sites]), hnone])
  | replace hkind hbefore hafter hslash hthere hold hmode hfound =>
    exact .replace hkind hbefore hafter hslash (by rw [hsame _ (by simp [Change.sites]), hthere]) hold hmode hfound
  | move hkind hbefore hafter hsrc hdst hthere hold hnone =>
    exact .move hkind hbefore hafter hsrc hdst (by rw [hsame _ (by simp [Change.sites]), hthere]) hold
      (by rw [hsame _ (by simp [Change.sites]), hnone])
  | delete hkind hbefore hafter hslash hthere hold =>
    exact .delete hkind hbefore hafter hslash (by rw [hsame _ (by simp [Change.sites]), hthere]) hold

/-! ## Applying -/

theorem atomicWrite_durable {mode : Option FileModeObservation} (hdurable : engine.durability = .durable)
    (hslash : (place path).slash = false) (hopen : View.Open t.look)
    (hready : Change.Ready t.look (.write (normalNames path) bytes (newMode engine mode))) :
    ∃ t', withParents t (normalNames path) (fun t => atomicWrite engine t (place path) bytes mode) = (t', .ok ()) ∧
      t'.look = (Change.write (normalNames path) bytes (newMode engine mode)).effect t.look := by
  obtain ⟨hok, -, -⟩ := Files.mkdirAll_above hopen hready rfl
  obtain ⟨t', hpublish, hlook⟩ := Files.publish_change hopen hslash hready
  refine ⟨t', ?_, hlook⟩
  simp only [place_names] at hpublish
  simp only [newMode] at hpublish
  simp only [withParents, hok, if_true, atomicWrite, hdurable, hpublish]

/-- An operation whose change can be made makes it. -/
theorem applyOperation_effect (hdurable : engine.durability = .durable) {V₀ : View Bytes}
    (h : Cleared engine V₀ (operation, payload) c) (hopen : View.Open t.look) (hready : Change.Ready t.look c) :
    ∃ t', applyOperation engine t operation (payload.getD []) = (t', .ok ()) ∧ t'.look = c.effect t.look := by
  cases h with
  | create hkind hbefore hafter hslash =>
    obtain ⟨t', happly, hlook⟩ := atomicWrite_durable hdurable hslash hopen hready
    exact ⟨t', by simpa [applyOperation, hkind, hafter] using happly, hlook⟩
  | replace hkind hbefore hafter hslash =>
    obtain ⟨t', happly, hlook⟩ := atomicWrite_durable hdurable hslash hopen hready
    exact ⟨t', by simpa [applyOperation, hkind, hafter] using happly, hlook⟩
  | @move _ src dst bytes found hkind hbefore hafter hsrc hdst =>
    obtain ⟨hok, -, -⟩ := Files.mkdirAll_above hopen hready rfl
    obtain ⟨t', hrename, hlook⟩ := Files.rename_change hopen hsrc hdst hready
    simp only [place_names] at hrename
    exact ⟨t', by simp [applyOperation, hkind, hbefore, hafter, withParents, hok, hrename], hlook⟩
  | @delete _ src _ old found hkind hbefore hafter hslash =>
    obtain ⟨t', hremove, hlook⟩ := Files.remove_change hopen hslash hready
    exact ⟨t', by simp [applyOperation, hkind, hbefore, hremove], hlook⟩

/-! ## Classification -/

theorem stat_of_there {mode : Nat} (hslash : (place path).slash = false)
    (h : t.look (normalNames path) = some (.file bytes mode)) :
    t.stat (place path) = .ok (.file mode) := Files.stat_of_file hslash h

theorem stat_of_gone (hclear : View.Clear t.look (normalNames path)) (h : t.look (normalNames path) = none) :
    t.stat (place path) = .error .notFound := Files.stat_of_none hclear h

theorem bytesThere_some {mode : Nat} (hslash : (place path).slash = false)
    (h : t.look (normalNames path) = some (.file bytes mode)) :
    bytesThere (D := D) t path = .ok (some bytes) := by
  simp [bytesThere, stat_of_there hslash h, readBytes_of_file hslash h, bind, Except.bind, pure, Except.pure]

theorem bytesThere_none (hclear : View.Clear t.look (normalNames path)) (h : t.look (normalNames path) = none) :
    bytesThere (D := D) t path = .ok none := by
  simp [bytesThere, stat_of_gone hclear h]

/-- What a write has put there is seen as made. -/
theorem classify_written {mode : Nat} (hkind : operation.kind = .create ∨ operation.kind = .replace)
    (hafter : operation.afterPath = some path) (hslash : (place path).slash = false)
    (h : t.look (normalNames path) = some (.file bytes mode)) :
    classifyOperation engine t operation (some bytes) = .ok .after := by
  have hwritten : classifyWritten engine t operation path (some bytes) = .ok .after := by
    simp [classifyWritten, stat_of_there hslash h, readBytes_of_file hslash h, bind, Except.bind, pure, Except.pure]
  rcases hkind with hkind | hkind
  · simp [classifyOperation, hkind, requirePath, hafter, hwritten, bind, Except.bind]
  · simp [classifyOperation, hkind, requirePath, hafter, hwritten, bind, Except.bind]

/-- An operation that is to be made is seen as such, unless it writes what is there. -/
theorem classify_pending (h : Cleared engine t.look (operation, payload) c)
    (hclear : ∀ q ∈ c.sites, View.Clear t.look q) :
    (¬ c.Idle t.look → classifyOperation engine t operation payload = .ok .before) ∧
      (c.Idle t.look → classifyOperation engine t operation payload = .ok .after) := by
  cases h with
  | @create _ path bytes hkind hbefore hafter hslash hexpected hnone =>
    have hstat := stat_of_gone (hclear _ (by simp [Change.sites])) hnone
    constructor
    · intro _
      simp [classifyOperation, hkind, requirePath, hafter, classifyWritten, hstat, hexpected, bind, Except.bind]
    · rintro ⟨dst, bytes', mode, mode', hc, hthere⟩
      cases hc
      rw [hnone] at hthere
      cases hthere
  | @replace _ path bytes old found observed hkind hbefore hafter hslash hthere hold =>
    constructor
    · intro hidle
      have hne : old ≠ bytes := by
        rintro rfl
        exact hidle ⟨_, _, _, _, rfl, hthere⟩
      simp [classifyOperation, hkind, requirePath, hafter, classifyWritten, stat_of_there hslash hthere,
        readBytes_of_file hslash hthere, hne, contentMatches_of_holds hslash hthere hold, bind, Except.bind,
        pure, Except.pure]
    · rintro ⟨dst, bytes', mode, mode', hc, hsame⟩
      cases hc
      exact classify_written (.inr hkind) hafter hslash hsame
  | @move _ src dst bytes found hkind hbefore hafter hsrc hdst hthere hold hnone =>
    constructor
    · intro _
      simp [classifyOperation, hkind, requirePath, hbefore, hafter, classifyMove, bytesThere_some hsrc hthere,
        bytesThere_none (hclear _ (by simp [Change.sites])) hnone, contentMatches_of_holds hsrc hthere hold, bind,
        Except.bind, pure, Except.pure]
    · rintro ⟨_, _, _, _, hc, _⟩
      cases hc
  | @delete _ src _ old found hkind hbefore hafter hslash hthere hold =>
    constructor
    · intro _
      simp [classifyOperation, hkind, requirePath, hbefore, classifyDelete, stat_of_there hslash hthere,
        contentMatches_of_holds hslash hthere hold, bind, Except.bind, pure, Except.pure]
    · rintro ⟨_, _, _, _, hc, _⟩
      cases hc

theorem classify_settled {V₀ : View Bytes} (h : Cleared engine V₀ (operation, payload) c) (hready : Change.Ready V₀ c)
    (hclear : ∀ q ∈ c.sites, View.Clear t.look q) (hsettled : ∀ q ∈ c.sites, t.look q = c.target V₀ q) :
    classifyOperation engine t operation payload = .ok .after := by
  cases h with
  | @create _ path bytes hkind hbefore hafter hslash =>
    exact classify_written (.inl hkind) hafter hslash (hsettled (normalNames path) (by simp [Change.sites]))
  | @replace _ path bytes old found observed hkind hbefore hafter hslash =>
    exact classify_written (.inr hkind) hafter hslash (hsettled (normalNames path) (by simp [Change.sites]))
  | @move _ src dst bytes found hkind hbefore hafter hsrc hdst hthere =>
    have hgone : t.look (normalNames src) = none := by
      rw [hsettled _ (by simp [Change.sites])]
      simp [Change.target]
    have hmoved : t.look (normalNames dst) = some (.file bytes found) := by
      rw [hsettled _ (by simp [Change.sites])]
      simp [Change.target, Ne.symm hready.ends_ne, hthere]
    simp [classifyOperation, hkind, requirePath, hbefore, hafter, classifyMove,
      bytesThere_none (hclear _ (by simp [Change.sites])) hgone, bytesThere_some hdst hmoved, bind, Except.bind, pure,
      Except.pure]
  | @delete _ src _ old found hkind hbefore hafter hslash =>
    have hgone : t.look (normalNames src) = none := hsettled _ (by simp [Change.sites])
    simp [classifyOperation, hkind, requirePath, hbefore, classifyDelete,
      stat_of_gone (hclear _ (by simp [Change.sites])) hgone, bind, Except.bind]

/-! ## Preflight -/

/-- No two contents have one digest or one id, and a link to a staged blob holds the bytes of its digest. -/
structure Digests (engine : CommitEngine D) : Prop where
  hash    : Function.Injective engine.hash
  content : ∀ id a b, contentIdLike engine id a = .ok id → contentIdLike engine id b = .ok id → a = b
  staged  : ∀ digest bytes, engine.stagedBlob digest = some bytes → engine.hash bytes = digest

/-- The shape a plan gives its files: what is replaced stays where it is, what is moved keeps its bytes, what is
created was not there, and no destination is written as a directory. -/
structure StagedFile.Shaped (engine : CommitEngine D) (file : StagedFile D) : Prop where
  created   : file.kind = .create → file.contentBefore = none
  replaced  : file.kind = .replace → file.pathAfter = file.pathBefore
  moved     : file.kind = .move → ∀ id bytes, file.contentBefore = some id → file.bytesAfter = some bytes →
    contentIdLike engine id bytes = .ok id
  deleted   : file.kind = .delete → file.pathAfter = none
  plainPath : ∀ path, file.pathAfter = some path → (place path).slash = false

/-- The operation a file of a stage comes to. -/
theorem operationFromFile_ok {file : StagedFile D} (h : operationFromFile engine file = .ok operation) :
    (file.kind = .create → file.pathBefore = none) ∧
      operation = { kind := file.kind, beforePath := file.pathBefore, afterPath := file.pathAfter,
                    expected := file.contentBefore,
                    afterBlob := file.stagedBytes <|> file.bytesAfter.map engine.hash,
                    afterContent := file.contentAfter, mode := file.modeBefore } := by
  unfold operationFromFile at h
  split at h
  · cases h
  · cases h
  · rename_i hcreate hdelete
    refine ⟨fun hkind => ?_, (Except.ok.inj h).symm⟩
    cases hb : file.pathBefore with
    | none => rfl
    | some path => exact (hcreate path hkind hb).elim

theorem needsOutput_ok {reason : String} (h : needsOutput operation path reason = .ok ()) :
    operation.afterBlob ≠ none := by
  unfold needsOutput at h
  cases hb : operation.afterBlob with
  | none => simp [hb] at h
  | some blob => simp

theorem requirePath_ok {kind : PlannedFileKind} {path : Option SourcePath} {found : SourcePath}
    (h : requirePath (D := D) kind path = .ok found) : path = some found := by
  cases path with
  | none => cases h
  | some p => exact congrArg some (Except.ok.inj h)

theorem preflightFile_ok {file : StagedFile D} (h : preflightFile engine t file = .ok operation) :
    operationFromFile engine file = .ok operation ∧
      (∀ path ∈ operation.paths, checkPath (D := D) t path = .ok ()) ∧
      preflightOperation engine t operation = .ok () := by
  unfold preflightFile at h
  obtain ⟨found, hop, h⟩ := Machine.bind_ok.1 h
  obtain ⟨_, hpaths, h⟩ := Machine.bind_ok.1 h
  obtain ⟨_, hpre, h⟩ := Machine.bind_ok.1 h
  cases h
  exact ⟨hop, each_ok.1 hpaths, hpre⟩

/-- What `preflight` lets pass can be done. -/
theorem cleared_of_preflight {file : StagedFile D} (hdigests : Digests engine) (hshape : file.Shaped engine)
    (h : preflightFile engine t file = .ok operation)
    (hpayload : ∀ blob, operation.afterBlob = some blob → payload = file.bytesAfter ∧ file.bytesAfter ≠ none) :
    Cleared engine t.look (operation, payload) (fileChange engine file) ∧
      ∀ path ∈ operation.paths,
        validateRelativePath (D := D) path = .ok () ∧ View.Clear t.look (normalNames path) := by
  obtain ⟨hop, hpaths, hpre⟩ := preflightFile_ok h
  obtain ⟨hcreate, hopdef⟩ := operationFromFile_ok hop
  refine ⟨?_, fun path hpath => checkPath_ok.1 (hpaths path hpath)⟩
  have hout : operation.afterBlob ≠ none → ∃ bytes, file.bytesAfter = some bytes ∧ payload = some bytes := by
    intro hne
    obtain ⟨blob, hblob⟩ := Option.ne_none_iff_exists'.1 hne
    obtain ⟨hsame, hsome⟩ := hpayload blob hblob
    obtain ⟨bytes, hbytes⟩ := Option.ne_none_iff_exists'.1 hsome
    exact ⟨bytes, hbytes, hsame.trans hbytes⟩
  have hkinds : operation.kind = file.kind := by rw [hopdef]
  have hbefores : operation.beforePath = file.pathBefore := by rw [hopdef]
  have hafters : operation.afterPath = file.pathAfter := by rw [hopdef]
  have hexpecteds : operation.expected = file.contentBefore := by rw [hopdef]
  have hmodes : operation.mode = file.modeBefore := by rw [hopdef]
  unfold preflightOperation at hpre
  cases hkind : file.kind with
  | create =>
    simp only [hkinds, hkind] at hpre
    obtain ⟨path, hpath, hpre⟩ := Machine.bind_ok.1 hpre
    obtain ⟨_, habsent, hneeds⟩ := Machine.bind_ok.1 hpre
    have hafter := requirePath_ok hpath
    have hslash := hshape.plainPath path (hafters ▸ hafter)
    obtain ⟨bytes, hbytes, rfl⟩ := hout (needsOutput_ok hneeds)
    have hcleared : Cleared engine t.look (operation, some bytes) _ := .create (hkinds.trans hkind)
      (hbefores.trans (hcreate hkind)) hafter hslash (hexpecteds.trans (hshape.created hkind))
      (absent_ok hslash habsent)
    simpa [fileChange, hkind, ← hafters, hafter, namesOf, hbytes, ← hmodes] using hcleared
  | replace =>
    simp only [hkinds, hkind] at hpre
    obtain ⟨path, hpath, hpre⟩ := Machine.bind_ok.1 hpre
    obtain ⟨_, hexisting, hneeds⟩ := Machine.bind_ok.1 hpre
    have hbefore := requirePath_ok hpath
    have hafter : operation.afterPath = some path := by rw [hafters, hshape.replaced hkind, ← hbefores, hbefore]
    obtain ⟨hslash, old, found, observed, hthere, hold, hmode, hfound⟩ := verifyExisting_ok hexisting
    obtain ⟨bytes, hbytes, rfl⟩ := hout (needsOutput_ok hneeds)
    have hcleared : Cleared engine t.look (operation, some bytes) _ := .replace (hkinds.trans hkind) hbefore hafter hslash
      hthere hold hmode hfound
    simpa [fileChange, hkind, ← hafters, hafter, namesOf, hbytes, ← hmodes] using hcleared
  | move =>
    simp only [hkinds, hkind] at hpre
    obtain ⟨src, hsrc, hpre⟩ := Machine.bind_ok.1 hpre
    obtain ⟨dst, hdst, hpre⟩ := Machine.bind_ok.1 hpre
    obtain ⟨_, hexisting, hpre⟩ := Machine.bind_ok.1 hpre
    obtain ⟨_, habsent, hneeds⟩ := Machine.bind_ok.1 hpre
    have hbefore := requirePath_ok hsrc
    have hafter := requirePath_ok hdst
    have hslash := hshape.plainPath dst (hafters ▸ hafter)
    obtain ⟨hslash', old, found, observed, hthere, hold, -, -⟩ := verifyExisting_ok hexisting
    obtain ⟨bytes, hbytes, rfl⟩ := hout (needsOutput_ok hneeds)
    obtain ⟨id, hid, holdid⟩ := hold
    have hsame : old = bytes :=
      hdigests.content id old bytes holdid (hshape.moved hkind id bytes (hexpecteds ▸ hid) hbytes)
    subst hsame
    have hcleared : Cleared engine t.look _ _ := .move (hkinds.trans hkind) hbefore hafter hslash' hslash hthere
      ⟨id, hid, holdid⟩ (absent_ok hslash habsent)
    simpa [fileChange, hkind, ← hafters, ← hbefores, hafter, hbefore, namesOf] using hcleared
  | delete =>
    simp only [hkinds, hkind] at hpre
    obtain ⟨src, hsrc, hexisting⟩ := Machine.bind_ok.1 hpre
    have hbefore := requirePath_ok hsrc
    obtain ⟨hslash, old, found, observed, hthere, hold, -, -⟩ := verifyExisting_ok hexisting
    have hcleared : Cleared engine t.look (operation, payload) _ := .delete (hkinds.trans hkind) hbefore
      (hafters.trans (hshape.deleted hkind)) hslash hthere hold
    simpa [fileChange, hkind, ← hbefores, hbefore, namesOf] using hcleared

end Soopy
