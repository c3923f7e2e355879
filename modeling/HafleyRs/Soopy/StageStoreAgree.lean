import HafleyRs.Lib.Mirror
import HafleyRs.Soopy.StageStore

/-!
# The two stage stores agree (`crates/soopy/src/_7e_stage_store.rs`)

`live` says what a store is for: the stage a list of calls leaves under each id, as it was sealed. `Kept` is the
invariant of the in-memory store, and the durable one mirrors it (`Agrees`): manifests and blobs under their file
names. One call keeps both relations and is answered alike, so every list of calls is.

An id forgets the order of the plan's files as long as files of one sort key (612, 645) differ in nothing but
`bytes_before`.
-/

namespace Soopy
variable {D : Type} {c : Codec D}

/-! ## Identities -/

/-- The file without what its preview alone shows. -/
def PlannedFile.unread (f : PlannedFile) : PlannedFile := { f with bytesBefore := none }

def PlannedFile.identity (c : Codec D) (f : PlannedFile) : IdentityFile D := (stageFile c f).identity

theorem identity_eq_iff (hc : c.Lawful) {f g : PlannedFile} : f.identity c = g.identity c ↔ f.unread = g.unread := by
  cases f
  cases g
  simp [PlannedFile.identity, PlannedFile.unread, stageFile, StagedFile.identity,
    (Option.map_injective hc.hash_injective).eq_iff]

theorem identityFiles_perm (files : List (StagedFile D)) :
    (identityFiles files).Perm (files.map StagedFile.identity) := List.perm_insertionSort _ _

theorem sealPlan_files (c : Codec D) (plan : MutationPlan) :
    (sealPlan c plan).1.files =
      (plan.files.insertionSort (PlannedFile.key · ≤ PlannedFile.key ·)).map (stageFile c) := by
  have hpairs : (plan.files.map fun f => (stageFile c f, previewFile c f)).insertionSort
      (fun a b => a.1.key ≤ b.1.key) =
      (plan.files.insertionSort (PlannedFile.key · ≤ PlannedFile.key ·)).map fun f =>
        (stageFile c f, previewFile c f) :=
    (List.map_insertionSort _ _ (fun f => (stageFile c f, previewFile c f)) _ fun a _ b _ => Iff.rfl).symm
  simp only [sealPlan, hpairs, List.map_map]
  rfl

/-- The identity lists the files in the order of the stage. -/
theorem sealPlan_identityFiles (c : Codec D) (plan : MutationPlan) :
    identityFiles (sealPlan c plan).1.files =
      (plan.files.insertionSort (PlannedFile.key · ≤ PlannedFile.key ·)).map (PlannedFile.identity c) := by
  rw [identityFiles, sealPlan_files, List.map_map]
  refine List.Pairwise.insertionSort_eq (List.pairwise_map.2 ?_)
  exact sortByKey_pairwise PlannedFile.key plan.files

theorem identityBytes_inj (hc : c.Lawful) {r r' : SourceRootId} {fs fs' : List (StagedFile D)} :
    identityBytes c r fs = identityBytes c r' fs' ↔ r = r' ∧ identityFiles fs = identityFiles fs' := by
  rw [identityBytes, identityBytes, hc.identity_injective.eq_iff]
  simp

theorem recomputeId_sealPlan (c : Codec D) (plan : MutationPlan) :
    (sealPlan c plan).1.recomputeId c = (sealPlan c plan).1.id := rfl

theorem sealPlan_id_inj (hc : c.Lawful) {plan plan' : MutationPlan} :
    (sealPlan c plan).1.id = (sealPlan c plan').1.id ↔ plan.root = plan'.root ∧
      (plan.files.insertionSort (PlannedFile.key · ≤ PlannedFile.key ·)).map (PlannedFile.identity c) =
        (plan'.files.insertionSort (PlannedFile.key · ≤ PlannedFile.key ·)).map (PlannedFile.identity c) := by
  rw [← recomputeId_sealPlan, ← recomputeId_sealPlan, StagedSourceTransaction.recomputeId,
    StagedSourceTransaction.recomputeId, hc.hash_injective.eq_iff, identityBytes_inj hc, sealPlan_identityFiles,
    sealPlan_identityFiles]
  rfl

/-- The id stands still under reordering iff files of one key are told apart by `bytes_before` at most. -/
theorem id_reordered_iff (hc : c.Lawful) (plan : MutationPlan) :
    (∀ files : List PlannedFile, files.Perm plan.files →
      (sealPlan c { plan with files }).1.id = (sealPlan c plan).1.id) ↔
    ∀ f ∈ plan.files, ∀ g ∈ plan.files, f.key = g.key → f.unread = g.unread := by
  simp only [sealPlan_id_inj hc, true_and]
  rw [sortByKey_perm_iff]
  simp only [identity_eq_iff hc]

/-- The key of a file shows no `bytes_before`. -/
theorem id_unread (hc : c.Lawful) {plan plan' : MutationPlan} (hroot : plan.root = plan'.root)
    (hfiles : plan.files.map PlannedFile.unread = plan'.files.map PlannedFile.unread) :
    (sealPlan c plan).1.id = (sealPlan c plan').1.id := by
  have hsort : ∀ files : List PlannedFile,
      (files.insertionSort (PlannedFile.key · ≤ PlannedFile.key ·)).map (PlannedFile.identity c) =
      ((files.map PlannedFile.unread).insertionSort (PlannedFile.key · ≤ PlannedFile.key ·)).map
        (PlannedFile.identity c) := by
    intro files
    have hmap := List.map_insertionSort (PlannedFile.key · ≤ PlannedFile.key ·)
      (PlannedFile.key · ≤ PlannedFile.key ·) PlannedFile.unread files fun a _ b _ => Iff.rfl
    rw [← hmap, List.map_map]
    rfl
  rw [sealPlan_id_inj hc, hsort plan.files, hsort plan'.files, hfiles]
  exact ⟨hroot, rfl⟩

/-! ## What is kept -/

/-- A stage with its bytes, as `load` returns it, and without them, as it was sealed. -/
def StagedSourceTransaction.skip (t : StagedSourceTransaction D) : StagedSourceTransaction D :=
  { t with files := t.files.map .skip }

def StagedSourceTransaction.DigestsMatch (c : Codec D) (t : StagedSourceTransaction D) : Prop :=
  ∀ f ∈ t.files, f.bytesAfter.map c.hash = f.stagedBytes

theorem mem_referenced {files : List (StagedFile D)} {d : D} :
    d ∈ referenced files ↔ ∃ f ∈ files, f.stagedBytes = some d := List.mem_filterMap

theorem skip_of_none {files : List (StagedFile D)} (h : ∀ f ∈ files, f.bytesAfter = none) :
    files.map .skip = files := by
  have hskip : ∀ f ∈ files, f.skip = f := by
    intro f hf
    have hnone := h f hf
    cases f
    simp_all [StagedFile.skip]
  rw [List.map_congr_left hskip, List.map_id']

theorem sealPlan_skipped (c : Codec D) (plan : MutationPlan) :
    ∀ f ∈ (sealPlan c plan).1.files, f.bytesAfter = none := by
  rw [sealPlan_files]
  intro f hf
  obtain ⟨p, -, rfl⟩ := List.mem_map.1 hf
  rfl

theorem sealPlan_hashed (c : Codec D) (plan : MutationPlan) : ∀ b ∈ (sealPlan c plan).2, c.hash b.2 = b.1 := by
  intro b hb
  simp only [sealPlan, List.mem_filterMap, Option.map_eq_some_iff] at hb
  obtain ⟨f, -, bytes, -, rfl⟩ := hb
  rfl

/-- Every digest a stage refers to is among the blobs sealed with it. -/
theorem sealPlan_held (c : Codec D) (plan : MutationPlan) {d : D} (hd : d ∈ referenced (sealPlan c plan).1.files) :
    ∃ b ∈ (sealPlan c plan).2, b.1 = d := by
  rw [mem_referenced, sealPlan_files] at hd
  obtain ⟨g, hg, hgd⟩ := hd
  obtain ⟨f, hf, rfl⟩ := List.mem_map.1 hg
  obtain ⟨bytes, hbytes, rfl⟩ := Option.map_eq_some_iff.1 hgd
  refine ⟨(c.hash bytes, bytes), ?_, rfl⟩
  simp only [sealPlan, List.mem_filterMap]
  exact ⟨f, (List.mem_insertionSort _).1 hf, by rw [hbytes]; rfl⟩

/-- With every blob at hand, each file gets its own. -/
theorem rehydrate_ok {blob : D → Except String Bytes} {bytes : D → Bytes} {files : List (StagedFile D)}
    (h : ∀ d ∈ referenced files, blob d = .ok (bytes d)) (hnone : ∀ f ∈ files, f.bytesAfter = none) :
    rehydrate blob files = .ok (files.map fun f => { f with bytesAfter := f.stagedBytes.map bytes }) := by
  induction files with
  | nil => rfl
  | cons f files ih =>
    have hrest := ih (fun d hd => h d ?_) fun g hg => hnone g (by simp [hg])
    · cases hf : f.stagedBytes with
      | none =>
        have hbytes := hnone f (by simp)
        cases f
        simp_all [rehydrate, bind, Except.bind]
      | some d =>
        have hblob := h d (mem_referenced.2 ⟨f, by simp, hf⟩)
        simp [rehydrate, hf, hblob, hrest, bind, Except.bind]
    · obtain ⟨g, hg, hgd⟩ := mem_referenced.1 hd
      exact mem_referenced.2 ⟨g, by simp [hg], hgd⟩

variable [LinearOrder D]

/-- What the in-memory store keeps: blobs under their digests, stages as sealed, and the blobs they refer to. -/
structure Kept (c : Codec D) (s : InMemoryStageStore D) : Prop where
  hashed  : ∀ (id : D) (bytes : Bytes), s.blobs[id]? = some bytes → c.hash bytes = id
  sealed  : ∀ (id : D) (t : StagedSourceTransaction D), s.stages[id]? = some t → t.id = id ∧ t.recomputeId c = id
  skipped : ∀ (id : D) (t : StagedSourceTransaction D), s.stages[id]? = some t → ∀ f ∈ t.files, f.bytesAfter = none
  held    : ∀ (id : D) (t : StagedSourceTransaction D), s.stages[id]? = some t →
    ∀ d ∈ referenced t.files, s.blobs[d]?.isSome

theorem new_kept : Kept c .new :=
  ⟨by simp [InMemoryStageStore.new], by simp [InMemoryStageStore.new], by simp [InMemoryStageStore.new],
    by simp [InMemoryStageStore.new]⟩

theorem Kept.save {s : InMemoryStageStore D} (h : Kept c s) (plan : MutationPlan) : Kept c (s.save c plan).2 := by
  have hblob : ∀ d : D, (s.save c plan).2.blobs[d]? =
      s.blobs[d]?.or (((sealPlan c plan).2.find? fun b => b.1 = d).map (·.2)) := fun d =>
    BTreeMap.getElem?_foldl_entry _ _ _
  have hstage : ∀ (id : D) (t : StagedSourceTransaction D), (s.save c plan).2.stages[id]? = some t →
      (id = (sealPlan c plan).1.id ∧ t = (sealPlan c plan).1) ∨ s.stages[id]? = some t := by
    intro id t ht
    rw [InMemoryStageStore.save, BTreeMap.getElem?_insert] at ht
    by_cases hid : (sealPlan c plan).1.id = id
    · rw [if_pos hid] at ht
      exact .inl ⟨hid.symm, (Option.some.inj ht).symm⟩
    · rw [if_neg hid] at ht
      exact .inr ht
  refine ⟨fun d bytes hd => ?_, fun id t ht => ?_, fun id t ht => ?_, fun id t ht d hd => ?_⟩
  · rw [hblob] at hd
    rcases Option.or_eq_some_iff.1 hd with hold | ⟨-, hnew⟩
    · exact h.hashed d bytes hold
    · obtain ⟨b, hb, rfl⟩ := Option.map_eq_some_iff.1 hnew
      have hkey : b.1 = d := by simpa using List.find?_some hb
      rw [sealPlan_hashed c plan b (List.mem_of_find?_eq_some hb), hkey]
  · rcases hstage id t ht with ⟨rfl, rfl⟩ | hold
    · exact ⟨rfl, rfl⟩
    · exact h.sealed id t hold
  · rcases hstage id t ht with ⟨rfl, rfl⟩ | hold
    · exact sealPlan_skipped c plan
    · exact h.skipped id t hold
  · rw [hblob]
    rcases hstage id t ht with ⟨rfl, rfl⟩ | hold
    · obtain ⟨b, hb, rfl⟩ := sealPlan_held c plan hd
      have hfind : ((sealPlan c plan).2.find? fun b' => b'.1 = b.1).isSome :=
        List.find?_isSome.2 ⟨b, hb, by simp⟩
      simp [hfind]
    · simp [h.held id t hold d hd]

theorem Kept.discard {s : InMemoryStageStore D} (h : Kept c s) (id : D) : Kept c (s.discard id).2 := by
  have hstage : ∀ (id' : D) (t : StagedSourceTransaction D), (s.discard id).2.stages[id']? = some t →
    s.stages[id']? = some t := by
    intro id' t ht
    rw [InMemoryStageStore.discard, BTreeMap.getElem?_erase] at ht
    by_cases hid : id = id'
    · simp [hid] at ht
    · simpa [hid] using ht
  exact ⟨h.hashed, fun id t ht => h.sealed id t (hstage id t ht), fun id t ht => h.skipped id t (hstage id t ht),
    fun id t ht => h.held id t (hstage id t ht)⟩

/-! ## Cleaning up -/

namespace InMemoryStageStore

theorem cleanup_stages (s : InMemoryStageStore D) (policy : CleanupPolicy D) (id : D) :
    (s.cleanup policy).2.stages[id]? = if policy.removeManifests ∧ id ∉ policy.retain then none else s.stages[id]? := by
  by_cases hm : policy.removeManifests
  · simp [cleanup, hm, BTreeMap.getElem?_sweep]
  · simp [cleanup, hm]

/-- The digests the stages left refer to. -/
def used (s : InMemoryStageStore D) : List D := s.stages.toList.flatMap fun e => referenced e.2.files

theorem mem_used {s : InMemoryStageStore D} {d : D} :
    d ∈ s.used ↔ ∃ (id : D) (t : StagedSourceTransaction D), s.stages[id]? = some t ∧ d ∈ referenced t.files := by
  simp only [used, List.mem_flatMap, Prod.exists, BTreeMap.mem_toList]

theorem cleanup_blobs (s : InMemoryStageStore D) (policy : CleanupPolicy D) (d : D) :
    (s.cleanup policy).2.blobs[d]? =
      if policy.removeUnreferencedBlobs ∧ d ∉ (s.cleanup policy).2.used then none else s.blobs[d]? := by
  by_cases hb : policy.removeUnreferencedBlobs
  · have hswept : (s.cleanup policy).2.blobs = (s.blobs.sweep (· ∉ (s.cleanup policy).2.used)).1 := by
      simp only [cleanup, used, hb, if_true]
    rw [hswept, BTreeMap.getElem?_sweep]
    simp [hb]
  · simp [cleanup, hb]

/-- No blob goes that a stage still refers to. -/
theorem cleanup_keeps {s : InMemoryStageStore D} {policy : CleanupPolicy D} {id : D} {t : StagedSourceTransaction D}
    (ht : (s.cleanup policy).2.stages[id]? = some t) {d : D} (hd : d ∈ referenced t.files) :
    (s.cleanup policy).2.blobs[d]? = s.blobs[d]? := by
  have hused : d ∈ (s.cleanup policy).2.used := mem_used.2 ⟨id, t, ht, hd⟩
  rw [cleanup_blobs, if_neg (fun h => h.2 hused)]

end InMemoryStageStore

theorem Kept.cleanup {s : InMemoryStageStore D} (h : Kept c s) (policy : CleanupPolicy D) :
    Kept c (s.cleanup policy).2 := by
  have hstage : ∀ (id : D) (t : StagedSourceTransaction D), (s.cleanup policy).2.stages[id]? = some t →
    s.stages[id]? = some t := by
    intro id t ht
    rw [InMemoryStageStore.cleanup_stages] at ht
    by_cases hid : policy.removeManifests ∧ id ∉ policy.retain
    · rw [if_pos hid] at ht
      cases ht
    · rwa [if_neg hid] at ht
  refine ⟨fun d bytes hd => ?_, fun id t ht => h.sealed id t (hstage id t ht),
    fun id t ht => h.skipped id t (hstage id t ht), fun id t ht d hd => ?_⟩
  · rw [InMemoryStageStore.cleanup_blobs] at hd
    by_cases hgone : policy.removeUnreferencedBlobs ∧ d ∉ (s.cleanup policy).2.used
    · rw [if_pos hgone] at hd
      cases hd
    · rw [if_neg hgone] at hd
      exact h.hashed d bytes hd
  · rw [InMemoryStageStore.cleanup_keeps ht hd]
    exact h.held id t (hstage id t ht) d hd

theorem Kept.step {s : InMemoryStageStore D} (h : Kept c s) (call : Call D) :
    Kept c (InMemoryStageStore.store c s call).2 := by
  cases call with
  | save plan => exact h.save plan
  | load id => exact h
  | discard id => exact h.discard id
  | cleanup policy => exact h.cleanup policy

/-! ## The durable store is a mirror -/

def manifestOf (c : Codec D) (t : StagedSourceTransaction D) : StoredManifest D :=
  { schemaVersion := stageStoreSchemaVersion, id := t.id, identity := identityBytes c t.root t.files, root := t.root,
    files := t.files, previews := t.previews }

structure Agrees (c : Codec D) (m : InMemoryStageStore D) (d : DurableStageStore) : Prop where
  manifests : m.stages.Mirrors (DurableStageStore.manifestName c)
    (fun _ t => c.writeManifest (manifestOf c t)) d.manifests
  blobs     : m.blobs.Mirrors c.toHex (fun _ bytes => bytes) d.blobs

section
open DurableStageStore
omit [LinearOrder D]

theorem toHex_injective (hc : c.Lawful) : Function.Injective c.toHex := by
  intro d d' h
  have hsome := hc.fromHex_toHex d
  rw [h, hc.fromHex_toHex] at hsome
  exact (Option.some.inj hsome).symm

theorem manifestId_manifestName (hc : c.Lawful) (id : D) : manifestId c (manifestName c id) = some id := by
  have htake : (c.toHex id ++ ".json").toList.take ((c.toHex id ++ ".json").length - ".json".length) =
      (c.toHex id).toList := by
    rw [String.toList_append, String.length_append, Nat.add_sub_cancel]
    exact List.take_left
  rw [manifestId, manifestName, stripSuffix, htake, if_pos (by simp), String.ofList_toList]
  exact hc.fromHex_toHex id

theorem manifestName_injective (hc : c.Lawful) : Function.Injective (manifestName c) := by
  intro d d' h
  have hsome := manifestId_manifestName hc d
  rw [h, manifestId_manifestName hc] at hsome
  exact (Option.some.inj hsome).symm

end

theorem new_agrees : Agrees c .new .new := ⟨.empty, .empty⟩

/-- The blobs of a save, written on both sides. -/
theorem blobs_agree (hc : c.Lawful) {bs : List (D × Bytes)} {m : BTreeMap D Bytes} {n : BTreeMap String Bytes}
    (hbs : ∀ b ∈ bs, c.hash b.2 = b.1) (hm : ∀ d bytes, m[d]? = some bytes → c.hash bytes = d)
    (h : m.Mirrors c.toHex (fun _ bytes => bytes) n) :
    (bs.foldl (fun m b => if m[b.1]?.isSome then m else m.insert b.1 b.2) m).Mirrors c.toHex (fun _ bytes => bytes)
      (bs.foldl (fun n b =>
        if n[c.toHex b.1]?.any fun bytes => c.hash bytes = b.1 then n else n.insert (c.toHex b.1) b.2) n) := by
  induction bs generalizing m n with
  | nil => exact h
  | cons b bs ih =>
    have hb := hbs b (by simp)
    have hget : n[c.toHex b.1]? = m[b.1]? := by simpa using h.get (toHex_injective hc) b.1
    rw [List.foldl_cons, List.foldl_cons, hget]
    cases hold : m[b.1]? with
    | none =>
      refine ih (fun b' hb' => hbs b' (by simp [hb'])) (fun d bytes hd => ?_) ?_
      · simp only [Option.isSome_none, Bool.false_eq_true, if_false] at hd
        rw [BTreeMap.getElem?_insert] at hd
        by_cases hkey : b.1 = d
        · rw [if_pos hkey] at hd
          rw [← Option.some.inj hd, hb, hkey]
        · rw [if_neg hkey] at hd
          exact hm d bytes hd
      · simpa using h.insert (toHex_injective hc) b.1 b.2
    | some bytes =>
      have hkept := hm b.1 bytes hold
      simp only [Option.isSome_some, if_true, Option.any_some, hkept, decide_true]
      exact ih (fun b' hb' => hbs b' (by simp [hb'])) hm h

theorem Agrees.save (hc : c.Lawful) {m : InMemoryStageStore D} {d : DurableStageStore} (h : Agrees c m d)
    (hm : Kept c m) (plan : MutationPlan) : Agrees c (m.save c plan).2 (d.save c plan).2 :=
  ⟨h.manifests.insert (manifestName_injective hc) _ _,
    blobs_agree hc (sealPlan_hashed c plan) hm.hashed h.blobs⟩

/-- What a kept stage loads as. -/
def hydrated (s : InMemoryStageStore D) (t : StagedSourceTransaction D) : StagedSourceTransaction D :=
  { t with files := t.files.map fun f => { f with bytesAfter := f.stagedBytes.map fun d => s.blobs[d]?.getD [] } }

theorem Kept.load {s : InMemoryStageStore D} (h : Kept c s) (id : D) :
    s.load id = .loaded (s.stages[id]?.map (hydrated s)) := by
  cases ht : s.stages[id]? with
  | none => simp [InMemoryStageStore.load, ht]
  | some t =>
    have hblob : ∀ d ∈ referenced t.files,
        (s.blobs[d]?).elim (Except.error "missing staged blob") Except.ok = .ok (s.blobs[d]?.getD []) := by
      intro d hd
      obtain ⟨bytes, hbytes⟩ := Option.isSome_iff_exists.1 (h.held id t ht d hd)
      rw [hbytes]
      rfl
    simp only [InMemoryStageStore.load, ht, rehydrate_ok hblob (h.skipped id t ht)]
    rfl

/-- The checks of `load` on the manifest it reads. -/
theorem load_of_manifest {d : DurableStageStore} {id : D} {bytes : Bytes} {m : StoredManifest D}
    (hget : d.manifests[DurableStageStore.manifestName c id]? = some bytes) (hread : c.readManifest bytes = some m) :
    d.load c id =
      if m.schemaVersion ≠ stageStoreSchemaVersion ∨ m.id ≠ id then .failed "invalid stage manifest identity"
      else if c.hash m.identity ≠ id then .failed "stage manifest digest mismatch"
      else if identityBytes c m.root m.files ≠ m.identity then .failed "stage manifest identity bytes mismatch"
      else
        match rehydrate (fun b => match d.blobs[c.toHex b]? with
          | none => .error ("read staged blob " ++ c.toHex b)
          | some bytes => if c.hash bytes ≠ b then .error "staged blob digest mismatch" else .ok bytes) m.files with
        | .ok files => .loaded (some ⟨id, m.root, files, m.previews⟩)
        | .error e => .failed e := by
  simp only [DurableStageStore.load, hget]
  exact hread ▸ rfl

theorem Agrees.load (hc : c.Lawful) {m : InMemoryStageStore D} {d : DurableStageStore} (h : Agrees c m d)
    (hm : Kept c m) (id : D) : m.load id = d.load c id := by
  have hget := h.manifests.get (manifestName_injective hc) id
  rw [hm.load]
  cases ht : m.stages[id]? with
  | none => simp [DurableStageStore.load, hget, ht]
  | some t =>
    obtain ⟨rfl, hid⟩ := hm.sealed id t ht
    have hskip := skip_of_none (hm.skipped t.id t ht)
    have hread : c.readManifest (c.writeManifest (manifestOf c t)) = some (manifestOf c t) := by
      rw [hc.readManifest_writeManifest]
      simp [manifestOf, hskip]
    have hdigest : c.hash (manifestOf c t).identity = t.id := hid
    rw [ht, Option.map_some] at hget
    rw [load_of_manifest hget hread, if_neg (by simp [manifestOf]), if_neg (not_not.2 hdigest),
      if_neg (by simp [manifestOf]),
      @rehydrate_ok D _ (fun b => m.blobs[b]?.getD []) (manifestOf c t).files (fun b hb => ?_) (hm.skipped t.id t ht)]
    · rfl
    · obtain ⟨bytes, hbytes⟩ := Option.isSome_iff_exists.1 (hm.held t.id t ht b hb)
      have hname : d.blobs[c.toHex b]? = some bytes := by
        simpa [hbytes] using h.blobs.get (toHex_injective hc) b
      simp [hname, hbytes, hm.hashed b bytes hbytes]

/-- Both stores see the same digests in use. -/
theorem Agrees.used (hc : c.Lawful) {s : InMemoryStageStore D} {manifests : BTreeMap String Bytes}
    (h : s.stages.Mirrors (DurableStageStore.manifestName c) (fun _ t => c.writeManifest (manifestOf c t)) manifests)
    (hs : ∀ (id : D) (t : StagedSourceTransaction D), s.stages[id]? = some t → ∀ f ∈ t.files, f.bytesAfter = none) :
    ∃ used, DurableStageStore.used c manifests = some used ∧ ∀ d : D, d ∈ used ↔ d ∈ s.used := by
  have hread : ∀ e ∈ manifests.toList, ∃ (id : D) (t : StagedSourceTransaction D), s.stages[id]? = some t ∧
      (c.readManifest e.2).map (fun m => referenced m.files) = some (referenced t.files) := by
    intro e he
    obtain ⟨id, t, -, ht, hbytes⟩ := (h e.1 e.2).1 (BTreeMap.mem_toList.1 he)
    refine ⟨id, t, ht, ?_⟩
    rw [hbytes, hc.readManifest_writeManifest]
    simp [manifestOf, skip_of_none (hs id t ht)]
  have hused : DurableStageStore.used c manifests = some (manifests.toList.map fun e =>
      ((c.readManifest e.2).map fun m => referenced m.files).getD []).flatten := by
    rw [DurableStageStore.used, Machine.mapM_eq_some fun e he => ?_]
    · rfl
    · obtain ⟨id, t, -, ht⟩ := hread e he
      rw [ht]
      rfl
  refine ⟨_, hused, fun d => ?_⟩
  · rw [InMemoryStageStore.mem_used, List.mem_flatten]
    constructor
    · rintro ⟨l, hl, hd⟩
      obtain ⟨e, he, rfl⟩ := List.mem_map.1 hl
      obtain ⟨id, t, ht, hrefs⟩ := hread e he
      exact ⟨id, t, ht, by simpa [hrefs] using hd⟩
    · rintro ⟨id, t, ht, hd⟩
      have he : (DurableStageStore.manifestName c id, c.writeManifest (manifestOf c t)) ∈ manifests.toList :=
        BTreeMap.mem_toList.2 ((h _ _).2 ⟨id, t, rfl, ht, rfl⟩)
      refine ⟨_, List.mem_map_of_mem he, ?_⟩
      simp only [hc.readManifest_writeManifest, manifestOf, skip_of_none (hs id t ht)]
      exact hd

theorem Agrees.cleanup (hc : c.Lawful) {m : InMemoryStageStore D} {d : DurableStageStore} (h : Agrees c m d)
    (hm : Kept c m) (policy : CleanupPolicy D) :
    (m.cleanup policy).1 = (d.cleanup c policy).1 ∧ Agrees c (m.cleanup policy).2 (d.cleanup c policy).2 := by
  have hpick : ∀ id, ((DurableStageStore.manifestId c (DurableStageStore.manifestName c id)).any (· ∉ policy.retain)) =
      decide (id ∉ policy.retain) := by
    intro id
    rw [manifestId_manifestName hc]
    rfl
  have hstages : (m.cleanup policy).2.stages.Mirrors (DurableStageStore.manifestName c)
      (fun _ t => c.writeManifest (manifestOf c t)) (if policy.removeManifests then
        d.manifests.sweep fun name => (DurableStageStore.manifestId c name).any (· ∉ policy.retain)
        else (d.manifests, 0)).1 ∧
      (if policy.removeManifests then m.stages.sweep (· ∉ policy.retain) else (m.stages, 0)).2 =
      (if policy.removeManifests then
        d.manifests.sweep fun name => (DurableStageStore.manifestId c name).any (· ∉ policy.retain)
        else (d.manifests, 0)).2 := by
    by_cases hr : policy.removeManifests
    · simp only [InMemoryStageStore.cleanup, hr, if_true]
      exact ⟨h.manifests.sweep hpick, (h.manifests.sweep_count (manifestName_injective hc) hpick).symm⟩
    · simp only [InMemoryStageStore.cleanup, hr]
      exact ⟨h.manifests, rfl⟩
  obtain ⟨used, hused, hmem⟩ := Agrees.used hc hstages.1 (hm.cleanup policy).skipped
  have hblob : ∀ id, ((c.fromHex (c.toHex id)).any (· ∉ used)) = decide (id ∉ (m.cleanup policy).2.used) := by
    intro id
    rw [hc.fromHex_toHex, Option.any_some]
    exact decide_eq_decide.2 (not_congr (hmem id))
  by_cases hb : policy.removeUnreferencedBlobs
  · have hswept : (m.cleanup policy).1 = .cleaned ((if policy.removeManifests then
        m.stages.sweep (· ∉ policy.retain) else (m.stages, 0)).2 +
        (m.blobs.sweep (· ∉ (m.cleanup policy).2.used)).2) ∧
        (m.cleanup policy).2.blobs = (m.blobs.sweep (· ∉ (m.cleanup policy).2.used)).1 := by
      constructor <;> simp only [InMemoryStageStore.cleanup, InMemoryStageStore.used, hb, if_true]
    have hdurable : d.cleanup c policy = (.cleaned ((if policy.removeManifests then
        d.manifests.sweep fun name => (DurableStageStore.manifestId c name).any (· ∉ policy.retain)
        else (d.manifests, 0)).2 + (d.blobs.sweep fun name => (c.fromHex name).any (· ∉ used)).2),
        ⟨(d.blobs.sweep fun name => (c.fromHex name).any (· ∉ used)).1, (if policy.removeManifests then
        d.manifests.sweep fun name => (DurableStageStore.manifestId c name).any (· ∉ policy.retain)
        else (d.manifests, 0)).1⟩) := by
      simp only [DurableStageStore.cleanup, hb, if_true, hused]
    have hcount := h.blobs.sweep_count (q := fun name => (c.fromHex name).any (· ∉ used)) (toHex_injective hc) hblob
    have hblobs := h.blobs.sweep (q := fun name => (c.fromHex name).any (· ∉ used)) hblob
    rw [hdurable, hswept.1, hstages.2, ← hcount]
    exact ⟨rfl, hstages.1, hswept.2 ▸ hblobs⟩
  · have hkept : (m.cleanup policy).1 = .cleaned (if policy.removeManifests then
        m.stages.sweep (· ∉ policy.retain) else (m.stages, 0)).2 ∧ (m.cleanup policy).2.blobs = m.blobs := by
      constructor <;> simp [InMemoryStageStore.cleanup, hb]
    have hdurable : d.cleanup c policy = (.cleaned (if policy.removeManifests then
        d.manifests.sweep fun name => (DurableStageStore.manifestId c name).any (· ∉ policy.retain)
        else (d.manifests, 0)).2, ⟨d.blobs, (if policy.removeManifests then
        d.manifests.sweep fun name => (DurableStageStore.manifestId c name).any (· ∉ policy.retain)
        else (d.manifests, 0)).1⟩) := by
      simp [DurableStageStore.cleanup, hb]
    rw [hdurable, hkept.1, hstages.2]
    exact ⟨rfl, hstages.1, hkept.2 ▸ h.blobs⟩

/-- One call: the same answer, and the stores stay mirrors. -/
theorem Agrees.step (hc : c.Lawful) {m : InMemoryStageStore D} {d : DurableStageStore} (h : Agrees c m d)
    (hm : Kept c m) (call : Call D) :
    (InMemoryStageStore.store c m call).1 = (DurableStageStore.store c d call).1 ∧
      Agrees c (InMemoryStageStore.store c m call).2 (DurableStageStore.store c d call).2 := by
  cases call with
  | save plan => exact ⟨rfl, h.save hc hm plan⟩
  | load id => exact ⟨h.load hc hm id, h⟩
  | discard id =>
    have hget := h.manifests.get (manifestName_injective hc) id
    refine ⟨?_, h.manifests.erase (manifestName_injective hc) id, h.blobs⟩
    simp [InMemoryStageStore.store, DurableStageStore.store, InMemoryStageStore.discard,
      DurableStageStore.discard, hget]
  | cleanup policy => exact h.cleanup hc hm policy

theorem run_agrees (hc : c.Lawful) (calls : List (Call D)) {m : InMemoryStageStore D} {d : DurableStageStore}
    (h : Agrees c m d) (hm : Kept c m) :
    (StageStore.run (InMemoryStageStore.store c) m calls).1 = (StageStore.run (DurableStageStore.store c) d calls).1 ∧
      Agrees c (StageStore.run (InMemoryStageStore.store c) m calls).2
        (StageStore.run (DurableStageStore.store c) d calls).2 ∧
      Kept c (StageStore.run (InMemoryStageStore.store c) m calls).2 := by
  induction calls generalizing m d with
  | nil => exact ⟨rfl, h, hm⟩
  | cons call calls ih =>
    obtain ⟨hanswer, hstep⟩ := h.step hc hm call
    obtain ⟨hanswers, hrest⟩ := ih hstep (hm.step call)
    refine ⟨?_, hrest⟩
    simp only [StageStore.run, hanswer, hanswers]

/-! ## What a list of calls leaves -/

/-- The stage under each id after a call. -/
def Call.live (c : Codec D) (stages : D → Option (StagedSourceTransaction D)) :
    Call D → D → Option (StagedSourceTransaction D)
  | .save plan => Function.update stages (sealPlan c plan).1.id (some (sealPlan c plan).1)
  | .load _ => stages
  | .discard id => Function.update stages id none
  | .cleanup policy => fun id => if policy.removeManifests ∧ id ∉ policy.retain then none else stages id

def live (c : Codec D) (calls : List (Call D)) : D → Option (StagedSourceTransaction D) :=
  calls.foldl (Call.live c) fun _ => none

theorem stages_live (c : Codec D) (s : InMemoryStageStore D) (call : Call D) :
    (fun id => (InMemoryStageStore.store c s call).2.stages[id]?) = call.live c fun id => s.stages[id]? := by
  funext id
  cases call with
  | save plan =>
    simp only [InMemoryStageStore.store, InMemoryStageStore.save, Call.live, BTreeMap.getElem?_insert,
      Function.update_apply, @eq_comm _ id]
  | load _ => rfl
  | discard _ =>
    simp only [InMemoryStageStore.store, InMemoryStageStore.discard, Call.live, BTreeMap.getElem?_erase,
      Function.update_apply, @eq_comm _ id]
  | cleanup policy => exact InMemoryStageStore.cleanup_stages s policy id

theorem run_live (c : Codec D) (calls : List (Call D)) (s : InMemoryStageStore D) :
    (fun id => (StageStore.run (InMemoryStageStore.store c) s calls).2.stages[id]?) =
      calls.foldl (Call.live c) fun id => s.stages[id]? := by
  induction calls generalizing s with
  | nil => rfl
  | cons call calls ih =>
    rw [List.foldl_cons, ← stages_live]
    exact ih _

theorem hydrated_skip {s : InMemoryStageStore D} (h : Kept c s) {id : D} {t : StagedSourceTransaction D}
    (ht : s.stages[id]? = some t) : (hydrated s t).skip = t ∧ (hydrated s t).DigestsMatch c := by
  have hfile : ∀ f ∈ t.files,
      ({ f with bytesAfter := f.stagedBytes.map fun d => s.blobs[d]?.getD [] } : StagedFile D).skip = f := by
    intro f hf
    have hnone := h.skipped id t ht f hf
    cases f
    simp_all [StagedFile.skip]
  constructor
  · have hfiles : (hydrated s t).files.map .skip = t.files := by
      rw [hydrated, List.map_map]
      exact (List.map_congr_left (g := fun f => f) hfile).trans (List.map_id' _)
    rw [StagedSourceTransaction.skip, hfiles]
    rfl
  · intro g hg
    obtain ⟨f, hf, rfl⟩ := List.mem_map.1 hg
    cases hd : f.stagedBytes with
    | none => simp
    | some d =>
      obtain ⟨bytes, hbytes⟩ := Option.isSome_iff_exists.1 (h.held id t ht d (mem_referenced.2 ⟨f, hf, hd⟩))
      simp [hbytes, h.hashed d bytes hbytes]

/-- What `load` answers for a live stage: the stage as sealed, its files with bytes of the digests they name. -/
def LoadsAs (c : Codec D) (a : Answer D) (stage : Option (StagedSourceTransaction D)) : Prop :=
  ∃ loaded, a = .loaded loaded ∧ loaded.map .skip = stage ∧ ∀ t ∈ loaded, t.DigestsMatch c

theorem Kept.loadsAs {s : InMemoryStageStore D} (h : Kept c s) (id : D) : LoadsAs c (s.load id) s.stages[id]? := by
  refine ⟨s.stages[id]?.map (hydrated s), h.load id, ?_, ?_⟩
  · cases ht : s.stages[id]? with
    | none => rfl
    | some t => exact congrArg some (hydrated_skip h ht).1
  · intro loaded hl
    obtain ⟨t, ht, rfl⟩ := Option.map_eq_some_iff.1 hl
    exact (hydrated_skip h ht).2

/-! ## Altered manifests -/

/-- A field of the identity of `m` is not what `t` was sealed with. -/
def StoredManifest.Altered (c : Codec D) (m : StoredManifest D) (t : StagedSourceTransaction D) : Prop :=
  m.schemaVersion ≠ stageStoreSchemaVersion ∨ m.id ≠ t.id ∨ m.identity ≠ identityBytes c t.root t.files ∨
    m.root ≠ t.root ∨ ¬ (m.files.map StagedFile.identity).Perm (t.files.map StagedFile.identity)

theorem load_altered (hc : c.Lawful) {d : DurableStageStore} {t : StagedSourceTransaction D}
    (ht : t.recomputeId c = t.id)
    {bytes : Bytes} {m : StoredManifest D} (hget : d.manifests[DurableStageStore.manifestName c t.id]? = some bytes)
    (hread : c.readManifest bytes = some m) (ha : m.Altered c t) : ∃ error, d.load c t.id = .failed error := by
  rw [load_of_manifest hget hread]
  by_cases hhead : m.schemaVersion ≠ stageStoreSchemaVersion ∨ m.id ≠ t.id
  · exact ⟨_, if_pos hhead⟩
  by_cases hdigest : c.hash m.identity ≠ t.id
  · exact ⟨_, by rw [if_neg hhead, if_pos hdigest]⟩
  by_cases hbytes : identityBytes c m.root m.files ≠ m.identity
  · exact ⟨_, by rw [if_neg hhead, if_neg hdigest, if_pos hbytes]⟩
  -- the digest fixes the identity bytes, and they fix the root and the files
  push Not at hhead hdigest hbytes
  have hidentity : m.identity = identityBytes c t.root t.files := hc.hash_injective (hdigest.trans ht.symm)
  obtain ⟨hroot, hfiles⟩ := (identityBytes_inj hc).1 (hbytes.trans hidentity)
  have hperm : (m.files.map StagedFile.identity).Perm (t.files.map StagedFile.identity) :=
    (identityFiles_perm m.files).symm.trans (hfiles ▸ identityFiles_perm t.files)
  rcases ha with h | h | h | h | h
  · exact absurd hhead.1 h
  · exact absurd hhead.2 h
  · exact absurd hidentity h
  · exact absurd hroot h
  · exact absurd hperm h

/-- Cleaning a directory: whatever the manifests left refer to keeps its blob. -/
theorem DurableStageStore.cleanup_keeps (hc : c.Lawful) {s : DurableStageStore} {policy : CleanupPolicy D}
    {name : String} {bytes : Bytes} (hname : (s.cleanup c policy).2.manifests[name]? = some bytes)
    {m : StoredManifest D}
    (hread : c.readManifest bytes = some m) {d : D} (hd : d ∈ referenced m.files) :
    (s.cleanup c policy).2.blobs[c.toHex d]? = s.blobs[c.toHex d]? := by
  by_cases hb : policy.removeUnreferencedBlobs
  · cases hused : DurableStageStore.used c (if policy.removeManifests then
        s.manifests.sweep fun name => (manifestId c name).any (· ∉ policy.retain) else (s.manifests, 0)).1 with
    | none => simp only [cleanup, hb, if_true, hused]
    | some used =>
      simp only [cleanup, hb, if_true, hused] at hname ⊢
      obtain ⟨lists, hlists, rfl⟩ := Option.map_eq_some_iff.1 hused
      have hmem : d ∈ lists.flatten := by
        obtain ⟨l, hl, hr⟩ := Machine.mem_of_mapM hlists (BTreeMap.mem_toList.2 hname)
        rw [hread] at hr
        obtain rfl := Option.some.inj hr
        exact List.mem_flatten.2 ⟨_, hl, hd⟩
      rw [BTreeMap.getElem?_sweep, hc.fromHex_toHex, Option.any_some, if_neg (by simpa using hmem)]
  · simp [cleanup, hb]

/-! ## A codec -/

instance encodableChar : Encodable Char := Encodable.ofLeftInverse Char.toNat Char.ofNat fun c => Char.ofNat_toNat c
instance encodableString : Encodable String := Encodable.ofLeftInverse String.toList String.ofList fun _ => String.ofList_toList

deriving instance Encodable for FileRef, RevisionId, SourceRef, ContentId, SourceRootId, SourcePath, ActionSource,
  ActionProducer, NormalizedEdit, PlannedFileKind, FileModeObservation, FilePreview
deriving instance Encodable for IdentityFile, StagedFile
deriving instance Encodable for StageIdentity, StoredManifest

def hexValue (ch : Char) : Option Nat :=
  if '0' ≤ ch ∧ ch ≤ '9' then some (ch.toNat - '0'.toNat)
  else if 'a' ≤ ch ∧ ch ≤ 'f' then some (ch.toNat - 'a'.toNat + 10)
  else none

def hex (d : Bytes) : List Char := d.flatMap fun b : Byte => [Nat.digitChar (b.val / 16), Nat.digitChar (b.val % 16)]

def unhex : List Char → Option Bytes
  | [] => some []
  | [_] => none
  | hi :: lo :: cs => do
    let hi ← hexValue hi
    let lo ← hexValue lo
    let rest ← unhex cs
    return Fin.ofNat 256 (16 * hi + lo) :: rest

theorem hexValue_digitChar : ∀ n < 16, hexValue (Nat.digitChar n) = some n := by decide

theorem unhex_hex (d : Bytes) : unhex (hex d) = some d := by
  induction d with
  | nil => rfl
  | cons b d ih =>
    have hhi := hexValue_digitChar (b.val / 16) (by omega)
    have hlo := hexValue_digitChar (b.val % 16) (by omega)
    have hb : Fin.ofNat 256 (16 * (b.val / 16) + b.val % 16) = b := by
      refine Fin.ext ?_
      simp only [Fin.ofNat_eq_cast, Fin.val_natCast]
      omega
    simp only [hex, List.flatMap_cons, List.cons_append, List.nil_append, unhex, hhi, hlo] at ih ⊢
    rw [ih]
    exact congrArg (fun b => some (b :: d)) hb

/-- The bytes themselves for a digest, and the code number of a value, in unary, for its JSON. -/
def plain : Codec Bytes where
  hash := id
  toHex d := String.ofList (hex d)
  fromHex s := unhex s.toList
  writeIdentity s := List.replicate (Encodable.encode s) 0
  writeManifest m := List.replicate (Encodable.encode { m with files := m.files.map .skip }) 0
  readManifest bytes := Encodable.decode bytes.length
  isUtf8 bytes := (ByteArray.mk (bytes.map fun b => UInt8.ofNat b).toArray).validateUTF8
  patch _ _ := ""

theorem plain_lawful : plain.Lawful where
  hash_injective := Function.injective_id
  fromHex_toHex d := by
    simp only [plain, String.toList_ofList]
    exact unhex_hex d
  identity_injective s t h := by
    simpa [plain] using congrArg List.length h
  readManifest_writeManifest m := by
    simp [plain]

/-! ## Agreement -/

/-- **The two stores agree**, and keep what they were given. The order of a plan's files is the one thing an id may
show too much of: `seal_plan` and `identity_bytes` sort by `(path_after, path_before, kind)` alone (612, 645). -/
theorem stage_stores_agree (hc : c.Lawful) :
    (∀ calls, (StageStore.run (InMemoryStageStore.store c) .new calls).1 =
      (StageStore.run (DurableStageStore.store c) .new calls).1) ∧
    (∀ calls id, LoadsAs c ((StageStore.run (InMemoryStageStore.store c) .new calls).2.load id) (live c calls id) ∧
      LoadsAs c ((StageStore.run (DurableStageStore.store c) .new calls).2.load c id) (live c calls id)) ∧
    (∀ plan : MutationPlan, (∀ files : List PlannedFile, files.Perm plan.files →
        (sealPlan c { plan with files }).1.id = (sealPlan c plan).1.id) ↔
      ∀ f ∈ plan.files, ∀ g ∈ plan.files, f.key = g.key → f.unread = g.unread) ∧
    (∀ plan plan' : MutationPlan, plan.root = plan'.root →
      plan.files.map PlannedFile.unread = plan'.files.map PlannedFile.unread →
        (sealPlan c plan).1.id = (sealPlan c plan').1.id) ∧
    (∀ t t' : StagedSourceTransaction D, identityBytes c t.root t.files ≠ identityBytes c t'.root t'.files →
      t.recomputeId c ≠ t'.recomputeId c) ∧
    (∀ (d : DurableStageStore) (plan : MutationPlan) (bytes : Bytes) m,
      d.manifests[DurableStageStore.manifestName c (sealPlan c plan).1.id]? = some bytes →
        c.readManifest bytes = some m →
        m.Altered c (sealPlan c plan).1 → ∃ error, d.load c (sealPlan c plan).1.id = .failed error) ∧
    (∀ (s : InMemoryStageStore D) policy (id : D) (t : StagedSourceTransaction D),
      (s.cleanup policy).2.stages[id]? = some t →
      ∀ d ∈ referenced t.files, (s.cleanup policy).2.blobs[d]? = s.blobs[d]?) ∧
    (∀ (s : DurableStageStore) policy (name : String) (bytes : Bytes) m,
      (s.cleanup c policy).2.manifests[name]? = some bytes →
      c.readManifest bytes = some m →
        ∀ d ∈ referenced m.files, (s.cleanup c policy).2.blobs[c.toHex d]? = s.blobs[c.toHex d]?) := by
  refine ⟨fun calls => (run_agrees hc calls new_agrees new_kept).1, fun calls id => ?_, id_reordered_iff hc,
    fun _ _ => id_unread hc, fun t t' hne heq => hne (hc.hash_injective heq),
    fun d plan bytes m hget hread ha => load_altered hc rfl hget hread ha,
    fun s policy id t ht d hd => InMemoryStageStore.cleanup_keeps ht hd,
    fun s policy name bytes m hname hread d hd => DurableStageStore.cleanup_keeps hc hname hread hd⟩
  obtain ⟨-, hagrees, hkept⟩ := run_agrees hc calls new_agrees new_kept
  have hlive : live c calls id = (StageStore.run (InMemoryStageStore.store c) .new calls).2.stages[id]? := by
    have hrun := congrFun (run_live c calls .new) id
    simpa [live, InMemoryStageStore.new] using hrun.symm
  have hloads := hkept.loadsAs id
  rw [hlive, ← hagrees.load hc hkept]
  exact ⟨hloads, hloads⟩

/-- `a` replaced twice, from a clean and from a dirty worktree. -/
def twiceReplaced (dirty : Bool) (byte : Byte) : PlannedFile :=
  { kind := .replace, source := some (.git ⟨"repo", .worktree "main" none dirty, "a"⟩), pathBefore := some (.git "a"),
    pathAfter := some (.git "a"), contentBefore := none, contentAfter := none, modeBefore := none, bytesBefore := none,
    bytesAfter := some [byte], edits := [] }

theorem stage_stores_agree_plain :
    let plan : MutationPlan := ⟨.gitWorktree "repo" "main", [twiceReplaced false 0]⟩
    let calls : List (Call Bytes) := [.save plan, .cleanup ⟨∅, false, true⟩, .load (sealPlan plain plan).1.id]
    (StageStore.run (InMemoryStageStore.store plain) .new calls).1 =
      (StageStore.run (DurableStageStore.store plain) .new calls).1 :=
  (stage_stores_agree plain_lawful).1 _

theorem id_shows_order :
    let plan : MutationPlan := ⟨.gitWorktree "repo" "main", [twiceReplaced false 0, twiceReplaced true 1]⟩
    ¬ ∀ files : List PlannedFile, files.Perm plan.files →
      (sealPlan plain { plan with files }).1.id = (sealPlan plain plan).1.id := by
  intro plan h
  have hsame := (id_reordered_iff plain_lawful plan).1 h (twiceReplaced false 0) (by simp [plan]) (twiceReplaced true 1)
    (by simp [plan]) rfl
  simp [twiceReplaced, PlannedFile.unread] at hsame

/-! ## Saving over damage -/

omit [LinearOrder D] in
theorem rehydrate_mono {blob blob' : D → Except String Bytes} (h : ∀ d bytes, blob d = .ok bytes → blob' d = .ok bytes)
    {files out : List (StagedFile D)} (ho : rehydrate blob files = .ok out) : rehydrate blob' files = .ok out := by
  induction files generalizing out with
  | nil => exact ho
  | cons f fs ih =>
    cases hd : f.stagedBytes with
    | none =>
      simp only [rehydrate, hd, Machine.bind_ok] at ho ⊢
      obtain ⟨f', hf, fs', hfs, ho⟩ := ho
      exact ⟨f', hf, fs', ih hfs, ho⟩
    | some d =>
      simp only [rehydrate, hd, Machine.bind_ok] at ho ⊢
      obtain ⟨bytes, hb, f', hf, fs', hfs, ho⟩ := ho
      exact ⟨bytes, h d bytes hb, f', hf, fs', ih hfs, ho⟩

open DurableStageStore

/-- A blob file, read and checked. -/
def blobAt (c : Codec D) (blobs : BTreeMap String Bytes) (d : D) : Except String Bytes :=
  match blobs[c.toHex d]? with
  | none => .error ("read staged blob " ++ c.toHex d)
  | some bytes => if c.hash bytes ≠ d then .error "staged blob digest mismatch" else .ok bytes

theorem blobAt_ok {blobs : BTreeMap String Bytes} {d : D} {bytes : Bytes} :
    blobAt c blobs d = .ok bytes ↔ blobs[c.toHex d]? = some bytes ∧ c.hash bytes = d := by
  unfold blobAt
  grind

theorem load_loaded {d : DurableStageStore} {t : StagedSourceTransaction D} {bytes : Bytes} {m : StoredManifest D}
    {id : D} (hget : d.manifests[manifestName c id]? = some bytes) (hread : c.readManifest bytes = some m) :
    d.load c id = .loaded (some t) ↔ (m.schemaVersion = stageStoreSchemaVersion ∧ m.id = id ∧ c.hash m.identity = id ∧
      identityBytes c m.root m.files = m.identity) ∧
      ∃ files, rehydrate (blobAt c d.blobs) m.files = .ok files ∧ ⟨id, m.root, files, m.previews⟩ = t := by
  have hload := load_of_manifest hget hread
  change _ = ite _ _ (ite _ _ (ite _ _ (match rehydrate (blobAt c d.blobs) m.files with
    | .ok files => _
    | .error e => _))) at hload
  rw [hload]
  cases rehydrate (blobAt c d.blobs) m.files <;> grind

/-- A blob that is whole, or about to be written, is there after the blobs of a save. -/
theorem blob_written (hc : c.Lawful) {bs : List (D × Bytes)} {n : BTreeMap String Bytes}
    (hbs : ∀ b ∈ bs, c.hash b.2 = b.1) {d : D} {bytes : Bytes} (hd : c.hash bytes = d)
    (h : n[c.toHex d]? = some bytes ∨ (d, bytes) ∈ bs) :
    (bs.foldl (fun n b => if n[c.toHex b.1]?.any fun bytes => c.hash bytes = b.1 then n
      else n.insert (c.toHex b.1) b.2) n)[c.toHex d]? = some bytes := by
  induction bs generalizing n with
  | nil => simpa using h
  | cons b bs ih =>
    rw [List.foldl_cons]
    refine ih (fun b' hb' => hbs b' (List.mem_cons_of_mem _ hb')) ?_
    by_cases hkey : b.1 = d
    · have hbytes : ∀ x, c.hash x = b.1 → x = bytes := fun x hx => hc.hash_injective (hx.trans (hkey.trans hd.symm))
      left
      cases hold : n[c.toHex b.1]?.any fun x => c.hash x = b.1 with
      | true =>
        obtain ⟨x, hx, hh⟩ := (Option.any_eq_true ..).1 hold
        rw [if_pos rfl, ← hkey, hx, hbytes x (by simpa using hh)]
      | false => simp [hkey, hbytes b.2 (hbs b (List.mem_cons_self ..))]
    · rcases h with h | h
      · left
        split
        · exact h
        · rw [BTreeMap.getElem?_insert, if_neg fun he => hkey (toHex_injective hc he), h]
      · right
        rcases List.mem_cons.1 h with rfl | h
        · exact absurd rfl hkey
        · exact h

/-- A file of a plan, staged with its bytes. -/
def stagedWhole (c : Codec D) (f : PlannedFile) : StagedFile D := { stageFile c f with bytesAfter := f.bytesAfter }

omit [LinearOrder D] in
theorem rehydrate_staged {blob : D → Except String Bytes} {fs : List PlannedFile}
    (h : ∀ f ∈ fs, ∀ bytes, f.bytesAfter = some bytes → blob (c.hash bytes) = .ok bytes) :
    rehydrate blob (fs.map (stageFile c)) = .ok (fs.map (stagedWhole c)) := by
  induction fs with
  | nil => rfl
  | cons f fs ih =>
    have hrest := ih fun g hg => h g (List.mem_cons_of_mem _ hg)
    cases hb : f.bytesAfter with
    | none => simp [rehydrate, stageFile, stagedWhole, hb, hrest, bind, Except.bind]
    | some bytes =>
      have hf := h f (List.mem_cons_self ..) bytes hb
      simp [rehydrate, stageFile, stagedWhole, hb, hf, hrest, bind, Except.bind]

/-- **A save can be loaded, whatever the directories hold**: a blob of the plan that was lost or altered is written
again, and each other stage that loaded before still does, as it did. -/
theorem save_heals (hc : c.Lawful) (s : DurableStageStore) (plan : MutationPlan) :
    (s.save c plan).2.load c (sealPlan c plan).1.id = .loaded (some { (sealPlan c plan).1 with
      files := (plan.files.insertionSort (PlannedFile.key · ≤ PlannedFile.key ·)).map (stagedWhole c) }) ∧
    ∀ id t, s.load c id = .loaded (some t) → id ≠ (sealPlan c plan).1.id →
      (s.save c plan).2.load c id = .loaded (some t) := by
  have hblob : ∀ d bytes, blobAt c s.blobs d = .ok bytes ∨ (d, bytes) ∈ (sealPlan c plan).2 →
      blobAt c (s.save c plan).2.blobs d = .ok bytes := by
    intro d bytes h
    have hd : c.hash bytes = d := h.elim (fun h => (blobAt_ok.1 h).2) fun h => sealPlan_hashed c plan _ h
    exact blobAt_ok.2 ⟨blob_written hc (sealPlan_hashed c plan) hd (h.imp_left fun h => (blobAt_ok.1 h).1), hd⟩
  constructor
  · have hskip := skip_of_none (sealPlan_skipped c plan)
    have hread : c.readManifest (c.writeManifest (manifestOf c (sealPlan c plan).1)) =
        some (manifestOf c (sealPlan c plan).1) := by
      rw [hc.readManifest_writeManifest]
      simp [manifestOf, hskip]
    refine (load_loaded (BTreeMap.getElem?_insert.trans (if_pos rfl)) hread).2 ⟨⟨rfl, rfl, rfl, rfl⟩, _, ?_, rfl⟩
    rw [manifestOf, sealPlan_files]
    apply rehydrate_staged
    intro f hf bytes hbytes
    refine hblob _ _ (.inr (List.mem_filterMap.2 ⟨f, (List.mem_insertionSort _).1 hf, ?_⟩))
    rw [hbytes]
    rfl
  · intro id t h hne
    have hget : (s.save c plan).2.manifests[manifestName c id]? = s.manifests[manifestName c id]? :=
      BTreeMap.getElem?_insert.trans (if_neg fun he => hne (manifestName_injective hc he).symm)
    cases hm : s.manifests[manifestName c id]? with
    | none => simp [DurableStageStore.load, hm] at h
    | some bytes =>
      cases hread : c.readManifest bytes with
      | none => simp [DurableStageStore.load, hm, hread] at h
      | some m =>
        obtain ⟨hchecks, files, hfiles, ht⟩ := (load_loaded hm hread).1 h
        have hmono := rehydrate_mono (fun d bytes hd => hblob d bytes (.inl hd)) hfiles
        exact (load_loaded (hget.trans hm) hread).2 ⟨hchecks, files, hmono, ht⟩

/-- A blob whose bytes are lost before the save. -/
theorem save_heals_plain :
    let plan : MutationPlan := ⟨.gitWorktree "repo" "main", [twiceReplaced false 7]⟩
    let torn : DurableStageStore := ⟨(∅ : BTreeMap String Bytes).insert (plain.toHex [7]) [], ∅⟩
    (torn.save plain plan).2.load plain (sealPlan plain plan).1.id = .loaded (some { (sealPlan plain plan).1 with
      files := [stagedWhole plain (twiceReplaced false 7)] }) :=
  (save_heals plain_lawful _ _).1

end Soopy
