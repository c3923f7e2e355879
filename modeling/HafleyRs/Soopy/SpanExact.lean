import HafleyRs.Soopy.SpanBatches

/-!
# Spans, exactly

A batch gives each request what the request gets alone when its reads are in step (`faithful_of_inStep`). Over requests
that carry no expected identity and could be read, and all that `git` may answer, it does so only then
(`inStep_of_faithful`): where the answers tell the lines apart, an answer to another line shows.
-/

namespace Soopy.Spans
open Machine Checks

/-- A batch gives each request what it gets alone. -/
def TextsFaithful (host : Host) (tree : SourceTree) (requests : List SpanTextRequest) : Prop :=
  ∀ answers, (∃ last, spanTextMany host tree requests = .ok (answers, last)) ↔
    List.Forall₂ (fun r a => ∃ last, spanTextMany host tree [r] = .ok ([a], last)) requests answers

def PositionsFaithful (host : Host) (tree : SourceTree) (requests : List SpanPositionRequest) : Prop :=
  ∀ answers, (∃ last, spanPositionMany host tree requests = .ok (answers, last)) ↔
    List.Forall₂ (fun r a => ∃ last, spanPositionMany host tree [r] = .ok ([a], last)) requests answers

section
variable {host : Host} {tree : SourceTree}

theorem inStep_single (request : ReadRequest) : InStep [] [request].eraseDups := by
  have hself : [request].eraseDups = [request] := by simp [List.eraseDups_cons]
  rw [hself, InStep]
  cases linesOf request with
  | nil => exact trivial
  | cons line more => exact ⟨rfl, trivial⟩

theorem single_ok {A B : Type} {f : A → Except SpanError B} {a : A} {b : B} : [a].mapM f = .ok [b] ↔ f a = .ok b := by
  rw [mapM_ok, List.forall₂_cons]
  simp

theorem spanText_single (h : tree.unread = []) {request : SpanTextRequest} {answer : SpanText} :
    (∃ last, spanTextMany host tree [request] = .ok ([answer], last)) ↔ textOf host tree request = .ok answer :=
  (@spanTextMany_ok host tree h [request] (inStep_single request.toRead) [answer]).trans single_ok

theorem spanPosition_single (h : tree.unread = []) {request : SpanPositionRequest} {answer : SpanPosition} :
    (∃ last, spanPositionMany host tree [request] = .ok ([answer], last)) ↔
      positionOf host tree request = .ok answer :=
  (@spanPositionMany_ok host tree h [request] (inStep_single request.toRead) [answer]).trans single_ok

theorem faithful_of_inStep (h : tree.unread = []) {requests : List SpanTextRequest}
    (hstep : InStep [] (requests.map SpanTextRequest.toRead).eraseDups) : TextsFaithful host tree requests := by
  intro answers
  rw [spanTextMany_ok h hstep, mapM_ok]
  simp only [spanText_single h]

theorem positionsFaithful_of_inStep (h : tree.unread = []) {requests : List SpanPositionRequest}
    (hstep : InStep [] (requests.map SpanPositionRequest.toRead).eraseDups) :
    PositionsFaithful host tree requests := by
  intro answers
  rw [spanPositionMany_ok h hstep, mapM_ok]
  simp only [spanPosition_single h]

/-! ## Reads without a newline -/

/-- Nothing it sends has a newline. -/
def Plain (request : ReadRequest) : Prop :=
  ∀ commit, request.source.revision = .commit commit → '\n' ∉ spec commit request.source.path

theorem Plain.lines {request : ReadRequest} (h : Plain request) : linesOf request = [] ∨
    ∃ line, linesOf request = [line] := by
  cases hrevision : request.source.revision with
  | worktree worktree head dirty => exact .inl (linesOf_worktree hrevision)
  | commit commit =>
    refine .inr ⟨spec commit request.source.path, ?_⟩
    rw [(linesOf_commit hrevision).1]
    exact List.splitOn_eq_singleton (h commit hrevision)

/-- **Requests without a newline are in step.** -/
theorem inStep_of_plain {requests : List ReadRequest} (h : ∀ r ∈ requests, Plain r) : InStep [] requests := by
  induction requests with
  | nil => exact trivial
  | cons r rest ih =>
    obtain ⟨hr, hrest⟩ := List.forall_mem_cons.1 h
    rw [InStep]
    rcases hr.lines with hlines | ⟨line, hlines⟩
    · rw [hlines]
      exact ih hrest
    · rw [hlines]
      exact ⟨rfl, ih hrest⟩

theorem unread_after {request : ReadRequest} (h : tree.unread = []) (hplain : Plain request) :
    (tree.after request).unread = [] := by
  rw [SourceTree.after]
  rcases hplain.lines with hlines | ⟨line, hlines⟩
  · rw [if_pos hlines]
    exact h
  · rw [hlines, if_neg (List.cons_ne_nil line []), h]
    rfl

theorem unread_readMany {tree' last : SourceTree} {requests : List ReadRequest} {sources : List SourceBytes}
    (h : tree'.unread = []) (hplain : ∀ r ∈ requests, Plain r)
    (hread : readMany host tree' requests = .ok (sources, last)) : last.unread = [] := by
  induction requests generalizing tree' sources with
  | nil =>
    cases hread
    exact h
  | cons r rest ih =>
    obtain ⟨hr, hrest⟩ := List.forall_mem_cons.1 hplain
    rw [readMany] at hread
    simp only [bind_ok, Prod.exists, readOne_ok, Except.ok.injEq, Prod.mk.injEq] at hread
    obtain ⟨s, behind, ⟨-, rfl⟩, more, last', hmore, -, rfl⟩ := hread
    exact ih (unread_after h hr) hrest hmore

/-- **A batch without a newline leaves nothing unread**, so the next one is read from a tree like this. -/
theorem unread_spanTextMany (h : tree.unread = []) {requests : List SpanTextRequest}
    (hplain : ∀ r ∈ requests, Plain r.toRead) {answers : List SpanText} {last : SourceTree}
    (hread : spanTextMany host tree requests = .ok (answers, last)) : last.unread = [] := by
  have hunique := (deduplicate_narrowed (requests.map SpanTextRequest.toRead)).1
  simp only [spanTextMany, readForSpans, hunique, bind_ok, Prod.exists, Except.ok.injEq, Prod.mk.injEq] at hread
  obtain ⟨batch, last', ⟨sources, last'', hmany, -, rfl⟩, answers', -, -, rfl⟩ := hread
  refine unread_readMany h (fun r hr => ?_) hmany
  obtain ⟨request, hrequest, rfl⟩ := List.mem_map.1 (List.mem_eraseDups.1 hr)
  exact hplain request hrequest

/-! ## Answers that tell the lines apart -/

/-- Every line names a blob of its own, and every file is as long as one likes. -/
def telling (length : Nat) : Host where
  file _       := .ok (List.replicate length 0)
  hashObject _ := .ok ""
  blake3 bytes := bytes
  openGit      := .ok ()
  catFile line := .object (String.ofList line) "blob" (List.replicate length 0)
  reserve _    := true

/-- A request that carries no identity and could be read. -/
structure Open (tree : SourceTree) (request : SpanTextRequest) : Prop where
  expected   : request.expected = none
  repository : request.span.source.repository = tree.repository
  relative   : ensureRepositoryRelative request.span.source.path = .ok ()
  worktree   : ∀ worktree head dirty, request.span.source.revision = .worktree worktree head dirty →
    worktree = tree.worktree
  span       : request.span.start ≤ request.span.stop

theorem Open.reads {request : SpanTextRequest} (h : Open tree request) (length : Nat) (line : Line) :
    ∃ s, Reads (telling length) tree line request.toRead s ∧ s.bytes = List.replicate length 0 := by
  cases hrevision : request.span.source.revision with
  | worktree worktree head dirty =>
    refine ⟨⟨request.span.source, .blake3 (List.replicate length 0), List.replicate length 0⟩, ⟨h.repository,
      h.relative, ?_, ?_, rfl⟩, rfl⟩
    · simp only [Given, SpanTextRequest.toRead, hrevision, h.expected]
      exact ⟨h.worktree _ _ _ hrevision, rfl, rfl⟩
    · rw [SpanTextRequest.toRead, h.expected]
      rfl
  | commit commit =>
    refine ⟨⟨request.span.source, .gitBlob (String.ofList line), List.replicate length 0⟩, ⟨h.repository,
      h.relative, ?_, ?_, rfl⟩, rfl⟩
    · simp only [Given, SpanTextRequest.toRead, hrevision, h.expected]
      exact ⟨.inr rfl, _, rfl, rfl, rfl⟩
    · rw [SpanTextRequest.toRead, h.expected]
      rfl

/-- What a commit's file is identified by is the line it was read with. -/
theorem Reads.told {length : Nat} {line : Line} {request : ReadRequest} {s : SourceBytes}
    (h : Reads (telling length) tree line request s) (hne : linesOf request ≠ []) :
    s.content = .gitBlob (String.ofList line) := by
  have hgiven := h.given
  rw [Given] at hgiven
  cases hrevision : request.source.revision with
  | worktree worktree head dirty => exact absurd (linesOf_worktree hrevision) hne
  | commit commit =>
    simp only [hrevision, telling, Answer.object.injEq] at hgiven
    obtain ⟨-, id, ⟨hid, -⟩, -, hcontent⟩ := hgiven
    rw [hcontent, hid]

/-- Reads that give each request its own file are in step. -/
theorem inStep_of_told {length : Nat} {tree' last : SourceTree} {requests : List ReadRequest}
    {sources : List SourceBytes} (h : readMany (telling length) tree' requests = .ok (sources, last))
    (htold : List.Forall₂ (fun r s => linesOf r ≠ [] → s.content = .gitBlob (String.ofList (firstLine r)))
      requests sources) : InStep tree'.unread requests := by
  induction requests generalizing tree' sources with
  | nil => exact trivial
  | cons r rest ih =>
    rw [readMany] at h
    simp only [bind_ok, Prod.exists, readOne_ok, Except.ok.injEq, Prod.mk.injEq] at h
    obtain ⟨s, behind, ⟨hreads, rfl⟩, more, last', hmore, rfl, rfl⟩ := h
    obtain ⟨hown, hothers⟩ := List.forall₂_cons.1 htold
    have hrest := ih hmore hothers
    rw [InStep]
    rw [SourceTree.after] at hrest
    cases hlines : linesOf r with
    | nil =>
      rw [hlines, if_pos rfl] at hrest
      exact hrest
    | cons line lines =>
      have hne : linesOf r ≠ [] := by
        rw [hlines]
        exact List.cons_ne_nil line lines
      have hcontent := hreads.told hne
      rw [hown hne] at hcontent
      have hnext : tree'.next r = firstLine r := (String.ofList_injective (ContentId.gitBlob.inj hcontent)).symm
      rw [SourceTree.next, firstLine, hlines, List.headD_cons] at hnext
      have hsent : tree'.unread ++ line :: lines ≠ [] := by simp
      obtain ⟨first, others, hsplit⟩ := List.exists_cons_of_ne_nil hsent
      rw [hlines, if_neg (List.cons_ne_nil line lines)] at hrest
      refine ⟨?_, hrest⟩
      rw [hsplit, List.headD_cons] at hnext
      rw [hsplit, hnext]
      rfl

theorem length_readMany {host : Host} {tree' last : SourceTree} {requests : List ReadRequest}
    {sources : List SourceBytes} (h : readMany host tree' requests = .ok (sources, last)) :
    sources.length = requests.length := by
  induction requests generalizing tree' sources with
  | nil =>
    cases h
    rfl
  | cons r rest ih =>
    rw [readMany] at h
    simp only [bind_ok, Prod.exists, Except.ok.injEq, Prod.mk.injEq] at h
    obtain ⟨s, behind, -, more, last', hmore, rfl, rfl⟩ := h
    rw [List.length_cons, List.length_cons, ih hmore]

/-- **A batch that is faithful whatever `git` answers is in step.** -/
theorem inStep_of_faithful (h : tree.unread = []) {requests : List SpanTextRequest}
    (hopen : ∀ r ∈ requests, Open tree r) (hfaithful : ∀ host, TextsFaithful host tree requests) :
    InStep [] (requests.map SpanTextRequest.toRead).eraseDups := by
  have hwhole : ∀ r ∈ requests, ∃ a, textOf (telling (2 ^ 64)) tree r = .ok a := by
    intro r hr
    obtain ⟨s, hreads, hbytes⟩ := (hopen r hr).reads (2 ^ 64) (firstLine r.toRead)
    have hpart : slice r.span s.bytes = .ok ((s.bytes.take r.span.stop.toNat).drop r.span.start.toNat) := by
      refine slice_ok.2 ⟨(hopen r hr).span, ?_, rfl⟩
      rw [hbytes, List.length_replicate]
      exact r.span.stop.toNat_lt.le
    exact ⟨_, bind_ok.2 ⟨s, (alone_ok h).2 hreads, bind_ok.2 ⟨_, hpart, rfl⟩⟩⟩
  obtain ⟨answers, hanswers⟩ := forall₂_of_exists hwhole
  obtain ⟨last, hbatch⟩ := (hfaithful (telling (2 ^ 64)) answers).2
    (hanswers.imp fun r a ha => (spanText_single h).2 ha)
  simp only [spanTextMany, readForSpans, bind_ok, Prod.exists, Except.ok.injEq, Prod.mk.injEq] at hbatch
  obtain ⟨batch, last', ⟨sources, last'', hread, rfl, rfl⟩, answers', hmap, rfl, rfl⟩ := hbatch
  obtain ⟨hunique, hapart, horder⟩ := deduplicate_narrowed (requests.map SpanTextRequest.toRead)
  rw [hunique] at hread
  rw [← h]
  refine inStep_of_told hread (List.forall₂_iff_get.2 ⟨(length_readMany hread).symm, fun j hr hs hne => ?_⟩)
  rw [List.get_eq_getElem] at hne ⊢
  -- some request asks for it, and is answered from it
  have hj := List.getElem?_eq_getElem hr
  have hsource := List.getElem?_eq_getElem hs
  obtain ⟨i, hi⟩ := List.mem_iff_getElem?.1 (List.mem_eraseDups.1 (List.mem_of_getElem? hj))
  obtain ⟨k, hk, hat⟩ := getElem?_of_left horder hi
  obtain rfl := hapart _ _ _ hat hj
  rw [List.getElem?_map] at hi
  obtain ⟨request, hrequest, heq⟩ := Option.map_eq_some_iff.1 hi
  have hindexed : requests.zipIdx[i]? = some (request, i) := by
    rw [List.getElem?_zipIdx, hrequest]
    simp
  obtain ⟨a, ha, hbody⟩ := getElem?_of_left (mapM_ok.1 hmap) hindexed
  obtain ⟨a', ha', hown⟩ := getElem?_of_left hanswers hrequest
  rw [ha] at ha'
  cases ha'
  simp only [SpanReadBatch.source, bind_ok, context_ok, hk, Option.some.injEq, Except.ok.injEq] at hbody
  obtain ⟨s, ⟨k', rfl, hfound⟩, part, -, rfl⟩ := hbody
  rw [hsource] at hfound
  cases hfound
  obtain ⟨s', halone, hrest⟩ := bind_ok.1 hown
  obtain ⟨part', -, hanswer⟩ := bind_ok.1 hrest
  rw [heq] at halone
  have htold := ((alone_ok h).1 halone).told hne
  have hcontent : s'.content = _ := congrArg SpanText.content (Except.ok.inj hanswer)
  exact hcontent.symm.trans htold

end

/-! ## All of it -/

/-- **Positions and slices are exact, and batches are where they are in step.** -/
theorem spans_exact {tree : SourceTree} (h : tree.unread = []) :
    (∀ (reserve : Nat → Bool) bytes measured storage, NewlineIndex.storage bytes = .ok measured →
      reserve storage.lineStartCount = true → ∃ index, NewlineIndex.build reserve bytes storage = .ok index ∧
        ∀ offset ≤ bytes.length, ∃ front back,
          bytes.take offset = front ++ back ∧ (front = [] ∨ front.getLast? = some newline) ∧ newline ∉ back ∧
            index.position offset = .ok ⟨1 + (bytes.take offset).count newline, back.length⟩) ∧
    (∀ parent child a b bytes part, spanSlice parent a b = .ok child → (slice child bytes = .ok part ↔
      parent.start.toNat + b.toNat ≤ bytes.length ∧
        part = (bytes.take (parent.start.toNat + b.toNat)).drop (parent.start.toNat + a.toNat))) ∧
    (∀ parent bytes whole, slice parent bytes = .ok whole → ∀ a b part,
      (∃ child, spanSlice parent a b = .ok child ∧ slice child bytes = .ok part) ↔
        a ≤ b ∧ b.toNat ≤ whole.length ∧ part = (whole.take b.toNat).drop a.toNat) ∧
    (∀ requests : List ReadRequest, (∀ r ∈ requests, Plain r) → InStep [] requests.eraseDups) ∧
    (∀ requests, (∀ r ∈ requests, Plain r.toRead) → ∀ host answers last,
      spanTextMany host tree requests = .ok (answers, last) → last.unread = []) ∧
    (∀ requests, InStep [] (requests.map SpanTextRequest.toRead).eraseDups →
      ∀ host, TextsFaithful host tree requests) ∧
    (∀ requests, InStep [] (requests.map SpanPositionRequest.toRead).eraseDups →
      ∀ host, PositionsFaithful host tree requests) ∧
    ∀ requests, (∀ r ∈ requests, Open tree r) →
      ((∀ host, TextsFaithful host tree requests) ↔
        InStep [] (requests.map SpanTextRequest.toRead).eraseDups) := by
  refine ⟨?_, ?_, ?_, ?_, fun requests hplain host answers last => unread_spanTextMany h hplain,
    fun requests hstep host => faithful_of_inStep h hstep,
    fun requests hstep host => positionsFaithful_of_inStep h hstep, fun requests hopen => ?_⟩
  · intro reserve bytes measured storage hmeasured hroom
    refine ⟨_, build_ok.2 ⟨hroom, rfl⟩, fun offset hoffset => ?_⟩
    have hfits := (storage_ok.1 hmeasured).1
    obtain ⟨front, hsplit, hends, hback⟩ := Lines.lastLine_spec newline (bytes.take offset)
    exact ⟨front, _, hsplit, hends, hback, position_eq hoffset (by omega)⟩
  · intro parent child a b bytes part hchild
    obtain ⟨-, hab, hin, rfl⟩ := spanSlice_ok.1 hchild
    have hstop := parent.stop.toNat_lt
    have habN := UInt64.le_iff_toNat_le.1 hab
    have hstart := toNat_add_of_lt (show parent.start.toNat + a.toNat < 2 ^ 64 by omega)
    have hend := toNat_add_of_lt (show parent.start.toNat + b.toNat < 2 ^ 64 by omega)
    rw [slice_ok, UInt64.le_iff_toNat_le, hstart, hend]
    exact and_iff_right (by omega)
  · intro parent bytes whole hwhole a b part
    exact slice_spanSlice hwhole a b
  · intro requests hplain
    exact inStep_of_plain fun r hr => hplain r (List.mem_eraseDups.1 hr)
  · exact ⟨fun hfaithful => inStep_of_faithful h hopen hfaithful, fun hstep host => faithful_of_inStep h hstep⟩

/-! ## A path of two lines -/

/-- Three files of a commit, each of one byte. -/
def threeFiles : Host where
  file _       := .error (.io "")
  hashObject _ := .ok ""
  blake3 bytes := bytes
  openGit      := .ok ()
  catFile line :=
    if line = "c:a".toList then .object "1" "blob" [1]
    else if line = "c:b".toList then .object "2" "blob" [2]
    else if line = "c:d".toList then .object "3" "blob" [3]
    else .other line
  reserve _    := true

def freshTree : SourceTree := ⟨"repository", "worktree", none⟩

def fileOf (path : RepoPath) : SourceRef := ⟨"repository", .commit "c", path⟩

def firstByte (path : RepoPath) : SpanTextRequest := ⟨⟨fileOf path, 0, 1⟩, none⟩

theorem spans_exact_threeFiles :
    (∃ index, NewlineIndex.build (fun _ => true) [97, newline, 98] ⟨2, 16⟩ = .ok index ∧
      ∀ offset ≤ 3, ∃ front back, [97, newline, 98].take offset = front ++ back ∧
        (front = [] ∨ front.getLast? = some newline) ∧ newline ∉ back ∧
          index.position offset = .ok ⟨1 + ([97, newline, 98].take offset).count newline, back.length⟩) ∧
    TextsFaithful threeFiles freshTree [firstByte "a", firstByte "d"] := by
  obtain ⟨hposition, -, -, hplain, -, htexts, -⟩ := @spans_exact freshTree rfl
  refine ⟨hposition (fun _ => true) [97, newline, 98] ⟨2, 16⟩ ⟨2, 16⟩ rfl rfl, htexts _ (hplain _ ?_) threeFiles⟩
  rintro r hr commit hcommit
  simp only [List.map_cons, List.map_nil, List.mem_cons, List.not_mem_nil, or_false] at hr
  rcases hr with rfl | rfl
  · cases hcommit
    decide
  · cases hcommit
    decide

/-- Behind the path with a newline, the second file is given the bytes of a third. -/
theorem other_file_read :
    (∃ last, spanTextMany threeFiles freshTree [firstByte "a\nc:b", firstByte "d"] =
      .ok ([⟨⟨fileOf "a\nc:b", 0, 1⟩, .gitBlob "1", [1]⟩, ⟨⟨fileOf "d", 0, 1⟩, .gitBlob "2", [2]⟩], last)) ∧
    (∃ last, spanTextMany threeFiles freshTree [firstByte "d"] =
      .ok ([⟨⟨fileOf "d", 0, 1⟩, .gitBlob "3", [3]⟩], last)) ∧
    ¬TextsFaithful threeFiles freshTree [firstByte "a\nc:b", firstByte "d"] := by
  have hbatch : ∃ last, spanTextMany threeFiles freshTree [firstByte "a\nc:b", firstByte "d"] =
      .ok ([⟨⟨fileOf "a\nc:b", 0, 1⟩, .gitBlob "1", [1]⟩, ⟨⟨fileOf "d", 0, 1⟩, .gitBlob "2", [2]⟩], last) :=
    ⟨⟨"repository", "worktree", some ["c:d".toList]⟩, rfl⟩
  have halone : spanTextMany threeFiles freshTree [firstByte "d"] =
      .ok ([⟨⟨fileOf "d", 0, 1⟩, .gitBlob "3", [3]⟩], ⟨"repository", "worktree", some []⟩) := rfl
  refine ⟨hbatch, ⟨_, halone⟩, fun hfaithful => ?_⟩
  have hall := (hfaithful _).1 hbatch
  obtain ⟨-, hall⟩ := List.forall₂_cons.1 hall
  obtain ⟨⟨last, hsecond⟩, -⟩ := List.forall₂_cons.1 hall
  rw [halone] at hsecond
  simp at hsecond

end Soopy.Spans
